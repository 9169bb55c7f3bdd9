import FusionBinutils.Bfd.Linker

/-! The search of an archive for members that define undefined symbols (bfd/linker.c). Callbacks
of the linker return TRUE and put no other file in the place of a member. -/
namespace FusionBinutils.Bfd.Linker

/-- `asymbol`, as the generic linker reads it. -/
structure Asymbol where
  name : String
  global : Bool
  weak : Bool
  indirect : Bool
  warning : Bool
  constructor : Bool
  sec : Sec
  value : Vma
  deriving DecidableEq, Repr

/-- A symbol that `generic_link_add_symbol_list` adds. -/
def Asymbol.isAdded (p : Asymbol) : Bool :=
  p.indirect || p.warning || p.global || p.constructor || p.weak ||
    p.sec == .und || p.sec.isCom || p.sec == .ind

def Asymbol.toSym (p : Asymbol) (abfd : Nat) (plugin : Bool) (name string : String) : Sym where
  abfd := abfd
  plugin := plugin
  name := name
  weak := p.weak
  indirect := p.indirect
  warning := p.warning
  constructor := p.constructor
  sec := p.sec
  value := p.value
  string := string

/-- The symbols that `generic_link_add_symbol_list` adds for a file, in order: an indirect symbol
is followed by the one it refers to, a warning by the one it is about. -/
def symbolList (abfd : Nat) (plugin : Bool) : List Asymbol → List Sym
  | [] => []
  | p :: rest =>
    if p.isAdded then
      if p.indirect ∨ p.sec = .ind then
        match rest with
        | [] => [p.toSym abfd plugin p.name p.name]
        | q :: rest => p.toSym abfd plugin p.name q.name :: symbolList abfd plugin rest
      else if p.warning then
        match rest with
        | [] => [p.toSym abfd plugin p.name p.name]
        | q :: rest => p.toSym abfd plugin q.name p.name :: symbolList abfd plugin rest
      else p.toSym abfd plugin p.name p.name :: symbolList abfd plugin rest
    else symbolList abfd plugin rest

/-- `generic_link_add_symbol_list`, up to the first symbol that cannot be added. -/
def addSymbolList (info : Info) (fuel : Nat) : Hash → List Sym → Option (Bool × Hash)
  | hash, [] => some (true, hash)
  | hash, s :: rest => do
    let (ok, hash) ← addOneSymbol info fuel hash s
    if ok then addSymbolList info fuel hash rest else some (false, hash)

/-- A member of an archive that is an object file. -/
structure Member where
  abfd : Nat
  plugin : Bool
  syms : List Asymbol
  deriving DecidableEq, Repr

def Member.symbols (m : Member) : List Sym := symbolList m.abfd m.plugin m.syms

/-- An archive: its map of symbol names and file offsets, and the files at these offsets; there
may be none, or one that is no object. -/
structure Archive where
  symdefs : List (String × Nat)
  member : Nat → Option Member

/-- `bfd_link_hash_lookup` with `follow` and without `create`. -/
def Hash.lookupFollow (hash : Hash) (fuel : Nat) (name : String) : Option (Option Nat) :=
  match hash.table.lookup name with
  | none => some none
  | some h => (hash.follow fuel h).map some

/-- The common symbol that an undefined one becomes when a member has a common one. -/
def archiveCommon (symbfd : Nat) (p : Asymbol) : HashU :=
  .common p.value (commonPower p.value)
    (.owned symbfd (if p.sec = .com then "COMMON" else p.sec.name) false)

/-- `generic_link_check_archive_element` on the symbols of a member that are left: the return
value, `needed` and the table. -/
def checkArchiveElement (info : Info) (fuel : Nat) (m : Member) :
    Hash → List Asymbol → Option (Bool × Bool × Hash)
  | hash, [] => some (true, false, hash)
  | hash, p :: rest => do
    if !p.sec.isCom && !(p.global || p.indirect || p.weak) then
      checkArchiveElement info fuel m hash rest
    else
      match ← hash.lookupFollow fuel p.name with
      | none => checkArchiveElement info fuel m hash rest
      | some h =>
        match hash.u h with
        | some (.undefined abfd) =>
          if !p.sec.isCom || abfd == none then
            let hash := hash.call (.addArchiveElement m.abfd p.name)
            let (ok, hash) ← addSymbolList info fuel hash m.symbols
            some (ok, true, hash)
          else
            let symbfd ← abfd
            checkArchiveElement info fuel m (hash.setU h (archiveCommon symbfd p)) rest
        | some (.common size power sec) =>
          if !p.sec.isCom then
            let hash := hash.call (.addArchiveElement m.abfd p.name)
            let (ok, hash) ← addSymbolList info fuel hash m.symbols
            some (ok, true, hash)
          else if size.toNat < p.value.toNat then
            checkArchiveElement info fuel m (hash.setU h (.common p.value power sec)) rest
          else checkArchiveElement info fuel m hash rest
        | _ => checkArchiveElement info fuel m hash rest

/-- The variables of `_bfd_generic_link_add_archive_symbols` in the middle of a pass over the map,
the members added so far, and the return value once there is one. -/
structure Search where
  hash : Hash
  included : List Bool
  indx : Nat
  lastArOffset : Option Nat
  needed : Bool
  loop : Bool
  added : List Nat
  result : Option Bool

def Search.start (ar : Archive) (hash : Hash) : Search :=
  ⟨hash, List.replicate ar.symdefs.length false, 0, none, false, false, [], none⟩

/-- Mark `indx` and, looking backward, the entries of the same file right before it. -/
def markBack (symdefs : List (String × Nat)) (offset : Nat) : Nat → List Bool → List Bool
  | 0, included => included.set 0 true
  | mark + 1, included =>
    let included := included.set (mark + 1) true
    if (symdefs[mark]?.map Prod.snd) = some offset then markBack symdefs offset mark included
    else included

/-- One entry of the map. -/
def examine (info : Info) (fuel : Nat) (ar : Archive) (st : Search) (name : String)
    (offset : Nat) : Option Search := do
  let next := { st with indx := st.indx + 1 }
  let struck := { next with included := st.included.set st.indx true }
  if st.included[st.indx]? = some true then some next
  else if st.needed ∧ st.lastArOffset = some offset then some struck
  else
    match ← st.hash.lookupFollow fuel name with
    | none => some next
    | some h =>
      match st.hash.type h with
      | none => none
      | some t =>
        if t ≠ .undefined ∧ t ≠ .common then
          -- a symbol must be defined, unless it is a weak reference
          if t ≠ .undefweak then some struck else some next
        else
          match ar.member offset with
          | none => some { st with result := some false }
          | some m =>
            let (ok, needed, hash) ← checkArchiveElement info fuel m st.hash m.syms
            let st' := { next with hash := hash, lastArOffset := some offset, needed := needed }
            let st' := { st' with added := if needed then st.added ++ [offset] else st.added }
            if !ok then some { st' with result := some false }
            else if needed then
              some { st' with
                included := markBack ar.symdefs offset st.indx st.included
                loop := st.loop || st.hash.undefsTail != hash.undefsTail }
            else some st'

/-- One step of the two loops: an entry of the map, or the end of a pass. -/
def searchStep (info : Info) (fuel : Nat) (ar : Archive) (st : Search) : Option Search :=
  match ar.symdefs[st.indx]? with
  | some (name, offset) => examine info fuel ar st name offset
  | none =>
    if st.loop then
      some { st with indx := 0, lastArOffset := none, needed := false, loop := false }
    else some { st with result := some true }

/-- Steps until there is a result, `n` of them at most. -/
def searchRun (info : Info) (fuel : Nat) (ar : Archive) : Nat → Search → Option Search
  | 0, st => some st
  | n + 1, st =>
    if st.result.isSome then some st
    else (searchStep info fuel ar st).bind (searchRun info fuel ar n)

end FusionBinutils.Bfd.Linker
