import FusionBinutils.Opcode.Encoding

/-! The linker hash table and `_bfd_generic_link_add_one_symbol` (bfd/linker.c), with COLLECT
false, as the generic linker and the fusion port call it. -/
namespace FusionBinutils.Bfd.Linker

/-- `enum bfd_link_hash_type`. -/
inductive HashType where
  | new | undefined | undefweak | defined | defweak | common | indirect | warning
  deriving DecidableEq, Repr

/-- `asection`: the standard sections, and the sections of a file. -/
inductive Sec where
  | und | com | abs | ind
  | owned (owner : Nat) (name : String) (isCommon : Bool)
  deriving DecidableEq, Repr

/-- `bfd_is_com_section`. -/
def Sec.isCom : Sec → Bool
  | .com => true
  | .owned _ _ isCommon => isCommon
  | _ => false

/-- `section->owner`. -/
def Sec.owner : Sec → Option Nat
  | .owned owner _ _ => some owner
  | _ => none

def Sec.name : Sec → String
  | .und => "*UND*"
  | .com => "*COM*"
  | .abs => "*ABS*"
  | .ind => "*IND*"
  | .owned _ name _ => name

/-- The type of a hash entry with the members of its union, `next` apart. Files and entries are
numbers; a file of `none` is a null pointer. -/
inductive HashU where
  | new
  | undefined (abfd : Option Nat)
  | undefweak (abfd : Option Nat)
  | defined (sec : Sec) (value : Vma)
  | defweak (sec : Sec) (value : Vma)
  | common (size : Vma) (alignmentPower : Nat) (sec : Sec)
  | indirect (link : Nat)
  | warning (link : Nat) (text : Option String)
  deriving DecidableEq, Repr

def HashU.type : HashU → HashType
  | .new => .new
  | .undefined _ => .undefined
  | .undefweak _ => .undefweak
  | .defined _ _ => .defined
  | .defweak _ _ => .defweak
  | .common _ _ _ => .common
  | .indirect _ => .indirect
  | .warning _ _ => .warning

/-- `struct bfd_link_hash_entry`. The field `next` is in every member of the union. -/
structure HashEntry where
  string : String
  u : HashU
  next : Option Nat
  /-- `non_ir_ref_regular` or `non_ir_ref_dynamic` -/
  nonIrRef : Bool
  deriving DecidableEq, Repr

/-- The calls to the linker's callbacks. -/
inductive Callback where
  | multipleDefinition (h : Nat) (abfd : Nat) (sec : Sec) (value : Vma)
  | multipleCommon (h : Nat) (abfd : Nat) (ntype : HashType) (nsize : Vma)
  | addToSet (h : Nat) (abfd : Nat) (sec : Sec) (value : Vma)
  | warning (text : String) (symbol : String) (abfd : Option Nat)
  | addArchiveElement (abfd : Nat) (name : String)
  | errorHandler (abfd : Nat) (text : String)
  deriving DecidableEq, Repr

/-- `struct bfd_link_hash_table`: every entry ever made, the names that the table finds, the list
of undefined symbols, and what the linker was told. -/
structure Hash where
  entries : List HashEntry
  table : List (String × Nat)
  undefs : Option Nat
  undefsTail : Option Nat
  calls : List Callback
  /-- the assertion of `bfd_link_add_undef` has failed -/
  assertFailed : Bool
  deriving DecidableEq, Repr

def Hash.init : Hash := ⟨[], [], none, none, [], false⟩

def Hash.call (hash : Hash) (c : Callback) : Hash := { hash with calls := hash.calls ++ [c] }

def Hash.u (hash : Hash) (h : Nat) : Option HashU := hash.entries[h]?.map HashEntry.u

/-- `h->u.undef.next`. -/
def Hash.next (hash : Hash) (h : Nat) : Option Nat := hash.entries[h]?.bind HashEntry.next

def Hash.type (hash : Hash) (h : Nat) : Option HashType := (hash.u h).map HashU.type

def Hash.modify (hash : Hash) (h : Nat) (f : HashEntry → HashEntry) : Hash :=
  { hash with entries := hash.entries.modify h f }

def Hash.setU (hash : Hash) (h : Nat) (u : HashU) : Hash :=
  hash.modify h fun e => { e with u := u }

def Hash.setNext (hash : Hash) (h n : Nat) : Hash :=
  hash.modify h fun e => { e with next := some n }

/-- `bfd_hash_lookup` with `create`; a new entry is at the end of `entries`. -/
def Hash.lookupCreate (hash : Hash) (name : String) : Nat × Hash :=
  match hash.table.lookup name with
  | some h => (h, hash)
  | none =>
    let h := hash.entries.length
    (h, { hash with
      entries := hash.entries ++ [⟨name, .new, none, false⟩]
      table := (name, h) :: hash.table })

/-- The loop of `bfd_link_hash_lookup` with `follow`. -/
def Hash.follow (hash : Hash) : Nat → Nat → Option Nat
  | 0, _ => none
  | fuel + 1, h =>
    match hash.u h with
    | some (.indirect link) => hash.follow fuel link
    | some (.warning link _) => hash.follow fuel link
    | some _ => some h
    | none => none

/-- The link from the tail of the list. -/
def Hash.linkTail (hash : Hash) (h : Nat) : Hash :=
  match hash.undefsTail with
  | some t => hash.setNext t h
  | none => hash

/-- `bfd_link_add_undef`. -/
def Hash.addUndef (hash : Hash) (h : Nat) : Hash :=
  { hash.linkTail h with
    undefs := if hash.undefs = none then some h else hash.undefs
    undefsTail := some h
    assertFailed := hash.assertFailed || (hash.next h).isSome }

/-- A defined or indirect symbol is marked as referenced by a link to itself. -/
def Hash.markReferenced (hash : Hash) (h : Nat) : Hash :=
  if hash.next h = none ∧ hash.undefsTail ≠ some h then hash.setNext h h else hash

/-- `bfd_log2`. -/
def bfdLog2 (x : Vma) : Nat := if x.toNat ≤ 1 then 0 else Nat.log2 (x.toNat - 1) + 1

/-- The default alignment of a common symbol. -/
def commonPower (size : Vma) : Nat := min (bfdLog2 size) 4

/-! Symbols of object files. -/

/-- `enum link_row`. -/
inductive LinkRow where
  | undef | undefw | defn | defw | common | indr | warn | set
  deriving DecidableEq, Repr

/-- `enum link_action`. -/
inductive LinkAction where
  | und | weak | defn | defw | com | ref | cref | cdef | noact | big | mdef | mind | ind | cind
  | set | mwarn | warn | cycle | refc | warnc
  deriving DecidableEq, Repr

/-- The state table. -/
def linkAction : LinkRow → HashType → LinkAction
  | .undef, .new => .und
  | .undef, .undefined => .noact
  | .undef, .undefweak => .und
  | .undef, .defined => .ref
  | .undef, .defweak => .ref
  | .undef, .common => .noact
  | .undef, .indirect => .refc
  | .undef, .warning => .warnc
  | .undefw, .new => .weak
  | .undefw, .undefined => .noact
  | .undefw, .undefweak => .noact
  | .undefw, .defined => .ref
  | .undefw, .defweak => .ref
  | .undefw, .common => .noact
  | .undefw, .indirect => .refc
  | .undefw, .warning => .warnc
  | .defn, .new => .defn
  | .defn, .undefined => .defn
  | .defn, .undefweak => .defn
  | .defn, .defined => .mdef
  | .defn, .defweak => .defn
  | .defn, .common => .cdef
  | .defn, .indirect => .mdef
  | .defn, .warning => .cycle
  | .defw, .new => .defw
  | .defw, .undefined => .defw
  | .defw, .undefweak => .defw
  | .defw, .defined => .noact
  | .defw, .defweak => .noact
  | .defw, .common => .noact
  | .defw, .indirect => .noact
  | .defw, .warning => .cycle
  | .common, .new => .com
  | .common, .undefined => .com
  | .common, .undefweak => .com
  | .common, .defined => .cref
  | .common, .defweak => .com
  | .common, .common => .big
  | .common, .indirect => .refc
  | .common, .warning => .warnc
  | .indr, .new => .ind
  | .indr, .undefined => .ind
  | .indr, .undefweak => .ind
  | .indr, .defined => .mdef
  | .indr, .defweak => .ind
  | .indr, .common => .cind
  | .indr, .indirect => .mind
  | .indr, .warning => .cycle
  | .warn, .new => .mwarn
  | .warn, .warning => .noact
  | .warn, _ => .warn
  | .set, .indirect => .cycle
  | .set, .warning => .cycle
  | .set, _ => .set

/-- The arguments of `_bfd_generic_link_add_one_symbol` that describe the symbol. -/
structure Sym where
  abfd : Nat
  /-- `BFD_PLUGIN` -/
  plugin : Bool
  name : String
  weak : Bool
  indirect : Bool
  warning : Bool
  constructor : Bool
  sec : Sec
  value : Vma
  string : String
  deriving DecidableEq, Repr

/-- The row of a symbol. -/
def Sym.row (s : Sym) : LinkRow :=
  if s.sec = .ind ∨ s.indirect then .indr
  else if s.warning then .warn
  else if s.constructor then .set
  else if s.sec = .und then (if s.weak then .undefw else .undef)
  else if s.weak then .defw
  else if s.sec.isCom then .common
  else .defn

/-- The section that a common symbol would be allocated in. -/
def commonSection (abfd : Nat) (sec : Sec) : Sec :=
  match sec with
  | .com => .owned abfd "COMMON" false
  | .owned owner name isCommon =>
    if owner = abfd then .owned owner name isCommon else .owned abfd name false
  | _ => .owned abfd sec.name false

/-- What the linker knows about the whole link: `--wrap`, as a map on names that are referenced,
`-r` and the plugin. -/
structure Info where
  wrap : String → String
  relocatable : Bool
  ltoPluginActive : Bool

/-- `hash_entry_bfd`, for an entry that is no warning. -/
def hashEntryBfd : HashU → Option Nat
  | .undefined abfd => abfd
  | .undefweak abfd => abfd
  | .defined sec _ => sec.owner
  | .defweak sec _ => sec.owner
  | .common _ _ sec => sec.owner
  | _ => none

/-- One round of the loop ends the call, goes round again, or fails. -/
inductive Outcome where
  | done (hash : Hash)
  | again (hash : Hash) (h : Nat) (row : LinkRow)
  | fail (hash : Hash)
  deriving DecidableEq, Repr

/-- A new entry that is indirected to is undefined. -/
def Hash.undefineNew (hash : Hash) (inh abfd : Nat) : Hash :=
  if hash.type inh = some .new then (hash.setU inh (.undefined (some abfd))).addUndef inh
  else hash

/-- The action `IND`, with the entry `inh` of the name that is indirected to. -/
def makeIndirect (hash : Hash) (s : Sym) (h inh : Nat) : Outcome :=
  if hash.u inh = some (.indirect h) then
    .fail (hash.call (.errorHandler s.abfd
      ("indirect symbol `" ++ s.name ++ "' to `" ++ s.string ++ "' is a loop")))
  else
    let hash := hash.undefineNew inh s.abfd
    let hash' := hash.setU h (.indirect inh)
    -- a symbol that was there before has been referenced
    let referenced := Outcome.again hash' h .undef
    if hash.type h = some .new then .done hash' else referenced

/-- The action `MWARN`: a copy of the entry takes its place in the table. -/
def makeWarning (hash : Hash) (s : Sym) (h : Nat) (e : HashEntry) : Hash :=
  let sub := hash.entries.length
  { hash with
    entries := hash.entries ++ [{ e with u := .warning h (some s.string) }]
    table := hash.table.map fun p => if p.2 = h then (p.1, sub) else p }

/-- The action of the state table on an entry. -/
def performAction (info : Info) (s : Sym) (inh : Option Nat) (hash : Hash) (h : Nat)
    (row : LinkRow) (e : HashEntry) : Option Outcome :=
  match linkAction row e.u.type with
  | .noact => some (.done hash)
  | .und => some (.done ((hash.setU h (.undefined (some s.abfd))).addUndef h))
  | .weak => some (.done (hash.setU h (.undefweak (some s.abfd))))
  | .cdef =>
    let hash := hash.call (.multipleCommon h s.abfd .defined 0)
    some (.done (hash.setU h (.defined s.sec s.value)))
  | .defn => some (.done (hash.setU h (.defined s.sec s.value)))
  | .defw => some (.done (hash.setU h (.defweak s.sec s.value)))
  | .com =>
    let hash := if e.u.type = .new then hash.addUndef h else hash
    some (.done (hash.setU h
      (.common s.value (commonPower s.value) (commonSection s.abfd s.sec))))
  | .ref => some (.done (hash.markReferenced h))
  | .big =>
    let hash := hash.call (.multipleCommon h s.abfd .common s.value)
    match e.u with
    | .common size _ _ =>
      if size.toNat < s.value.toNat then
        some (.done (hash.setU h
          (.common s.value (commonPower s.value) (commonSection s.abfd s.sec))))
      else some (.done hash)
    | _ => none
  | .cref => some (.done (hash.call (.multipleCommon h s.abfd .common s.value)))
  | .mind => do
    let .indirect link := e.u | none
    let target ← hash.entries[link]?
    if target.string = s.string then some (.done hash)
    else some (.done (hash.call (.multipleDefinition h s.abfd s.sec s.value)))
  | .mdef => some (.done (hash.call (.multipleDefinition h s.abfd s.sec s.value)))
  | .cind => do
    let inh ← inh
    some (makeIndirect (hash.call (.multipleCommon h s.abfd .indirect 0)) s h inh)
  | .ind => do
    let inh ← inh
    some (makeIndirect hash s h inh)
  | .set => some (.done (hash.call (.addToSet h s.abfd s.sec s.value)))
  | .warnc =>
    match e.u with
    | .warning link (some text) =>
      if s.plugin then some (.again hash link row)
      else
        let hash := hash.call (.warning text e.string (some s.abfd))
        some (.again (hash.setU h (.warning link none)) link row)
    | .warning link none => some (.again hash link row)
    | _ => none
  | .cycle =>
    match e.u with
    | .warning link _ => some (.again hash link row)
    | .indirect link => some (.again hash link row)
    | _ => none
  | .refc =>
    match e.u with
    | .indirect link => some (.again (hash.markReferenced h) link row)
    | _ => none
  | .warn =>
    if (!info.ltoPluginActive && (e.next.isSome || hash.undefsTail == some h)) || e.nonIrRef then
      some (.done (hash.call (.warning s.string e.string (hashEntryBfd e.u))))
    else some (.done (makeWarning hash s h e))
  | .mwarn => some (.done (makeWarning hash s h e))

/-- The loop of `_bfd_generic_link_add_one_symbol`; `none` is a loop that does not end within the
fuel. -/
def actionLoop (info : Info) (s : Sym) (inh : Option Nat) :
    Nat → Hash → Nat → LinkRow → Option (Bool × Hash)
  | 0, _, _, _ => none
  | fuel + 1, hash, h, row => do
    let e ← hash.entries[h]?
    match ← performAction info s inh hash h row e with
    | .done hash => some (true, hash)
    | .fail hash => some (false, hash)
    | .again hash h row => actionLoop info s inh fuel hash h row

/-- The entries that the call looks up, made if they are not there: that of the name indirected
to, and that of the symbol. -/
def lookupEntries (info : Info) (hash : Hash) (s : Sym) : Option Nat × Nat × Hash :=
  let (inh, hash) :=
    if s.row = .indr then
      let r := hash.lookupCreate (info.wrap s.string)
      (some r.1, r.2)
    else (none, hash)
  let name := if s.row = .undef ∨ s.row = .undefw then info.wrap s.name else s.name
  let r := hash.lookupCreate name
  (inh, r.1, r.2)

/-- `_bfd_generic_link_add_one_symbol`, without `notice` callbacks and a given entry. -/
def addOneSymbol (info : Info) (fuel : Nat) (hash : Hash) (s : Sym) : Option (Bool × Hash) :=
  let hash :=
    if s.row = .common ∧ !info.relocatable ∧ s.name = "__gnu_lto_slim" then
      hash.call (.errorHandler s.abfd "plugin needed to handle lto object")
    else hash
  let r := lookupEntries info hash s
  actionLoop info s r.1 fuel r.2.2 r.2.1 s.row

end FusionBinutils.Bfd.Linker
