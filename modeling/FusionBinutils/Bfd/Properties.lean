import FusionBinutils.Lib.BitField
import FusionBinutils.Lib.Endian
import FusionBinutils.Opcode.Encoding

/-! Program properties in a GNU note (bfd/elf-properties.c), with the hook of the x86 back ends. -/
namespace FusionBinutils.Bfd.Properties

/-- `enum elf_property_kind`. -/
inductive Kind where
  | unknown | ignored | corrupt | remove | number
  deriving DecidableEq, Repr

/-- `elf_property`. -/
structure ElfProperty where
  prType : BitVec 32
  prDatasz : BitVec 32
  number : Vma
  prKind : Kind
  deriving DecidableEq

/-- What the back end says about the machine: `EM_NONE`, a machine without a hook for properties,
or one of the x86 machines. -/
inductive Machine where
  | none | plain | x86
  deriving DecidableEq, Repr

/-- The file, as far as the note is read by it. -/
structure Abfd where
  filename : String
  big : Bool
  class64 : Bool
  machine : Machine

def Abfd.alignSize (abfd : Abfd) : Nat := if abfd.class64 then 8 else 4

def gnuPropertyStackSize : BitVec 32 := 1
def gnuPropertyNoCopyOnProtected : BitVec 32 := 2
def gnuPropertyLoproc : BitVec 32 := 0xc0000000
def gnuPropertyLouser : BitVec 32 := 0xe0000000
def gnuPropertyX86Isa1Used : BitVec 32 := 0xc0000000
def gnuPropertyX86Isa1Needed : BitVec 32 := 0xc0000001
def gnuPropertyX86Feature1And : BitVec 32 := 0xc0000002

/-- `_bfd_elf_get_property`; `f` is what the caller does to the property it gets. -/
def getProperty (type datasz : BitVec 32) (f : ElfProperty → ElfProperty) :
    List ElfProperty → List ElfProperty
  | [] => [f ⟨type, datasz, 0, .unknown⟩]
  | p :: rest =>
    if type = p.prType then
      -- this can happen when mixing 32-bit and 64-bit objects
      f { p with prDatasz := if p.prDatasz < datasz then datasz else p.prDatasz } :: rest
    else if type < p.prType then f ⟨type, datasz, 0, .unknown⟩ :: p :: rest
    else p :: getProperty type datasz f rest

/-- The properties of the file, and the messages so far. -/
structure State where
  props : List ElfProperty
  msgs : List String

def State.warn (st : State) (msg : String) : State := { st with msgs := st.msgs ++ [msg] }

/-- `elf_properties (abfd) = NULL`. -/
def State.clear (st : State) : State := { st with props := [] }

def State.record (st : State) (type datasz : BitVec 32) (f : ElfProperty → ElfProperty) : State :=
  { st with props := getProperty type datasz f st.props }

/-- `n` bytes of the descriptor, if they are all inside it. -/
def readAt (desc : List BfdByte) (ptr n : Nat) : Option (List BfdByte) :=
  if ptr + n ≤ desc.length then some ((desc.drop ptr).take n) else none

def getH32 (abfd : Abfd) (desc : List BfdByte) (ptr : Nat) : Option (BitVec 32) :=
  (readAt desc ptr 4).map fun b => .ofNat 32 (Endian.get abfd.big b)

def getH64 (abfd : Abfd) (desc : List BfdByte) (ptr : Nat) : Option Vma :=
  (readAt desc ptr 8).map fun b => .ofNat 64 (Endian.get abfd.big b)

/-- `%x`. -/
def hex (n : Nat) : String := String.ofList (Nat.toDigits 16 n)

/-- `%#lx`. -/
def hexAlt (n : Nat) : String := if n = 0 then "0" else "0x" ++ hex n

def corruptX86 (abfd : Abfd) (type datasz : BitVec 32) : String :=
  let what :=
    if type = gnuPropertyX86Isa1Used then "ISA used"
    else if type = gnuPropertyX86Isa1Needed then "ISA needed"
    else "feature"
  "error: " ++ abfd.filename ++ ": <corrupt x86 " ++ what ++ " size: 0x" ++ hex datasz.toNat ++ ">"

def isX86Property (type : BitVec 32) : Bool :=
  type = gnuPropertyX86Isa1Used || type = gnuPropertyX86Isa1Needed ||
    type = gnuPropertyX86Feature1And

/-- `elf_i386_parse_gnu_properties` and `elf_x86_64_parse_gnu_properties`, which are the same;
`none` is a read outside of the descriptor. -/
def x86ParseGnuProperties (abfd : Abfd) (desc : List BfdByte) (type : BitVec 32) (ptr : Nat)
    (datasz : BitVec 32) (st : State) : Option (Kind × State) :=
  if isX86Property type then
    if datasz ≠ 4 then some (.corrupt, st.warn (corruptX86 abfd type datasz))
    else (getH32 abfd desc ptr).map fun v =>
      -- combine properties of the same type
      (.number, st.record type datasz fun p =>
        { p with number := p.number ||| v.setWidth 64, prKind := .number })
  else some (.ignored, st)

/-- The note type that the messages print, `NT_GNU_PROPERTY_TYPE_0`. -/
def noteType : String := "5"

def corruptSize (abfd : Abfd) (descsz : Nat) : String :=
  "warning: " ++ abfd.filename ++ ": corrupt GNU_PROPERTY_TYPE (" ++ noteType ++ ") size: " ++
    hexAlt descsz

def corruptDatasz (abfd : Abfd) (type datasz : BitVec 32) : String :=
  "warning: " ++ abfd.filename ++ ": corrupt GNU_PROPERTY_TYPE (" ++ noteType ++ ") type (0x" ++
    hex type.toNat ++ ") datasz: 0x" ++ hex datasz.toNat

def unsupported (abfd : Abfd) (type : BitVec 32) : String :=
  "warning: " ++ abfd.filename ++ ": unsupported GNU_PROPERTY_TYPE (" ++ noteType ++
    ") type: 0x" ++ hex type.toNat

def corruptStackSize (abfd : Abfd) (datasz : BitVec 32) : String :=
  "warning: " ++ abfd.filename ++ ": corrupt stack size: 0x" ++ hex datasz.toNat

def corruptNoCopy (abfd : Abfd) (datasz : BitVec 32) : String :=
  "warning: " ++ abfd.filename ++ ": corrupt no copy on protected size: 0x" ++ hex datasz.toNat

/-- How one property ends: at the label `next`, or with `return FALSE`. -/
inductive Turn where
  | next (st : State)
  | fail (st : State)

/-- The body of the loop for a property whose data lie at `ptr`. -/
def parseProperty (abfd : Abfd) (desc : List BfdByte) (type : BitVec 32) (ptr : Nat)
    (datasz : BitVec 32) (st : State) : Option Turn :=
  if gnuPropertyLoproc ≤ type then
    -- the matching target vector handles them
    if abfd.machine = .none then some (.next st)
    else if type < gnuPropertyLouser ∧ abfd.machine = .x86 then
      (x86ParseGnuProperties abfd desc type ptr datasz st).map fun (kind, st) =>
        if kind = .corrupt then .fail st.clear
        else if kind ≠ .ignored then .next st
        else .next (st.warn (unsupported abfd type))
    else some (.next (st.warn (unsupported abfd type)))
  else if type = gnuPropertyStackSize then
    if datasz ≠ .ofNat 32 abfd.alignSize then
      some (.fail (st.warn (corruptStackSize abfd datasz)).clear)
    else
      (if datasz = 8 then getH64 abfd desc ptr
        else (getH32 abfd desc ptr).map fun v => v.setWidth 64).map fun v =>
          .next (st.record type datasz fun p => { p with number := v, prKind := .number })
  else if type = gnuPropertyNoCopyOnProtected then
    if datasz ≠ 0 then some (.fail (st.warn (corruptNoCopy abfd datasz)).clear)
    else some (.next (st.record type datasz fun p => { p with prKind := .number }))
  else some (.next (st.warn (unsupported abfd type)))

/-- `(datasz + (align_size - 1)) & ~ (align_size - 1)`, in 32 bits. -/
def padded (abfd : Abfd) (datasz : BitVec 32) : Nat :=
  ((datasz + .ofNat 32 (abfd.alignSize - 1)) &&& ~~~.ofNat 32 (abfd.alignSize - 1)).toNat

/-- The end of a note: a read outside of the descriptor, or the value that is returned. -/
inductive NoteResult where
  | outside
  | done (ok : Bool) (st : State)

/-- The loop, for so many rounds at most. -/
def parseLoop (abfd : Abfd) (desc : List BfdByte) : Nat → Nat → State → Option NoteResult
  | 0, _, _ => none
  | rounds + 1, ptr, st =>
    match getH32 abfd desc ptr, getH32 abfd desc (ptr + 4) with
    | some type, some datasz =>
      let ptr := ptr + 8
      if desc.length < ptr + datasz.toNat then
        some (.done false (st.warn (corruptDatasz abfd type datasz)).clear)
      else
        match parseProperty abfd desc type ptr datasz st with
        | none => some .outside
        | some (.fail st) => some (.done false st)
        | some (.next st) =>
          let ptr := ptr + padded abfd datasz
          if ptr = desc.length then some (.done true st)
          else if desc.length < ptr + 8 then
            some (.done false (st.warn (corruptSize abfd desc.length)))
          else parseLoop abfd desc rounds ptr st
    | _, _ => some .outside

/-- `_bfd_elf_parse_gnu_properties`. -/
def parseGnuProperties (rounds : Nat) (abfd : Abfd) (props : List ElfProperty)
    (desc : List BfdByte) : Option NoteResult :=
  if desc.length < 8 ∨ desc.length % abfd.alignSize ≠ 0 then
    some (.done false (State.warn ⟨props, []⟩ (corruptSize abfd desc.length)))
  else parseLoop abfd desc rounds 0 ⟨props, []⟩

/-- The lists of properties that the notes of a file can leave. -/
inductive Reachable (abfd : Abfd) : List ElfProperty → Prop where
  | none : Reachable abfd []
  | note {props desc rounds ok st} (h : Reachable abfd props)
      (hparse : parseGnuProperties rounds abfd props desc = some (.done ok st)) :
      Reachable abfd st.props

/-- In order of type. -/
def TypeSorted (props : List ElfProperty) : Prop := props.Pairwise fun p q => p.prType < q.prType

/-- The note is read inside its bounds and to an end; failing it leaves no properties, and
otherwise they are in order. -/
def LeavesNoStale (abfd : Abfd) (props : List ElfProperty) (desc : List BfdByte) : Prop :=
  ∃ rounds ok st, parseGnuProperties rounds abfd props desc = some (.done ok st) ∧
    (ok = false → st.props = []) ∧ (ok = true → TypeSorted st.props)

/-! What the code has to say about one property. -/

/-- The property is not corrupt. -/
def Accepts (abfd : Abfd) (type datasz : BitVec 32) : Prop :=
  if gnuPropertyLoproc ≤ type then abfd.machine = .x86 ∧ isX86Property type → datasz = 4
  else (type = gnuPropertyStackSize → datasz = .ofNat 32 abfd.alignSize) ∧
    (type = gnuPropertyNoCopyOnProtected → datasz = 0)

/-- The property enters the list. -/
def Records (abfd : Abfd) (type : BitVec 32) : Prop :=
  type = gnuPropertyStackSize ∨ type = gnuPropertyNoCopyOnProtected ∨
    abfd.machine = .x86 ∧ isX86Property type

end FusionBinutils.Bfd.Properties
