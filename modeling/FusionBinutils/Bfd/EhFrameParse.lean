import FusionBinutils.Bfd.EhFrame

/-! The entries of an .eh_frame section, as `_bfd_elf_parse_eh_frame` finds them. -/
namespace FusionBinutils.Bfd.EhFrame

/-- `Elf_Internal_Rela` -/
structure Rela where
  offset : Nat
  info : Nat
  addend : Int
  deriving DecidableEq

/-- What is linked. A relocatable output is of a type of its own. -/
structure LinkInfo where
  pic : Bool
  relocatable : Bool
  exclusive : pic = true → relocatable = false

/-- An input section. -/
structure EhSec where
  contents : List BfdByte
  bigEndian : Bool
  /-- `elf_backend_eh_frame_address_size` -/
  ptrSize : Nat
  /-- The `id` of the file the section is in. -/
  abfd : Nat
  /-- Whether its `e_ident[EI_CLASS]` is `ELFCLASS64`. -/
  elfclass64 : Bool
  linkerCreated : Bool
  /-- `none` for the absolute section, where discarded ones go. -/
  outputSection : Option Nat
  /-- `elf_backend_can_make_relative_eh_frame` -/
  canMakeRelative : Bool
  /-- Whether the addends are in the relocations. -/
  useRela : Bool

/-- The relocations of the section. -/
abbrev Rels := List Rela

/-- `struct cie`. Its `initial_instructions` hold on to the first fifty bytes of `insns`, which
are there up to the padding. -/
structure Cie where
  length : Nat
  version : BfdByte
  augmentation : List BfdByte
  codeAlign : BitVec 64
  dataAlign : BitVec 64
  raColumn : BitVec 64
  augmentationSize : BitVec 64
  /-- `personality.reloc_index` -/
  personality : Nat
  perEncoding : BfdByte
  lsdaEncoding : BfdByte
  fdeEncoding : BfdByte
  initialInsnLength : BitVec 8
  canMakeLsdaRelative : Bool
  initialInstructions : List BfdByte
  insns : List BfdByte

/-- The part of `struct eh_cie_fde` that a CIE has. -/
structure CieInf where
  personalityOffset : BitVec 8
  augStrLen : BitVec 3
  augDataLen : BitVec 5
  makeLsdaRelative : Bool
  makePerEncodingRelative : Bool
  perEncodingRelative : Bool
  perEncodingAligned8 : Bool
  addFdeEncoding : Bool

inductive EntryKind where
  | cie (u : CieInf) (full : Cie)
  /-- The entry of its CIE, `none` for one to be discarded. -/
  | fde (cieInf : Option Nat)

/-- `struct eh_cie_fde` -/
structure Entry where
  offset : Nat
  size : Nat
  relocIndex : Nat
  fdeEncoding : BfdByte
  lsdaEncoding : BfdByte
  lsdaOffset : BitVec 8
  removed : Bool
  addAugmentationSize : Bool
  makeRelative : Bool
  setLoc : Option (List Nat)
  kind : EntryKind

section relocs
variable (rels : Rels)

/-- How many relocations from `rel` on lie before `buf`. -/
def relocsBefore (rel buf : Nat) : List Rela := (rels.drop rel).takeWhile (·.offset < buf)

/-- `ENSURE_NO_RELOCS` -/
def ensureNoRelocs (rel buf : Nat) : Option Nat :=
  if (relocsBefore rels rel buf).all (·.info = 0) then
    some (rel + (relocsBefore rels rel buf).length)
  else none

/-- `SKIP_RELOCS` -/
def skipRelocs (rel buf : Nat) : Nat := rel + (relocsBefore rels rel buf).length

/-- `GET_RELOC` -/
def getReloc (rel buf : Nat) : Option Rela := rels[rel]?.filter (·.offset = buf)

/-- The relocations at `buf` are passed, of which there is at least one. -/
def passRelocs (rel buf : Nat) : Nat :=
  rel + 1 + ((rels.drop (rel + 1)).takeWhile (·.offset = buf)).length

end relocs

/-- A string that ends within the contents and is shorter than `augmentation`. -/
def readAugmentation (b : Bytes) (buf : Nat) : Option (List BfdByte × Nat) :=
  let s := (b.ehbuf.drop buf).takeWhile (· ≠ 0)
  if buf + s.length < b.ehbuf.length ∧ s.length < 20 then some (s, buf + s.length + 1) else none

/-- The letters of augmentation strings. -/
def letterE : BfdByte := 0x65
def letterH : BfdByte := 0x68
def letterL : BfdByte := 0x4c
def letterP : BfdByte := 0x50
def letterR : BfdByte := 0x52
def letterS : BfdByte := 0x53
def letterZ : BfdByte := 0x7a

/-- What the augmentation data has said so far. -/
structure Augment where
  buf : Nat
  rel : Nat
  lsdaEncoding : BfdByte
  fdeEncoding : BfdByte
  perEncoding : BfdByte
  personality : Nat
  personalityOffset : BitVec 8
  perEncodingAligned8 : Bool

section cie
variable (rels : Rels) (ptrSize : Nat) (b : Bytes) (start : Nat)

/-- An encoding byte that is not relocated and of known width. -/
def readEncoding (a : Augment) : Option (BfdByte × Nat × Nat) := do
  let (encoding, buf) ← b.readByte a.buf
  let rel ← ensureNoRelocs rels a.rel buf
  guard (peWidth encoding ptrSize ≠ 0)
  some (encoding, buf, rel)

/-- An aligned pointer is at a multiple of its width. -/
def skipAlignment (perEncoding : BfdByte) (buf : Nat) : Option Nat :=
  if application perEncoding = peAligned then
    b.skipBytes buf ((2 ^ 64 - buf) &&& (peWidth perEncoding ptrSize - 1))
  else some buf

/-- The personality routine: its encoding, room for alignment, and a relocated pointer. -/
def readPersonality (a : Augment) : Option Augment := do
  let (perEncoding, buf) ← b.readByte a.buf
  let perWidth := peWidth perEncoding ptrSize
  guard (perWidth ≠ 0)
  let buf ← skipAlignment ptrSize b perEncoding buf
  let rel ← ensureNoRelocs rels a.rel buf
  guard (getReloc rels rel buf).isSome
  let next ← b.skipBytes buf perWidth
  some { a with
    buf := next
    rel := passRelocs rels rel buf
    perEncoding := perEncoding
    personality := rel
    personalityOffset := .ofNat 8 (buf - start)
    perEncodingAligned8 := a.perEncodingAligned8 ||
      application perEncoding = peAligned && perWidth = 8 }

/-- One letter of the augmentation string. -/
def readLetter (a : Augment) (letter : BfdByte) : Option Augment :=
  if letter = letterL then
    (readEncoding rels ptrSize b a).map fun (e, buf, rel) =>
      { a with buf := buf, rel := rel, lsdaEncoding := e }
  else if letter = letterR then
    (readEncoding rels ptrSize b a).map fun (e, buf, rel) =>
      { a with buf := buf, rel := rel, fdeEncoding := e }
  else if letter = letterS then some a
  else if letter = letterP then readPersonality rels ptrSize b start a
  else none

def readLetters (a : Augment) : List BfdByte → Option Augment
  | [] => some a
  | letter :: rest => do readLetters (← readLetter rels ptrSize b start a letter) rest

/-- The return address column is a byte in the first version. -/
def readRaColumn (version : BfdByte) (buf : Nat) : Option (BitVec 64 × Nat) :=
  if version = 1 then
    if buf < b.stop then some ((b.byteAt buf).setWidth 64, buf + 1) else none
  else b.readUleb128 buf

/-- The old compiler's pointer to an exception table. It is looked for behind the string that
would announce it. -/
def skipEhData (rel buf : Nat) : Option (Nat × Nat) :=
  if b.byteAt buf = letterE ∧ b.byteAt (buf + 1) = letterH then
    (b.skipBytes buf ptrSize).map fun buf => (skipRelocs rels rel buf, buf)
  else some (rel, buf)

/-- From version 4 on there are the sizes of an address and of a segment selector. -/
def skipAddressSizes (version : BfdByte) (buf : Nat) : Option Nat :=
  if 4 ≤ version.toNat then
    if buf + 1 < b.stop ∧ (b.byteAt buf).toNat = ptrSize ∧ b.byteAt (buf + 1) = 0 then some (buf + 2)
    else none
  else some buf

/-- Whether a string announces such a pointer. -/
def startsEh (augmentation : List BfdByte) : Prop :=
  augmentation.head? = some letterE ∧ augmentation.tail.head? = some letterH

instance (s : List BfdByte) : Decidable (startsEh s) := inferInstanceAs (Decidable (_ ∧ _))

/-- The size of the augmentation data, behind a `z`. -/
def readAugmentationSize (rel buf : Nat) (augmentation : List BfdByte) :
    Option (BitVec 64 × Nat × Nat × List BfdByte) :=
  match augmentation with
  | letter :: rest =>
    if letter = letterZ then do
      let (size, buf) ← b.readUleb128 buf
      let rel ← ensureNoRelocs rels rel buf
      some (size, rel, buf, rest)
    else some (0, rel, buf, augmentation)
  | [] => some (0, rel, buf, [])

/-- What a CIE says before its instructions, and where these and the next relocation are. -/
structure CieHead where
  version : BfdByte
  augmentation : List BfdByte
  augStrLen : BitVec 3
  codeAlign : BitVec 64
  dataAlign : BitVec 64
  raColumn : BitVec 64
  augmentationSize : BitVec 64
  augment : Augment

def readCieHead (rel : Nat) : Option CieHead := do
  let (version, buf) ← b.readByte start
  guard (version = 1 ∨ version = 3 ∨ version = 4)
  let (augmentation, buf) ← readAugmentation b buf
  let augStrLen := BitVec.ofNat 3 (buf - start - 1)
  let rel ← ensureNoRelocs rels rel buf
  let (rel, buf) ← skipEhData rels ptrSize b rel buf
  let buf ← skipAddressSizes ptrSize b version buf
  let (codeAlign, buf) ← b.readUleb128 buf
  let (dataAlign, buf) ← b.readSleb128 buf
  let (raColumn, buf) ← readRaColumn b version buf
  let rel ← ensureNoRelocs rels rel buf
  let head := fun size augment =>
    (⟨version, augmentation, augStrLen, codeAlign, dataAlign, raColumn, size, augment⟩ : CieHead)
  if startsEh augmentation then some (head 0 ⟨buf, rel, peOmit, peOmit, peOmit, 0, 0, false⟩)
  else do
    let (size, rel, buf, letters) ← readAugmentationSize rels b rel buf augmentation
    let augment ← readLetters rels ptrSize b start
      ⟨buf, rel, peOmit, peOmit, peOmit, 0, 0, false⟩ letters
    some (head size augment)

end cie

section entry
variable (info : LinkInfo) (sec : EhSec) (rels : Rels)

/-- Without an encoding of its own a CIE has its FDEs' addresses absolute. -/
def fdeEncodingOr (encoding : BfdByte) : BfdByte := if encoding = peOmit then peAbsptr else encoding

/-- A CIE whose body begins at `start`. -/
def parseCie (b : Bytes) (offset hdrLength relocIndex start rel : Nat) : Option (Entry × Nat) := do
  let head ← readCieHead rels sec.ptrSize b start rel
  let a := head.augment
  let relative := info.pic && sec.canMakeRelative
  -- an `R` is added where there is none, unless aligned data would move
  let addFdeEncoding := relative && application a.fdeEncoding ≠ peAbsptr &&
    a.fdeEncoding = peOmit && application a.perEncoding ≠ peAligned
  let makeRelative := relative && application a.fdeEncoding = peAbsptr || addFdeEncoding
  let insns := b.slice a.buf b.stop
  let rel ← ensureNoRelocs rels a.rel b.stop
  let (insnsEnd, setLocCount) ←
    b.skipNonNops a.buf (peWidth (fdeEncodingOr a.fdeEncoding) sec.ptrSize)
  guard (setLocCount = 0)
  let padding := b.stop - insnsEnd
  let cie : Cie :=
    { length := hdrLength - padding
      version := head.version
      augmentation := head.augmentation
      codeAlign := head.codeAlign
      dataAlign := head.dataAlign
      raColumn := head.raColumn
      augmentationSize := head.augmentationSize
      personality := a.personality
      perEncoding := a.perEncoding
      lsdaEncoding := a.lsdaEncoding
      fdeEncoding := fdeEncodingOr a.fdeEncoding
      initialInsnLength := .ofNat 8 (insns.length) - .ofNat 8 padding
      canMakeLsdaRelative := relative && application a.lsdaEncoding = peAbsptr
      initialInstructions := insns.take 50
      insns := b.slice a.buf insnsEnd }
  let u : CieInf :=
    { personalityOffset := a.personalityOffset
      augStrLen := head.augStrLen
      augDataLen := .ofNat 5 (a.buf - start - 1 - head.augStrLen.toNat)
      makeLsdaRelative := false
      makePerEncodingRelative := false
      perEncodingRelative := !info.relocatable && application a.perEncoding = pePcrel
      perEncodingAligned8 := a.perEncodingAligned8
      addFdeEncoding := addFdeEncoding }
  some ({ offset := offset
          size := 4 + hdrLength - padding
          relocIndex := relocIndex
          fdeEncoding := cie.fdeEncoding
          lsdaEncoding := cie.lsdaEncoding
          lsdaOffset := 0
          removed := true
          addAugmentationSize := addFdeEncoding && head.augmentation.isEmpty
          makeRelative := makeRelative
          setLoc := none
          kind := .cie u cie }, rel)

/-- The entry at `offset`, if it is a CIE. -/
def findCie (entries : List Entry) (offset : Nat) : Option (Nat × Entry × CieInf × Cie) :=
  (entries.zipIdx).findSome? fun (e, i) =>
    match e.kind with
    | .cie u full => if offset = e.offset then some (i, e, u, full) else none
    | .fde _ => none

/-- `make_lsda_relative` of a CIE is set when an FDE has use for it. -/
def Entry.setMakeLsdaRelative (e : Entry) : Entry :=
  match e.kind with
  | .cie u full => { e with kind := .cie { u with makeLsdaRelative := true } full }
  | .fde _ => e

/-- The places of the `DW_CFA_set_loc` operands, counted from the initial location. -/
def setLocsFrom (b : Bytes) (width start p : Nat) : Option (List Nat) :=
  if p < b.stop then
    match h : b.skipCfaOp width p with
    | none => none
    | some next => do
      let rest ← setLocsFrom b width start next
      some (if b.byteAt p = cfaSetLoc then (p + 1 - start) :: rest else rest)
  else some []
termination_by b.stop - p
decreasing_by
  have := Bytes.lt_of_skipCfaOp h
  omega

/-- What `read_value` finds in contents that are not relocated yet. -/
def readRaw (bigEndian : Bool) (b : Bytes) (buf width : Nat) : Nat :=
  Endian.get bigEndian (b.slice buf (buf + width))

/-- The section an FDE's first relocation is against has to be one of this file. -/
def checkRsec (rsec : Rela → Option Nat) (rel buf : Nat) : Option Unit :=
  if !sec.linkerCreated || !rels.isEmpty then do
    let r ← getReloc rels rel buf
    guard (∀ owner ∈ rsec r, owner = sec.abfd)
  else some ()

/-- The size of an FDE's augmentation data, if it is said. -/
def readFdeSize (b : Bytes) (sized : Bool) (buf : Nat) : Option (BitVec 64 × Nat) :=
  if sized then b.readUleb128 buf else some (0, buf)

/-- The operands are looked for where an FDE has some that move with it. -/
def findSetLocs (b : Bytes) (wanted : Bool) (width start insns : Nat) : Option (Option (List Nat)) :=
  if wanted then (setLocsFrom b width start insns).map some else some none

/-- An FDE whose initial location is at `start`. The number `hdrId` leads back to its CIE. -/
def parseFde (rsec : Rela → Option Nat) (b : Bytes) (entries : List Entry)
    (offset hdrLength relocIndex start rel hdrId : Nat) : Option (List Entry × Nat) := do
  let (i, inf, _, cie) ← findCie entries ((2 ^ 32 + offset + 4 - hdrId) % 2 ^ 32)
  let rel ← ensureNoRelocs rels rel start
  checkRsec sec rels rsec rel start
  let width := peWidth cie.fdeEncoding sec.ptrSize
  let buf ← b.skipBytes start (2 * width)
  let rel := skipRelocs rels rel (buf - width)
  let empty := (getReloc rels rel (buf - width)).isNone &&
    readRaw sec.bigEndian b (buf - width) width = 0
  let sized := cie.augmentation.head? = some letterZ
  let (size, buf) ← readFdeSize b sized buf
  let lsda := cie.lsdaEncoding ≠ peOmit
  let rel := if lsda then skipRelocs rels rel buf else rel
  let makeLsdaRelative := lsda && cie.canMakeLsdaRelative && (getReloc rels rel buf).isSome
  -- where the size is not said the rest counts as augmentation data
  let insns ← b.skipBytes buf (if lsda ∧ ¬ sized then b.stop - buf else size.toNat)
  let (insnsEnd, setLocCount) ← b.skipNonNops insns width
  let setLoc ← findSetLocs b
    (setLocCount ≠ 0 ∧ (application cie.fdeEncoding = pePcrel ∨ inf.makeRelative)) width start insns
  let entry : Entry :=
    { offset := offset
      size := 4 + hdrLength - (b.stop - insnsEnd)
      relocIndex := relocIndex
      fdeEncoding := cie.fdeEncoding
      lsdaEncoding := cie.lsdaEncoding
      lsdaOffset := if lsda then .ofNat 8 (buf - start) else 0
      removed := true
      addAugmentationSize := inf.addAugmentationSize
      makeRelative := inf.makeRelative
      setLoc := setLoc
      kind := .fde (if empty then none else some i) }
  some ((if makeLsdaRelative then entries.modify i Entry.setMakeLsdaRelative else entries) ++ [entry],
    skipRelocs rels rel b.stop)

/-- A zero terminator. -/
def terminator (offset relocIndex : Nat) : Entry :=
  { offset := offset
    size := 4
    relocIndex := relocIndex
    fdeEncoding := 0
    lsdaEncoding := 0
    lsdaOffset := 0
    removed := false
    addAugmentationSize := false
    makeRelative := false
    setLoc := none
    kind := .fde none }

/-- Whether nothing but zero words follows. -/
def zeroWords : List BfdByte → Bool
  | b0 :: b1 :: b2 :: b3 :: rest => [b0, b1, b2, b3].all (· = 0) && zeroWords rest
  | _ => true

/-- `bfd_get_32` -/
def get32 (p : Nat) : Nat :=
  Endian.get sec.bigEndian ((Bytes.mk sec.contents 0).slice p (p + 4))

/-- The entry whose length word, already read, is at `offset`. -/
def parseEntry (rsec : Rela → Option Nat) (entries : List Entry) (offset hdrLength rel : Nat) :
    Option (List Entry × Nat) := do
  let buf := offset + 4
  let b : Bytes := ⟨sec.contents, buf + hdrLength⟩
  let start ← b.skipBytes buf 4
  let hdrId := get32 sec buf
  if hdrId = 0 then do
    let (entry, rel') ← parseCie info sec rels b offset hdrLength rel start rel
    some (entries ++ [entry], rel')
  else parseFde sec rels rsec b entries offset hdrLength rel start rel hdrId

/-- The loop over the entries, from the one at `buf` on. -/
def parseFrom (rsec : Rela → Option Nat) (buf rel : Nat) (entries : List Entry) :
    Option (List Entry) :=
  if sec.contents.length ≤ buf then some entries
  else if buf + 4 + get32 sec buf ≤ sec.contents.length then
    if get32 sec buf = 0 then
      if zeroWords (sec.contents.drop (buf + 4)) ∧
          (ensureNoRelocs rels rel sec.contents.length).isSome then
        some (entries ++ [terminator buf rel])
      else none
    else do
      let (entries, rel') ← parseEntry info sec rels rsec entries buf (get32 sec buf) rel
      parseFrom rsec (buf + 4 + get32 sec buf) rel' entries
  else none
termination_by sec.contents.length - buf

/-- The pass that counts the entries. It wants every one of them whole. -/
def countFrom (buf count : Nat) : Option Nat :=
  if sec.contents.length ≤ buf then some count
  else if sec.contents.length < buf + 4 ∨ get32 sec buf = 0xffffffff then none
  else if get32 sec buf = 0 then some (count + 1)
  else if sec.contents.length < buf + 4 + get32 sec buf ∨ get32 sec buf < 4 then none
  else countFrom (buf + 4 + get32 sec buf) (count + 1)
termination_by sec.contents.length - buf

end entry

/-- `_bfd_elf_parse_eh_frame`; `none` where it leaves the section alone. -/
def parseEhFrame (info : LinkInfo) (sec : EhSec) (rels : Rels) (rsec : Rela → Option Nat) :
    Option (List Entry) := do
  guard (sec.contents ≠ [] ∧ sec.outputSection.isSome ∧ sec.contents.length < 2 ^ 32 ∧
    sec.ptrSize ≠ 0)
  let _ ← countFrom sec 0 0
  parseFrom info sec rels rsec 0 0 []

end FusionBinutils.Bfd.EhFrame
