import FusionBinutils.Bfd.EhFrameLayout

/-! The contents that `_bfd_elf_write_section_eh_frame` leaves. -/
namespace FusionBinutils.Bfd.EhFrame

open Buffer

/-- What the writer knows of the section. -/
structure OutSec where
  bigEndian : Bool
  ptrSize : Nat
  relocatable : Bool
  /-- The `vma` of its output section. -/
  vma : BitVec 64
  outputOffset : BitVec 64
  /-- Where the buffer with the contents ends. -/
  bufferSize : Nat

/-- The CIE that an FDE has in the output. It may be one of another section. -/
structure OutCie where
  /-- Its `new_offset`, with the `output_offset` of its section. -/
  offset : BitVec 64
  makeLsdaRelative : Bool

/-- Bytes are changed where they stand. -/
def rewrite (m : Contents) (p : Nat) (bytes : List BfdByte) : Contents :=
  fun q => if p ≤ q then { m q with byte := bytes[q - p]?.getD (m q).byte } else m q

section values
variable (o : OutSec)

def OutSec.address (o : OutSec) : BitVec 64 := o.vma + o.outputOffset

/-- `get_DW_EH_PE_signed` -/
def peIsSigned (encoding : BfdByte) : Bool := encoding &&& peSigned ≠ 0

/-- `read_value` -/
def readValue (m : Contents) (buf width : Nat) (isSigned : Bool) : BitVec 64 :=
  if width = 2 ∨ width = 4 ∨ width = 8 then
    let value := BitVec.ofNat (8 * width) (Endian.get o.bigEndian ((load m buf width).map Cell.byte))
    if isSigned then value.signExtend 64 else value.setWidth 64
  else 0

/-- `write_value` -/
def writeValue (m : Contents) (buf : Nat) (value : BitVec 64) (width : Nat) : Contents :=
  if width = 2 ∨ width = 4 ∨ width = 8 then
    rewrite m buf (Endian.put o.bigEndian width value.toNat)
  else m

/-- `make_pc_relative` -/
def makePcRelative (encoding : BfdByte) (ptrSize : Nat) : BfdByte :=
  let sized :=
    if encoding &&& 0x7f = peAbsptr then
      match ptrSize with
      | 2 => encoding ||| 0x0a
      | 4 => encoding ||| 0x0b
      | 8 => encoding ||| 0x0c
      | _ => encoding
    else encoding
  sized ||| pePcrel

/-- `strlen`, if there is a null byte in the buffer. -/
def strlen (m : Contents) (p : Nat) : Option Nat :=
  (load m p (o.bufferSize - p)).findIdx? (·.byte = 0)

/-- `skip_leb128`; the caller does not look at what it returns. -/
def skipLeb (m : Contents) (stop p : Nat) : Nat :=
  if stop ≤ p then p
  else if (m p).byte &&& 0x80 = 0 then p + 1
  else skipLeb m stop (p + 1)
termination_by stop - p

end values

section cie
variable (o : OutSec) (x : Placed) (u : CieInf)

/-- The place behind the augmentation string and three numbers. -/
def numbersEnd (m : Contents) (start stop : Nat) : Option Nat :=
  (strlen o m (start + 9)).map fun len =>
    skipLeb m stop (skipLeb m stop (skipLeb m stop (start + 9 + len + 1)))

/-- Room is made behind `buf` for data and behind `aug` for letters. -/
def makeRoom (m : Contents) (aug buf stop extraString extraData : Nat) : Contents :=
  let m := memmove m (buf + extraString + extraData) buf (stop - buf)
  memmove m (aug + extraString) aug (buf - aug)

/-- The new letters and their data are put there. -/
def putLetters (m : Contents) (aug buf : Nat) : Contents × Nat × Nat :=
  let (m, aug, buf) :=
    if x.entry.addAugmentationSize then
      (store (store m aug [fresh letterZ]) buf [fresh (.ofNat 8 (x.entry.extraDataBytes - 1))],
        aug + 1, buf + 1)
    else (m, aug, buf)
  if u.addFdeEncoding then
    (store (store m aug [fresh letterR]) buf [fresh (makePcRelative peAbsptr o.ptrSize)],
      aug + 1, buf + 1)
  else (m, aug, buf)

/-- `action`: which encodings are still to be changed. -/
structure Action where
  fde : Bool
  lsda : Bool
  personality : Bool

/-- `(buf - contents + per_width - 1) & ~((bfd_size_type) per_width - 1)` -/
def alignPersonality (buf perWidth : Nat) : Nat :=
  (BitVec.ofNat 64 (buf + perWidth) - 1 &&& ~~~(BitVec.ofNat 64 perWidth - 1)).toNat

/-- The pointer to the personality routine at `buf`. -/
def movePersonality (m : Contents) (buf perWidth : Nat) (perEncoding : BfdByte) : Contents :=
  let val := readValue o m buf perWidth (peIsSigned perEncoding)
  let val :=
    if u.makePerEncodingRelative then val - (o.address + .ofNat 64 buf)
    else val + .ofNat 64 x.entry.offset - .ofNat 64 x.newOffset -
      .ofNat 64 (x.entry.extraStringBytes + x.entry.extraDataBytes)
  writeValue o m buf val perWidth

/-- The loop over the letters, of which there are so many in the buffer. -/
def rewriteEncodings : Nat → Action → Contents → Nat → Nat → Option Contents
  | _, ⟨false, false, false⟩, m, _, _ => some m
  | 0, _, _, _, _ => none
  | letters + 1, action, m, aug, buf =>
    let letter := (m aug).byte
    let relative := makePcRelative (m buf).byte o.ptrSize
    if letter = letterL then
      rewriteEncodings letters { action with lsda := false }
        (if action.lsda then rewrite m buf [relative] else m) (aug + 1) (buf + 1)
    else if letter = letterP then
      let m := if u.makePerEncodingRelative then rewrite m buf [relative] else m
      let perEncoding := (m buf).byte
      let perWidth := peWidth perEncoding o.ptrSize
      let buf := if application perEncoding = peAligned then alignPersonality (buf + 1) perWidth
        else buf + 1
      let m := if action.personality then movePersonality o x u m buf perWidth perEncoding else m
      rewriteEncodings letters { action with personality := false } m (aug + 1) (buf + perWidth)
    else if letter = letterR then
      rewriteEncodings letters { action with fde := false }
        (if action.fde then rewrite m buf [relative] else m) (aug + 1) (buf + 1)
    else rewriteEncodings letters action m (aug + 1) buf

/-- What is done to a CIE once its header is passed: `aug` is where letters go and `buf` where
their data go. It is `none` where bytes outside of the entry would be moved, or letters outside of
the buffer read. -/
def growCie (m : Contents) (aug buf : Nat) : Option Contents := do
  let stop := x.newOffset + x.entry.size
  guard (buf ≤ stop)
  let m := makeRoom m aug buf stop x.entry.extraStringBytes x.entry.extraDataBytes
  let (m, aug, buf) := putLetters o x u m aug (buf + x.entry.extraStringBytes)
  rewriteEncodings o x u (o.bufferSize - aug)
    ⟨x.entry.makeRelative && !u.addFdeEncoding, u.makeLsdaRelative, u.perEncodingRelative⟩ m aug buf

def editCie (m : Contents) : Option Contents :=
  if x.entry.makeRelative ∨ u.makeLsdaRelative ∨ u.perEncodingRelative then do
    let aug := x.newOffset + 9
    let buf ← numbersEnd o m x.newOffset (x.newOffset + x.entry.size)
    -- the size of the augmentation data is taken for a single byte
    if (m aug).byte = letterZ then
      growCie o x u (rewrite m buf [(m buf).byte + .ofNat 8 x.entry.extraDataBytes]) (aug + 1) (buf + 1)
    else growCie o x u m aug buf
  else some m

end cie

section fde
variable (o : OutSec) (x : Placed) (cie : OutCie)

/-- The value at `buf` is changed unless it is 0. -/
def changeValue (m : Contents) (buf : Nat) (encoding : BfdByte)
    (change : BitVec 64 → BitVec 64) : Contents :=
  let width := peWidth encoding o.ptrSize
  let value := readValue o m buf width (peIsSigned encoding)
  if value = 0 then m else writeValue o m buf (change value) width

/-- The way an entry goes up, to be taken from a value relative to its place. -/
def Placed.shift (x : Placed) : BitVec 64 := .ofNat 64 x.newOffset - .ofNat 64 x.entry.offset

/-- The initial location. -/
def editLocation (m : Contents) : Contents :=
  changeValue o m (x.newOffset + 8) x.entry.fdeEncoding fun value =>
    let value := if application x.entry.fdeEncoding = pePcrel then value - x.shift else value
    if x.entry.makeRelative then value - (o.address + .ofNat 64 (x.newOffset + 8)) else value

/-- The LSDA pointer. -/
def editLsda (m : Contents) : Contents :=
  changeValue o m (x.newOffset + 8 + x.entry.lsdaOffset.toNat) x.entry.lsdaEncoding fun value =>
    if application x.entry.lsdaEncoding = pePcrel then value - x.shift
    else value - (o.address + .ofNat 64 (x.newOffset + 8 + x.entry.lsdaOffset.toNat))

/-- The operand of a `DW_CFA_set_loc`. -/
def editSetLoc (m : Contents) (loc : Nat) : Contents :=
  let extra := x.entry.extraStringBytes + x.entry.extraDataBytes
  changeValue o m (x.newOffset + 8 + loc) x.entry.fdeEncoding fun value =>
    let value := if application x.entry.fdeEncoding = pePcrel then value - x.shift - .ofNat 64 extra
      else value
    if x.entry.makeRelative then value - (o.address + .ofNat 64 (x.newOffset + 8 + extra + loc))
    else value

/-- A zero byte is inserted behind the address range, for the augmentation size. -/
def insertSize (m : Contents) : Option Contents := do
  let buf := x.newOffset + 8 + peWidth x.entry.fdeEncoding o.ptrSize * 2
  let stop := x.newOffset + x.entry.size
  guard (buf ≤ stop)
  some (store (memmove m (buf + 1) buf (stop - buf)) buf [fresh 0])

/-- What is done to an FDE. -/
def editFde (m : Contents) : Option Contents := do
  let pointer := .ofNat 64 (x.newOffset + 4) + o.outputOffset - cie.offset
  let m := store m (x.newOffset + 4) ((Endian.put o.bigEndian 4 pointer.toNat).map fresh)
  if o.relocatable then some m
  else do
    let m := editLocation o x m
    let m ←
      if application x.entry.lsdaEncoding = pePcrel ∨ cie.makeLsdaRelative then
        some (editLsda o x m)
      else if x.entry.addAugmentationSize then insertSize o x m
      else some m
    some ((x.entry.setLoc.getD []).foldl (editSetLoc o x) m)

end fde

section writer
variable (o : OutSec) (cieInf : Entry → Option OutCie)

/-- An FDE without a CIE is not written. -/
def editEntry (x : Placed) (m : Contents) : Option Contents :=
  match x.entry.kind with
  | .cie u _ => editCie o x u m
  | .fde _ => do editFde o x (← cieInf x.entry) m

/-- The loop over the entries. -/
def writeEntries (size : Nat) : List Placed → Contents → Option Contents
  | [], m => some m
  | x :: rest, m =>
    if x.kept ∧ x.entry.size ≠ 4 then do
      let newSize := distance (nextOffset size rest) x.newOffset
      writeEntries size rest (← editEntry o cieInf x (x.putLength o.bigEndian newSize m))
    else writeEntries size rest m

/-- `_bfd_elf_write_section_eh_frame`, up to the output of the contents. -/
def writeSection (l : List Entry) (m : Contents) : Option Contents :=
  let xs := placed o.ptrSize l
  writeEntries o cieInf (secSize o.ptrSize l) xs (movePasses xs m)

end writer

end FusionBinutils.Bfd.EhFrame
