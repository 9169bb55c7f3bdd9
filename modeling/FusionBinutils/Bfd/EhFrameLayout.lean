import FusionBinutils.Bfd.EhFrameParse
import FusionBinutils.Lib.BitField
import FusionBinutils.Lib.Compaction
import FusionBinutils.Lib.Offsets

/-! The places that `_bfd_elf_discard_section_eh_frame` gives to the entries of a section, and how
`_bfd_elf_write_section_eh_frame` takes them there. -/
namespace FusionBinutils.Bfd.EhFrame

open Buffer Compaction Offsets

/-- `extra_augmentation_string_bytes` -/
def Entry.extraStringBytes (e : Entry) : Nat :=
  match e.kind with
  | .cie u _ => e.addAugmentationSize.toNat + u.addFdeEncoding.toNat
  | .fde _ => 0

/-- `extra_augmentation_data_bytes` -/
def Entry.extraDataBytes (e : Entry) : Nat :=
  match e.kind with
  | .cie u _ => e.addAugmentationSize.toNat + u.addFdeEncoding.toNat
  | .fde _ => e.addAugmentationSize.toNat

/-- `size_of_output_cie_fde` -/
def Entry.outputSize (e : Entry) : Nat :=
  if e.removed then 0
  else if e.size = 4 then 4
  else (e.size + e.extraStringBytes + e.extraDataBytes) % 2 ^ 32

/-- `eh_alignment`. An FDE is aligned as its encoding is, so that its address range is. -/
def Entry.alignment (ptrSize : Nat) (e : Entry) : Nat :=
  if e.size = 4 then 4
  else match e.kind with
    | .cie u _ => if u.perEncodingAligned8 then 8 else 4
    | .fde _ => max (peWidth e.fdeEncoding ptrSize) 4

/-- `(offset + eh_alignment - 1) & -eh_alignment`, in 32 bits. -/
def alignOffset (offset alignment : Nat) : Nat :=
  (BitVec.ofNat 32 (offset + alignment - 1) &&& -BitVec.ofNat 32 alignment).toNat

/-- An entry with its `new_offset`, which is 0 as long as none is given to it. -/
structure Placed where
  entry : Entry
  newOffset : Nat

/-- The entries from `offset` on, and where they end. -/
def placeFrom (ptrSize : Nat) : Nat → List Entry → List Placed × Nat
  | offset, [] => ([], offset)
  | offset, e :: l =>
    if e.removed then
      let (rest, stop) := placeFrom ptrSize offset l
      (⟨e, 0⟩ :: rest, stop)
    else
      let newOffset := alignOffset offset (e.alignment ptrSize)
      let (rest, stop) := placeFrom ptrSize ((newOffset + e.outputSize) % 2 ^ 32) l
      (⟨e, newOffset⟩ :: rest, stop)

def placed (ptrSize : Nat) (l : List Entry) : List Placed := (placeFrom ptrSize 0 l).1

/-- The `size` the section gets. -/
def secSize (ptrSize : Nat) (l : List Entry) : Nat := alignOffset (placeFrom ptrSize 0 l).2 4

/-- A byte of the contents. With it goes where it was before they were rewritten, which is
`none` for the bytes that are new. -/
structure Cell where
  byte : BfdByte
  origin : Option Nat

abbrev Contents := Nat → Cell

def fresh (byte : BfdByte) : Cell := ⟨byte, none⟩

namespace Placed

def kept (x : Placed) : Bool := !x.entry.removed

def move (x : Placed) : Move := ⟨x.entry.offset, x.newOffset, x.entry.size⟩

/-- The `memmove` of the backward pass. -/
def moveUp (x : Placed) (m : Contents) : Contents :=
  if x.kept ∧ x.entry.offset < x.newOffset then
    memmove m x.newOffset x.entry.offset x.entry.size
  else m

/-- The one of the forward pass. -/
def moveDown (x : Placed) (m : Contents) : Contents :=
  if x.kept ∧ x.newOffset < x.entry.offset then
    memmove m x.newOffset x.entry.offset x.entry.size
  else m

end Placed

/-- A backward pass that moves entries up and then a forward pass that moves entries down. -/
def movePasses (l : List Placed) (m : Contents) : Contents :=
  l.foldl (fun m x => x.moveDown m) (l.foldr Placed.moveUp m)

/-- `next_cie_fde_offset`, where `rest` is what comes behind the entry. -/
def nextOffset (size : Nat) (rest : List Placed) : Nat :=
  ((rest.find? Placed.kept).map (·.newOffset)).getD size

/-- The difference of two of these offsets. -/
def distance (next offset : Nat) : Nat := (2 ^ 32 + next - offset) % 2 ^ 32

/-- The size of an entry is updated, and the extra bytes are filled with `DW_CFA_nop`s. -/
def Placed.putLength (bigEndian : Bool) (x : Placed) (newSize : Nat) (m : Contents) : Contents :=
  let m := store m x.newOffset ((Endian.put bigEndian 4 (distance newSize 4)).map fresh)
  if newSize ≠ x.entry.size then
    memset m (x.newOffset + x.entry.size) (fresh cfaNop) (distance newSize x.entry.size)
  else m

/-- What is done to every entry before it is edited. A terminator is left as it is. -/
def putLengths (bigEndian : Bool) (size : Nat) : List Placed → Contents → Contents
  | [], m => m
  | x :: rest, m =>
    if x.kept ∧ x.entry.size ≠ 4 then
      putLengths bigEndian size rest
        (x.putLength bigEndian (distance (nextOffset size rest) x.newOffset) m)
    else putLengths bigEndian size rest m

/-- The length field of the entry at `offset`. -/
def lengthAt (bigEndian : Bool) (m : Contents) (offset : Nat) : Nat :=
  Endian.get bigEndian ((load m offset 4).map Cell.byte)

end FusionBinutils.Bfd.EhFrame
