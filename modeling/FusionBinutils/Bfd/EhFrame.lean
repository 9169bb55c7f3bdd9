import FusionBinutils.Lib.Endian
import FusionBinutils.Opcode.Encoding

/-! Reading the entries of .eh_frame sections (bfd/elf-eh-frame.c). -/
namespace FusionBinutils.Bfd.EhFrame

/-- `DW_EH_PE_*` -/
def peAbsptr : BfdByte := 0x00
def peOmit : BfdByte := 0xff
def pePcrel : BfdByte := 0x10
def peAligned : BfdByte := 0x50
def peSigned : BfdByte := 0x08

/-- What a pointer is relative to. -/
def application (encoding : BfdByte) : BfdByte := encoding &&& 0x70

/-- `get_DW_EH_PE_width`; 0 if the encoding is of variable width or not known. -/
def peWidth (encoding : BfdByte) (ptrSize : Nat) : Nat :=
  if encoding &&& 0x60 = 0x60 then 0
  else match (encoding &&& 7).toNat with
    | 2 => 2
    | 3 => 4
    | 4 => 8
    | 0 => ptrSize
    | _ => 0

/-- What follows the code of a `DW_CFA_*` operation. -/
inductive Operands where
  | nothing
  | oneLeb128
  | twoLeb128
  | block
  | leb128Block
  | bytes (n : Nat)

def cfaNop : BfdByte := 0x00
def cfaSetLoc : BfdByte := 0x01

/-- The operations with an operand in their code have its bits cleared here. -/
def operands (encodedPtrWidth : Nat) (op : BfdByte) : Option Operands :=
  match op.toNat with
  -- nop, advance_loc, restore, remember_state, restore_state, GNU_window_save
  | 0x00 | 0x40 | 0xc0 | 0x0a | 0x0b | 0x2d => some .nothing
  -- offset, restore_extended, undefined, same_value, def_cfa_register, def_cfa_offset,
  -- def_cfa_offset_sf, GNU_args_size
  | 0x80 | 0x06 | 0x07 | 0x08 | 0x0d | 0x0e | 0x13 | 0x2e => some .oneLeb128
  -- val_offset, val_offset_sf, offset_extended, register, def_cfa, offset_extended_sf,
  -- GNU_negative_offset_extended, def_cfa_sf
  | 0x14 | 0x15 | 0x05 | 0x09 | 0x0c | 0x11 | 0x2f | 0x12 => some .twoLeb128
  -- def_cfa_expression
  | 0x0f => some .block
  -- expression, val_expression
  | 0x10 | 0x16 => some .leb128Block
  -- set_loc
  | 0x01 => some (.bytes encodedPtrWidth)
  -- advance_loc1, advance_loc2, advance_loc4, MIPS_advance_loc8
  | 0x02 => some (.bytes 1)
  | 0x03 => some (.bytes 2)
  | 0x04 => some (.bytes 4)
  | 0x1d => some (.bytes 8)
  | _ => none

/-- Section contents, and where the part of them ends that is being read. -/
structure Bytes where
  ehbuf : List BfdByte
  stop : Nat

namespace Bytes
variable {b : Bytes} {iter iter' length width : Nat}

def byteAt (b : Bytes) (p : Nat) : BfdByte := b.ehbuf.getD p 0

/-- The bytes from `p` up to `q`. -/
def slice (b : Bytes) (p q : Nat) : List BfdByte := (b.ehbuf.drop p).take (q - p)

/-- `read_byte` -/
def readByte (b : Bytes) (iter : Nat) : Option (BfdByte × Nat) :=
  if b.stop ≤ iter then none else some (b.byteAt iter, iter + 1)

/-- `skip_bytes`. The difference of the pointers is unsigned. -/
def skipBytes (b : Bytes) (iter length : Nat) : Option Nat :=
  if (2 ^ 64 + b.stop - iter) % 2 ^ 64 < length then none else some (iter + length)

/-- `skip_leb128` -/
def skipLeb128 (b : Bytes) (iter : Nat) : Option Nat :=
  if b.stop ≤ iter then none
  else if b.byteAt iter &&& 0x80 = 0 then some (iter + 1)
  else b.skipLeb128 (iter + 1)
termination_by b.stop - iter

/-- The value of the bytes of an unsigned leb128, added up from the last one. -/
def uleb128 : List BfdByte → BitVec 64
  | [] => 0
  | [last] => last.setWidth 64
  | byte :: rest => uleb128 rest <<< 7 ||| (byte &&& 0x7f).setWidth 64

def sleb128 : List BfdByte → BitVec 64
  | [] => 0
  | [last] => ((last &&& 0x7f).setWidth 64 ^^^ 0x40) - 0x40
  | byte :: rest => sleb128 rest <<< 7 ||| (byte &&& 0x7f).setWidth 64

/-- `read_uleb128` -/
def readUleb128 (b : Bytes) (iter : Nat) : Option (BitVec 64 × Nat) :=
  (b.skipLeb128 iter).map fun p => (uleb128 (b.slice iter p), p)

/-- `read_sleb128` -/
def readSleb128 (b : Bytes) (iter : Nat) : Option (BitVec 64 × Nat) :=
  (b.skipLeb128 iter).map fun p => (sleb128 (b.slice iter p), p)

/-- A block of bytes behind its length. -/
def skipBlock (b : Bytes) (iter : Nat) : Option Nat := do
  let (length, iter) ← b.readUleb128 iter
  b.skipBytes iter length.toNat

def skipOperands (b : Bytes) (iter : Nat) : Operands → Option Nat
  | .nothing => some iter
  | .oneLeb128 => b.skipLeb128 iter
  | .twoLeb128 => (b.skipLeb128 iter).bind b.skipLeb128
  | .block => b.skipBlock iter
  | .leb128Block => (b.skipLeb128 iter).bind b.skipBlock
  | .bytes n => b.skipBytes iter n

/-- `skip_cfa_op` -/
def skipCfaOp (b : Bytes) (encodedPtrWidth iter : Nat) : Option Nat := do
  let (op, iter) ← b.readByte iter
  let args ← operands encodedPtrWidth (if op &&& 0xc0 ≠ 0 then op &&& 0xc0 else op)
  b.skipOperands iter args

theorem le_of_skipBytes (h : b.skipBytes iter length = some iter') : iter' = iter + length := by
  rw [skipBytes] at h
  split at h
  · cases h
  · exact (Option.some.inj h).symm

theorem lt_of_skipLeb128 (h : b.skipLeb128 iter = some iter') : iter < iter' ∧ iter' ≤ b.stop := by
  fun_induction skipLeb128 b iter with
  | case1 iter hstop => cases h
  | case2 iter hstop hlast =>
    cases h
    omega
  | case3 iter hstop hlast ih =>
    have := ih h
    omega

theorem lt_of_readByte {op : BfdByte} (h : b.readByte iter = some (op, iter')) :
    iter' = iter + 1 ∧ iter < b.stop := by
  rw [readByte] at h
  split at h
  · cases h
  · cases h
    omega

theorem lt_of_readUleb128 {v : BitVec 64} (h : b.readUleb128 iter = some (v, iter')) :
    iter < iter' ∧ iter' ≤ b.stop := by
  obtain ⟨p, hp, he⟩ := Option.map_eq_some_iff.mp h
  cases he
  exact lt_of_skipLeb128 hp

theorem lt_of_readSleb128 {v : BitVec 64} (h : b.readSleb128 iter = some (v, iter')) :
    iter < iter' ∧ iter' ≤ b.stop := by
  obtain ⟨p, hp, he⟩ := Option.map_eq_some_iff.mp h
  cases he
  exact lt_of_skipLeb128 hp

theorem lt_of_skipBlock (h : b.skipBlock iter = some iter') : iter < iter' := by
  obtain ⟨⟨len, p⟩, hp, h⟩ := Option.bind_eq_some_iff.mp h
  have := lt_of_readUleb128 hp
  have := le_of_skipBytes h
  omega

theorem le_of_skipOperands {args : Operands} (h : b.skipOperands iter args = some iter') :
    iter ≤ iter' := by
  cases args with
  | nothing => exact (Option.some.inj h).le
  | oneLeb128 => exact (lt_of_skipLeb128 h).1.le
  | twoLeb128 =>
    obtain ⟨p, hp, h⟩ := Option.bind_eq_some_iff.mp h
    exact ((lt_of_skipLeb128 hp).1.trans (lt_of_skipLeb128 h).1).le
  | block => exact (lt_of_skipBlock h).le
  | leb128Block =>
    obtain ⟨p, hp, h⟩ := Option.bind_eq_some_iff.mp h
    exact ((lt_of_skipLeb128 hp).1.trans (lt_of_skipBlock h)).le
  | bytes n =>
    have := le_of_skipBytes h
    omega

/-- An operation is at least its code. -/
theorem lt_of_skipCfaOp (h : b.skipCfaOp width iter = some iter') : iter < iter' := by
  obtain ⟨⟨op, p⟩, hp, h⟩ := Option.bind_eq_some_iff.mp h
  obtain ⟨args, _, h⟩ := Option.bind_eq_some_iff.mp h
  have := lt_of_readByte hp
  have := le_of_skipOperands h
  omega

/-- The loop of `skip_non_nops`. -/
def skipNonNopsFrom (b : Bytes) (width buf last setLocCount : Nat) : Option (Nat × Nat) :=
  if buf < b.stop then
    if b.byteAt buf = cfaNop then b.skipNonNopsFrom width (buf + 1) last setLocCount
    else match h : b.skipCfaOp width buf with
      | none => none
      | some next =>
        b.skipNonNopsFrom width next next
          (if b.byteAt buf = cfaSetLoc then setLocCount + 1 else setLocCount)
  else some (last, setLocCount)
termination_by b.stop - buf
decreasing_by
  · omega
  · have := lt_of_skipCfaOp h
    omega

/-- `skip_non_nops`: where the padding begins, and how often `DW_CFA_set_loc` was met. -/
def skipNonNops (b : Bytes) (buf width : Nat) : Option (Nat × Nat) :=
  b.skipNonNopsFrom width buf buf 0

end Bytes

end FusionBinutils.Bfd.EhFrame
