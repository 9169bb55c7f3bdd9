import FusionBinutils.Bfd.LineRun
import FusionBinutils.Gas.LineProgram

/-! What the state machine makes of the opcodes that the assembler writes. -/
namespace FusionBinutils.Gas.LineProgram
open Bfd.LineMachine

/-- The header parameters as the state machine sees them. -/
def gasHead : LineHead := ⟨1, 1, 1, -5, 14, 13, [1, 0, 1, 1, 1, 1, 0, 0, 0, 1, 0, 0, 1]⟩

/-- The parameters come back, in front of the directory and file tables. -/
theorem readLineHead_lineParameters {tables : List BfdByte} (h : tables ≠ []) :
    readLineHead (lineParameters ++ tables) = some (gasHead, tables) := by
  have hpos := List.length_pos_iff.mpr h
  simp [lineParameters, readLineHead, gasHead, lineMinInsnLength, lineBase, lineRange,
    lineOpcodeBase]
  omega

variable {u : CompUnit} {m m' : Machine} {b : BfdByte} {p rest : List BfdByte} {a v x : Nat}
  {lineDelta : BitVec 32}

theorem decode_standard (he : m.endSequence = false) (hp : m.linePtr = b :: p)
    (hb : b.toNat < 13)
    (h : standardOp u gasHead { m with linePtr := p } b.toNat = some m') :
    decodeLines u gasHead m = decodeLines u gasHead m' := by
  apply decodeLines_step (by decide) he
  have hlt : ¬ gasHead.opcodeBase ≤ b.toNat := by simp only [gasHead]; omega
  rw [step, hp]
  simp only [read1Byte, List.drop_one, List.tail_cons, if_neg hlt, h]

theorem readLeb128_output (hv : v < 2 ^ 64) :
    readLeb128 false (outputUleb128 v ++ rest) = (v, rest) := Leb128.read_unsigned hv

theorem readLeb128_output_signed {v : Int} (hlo : -2 ^ 63 ≤ v) (hhi : v < 2 ^ 63) :
    readLeb128 true (outputSleb128 v ++ rest) = ((v % 2 ^ 64).toNat, rest) :=
  Leb128.read_signed (by decide) hlo hhi

theorem decode_set_file (he : m.endSequence = false) {v : BitVec 32}
    (hp : m.linePtr = 4#8 :: (outputUleb128 v.toNat ++ rest)) :
    decodeLines u gasHead m = decodeLines u gasHead { m with
      linePtr := rest, filename := some (concatFilename m.table v.toNat) } := by
  have hv := v.isLt
  refine decode_standard he hp (by decide) ?_
  simp [standardOp, readLeb128_output (show v.toNat < 2 ^ 64 by omega), Nat.mod_eq_of_lt hv]

theorem decode_set_column (he : m.endSequence = false) {v : BitVec 32}
    (hp : m.linePtr = 5#8 :: (outputUleb128 v.toNat ++ rest)) :
    decodeLines u gasHead m = decodeLines u gasHead { m with
      linePtr := rest, column := v.toNat } := by
  have hv := v.isLt
  refine decode_standard he hp (by decide) ?_
  simp [standardOp, readLeb128_output (show v.toNat < 2 ^ 64 by omega), Nat.mod_eq_of_lt hv]

theorem decode_set_isa (he : m.endSequence = false) {v : BitVec 32}
    (hp : m.linePtr = 12#8 :: (outputUleb128 v.toNat ++ rest)) :
    decodeLines u gasHead m = decodeLines u gasHead { m with linePtr := rest } := by
  have hv := v.isLt
  refine decode_standard he hp (by decide) ?_
  simp [standardOp, gasHead, skipOperands, readLeb128_output (show v.toNat < 2 ^ 64 by omega)]

theorem decode_negate_stmt (he : m.endSequence = false) (hp : m.linePtr = 6#8 :: rest) :
    decodeLines u gasHead m =
      decodeLines u gasHead { m with linePtr := rest, isStmt := !m.isStmt } :=
  decode_standard he hp (by decide) rfl

/-- The flags that the state machine does not keep. -/
theorem decode_flag (he : m.endSequence = false) (hb : b = 7#8 ∨ b = 10#8 ∨ b = 11#8)
    (hp : m.linePtr = b :: rest) :
    decodeLines u gasHead m = decodeLines u gasHead { m with linePtr := rest } := by
  rcases hb with rfl | rfl | rfl <;> exact decode_standard he hp (by decide) rfl

theorem decode_advance_line (he : m.endSequence = false)
    (hp : m.linePtr = 3#8 :: (outputSleb128 lineDelta.toInt ++ rest)) :
    decodeLines u gasHead m = decodeLines u gasHead { m with
      linePtr := rest, line := (m.line + lineDelta.toNat) % 2 ^ 32 } := by
  have hlo := BitVec.le_toInt lineDelta
  have hhi := BitVec.toInt_lt (x := lineDelta)
  have hline : (m.line + (lineDelta.toInt % 2 ^ 64).toNat) % 2 ^ 32 =
      (m.line + lineDelta.toNat) % 2 ^ 32 := by
    have hlt := lineDelta.isLt
    have hint := BitVec.toInt_eq_toNat_cond lineDelta
    split at hint <;> omega
  refine decode_standard he hp (by decide) ?_
  rw [← hline]
  simp only [standardOp, BitVec.toNat_ofNat, Nat.reducePow, Nat.reduceMod,
    readLeb128_output_signed (show -2 ^ 63 ≤ lineDelta.toInt by omega) (by omega)]

theorem decode_advance_pc (he : m.endSequence = false) (hv : v < 2 ^ 64)
    (hp : m.linePtr = 2#8 :: (outputUleb128 v ++ rest)) :
    decodeLines u gasHead m = decodeLines u gasHead { m with
      linePtr := rest, address := (m.address + v) % 2 ^ 64 } := by
  refine decode_standard he hp (by decide) ?_
  simp [standardOp, advancePc, readLeb128_output hv, Machine.addOps, gasHead]

theorem decode_const_add_pc (he : m.endSequence = false) (hp : m.linePtr = 8#8 :: rest) :
    decodeLines u gasHead m = decodeLines u gasHead { m with
      linePtr := rest, address := (m.address + maxSpecialAddrDelta) % 2 ^ 64 } :=
  decode_standard he hp (by decide) rfl

theorem decode_copy (he : m.endSequence = false) (hp : m.linePtr = 1#8 :: rest) :
    decodeLines u gasHead m =
      decodeLines u gasHead (Machine.addLineInfo { m with linePtr := rest } false) :=
  decode_standard he hp (by decide) rfl

theorem decode_fixed_advance_pc (he : m.endSequence = false) (hv : v < 2 ^ 16)
    (hp : m.linePtr = 9#8 :: (Endian.put u.bigEndian 2 v ++ rest)) :
    decodeLines u gasHead m = decodeLines u gasHead { m with
      linePtr := rest, address := (m.address + v) % 2 ^ 64, opIndex := 0 } := by
  refine decode_standard he hp (by decide) ?_
  have htake : (Endian.put u.bigEndian 2 v ++ rest).take 2 = Endian.put u.bigEndian 2 v :=
    List.take_left' (Endian.length_put _ _ _)
  have hdrop : (Endian.put u.bigEndian 2 v ++ rest).drop 2 = rest :=
    List.drop_left' (Endian.length_put _ _ _)
  have hlen : ¬ 2 + rest.length ≤ 1 := by omega
  have hmod : v % 65536 = v := Nat.mod_eq_of_lt hv
  simp [standardOp, read2Bytes, htake, hdrop, Endian.get_put, hlen, hmod]

/-- A special opcode, taken apart into its line and its address skip. -/
theorem decode_special (he : m.endSequence = false) (hp : m.linePtr = b :: rest) (hx : x < 14)
    (hb : b.toNat = 13 + x + a * 14) :
    decodeLines u gasHead m = decodeLines u gasHead (Machine.addLineInfo { m with
      linePtr := rest, address := (m.address + a) % 2 ^ 64
      line := (((m.line : Int) - 5 + x) % 2 ^ 32).toNat } false) := by
  apply decodeLines_step (by decide) he
  have hle : gasHead.opcodeBase ≤ b.toNat := by simp only [gasHead]; omega
  have hdiv : (b.toNat - 13) / 14 = a := by omega
  have hmod : (b.toNat - 13) % 14 = x := by omega
  simp only [step, hp, read1Byte, if_pos hle]
  simp [special, gasHead, Machine.addOps, hdiv, hmod, Int.sub_eq_add_neg]

theorem decode_end_sequence (he : m.endSequence = false)
    (hp : m.linePtr = 0#8 :: 1#8 :: 1#8 :: rest) :
    decodeLines u gasHead m =
      decodeLines u gasHead (Machine.addLineInfo { m with linePtr := rest } true) :=
  decode_standard he hp (by decide) rfl

theorem decode_set_address (he : m.endSequence = false) (hv : v < 2 ^ (8 * u.addrSize.bytes))
    (hp : m.linePtr = 0#8 :: (outputUleb128 (u.addrSize.bytes + 1) ++
      2#8 :: (Endian.put u.bigEndian u.addrSize.bytes v ++ rest))) :
    decodeLines u gasHead m = decodeLines u gasHead { m with
      linePtr := rest, address := v, opIndex := 0 } := by
  have hsize : u.addrSize.bytes + 1 < 2 ^ 64 := by cases u.addrSize <;> decide
  have htake : (Endian.put u.bigEndian u.addrSize.bytes v ++ rest).take u.addrSize.bytes = _ :=
    List.take_left' (Endian.length_put u.bigEndian u.addrSize.bytes v)
  have hdrop : (Endian.put u.bigEndian u.addrSize.bytes v ++ rest).drop u.addrSize.bytes = _ :=
    List.drop_left' (Endian.length_put u.bigEndian u.addrSize.bytes v)
  have hpow : 256 ^ u.addrSize.bytes = 2 ^ (8 * u.addrSize.bytes) := by rw [Nat.pow_mul]
  refine decode_standard he hp (by decide) ?_
  simp [standardOp, extended, readLeb128_output hsize, read1Byte, extendedOp, readAddress, htake,
    hdrop, Endian.get_put, hpow, Nat.mod_eq_of_lt hv]

theorem decode_set_discriminator (he : m.endSequence = false) {v : BitVec 32}
    (hp : m.linePtr = 0#8 :: (outputSleb128 (1 + sizeofUleb128 v.toNat) ++
      4#8 :: (outputUleb128 v.toNat ++ rest))) :
    decodeLines u gasHead m = decodeLines u gasHead { m with
      linePtr := rest, discriminator := v.toNat } := by
  have hv := v.isLt
  have hsize : sizeofUleb128 v.toNat ≤ 5 := Leb128.sizeUnsigned_le (k := 4) (by omega)
  have hlen : outputSleb128 (1 + sizeofUleb128 v.toNat) =
      outputUleb128 (1 + sizeofUleb128 v.toNat) := by
    have := Leb128.signed_eq_unsigned (show 1 + sizeofUleb128 v.toNat < 64 by omega)
    exact_mod_cast this
  refine decode_standard he hp (by decide) ?_
  rw [hlen]
  simp [standardOp, extended, readLeb128_output (show 1 + sizeofUleb128 v.toNat < 2 ^ 64 by omega),
    read1Byte, extendedOp, readLeb128_output (show v.toNat < 2 ^ 64 by omega), Nat.mod_eq_of_lt hv]

end FusionBinutils.Gas.LineProgram
