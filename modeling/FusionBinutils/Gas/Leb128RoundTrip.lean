import FusionBinutils.Gas.Layout
import FusionBinutils.Lib.Leb128

/-! LEB128 numbers between the assembler and BFD: the sizers and writers of gas/read.c against the
three readers of bfd/libbfd.c. -/
namespace FusionBinutils.Gas
open Leb128

variable {v : Vma} {rest : List BfdByte}

/-! The readers. -/

/-- What a reader has after its loop: the bits, the bytes it took, the shift and the last byte. -/
structure LebBits where
  result : Vma
  numRead : Nat
  shift : Nat
  byte : BfdByte
  deriving DecidableEq

/-- The bits of one more byte. -/
def LebBits.take (s : LebBits) (byte : BfdByte) : LebBits where
  result := s.result ||| (byte &&& 0x7f#8).setWidth 64 <<< s.shift
  numRead := s.numRead + 1
  shift := s.shift + 7
  byte := byte

def LebBits.start : LebBits := ⟨0, 0, 0, 0⟩

/-- The loop of `_bfd_safe_read_leb128` over the bytes up to `end`. -/
def safeReadLoop : List BfdByte → LebBits → LebBits
  | [], s => s
  | byte :: data, s => if byte &&& 0x80#8 = 0 then s.take byte else safeReadLoop data (s.take byte)

/-- `_bfd_safe_read_leb128`: the value and `*length_return`. -/
def bfdSafeReadLeb128 (data : List BfdByte) (sign : Bool) : Vma × Nat :=
  let s := safeReadLoop data .start
  (if sign ∧ s.shift < 64 ∧ s.byte &&& 0x40#8 ≠ 0 then s.result ||| -((1 : Vma) <<< s.shift)
    else s.result, s.numRead)

/-- The loop of the two readers without a bound; `none` is a read behind the memory. -/
def readLoop : List BfdByte → LebBits → Option LebBits
  | [], _ => none
  | byte :: buf, s =>
    if byte &&& 0x80#8 ≠ 0 then readLoop buf (s.take byte) else some (s.take byte)

/-- `_bfd_read_unsigned_leb128`: the value and `*bytes_read_ptr`. -/
def bfdReadUnsignedLeb128 (buf : List BfdByte) : Option (Vma × Nat) :=
  (readLoop buf .start).map fun s => (s.result, s.numRead)

/-- `_bfd_read_signed_leb128`: the value and `*bytes_read_ptr`. -/
def bfdReadSignedLeb128 (buf : List BfdByte) : Option (Vma × Nat) :=
  (readLoop buf .start).map fun s =>
    (if s.shift < 64 ∧ s.byte &&& 0x40#8 ≠ 0 then s.result ||| (-1 : Vma) <<< s.shift
      else s.result, s.numRead)

/-! The bytes of the writers are those of the mathematical number. -/

theorem toNat_and_127 (v : Vma) : (v &&& 0x7f#64).toNat = v.toNat % 128 := by
  rw [BitVec.toNat_and]
  exact Nat.and_two_pow_sub_one_eq_mod v.toNat 7

theorem low_eq_ofNat (v : Vma) : (v &&& 0x7f#64).setWidth 8 = BitVec.ofNat 8 (v.toNat % 128) := by
  apply BitVec.eq_of_toNat_eq
  rw [BitVec.toNat_setWidth, toNat_and_127, BitVec.toNat_ofNat]

theorem ofNat_or_128 {x : Nat} (hx : x < 128) :
    BitVec.ofNat 8 x ||| 0x80#8 = BitVec.ofNat 8 (x + 128) := by
  have hor : x ||| 1 <<< 7 = x + 1 * 2 ^ 7 := or_shiftLeft 1 hx
  apply BitVec.eq_of_toNat_eq
  rw [BitVec.toNat_or, BitVec.toNat_ofNat, BitVec.toNat_ofNat, BitVec.toNat_ofNat,
    Nat.mod_eq_of_lt (show x < 2 ^ 8 by omega), Nat.mod_eq_of_lt (show x + 128 < 2 ^ 8 by omega)]
  exact hor

theorem toNat_ushiftRight_7 (v : Vma) : (v >>> 7).toNat = v.toNat / 128 := by
  rw [BitVec.toNat_ushiftRight, Nat.shiftRight_eq_div_pow]

theorem ushiftRight_7_eq_zero (v : Vma) : v >>> 7 = 0 ↔ v.toNat / 128 = 0 := by
  rw [← BitVec.toNat_inj, toNat_ushiftRight_7]
  rfl

/-- The unsigned writer, with the groups of seven bits that its number needs. -/
theorem outputUleb128_eq {n : Nat} (h : v.toNat < 128 ^ (n + 1)) :
    outputUleb128 (n + 1) v = unsigned v.toNat := by
  induction n generalizing v with
  | zero =>
    have hend : v.toNat / 128 = 0 := by omega
    rw [unsigned, if_pos hend, outputUleb128, if_pos ((ushiftRight_7_eq_zero v).mpr hend),
      low_eq_ofNat]
  | succ n ih =>
    rw [unsigned, outputUleb128, low_eq_ofNat]
    by_cases hend : v.toNat / 128 = 0
    · rw [if_pos hend, if_pos ((ushiftRight_7_eq_zero v).mpr hend)]
    · have hlow : v.toNat % 128 < 128 := Nat.mod_lt _ (by decide)
      have hrest : (v >>> 7).toNat < 128 ^ (n + 1) := by
        rw [toNat_ushiftRight_7]
        apply Nat.div_lt_of_lt_mul
        rwa [← Nat.pow_succ']
      rw [if_neg hend, if_neg fun h => hend ((ushiftRight_7_eq_zero v).mp h), ofNat_or_128 hlow,
        ih hrest, toNat_ushiftRight_7]

theorem toInt_sshiftRight_7 (v : Vma) : (v.sshiftRight 7).toInt = v.toInt / 128 := by
  rw [BitVec.toInt_sshiftRight, Int.shiftRight_eq_div_pow]
  rfl

/-- The seven low bits of a number do not depend on its sign. -/
theorem toNat_mod_128 (v : Vma) : ((v.toNat % 128 : Nat) : Int) = v.toInt % 128 := by
  rw [BitVec.toInt_eq_toNat_bmod]
  have hmod : ((v.toNat : Int).bmod (2 ^ 64)) % 128 = (v.toNat : Int) % 128 := by
    rw [Int.bmod_def]
    split <;> omega
  rw [hmod]
  rfl

/-- The sign bit of a group of seven. -/
theorem and_64_eq_zero {x : Nat} (hx : x < 128) : x &&& 64 = 0 ↔ x < 64 := by
  have hand : x &&& 2 ^ 6 = (x.testBit 6).toNat * 2 ^ 6 := Nat.and_two_pow x 6
  rw [show (64 : Nat) = 2 ^ 6 from rfl, hand, Nat.testBit_eq_decide_div_mod_eq]
  rcases Nat.mod_two_eq_zero_or_one (x / 2 ^ 6) with h | h
  · simp only [h, Nat.zero_ne_one, decide_false, Bool.toNat_false, Nat.zero_mul, true_iff]
    omega
  · simp only [h, decide_true, Bool.toNat_true, Nat.one_mul]
    omega

/-- The test of the signed writers at the last byte. -/
theorem sleb128Ends_iff (v : Vma) :
    sleb128Ends (v &&& 0x7f#64) (v.sshiftRight 7) = true ↔ Ends (v.toInt % 128) (v.toInt / 128) := by
  have hzero : v.sshiftRight 7 = 0 ↔ v.toInt / 128 = 0 := by
    rw [← BitVec.toInt_inj, toInt_sshiftRight_7]
    rfl
  have hones : v.sshiftRight 7 = -1 ↔ v.toInt / 128 = -1 := by
    rw [← BitVec.toInt_inj, toInt_sshiftRight_7]
    rfl
  have hsign : v &&& 0x7f#64 &&& 0x40#64 = 0 ↔ v.toInt % 128 < 64 := by
    rw [← BitVec.toNat_inj, BitVec.toNat_and, toNat_and_127, ← toNat_mod_128]
    have hbit := and_64_eq_zero (Nat.mod_lt v.toNat (by decide : 128 > 0))
    exact hbit.trans (by omega)
  simp only [sleb128Ends, Ends, Bool.or_eq_true, Bool.and_eq_true, beq_iff_eq, bne_iff_ne, hzero,
    hones, ne_eq, hsign, not_lt]

/-- The signed writer, with the groups of seven bits that its number needs. -/
theorem outputSleb128_eq {n : Nat} (hlo : -(64 * 128 ^ n) ≤ v.toInt) (hhi : v.toInt < 64 * 128 ^ n) :
    outputSleb128 (n + 1) v = signed v.toInt := by
  have hbyte (w : Vma) : (w.toInt % 128).toNat = w.toNat % 128 := by
    have := toNat_mod_128 w
    omega
  induction n generalizing v with
  | zero =>
    have hend : Ends (v.toInt % 128) (v.toInt / 128) := by
      simp only [Ends]
      omega
    rw [signed, if_pos hend, outputSleb128, if_pos ((sleb128Ends_iff v).mpr hend), low_eq_ofNat,
      hbyte]
  | succ n ih =>
    rw [signed, outputSleb128, low_eq_ofNat, hbyte]
    by_cases hend : Ends (v.toInt % 128) (v.toInt / 128)
    · rw [if_pos hend, if_pos ((sleb128Ends_iff v).mpr hend)]
    · rw [pow_succ] at hlo hhi
      rw [if_neg hend, if_neg fun h => hend ((sleb128Ends_iff v).mp h),
        ofNat_or_128 (Nat.mod_lt _ (by decide)), ih, toInt_sshiftRight_7]
      · rw [toInt_sshiftRight_7]
        omega
      · rw [toInt_sshiftRight_7]
        omega

theorem outputLeb128_unsigned (v : Vma) : outputLeb128 v false = unsigned v.toNat := by
  have hlt : v.toNat < 128 ^ 10 := lt_of_lt_of_le v.isLt (by decide)
  exact outputUleb128_eq hlt

theorem outputLeb128_signed (v : Vma) : outputLeb128 v true = signed v.toInt := by
  have hlo := BitVec.le_toInt v
  have hhi := BitVec.toInt_lt (x := v)
  exact outputSleb128_eq (n := 9) (by omega) (by omega)

/-! The readers take the bits of `Leb128.readBits`. -/

theorem and_128_eq_zero (b : BfdByte) : b &&& 0x80#8 = 0 ↔ b.toNat < 128 := by
  revert b
  decide

theorem and_64_ne_zero (b : BfdByte) : b &&& 0x40#8 ≠ 0 ↔ 64 ≤ b.toNat % 128 := by
  revert b
  decide

/-- The bits of a byte go behind the ones before. -/
theorem toNat_take_result (s : LebBits) (b : BfdByte) :
    (s.take b).result.toNat = s.result.toNat ||| (b.toNat % 128) <<< s.shift % 2 ^ 64 := by
  have hlow : (b &&& 0x7f#8).toNat = b.toNat % 128 := by
    rw [BitVec.toNat_and]
    exact Nat.and_two_pow_sub_one_eq_mod b.toNat 7
  have hlt : b.toNat % 128 < 2 ^ 64 := lt_of_lt_of_le (Nat.mod_lt _ (by decide)) (by decide)
  rw [LebBits.take, BitVec.toNat_or, BitVec.toNat_shiftLeft, BitVec.toNat_setWidth, hlow,
    Nat.mod_eq_of_lt hlt]

/-- The loop over the bytes up to `end`, in numbers. -/
theorem safeReadLoop_eq (data : List BfdByte) (s : LebBits) :
    let r := safeReadLoop data s
    let b := readBits 64 data s.result.toNat s.shift s.byte
    r.result.toNat = b.result ∧ r.shift = b.shift ∧ r.byte = b.byte ∧
      r.numRead = s.numRead + (data.length - b.rest.length) ∧ b.rest.length ≤ data.length := by
  induction data generalizing s with
  | nil => simp [safeReadLoop, readBits]
  | cons b data ih =>
    simp only [safeReadLoop, readBits, and_128_eq_zero]
    by_cases hb : b.toNat < 128
    · rw [if_pos hb, if_pos hb]
      refine ⟨toNat_take_result s b, rfl, rfl, ?_, ?_⟩
      · simp [LebBits.take]
      · simp
    · rw [if_neg hb, if_neg hb]
      obtain ⟨hres, hshift, hbyte, hnum, hlen⟩ := ih (s.take b)
      rw [toNat_take_result] at hres hshift hbyte hnum hlen
      refine ⟨hres, hshift, hbyte, ?_, ?_⟩
      · rw [hnum]
        simp only [LebBits.take, List.length_cons] at hlen ⊢
        omega
      · exact Nat.le_succ_of_le hlen

/-- Where a last byte is in sight, the loop without a bound is the one with a bound. -/
theorem readLoop_eq {data : List BfdByte} (h : ∃ b ∈ data, b.toNat < 128) (s : LebBits) :
    readLoop data s = some (safeReadLoop data s) := by
  induction data generalizing s with
  | nil =>
    obtain ⟨b, hb, -⟩ := h
    cases hb
  | cons b data ih =>
    simp only [readLoop, safeReadLoop, ne_eq, and_128_eq_zero]
    by_cases hb : b.toNat < 128
    · rw [if_neg (not_not.mpr hb), if_pos hb]
    · rw [if_pos hb, if_neg hb]
      apply ih
      obtain ⟨c, hc, hlast⟩ := h
      rcases List.mem_cons.mp hc with rfl | hc
      · exact absurd hlast hb
      · exact ⟨c, hc, hlast⟩

theorem exists_last_unsigned (v : Nat) : ∃ b ∈ unsigned v, b.toNat < 128 := by
  fun_induction unsigned v with
  | case1 v h => exact ⟨_, List.mem_singleton_self _, by simp; omega⟩
  | case2 v h ih =>
    obtain ⟨b, hb, hlast⟩ := ih
    exact ⟨b, List.mem_cons_of_mem _ hb, hlast⟩

theorem exists_last_signed (v : Int) : ∃ b ∈ signed v, b.toNat < 128 := by
  fun_induction signed v with
  | case1 v h => exact ⟨_, List.mem_singleton_self _, by simp; omega⟩
  | case2 v h ih =>
    obtain ⟨b, hb, hlast⟩ := ih
    exact ⟨b, List.mem_cons_of_mem _ hb, hlast⟩

/-- The bits above the ones that have been read. -/
theorem toNat_neg_shiftLeft {k : Nat} (hk : k < 64) :
    (-((1 : Vma) <<< k)).toNat = 2 ^ 64 - 2 ^ k := by
  have hlt : 2 ^ k < 2 ^ 64 := Nat.pow_lt_pow_right (by decide) hk
  have hone : ((1 : Vma) <<< k).toNat = 2 ^ k := by
    rw [BitVec.toNat_shiftLeft, Nat.shiftLeft_eq]
    exact (congrArg (· % 2 ^ 64) (Nat.one_mul _)).trans (Nat.mod_eq_of_lt hlt)
  have hpos := Nat.two_pow_pos k
  rw [BitVec.toNat_neg, hone, Nat.mod_eq_of_lt (by omega)]

/-- The two spellings of the sign bits. -/
theorem neg_one_shiftLeft (k : Nat) : (-1 : Vma) <<< k = -((1 : Vma) <<< k) := by
  rw [BitVec.shiftLeft_eq_mul_twoPow, BitVec.shiftLeft_eq_mul_twoPow]
  ring

/-- The value of a signed reader, in numbers. -/
theorem toNat_signed {s : LebBits} {b : Bits} (hres : s.result.toNat = b.result)
    (hshift : s.shift = b.shift) (hbyte : s.byte = b.byte) :
    (if s.shift < 64 ∧ s.byte &&& 0x40#8 ≠ 0 then s.result ||| -((1 : Vma) <<< s.shift)
      else s.result).toNat = b.value 64 true := by
  rw [Bits.value, ← hshift, ← hbyte, ← hres]
  by_cases h : s.shift < 64 ∧ s.byte &&& 0x40#8 ≠ 0
  · have hsign := (and_64_ne_zero s.byte).mp h.2
    rw [if_pos h, if_pos (by simp [h.1, hsign]), BitVec.toNat_or, toNat_neg_shiftLeft h.1]
  · rw [if_neg h, if_neg]
    intro hcon
    simp only [Bool.true_and, Bool.and_eq_true, decide_eq_true_eq] at hcon
    exact h ⟨hcon.1, (and_64_ne_zero s.byte).mpr hcon.2⟩

/-- The reader with a bound, in numbers. -/
theorem toNat_bfdSafeReadLeb128 (data : List BfdByte) (sign : Bool) :
    (bfdSafeReadLeb128 data sign).1.toNat = (Leb128.read 64 sign data).1 ∧
      (bfdSafeReadLeb128 data sign).2 = data.length - (Leb128.read 64 sign data).2.length := by
  obtain ⟨hres, hshift, hbyte, hnum, -⟩ := safeReadLoop_eq data .start
  constructor
  · cases sign with
    | false =>
      simp only [bfdSafeReadLeb128, Leb128.read, Bits.value, Bool.false_eq_true, false_and,
        Bool.false_and, if_false]
      exact hres
    | true =>
      simp only [bfdSafeReadLeb128, Leb128.read, true_and]
      exact toNat_signed hres hshift hbyte
  · exact hnum.trans (Nat.zero_add _)

theorem bfdSafeReadLeb128_eq {data : List BfdByte} {sign : Bool} {n : Nat}
    (h : Leb128.read 64 sign data = (v.toNat, rest)) (hn : data.length = n + rest.length) :
    bfdSafeReadLeb128 data sign = (v, n) := by
  obtain ⟨hval, hnum⟩ := toNat_bfdSafeReadLeb128 data sign
  rw [h] at hval hnum
  refine Prod.ext (BitVec.eq_of_toNat_eq hval) ?_
  rw [hnum, hn, Nat.add_sub_cancel]

/-- The readers without a bound, where a last byte is in sight. -/
theorem bfdReadUnsignedLeb128_eq {buf : List BfdByte} (h : ∃ b ∈ buf, b.toNat < 128) :
    bfdReadUnsignedLeb128 buf = some (bfdSafeReadLeb128 buf false) := by
  rw [bfdReadUnsignedLeb128, readLoop_eq h]
  simp [bfdSafeReadLeb128]

theorem bfdReadSignedLeb128_eq {buf : List BfdByte} (h : ∃ b ∈ buf, b.toNat < 128) :
    bfdReadSignedLeb128 buf = some (bfdSafeReadLeb128 buf true) := by
  rw [bfdReadSignedLeb128, readLoop_eq h]
  simp only [bfdSafeReadLeb128, Option.map_some, true_and, neg_one_shiftLeft]

theorem bfdSafeReadLeb128_outputLeb128 (v : Vma) (sign : Bool) (rest : List BfdByte) :
    bfdSafeReadLeb128 (outputLeb128 v sign ++ rest) sign = (v, sizeofLeb128 v sign) := by
  refine @bfdSafeReadLeb128_eq v rest _ sign _ ?_ ?_
  · cases sign with
    | false =>
      rw [outputLeb128_unsigned, read_unsigned v.isLt]
    | true =>
      have hlo := BitVec.le_toInt v
      have hhi := BitVec.toInt_lt (x := v)
      rw [outputLeb128_signed, read_signed (by decide) hlo hhi]
      have hnat : (v.toInt % 2 ^ 64).toNat = v.toNat := by
        rw [BitVec.toInt_eq_toNat_cond]
        split <;> omega
      rw [hnat]
  · rw [List.length_append, length_outputLeb128]

theorem exists_last_outputLeb128 (v : Vma) (sign : Bool) (rest : List BfdByte) :
    ∃ b ∈ outputLeb128 v sign ++ rest, b.toNat < 128 := by
  obtain ⟨b, hb, hlast⟩ : ∃ b ∈ outputLeb128 v sign, b.toNat < 128 := by
    cases sign with
    | false =>
      rw [outputLeb128_unsigned]
      exact exists_last_unsigned v.toNat
    | true =>
      rw [outputLeb128_signed]
      exact exists_last_signed v.toInt
  exact ⟨b, List.mem_append_left _ hb, hlast⟩

/-- What the assembler writes for a number, BFD reads back: the writer fills the bytes that the
sizer has counted, and every reader returns the number and that count. -/
theorem leb128_roundTrip (v : Vma) (sign : Bool) (rest : List BfdByte) :
    (outputLeb128 v sign).length = sizeofLeb128 v sign ∧
    bfdSafeReadLeb128 (outputLeb128 v sign ++ rest) sign = (v, sizeofLeb128 v sign) ∧
    (if sign then bfdReadSignedLeb128 (outputLeb128 v sign ++ rest)
      else bfdReadUnsignedLeb128 (outputLeb128 v sign ++ rest)) =
      some (v, sizeofLeb128 v sign) := by
  have hlast := exists_last_outputLeb128 v sign rest
  have hsafe := bfdSafeReadLeb128_outputLeb128 v sign rest
  refine ⟨length_outputLeb128 v sign, hsafe, ?_⟩
  cases sign with
  | false => rw [if_neg (by decide), bfdReadUnsignedLeb128_eq hlast, hsafe]
  | true => rw [if_pos rfl, bfdReadSignedLeb128_eq hlast, hsafe]

example : outputLeb128 (-129) true = [0xff#8, 0x7e#8] := by decide

end FusionBinutils.Gas
