import FusionBinutils.Lib.Hex

/-! Numbers and names of Tektronix hex records (bfd/tekhex.c). The buffer is what is left of it up
to its end, where a null character stands. -/
namespace FusionBinutils.Bfd.Tekhex

variable {n shift len : Nat} {v value : BitVec 64} {rest sym : List Char}

/-- The loop of `getvalue`. -/
def getDigits : Nat → BitVec 64 → List Char → Option (BitVec 64 × List Char)
  | 0, value, src => some (value, src)
  | _ + 1, _, [] => none
  | len + 1, value, c :: src => do
    let d ← Hex.value c
    getDigits len (value <<< 4 ||| .ofNat 64 d) src

def getvalue : List Char → Option (BitVec 64 × List Char)
  | [] => none
  | c :: src => do
    let len ← Hex.value c
    getDigits (if len = 0 then 16 else len) 0 src

/-- The name, its length and what follows it. -/
def getsym : List Char → Option (List Char × Nat × List Char)
  | [] => none
  | c :: src => do
    let n ← Hex.value c
    let len := if n = 0 then 16 else n
    if src.length < len then none else some (src.take len, len, src.drop len)

/-- `(value >> shift) & 0xf`. -/
def nibble (value : BitVec 64) (shift : Nat) : BitVec 64 := value >>> shift &&& 0xf

/-- The inner loop of `writevalue`. -/
def writeDigits (value : BitVec 64) : Nat → Nat → List Char
  | _, 0 => []
  | shift, len + 1 =>
    Hex.digit (nibble value shift).toNat :: writeDigits value (shift - 4) len

/-- The outer loop of `writevalue`. -/
def writeFrom (value : BitVec 64) (shift : Nat) : Nat → List Char
  | 0 => ['1', '0']
  | len + 1 =>
    if shift = 0 then ['1', '0']
    else if nibble value shift ≠ 0 then
      Char.ofNat (len + 1 + 48) :: writeDigits value shift (len + 1)
    else writeFrom value (shift - 4) len

def writevalue (value : BitVec 64) : List Char := writeFrom value 28 8

def writesym (sym : List Char) : List Char :=
  if 16 ≤ sym.length then '0' :: sym.take 16
  else if sym.length = 0 then ['1', '$']
  else Hex.digit sym.length :: sym

/-! Numbers. -/

/-- The digits that are left are those of the value below its first bits. -/
theorem shiftLeft_or_nibble (v : BitVec 64) (n : Nat) :
    (v >>> (4 * (n + 1))) <<< 4 ||| nibble v (4 * n) = v >>> (4 * n) := by
  apply BitVec.eq_of_getLsbD_eq
  intro i hi
  have hmask : (0xf : BitVec 64).getLsbD i = decide (i < 4) := by
    have hall : ∀ j < 64, (0xf : BitVec 64).getLsbD j = decide (j < 4) := by decide
    exact hall i hi
  simp only [nibble, BitVec.getLsbD_or, BitVec.getLsbD_shiftLeft, BitVec.getLsbD_and,
    BitVec.getLsbD_ushiftRight, hmask]
  by_cases h4 : i < 4
  · simp [h4]
  · have hshift : 4 * (n + 1) + (i - 4) = 4 * n + i := by omega
    simp [h4, hi, hshift]

theorem nibble_lt (v : BitVec 64) (shift : Nat) : (nibble v shift).toNat < 16 := by
  rw [nibble, BitVec.toNat_and]
  exact Nat.lt_of_le_of_lt Nat.and_le_right (by decide)

theorem getDigits_writeDigits (n : Nat) :
    getDigits n (v >>> (4 * n)) (writeDigits v (4 * (n - 1)) n ++ rest) = some (v, rest) := by
  induction n with
  | zero => simp [getDigits, writeDigits]
  | succ n ih =>
    have hd : BitVec.ofNat 64 ((nibble v (4 * n)).toNat % 16) = nibble v (4 * n) := by
      rw [Nat.mod_eq_of_lt (nibble_lt v _), BitVec.ofNat_toNat, BitVec.setWidth_eq]
    have hshift : 4 * n - 4 = 4 * (n - 1) := by omega
    rw [Nat.add_sub_cancel, writeDigits, List.cons_append, getDigits, Hex.value_digit]
    simp only [Option.bind_eq_bind, Option.bind_some]
    rw [hd, shiftLeft_or_nibble, hshift]
    exact ih

theorem nibble_toNat (v : BitVec 64) (n : Nat) :
    (nibble v (4 * n)).toNat = v.toNat / 16 ^ n % 16 := by
  have hmask : (0xf : BitVec 64).toNat = 2 ^ 4 - 1 := rfl
  rw [nibble, BitVec.toNat_and, hmask, Nat.and_two_pow_sub_one_eq_mod, BitVec.toNat_ushiftRight,
    Nat.shiftRight_eq_div_pow, Nat.pow_mul]

/-- A number below 16 is written as the digit 0. -/
theorem getvalue_writeFrom (v : BitVec 64) (rest : List Char) (n : Nat) (hn : n ≤ 7)
    (hv : v.toNat < 16 ^ (n + 1)) :
    getvalue (writeFrom v (4 * n) (n + 1) ++ rest)
      = some (if v.toNat < 16 then 0 else v, rest) := by
  induction n with
  | zero =>
    rw [if_pos (by simpa using hv)]
    rfl
  | succ n ih =>
    rw [writeFrom, if_neg (by omega)]
    split
    · next hne =>
      have hlarge : ¬ v.toNat < 16 := by
        intro hlt
        apply hne
        apply BitVec.eq_of_toNat_eq
        rw [nibble_toNat, Nat.div_eq_of_lt]
        · rfl
        · exact Nat.lt_of_lt_of_le hlt (Nat.le_self_pow (by omega) 16)
      have hchar : Hex.value (Char.ofNat (n + 1 + 1 + 48)) = some (n + 2) := by
        have hall : ∀ k < 10, Hex.value (Char.ofNat (k + 48)) = some k := by decide
        exact hall (n + 2) (by omega)
      have hzero : (0 : BitVec 64) = v >>> (4 * (n + 2)) := by
        apply BitVec.eq_of_toNat_eq
        rw [BitVec.toNat_ushiftRight, Nat.shiftRight_eq_div_pow, Nat.pow_mul]
        exact (Nat.div_eq_of_lt hv).symm
      rw [if_neg hlarge, List.cons_append, getvalue, hchar]
      simp only [Option.bind_eq_bind, Option.bind_some, Nat.succ_ne_zero, if_false]
      rw [hzero]
      exact getDigits_writeDigits (n + 2)
    · next hzero =>
      have hzero : (nibble v (4 * (n + 1))).toNat = 0 := by
        rw [not_not.mp hzero]
        rfl
      have hlt : v.toNat < 16 ^ (n + 1) := by
        rw [nibble_toNat] at hzero
        have hquot : v.toNat / 16 ^ (n + 1) < 16 := by
          rw [Nat.div_lt_iff_lt_mul (by positivity)]
          calc v.toNat < 16 ^ (n + 1 + 1) := hv
            _ = 16 * 16 ^ (n + 1) := Nat.pow_succ'
        rw [Nat.mod_eq_of_lt hquot] at hzero
        exact Nat.lt_of_div_eq_zero (by positivity) hzero
      have hnext : 4 * (n + 1) - 4 = 4 * n := by omega
      rw [hnext]
      exact ih (by omega) hlt

theorem getvalue_writevalue (v : BitVec 32) (rest : List Char) :
    getvalue (writevalue (v.setWidth 64) ++ rest)
      = some (if v.toNat < 16 then 0 else v.setWidth 64, rest) := by
  have hv : (v.setWidth 64).toNat = v.toNat := by
    rw [BitVec.toNat_setWidth, Nat.mod_eq_of_lt (Nat.lt_trans v.isLt (by decide))]
  have h := getvalue_writeFrom (v.setWidth 64) rest 7 (Nat.le_refl _)
    (by rw [hv]; exact v.isLt)
  rwa [hv] at h

/-! Names. -/

theorem getsym_writesym (hpos : sym ≠ []) (hlen : sym.length ≤ 16) :
    getsym (writesym sym ++ rest) = some (sym, sym.length, rest) := by
  have hne : sym.length ≠ 0 := fun h0 => hpos (List.length_eq_zero_iff.mp h0)
  have hread : ∀ c, Hex.value c = some (sym.length % 16) →
      getsym (c :: sym ++ rest) = some (sym, sym.length, rest) := by
    intro c hc
    have hcount : (if sym.length % 16 = 0 then 16 else sym.length % 16) = sym.length := by
      split <;> omega
    rw [List.cons_append, getsym, hc]
    simp [hcount]
  rw [writesym, if_neg hne]
  split
  · next h16 =>
    have heq : sym.length = 16 := by omega
    rw [List.take_of_length_le (by omega)]
    exact hread '0' (by rw [heq]; rfl)
  · exact hread _ (Hex.value_digit _)

/-- The loop of `writevalue` leaves out the last digit, so that a number of one digit is not
written; all others, and the names, read back. -/
theorem tekhex_reads_back (v : BitVec 32) (sym rest rest' : List Char) (hpos : sym ≠ [])
    (hlen : sym.length ≤ 16) :
    (getvalue (writevalue (v.setWidth 64) ++ rest) = some (v.setWidth 64, rest) ∧
      getsym (writesym sym ++ rest') = some (sym, sym.length, rest')) ↔ v = 0 ∨ 16 ≤ v.toNat := by
  rw [getvalue_writevalue, getsym_writesym hpos hlen]
  by_cases hlt : v.toNat < 16
  · rw [if_pos hlt]
    constructor
    · rintro ⟨hv, -⟩
      have hzero : (0 : BitVec 64) = v.setWidth 64 := congrArg Prod.fst (Option.some.inj hv)
      refine .inl (BitVec.eq_of_toNat_eq ?_)
      have hnat := congrArg BitVec.toNat hzero
      rw [BitVec.toNat_setWidth, Nat.mod_eq_of_lt (by omega)] at hnat
      exact hnat.symm
    · rintro (rfl | hge)
      · exact ⟨rfl, rfl⟩
      · omega
  · rw [if_neg hlt]
    exact ⟨fun _ => .inr (Nat.le_of_not_lt hlt), fun _ => ⟨rfl, rfl⟩⟩

theorem tekhex_reads_back_text :
    (getvalue (writevalue ((0x8000 : BitVec 32).setWidth 64) ++ ['6'])
        = some ((0x8000 : BitVec 32).setWidth 64, ['6']) ∧
      getsym (writesym ['f'] ++ []) = some (['f'], 1, [])) ↔
      (0x8000 : BitVec 32) = 0 ∨ 16 ≤ (0x8000 : BitVec 32).toNat :=
  tekhex_reads_back 0x8000 ['f'] ['6'] [] (by decide) (by decide)

/-- The number 6 is written as a 0 of one digit. -/
theorem six_lost :
    writevalue ((6 : BitVec 32).setWidth 64) = ['1', '0'] ∧
      ¬ getvalue (writevalue ((6 : BitVec 32).setWidth 64) ++ ['8'])
        = some ((6 : BitVec 32).setWidth 64, ['8']) := by
  decide

end FusionBinutils.Bfd.Tekhex
