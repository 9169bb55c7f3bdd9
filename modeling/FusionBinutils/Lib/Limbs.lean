import Mathlib.Data.Nat.Digits.Defs
import Mathlib.Tactic.Ring
import Mathlib.Tactic.Linarith

/-! Numbers as lists of words of `w` bits, the lowest word first. -/
namespace FusionBinutils.Limbs

variable {w : Nat} {nums nums' : List (BitVec w)}

def value (nums : List (BitVec w)) : Nat := Nat.ofDigits (2 ^ w) (nums.map BitVec.toNat)

/-- The number in two's complement: the sign is the highest bit of the last word. -/
def signedValue (nums : List (BitVec w)) : Int :=
  if 2 * value nums < 2 ^ (w * nums.length) then value nums
  else (value nums : Int) - (2 ^ (w * nums.length) : Nat)

/-- The number times `b`, plus a carry: the words of the result that fit and the last carry. -/
def mulAdd (b : Nat) : Nat → List (BitVec w) → List (BitVec w) × Nat
  | carry, [] => ([], carry)
  | carry, n :: nums =>
    let work := carry + b * n.toNat
    let r := mulAdd b (work / 2 ^ w) nums
    (.ofNat w work :: r.1, r.2)

@[simp]
theorem value_nil : value ([] : List (BitVec w)) = 0 := rfl

theorem value_cons (n : BitVec w) (nums : List (BitVec w)) :
    value (n :: nums) = n.toNat + 2 ^ w * value nums := by
  rw [value, List.map_cons, Nat.ofDigits_cons]
  rfl

theorem value_append (nums nums' : List (BitVec w)) :
    value (nums ++ nums') = value nums + 2 ^ (w * nums.length) * value nums' := by
  rw [value, List.map_append, Nat.ofDigits_append, List.length_map, ← pow_mul]
  rfl

theorem value_lt (nums : List (BitVec w)) : value nums < 2 ^ (w * nums.length) := by
  induction nums with
  | nil => exact Nat.one_pos
  | cons n nums ih =>
    have hn := n.isLt
    have hrest : 2 ^ w * (value nums + 1) ≤ 2 ^ w * 2 ^ (w * nums.length) :=
      Nat.mul_le_mul_left _ ih
    rw [value_cons, List.length_cons, Nat.mul_succ, Nat.add_comm (w * _), Nat.pow_add]
    linarith

/-- Zeros above a number do not change it. -/
theorem value_append_zeros (k : Nat) : value (nums ++ .replicate k 0#w) = value nums := by
  have hzero : value (List.replicate k 0#w) = 0 := by
    rw [value, List.map_replicate]
    exact Nat.ofDigits_replicate_zero
  rw [value_append, hzero, Nat.mul_zero, Nat.add_zero]

@[simp]
theorem length_mulAdd (b carry : Nat) (nums : List (BitVec w)) :
    (mulAdd b carry nums).1.length = nums.length := by
  induction nums generalizing carry with
  | nil => rfl
  | cons n nums ih => rw [mulAdd, List.length_cons, ih, List.length_cons]

/-- Nothing is lost: what does not fit is the carry. -/
theorem value_mulAdd (b carry : Nat) (nums : List (BitVec w)) :
    value (mulAdd b carry nums).1 + 2 ^ (w * nums.length) * (mulAdd b carry nums).2 =
      b * value nums + carry := by
  induction nums generalizing carry with
  | nil => simp [mulAdd]
  | cons n nums ih =>
    have hwork := Nat.mod_add_div (carry + b * n.toNat) (2 ^ w)
    have hrest := ih ((carry + b * n.toNat) / 2 ^ w)
    rw [mulAdd, value_cons, value_cons, BitVec.toNat_ofNat, List.length_cons, Nat.mul_succ,
      Nat.add_comm (w * _), Nat.pow_add]
    calc _ = (carry + b * n.toNat) % 2 ^ w +
          2 ^ w * (value (mulAdd b ((carry + b * n.toNat) / 2 ^ w) nums).1 +
            2 ^ (w * nums.length) * (mulAdd b ((carry + b * n.toNat) / 2 ^ w) nums).2) := by ring
      _ = (carry + b * n.toNat) % 2 ^ w + 2 ^ w * ((carry + b * n.toNat) / 2 ^ w) +
          2 ^ w * (b * value nums) := by rw [hrest]; ring
      _ = _ := by rw [hwork]; ring

/-- A carry below the factor leaves a carry below the factor. -/
theorem mulAdd_lt {b carry : Nat} (h : carry < b) : (mulAdd b carry nums).2 < b := by
  induction nums generalizing carry with
  | nil => exact h
  | cons n nums ih =>
    apply ih
    rw [Nat.div_lt_iff_lt_mul (Nat.two_pow_pos w)]
    have hn : b * (n.toNat + 1) ≤ b * 2 ^ w := Nat.mul_le_mul_left _ n.isLt
    linarith

/-! Two's complement. -/

@[simp]
theorem signedValue_singleton (n : BitVec w) : signedValue [n] = n.toInt := by
  rw [signedValue, value_cons, value_nil, BitVec.toInt_eq_toNat_cond, Nat.mul_zero, Nat.add_zero,
    List.length_singleton, Nat.mul_one]

theorem signedValue_cons (hw : 0 < w) (n : BitVec w) (h : nums ≠ []) :
    signedValue (n :: nums) = n.toNat + 2 ^ w * signedValue nums := by
  have hn := n.isLt
  obtain ⟨m, hm⟩ : ∃ m, 2 ^ (w * nums.length) = 2 * m := by
    have hlen := Nat.mul_pos hw (List.length_pos_iff.mpr h)
    exact dvd_pow_self 2 (by omega)
  have hpow : 2 ^ (w * (n :: nums).length) = 2 ^ w * (2 * m) := by
    rw [List.length_cons, Nat.mul_succ, Nat.pow_add, hm, Nat.mul_comm]
  have hiff : 2 * (n.toNat + 2 ^ w * value nums) < 2 ^ w * (2 * m) ↔ 2 * value nums < 2 * m := by
    constructor
    · intro hlt
      have hlt' : 2 ^ w * value nums < 2 ^ w * m := by linarith
      have := Nat.lt_of_mul_lt_mul_left hlt'
      omega
    · intro hlt
      have hle : 2 ^ w * (value nums + 1) ≤ 2 ^ w * m := Nat.mul_le_mul_left _ (by omega)
      linarith
  rw [signedValue, signedValue, value_cons, hpow, hm]
  by_cases hlt : 2 * value nums < 2 * m
  · rw [if_pos hlt, if_pos (hiff.mpr hlt)]
    push_cast
    ring
  · rw [if_neg hlt, if_neg fun h => hlt (hiff.mp h)]
    push_cast
    ring

/-- A word of sign bits above a number with that sign does not change it. -/
theorem signedValue_sign_word (hw : 0 < w) (n : BitVec w) (hn : n.toInt < 0) :
    signedValue (nums ++ [n, BitVec.allOnes w]) = signedValue (nums ++ [n]) := by
  induction nums with
  | nil =>
    have hones : (BitVec.allOnes w).toInt = -1 := by rw [BitVec.toInt_allOnes, if_pos hw]
    have hneg : n.toInt = n.toNat - (2 ^ w : Nat) := by
      rw [BitVec.toInt_eq_toNat_cond] at hn ⊢
      split at hn
      · omega
      · next hge => rw [if_neg hge]
    rw [List.nil_append, List.nil_append, signedValue_cons hw n (by simp), signedValue_singleton,
      signedValue_singleton, hones, hneg]
    push_cast
    ring
  | cons m nums ih =>
    rw [List.cons_append, List.cons_append, signedValue_cons hw m (by simp),
      signedValue_cons hw m (by simp), ih]

/-- The last word is the signed one. -/
theorem signedValue_concat (hw : 0 < w) (nums : List (BitVec w)) (n : BitVec w) :
    signedValue (nums ++ [n]) = value nums + 2 ^ (w * nums.length) * n.toInt := by
  induction nums with
  | nil => simp
  | cons m nums ih =>
    rw [List.cons_append, signedValue_cons hw m (by simp), ih, value_cons, List.length_cons,
      Nat.mul_succ, Nat.add_comm (w * _), pow_add]
    push_cast
    ring

/-- A number in two's complement is itself as long as its last word is no negative one. -/
theorem signedValue_concat_eq_iff (hw : 0 < w) (nums : List (BitVec w)) (n : BitVec w) :
    signedValue (nums ++ [n]) = value (nums ++ [n]) ↔ n.toInt = n.toNat := by
  have hpos : (0 : Int) < 2 ^ (w * nums.length) := by positivity
  rw [signedValue_concat hw, value_append, value_cons, value_nil, Nat.mul_zero, Nat.add_zero]
  push_cast
  constructor
  · intro h
    exact mul_left_cancel₀ hpos.ne' (add_left_cancel h)
  · intro h
    rw [h]

end FusionBinutils.Limbs
