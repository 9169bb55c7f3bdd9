import Mathlib.Tactic.Ring

/-! Numbers as decimal text in bytes. -/
namespace FusionBinutils.Decimal

/-- The digits of a number, the first one first; as many turns as the number are enough. -/
def digits : Nat → Nat → List Nat
  | 0, _ => []
  | k + 1, n => if n < 10 then [n] else digits k (n / 10) ++ [n % 10]

/-- `%u`. -/
def text (n : Nat) : List (BitVec 8) := (digits (n + 1) n).map fun d => .ofNat 8 (48 + d)

def isDigit (b : BitVec 8) : Bool := 48 ≤ b.toNat && b.toNat ≤ 57

/-- The value of some digits. -/
def value (bs : List (BitVec 8)) : Nat := bs.foldl (fun v b => v * 10 + (b.toNat - 48)) 0

theorem digits_lt {k n d : Nat} (h : d ∈ digits k n) : d < 10 := by
  induction k generalizing n with
  | zero => simp [digits] at h
  | succ k ih =>
    rw [digits] at h
    split at h
    · next hlt => rwa [List.mem_singleton.mp h]
    · rcases List.mem_append.mp h with h | h
      · exact ih h
      · rw [List.mem_singleton.mp h]
        exact Nat.mod_lt _ (by decide)

theorem isDigit_text {n : Nat} {b : BitVec 8} (h : b ∈ text n) : isDigit b = true := by
  obtain ⟨d, hd, rfl⟩ := List.mem_map.mp h
  have hlt := digits_lt hd
  simp only [isDigit, BitVec.toNat_ofNat, Bool.and_eq_true, decide_eq_true_eq]
  omega

theorem text_ne_nil (n : Nat) : text n ≠ [] := by
  rw [text, digits]
  split <;> simp

theorem length_digits {k n m : Nat} (hm : 0 < m) (h : n < 10 ^ m) : (digits k n).length ≤ m := by
  induction k generalizing n m with
  | zero => simp [digits]
  | succ k ih =>
    rw [digits]
    split
    · exact hm
    · next hlt =>
      obtain ⟨m, rfl⟩ : ∃ j, m = j + 1 := ⟨m - 1, by omega⟩
      have hpos : 0 < m := by
        rcases Nat.eq_zero_or_pos m with rfl | hpos
        · simp only [Nat.zero_add, Nat.pow_one] at h
          omega
        · exact hpos
      have hdiv : n / 10 < 10 ^ m := by
        rw [Nat.div_lt_iff_lt_mul (by decide), ← Nat.pow_succ]
        exact h
      have := ih hpos hdiv
      simp only [List.length_append, List.length_singleton]
      omega

theorem length_text {n m : Nat} (hm : 0 < m) (h : n < 10 ^ m) : (text n).length ≤ m := by
  rw [text, List.length_map]
  exact length_digits hm h

theorem foldl_digits {k n : Nat} (h : n < k) :
    ((digits k n).map fun d => BitVec.ofNat 8 (48 + d)).foldl
      (fun v b => v * 10 + (b.toNat - 48)) 0 = n := by
  induction k generalizing n with
  | zero => omega
  | succ k ih =>
    rw [digits]
    split
    · simp
      omega
    · rw [List.map_append, List.foldl_append, ih (by omega)]
      simp
      omega

/-- A number comes back from its digits. -/
theorem value_text (n : Nat) : value (text n) = n := foldl_digits (Nat.lt_succ_self n)

theorem foldl_lt {bs : List (BitVec 8)} (h : ∀ b ∈ bs, isDigit b = true) (v : Nat) :
    bs.foldl (fun v b => v * 10 + (b.toNat - 48)) v < (v + 1) * 10 ^ bs.length := by
  induction bs generalizing v with
  | nil => simp
  | cons b bs ih =>
    have hb := h b List.mem_cons_self
    simp only [isDigit, Bool.and_eq_true, decide_eq_true_eq] at hb
    calc
      (b :: bs).foldl (fun v b => v * 10 + (b.toNat - 48)) v
          < (v * 10 + (b.toNat - 48) + 1) * 10 ^ bs.length :=
        ih (fun c hc => h c (List.mem_cons_of_mem b hc)) _
      _ ≤ ((v + 1) * 10) * 10 ^ bs.length := Nat.mul_le_mul_right _ (by omega)
      _ = (v + 1) * 10 ^ (b :: bs).length := by
        rw [List.length_cons, Nat.pow_succ]
        ring

/-- A number is below the power of ten that has one digit more. -/
theorem lt_pow_length_text (n : Nat) : n < 10 ^ (text n).length := by
  have hlt := foldl_lt (fun b hb => isDigit_text (n := n) hb) 0
  have hvalue := value_text n
  rw [value] at hvalue
  rw [hvalue] at hlt
  simpa using hlt

end FusionBinutils.Decimal
