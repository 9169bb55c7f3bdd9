import FusionBinutils.Lib.Blocks

/-! Blocks written one after the other, each at the next multiple of its alignment. -/
namespace FusionBinutils.Aligned

open Blocks

variable {α β : Type*} {n a : Nat}

/-- The distance from `n` to the next multiple of `a`. -/
def padTo (n a : Nat) : Nat := (a - n % a) % a

theorem padTo_one (n : Nat) : padTo n 1 = 0 := by simp [padTo, Nat.mod_one]

theorem zero_padTo (a : Nat) : padTo 0 a = 0 := by simp [padTo]

theorem dvd_add_padTo (ha : 0 < a) : a ∣ n + padTo n a := by
  unfold padTo
  have hr := Nat.mod_lt n ha
  have hdiv := Nat.div_add_mod n a
  by_cases hz : n % a = 0
  · rw [hz, Nat.sub_zero, Nat.mod_self, Nat.add_zero]
    exact Nat.dvd_of_mod_eq_zero hz
  · rw [Nat.mod_eq_of_lt (by omega : a - n % a < a)]
    refine ⟨n / a + 1, ?_⟩
    rw [Nat.mul_add, Nat.mul_one]
    omega

theorem padTo_lt (ha : 0 < a) : padTo n a < a := Nat.mod_lt _ ha

/-- For a power of two the padding is what a mask leaves of the negated offset, and the next
multiple is what it leaves of the offset with one less than the alignment added. -/
theorem add_padTo_two_pow (n t : Nat) :
    (n + 2 ^ t - 1) - (n + 2 ^ t - 1) % 2 ^ t = n + padTo n (2 ^ t) := by
  have hpos : 0 < 2 ^ t := Nat.two_pow_pos t
  obtain ⟨q, hq⟩ := dvd_add_padTo (n := n) hpos
  have hlt := padTo_lt (n := n) hpos
  have hmod : (n + 2 ^ t - 1) % 2 ^ t = 2 ^ t - 1 - padTo n (2 ^ t) := by
    have hsum : n + 2 ^ t - 1 = 2 ^ t * q + (2 ^ t - 1 - padTo n (2 ^ t)) := by omega
    rw [hsum, Nat.mul_add_mod, Nat.mod_eq_of_lt (by omega)]
  rw [hmod]
  omega

variable (align : β → Nat) (bytes : β → List α) (zero : α)

/-- The offset after a block. -/
def place (off : Nat) (b : β) : Nat := off + padTo off (align b) + (bytes b).length

/-- The offset after all blocks. -/
def ends (off : Nat) (l : List β) : Nat := l.foldl (place align bytes) off

/-- The blocks with the padding before each. -/
def emit : Nat → List β → List α
  | _, [] => []
  | off, b :: l =>
    List.replicate (padTo off (align b)) zero ++ bytes b ++ emit (place align bytes off b) l

theorem ends_snoc (off : Nat) (l : List β) (b : β) :
    ends align bytes off (l ++ [b]) = place align bytes (ends align bytes off l) b := by
  simp [ends]

theorem emit_length (off : Nat) (l : List β) :
    off + (emit align bytes zero off l).length = ends align bytes off l := by
  induction l generalizing off with
  | nil => rfl
  | cons b l ih =>
    have h := ih (place align bytes off b)
    simp only [emit, List.length_append, List.length_replicate]
    show _ = ends align bytes (place align bytes off b) l
    rw [← h, place]
    omega

theorem emit_append (off : Nat) (l m : List β) :
    emit align bytes zero off (l ++ m)
      = emit align bytes zero off l ++ emit align bytes zero (ends align bytes off l) m := by
  induction l generalizing off with
  | nil => rfl
  | cons b l ih =>
    simp only [List.cons_append, emit, ih, List.append_assoc]
    rfl

/-- A block stands behind its padding, after the blocks before it. -/
theorem standsAt_emit (pre post : List β) (b : β) :
    StandsAt (emit align bytes zero 0 (pre ++ b :: post))
      (ends align bytes 0 pre + padTo (ends align bytes 0 pre) (align b)) (bytes b) := by
  rw [emit_append]
  have hlen := emit_length align bytes zero 0 pre
  rw [Nat.zero_add] at hlen
  rw [← hlen]
  apply StandsAt.append_left
  rw [emit, List.append_assoc]
  have h : StandsAt (bytes b ++ emit align bytes zero (place align bytes
      (emit align bytes zero 0 pre).length b) post) 0 (bytes b) := standsAt_zero _ _
  simpa using h.append_left
    (List.replicate (padTo (emit align bytes zero 0 pre).length (align b)) zero)

end FusionBinutils.Aligned
