import Mathlib.Algebra.BigOperators.Group.List.Basic
import Mathlib.Data.List.Chain

/-! Blocks laid end to end: the offset at which each block starts, and the addresses that agree
with these offsets. -/
namespace FusionBinutils.Offsets

variable {α β : Type*} [AddMonoid α] {size addr : β → α} {a : α} {l : List β}

/-- The offset of each block, when the first one starts at `a`. -/
def starts (size : β → α) : α → List β → List α
  | _, [] => []
  | a, b :: l => a :: starts size (a + size b) l

/-- Addresses are the offsets of the blocks exactly when the first is right and every block is
as long as the distance to the next. -/
theorem starts_eq_map_iff :
    starts size a l = l.map addr ↔
      (∀ b ∈ l.head?, addr b = a) ∧ l.IsChain fun b c => addr c = addr b + size b := by
  induction l generalizing a with
  | nil => simp [starts]
  | cons b l ih =>
    simp only [starts, List.map_cons, List.cons.injEq, ih, List.isChain_cons, List.head?_cons,
      Option.mem_some_iff, forall_eq', ← and_assoc]
    constructor
    · rintro ⟨⟨rfl, hn⟩, hc⟩
      exact ⟨⟨rfl, hn⟩, hc⟩
    · rintro ⟨⟨rfl, hn⟩, hc⟩
      exact ⟨⟨rfl, hn⟩, hc⟩

theorem starts_append (pre post : List β) :
    starts size a (pre ++ post) =
      starts size a pre ++ starts size (a + (pre.map size).sum) post := by
  induction pre generalizing a with
  | nil => simp [starts]
  | cons b pre ih => simp [starts, ih, add_assoc]

theorem length_starts : (starts size a l).length = l.length := by
  induction l generalizing a with
  | nil => rfl
  | cons b l ih => simp [starts, ih]

/-- An address that agrees is the sum of what stands before it. -/
theorem addr_eq_sum {pre post : List β} {b : β}
    (h : starts size a (pre ++ b :: post) = (pre ++ b :: post).map addr) :
    addr b = a + (pre.map size).sum := by
  rw [starts_append, List.map_append] at h
  have ht := (List.append_inj h (by simp [length_starts])).2
  exact (List.cons.inj ht).1.symm

/-- When the addresses agree, the whole ends behind the last block. -/
theorem end_eq_last {b : β} (h : starts size a l = l.map addr) (hl : l.getLast? = some b) :
    a + (l.map size).sum = addr b + size b := by
  obtain ⟨pre, rfl⟩ := List.getLast?_eq_some_iff.mp hl
  rw [addr_eq_sum h]
  simp [add_assoc]

end FusionBinutils.Offsets
