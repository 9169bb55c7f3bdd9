import Mathlib.Data.List.Basic
import Mathlib.Order.Defs.LinearOrder

/-! Ranges of numbers, and lists of them that do not overlap. Nothing here refers to a program. -/
namespace FusionBinutils.Ranges

/-- The numbers from `start` on, `length` of them. -/
structure Range where
  start : Nat
  length : Nat

variable {a b c : Range}

def Range.stop (a : Range) : Nat := a.start + a.length

def Range.Has (a : Range) (x : Nat) : Prop := a.start ≤ x ∧ x < a.stop

/-- No number is in both. -/
def Apart (a b : Range) : Prop := ∀ x, a.Has x → ¬ b.Has x

theorem Apart.symm (h : Apart a b) : Apart b a := fun x hb ha => h x ha hb

/-- Every number of the one is in the other. -/
def Within (a b : Range) : Prop := ∀ x, a.Has x → b.Has x

theorem within_of_le (hstart : b.start ≤ a.start) (hstop : a.stop ≤ b.stop) : Within a b :=
  fun _ h => ⟨Nat.le_trans hstart h.1, Nat.lt_of_lt_of_le h.2 hstop⟩

theorem within_of_length_zero (h : a.length = 0) : Within a b := by
  rintro x ⟨hle, hlt⟩
  unfold Range.stop at hlt
  omega

/-- One range ends before the other one starts. -/
def Before (a b : Range) : Prop := a.stop ≤ b.start

theorem Before.trans (hab : Before a b) (hbc : Before b c) : Before a c := by
  unfold Before Range.stop at *
  omega

theorem Before.apart (h : Before a b) : Apart a b := by
  rintro x ⟨_, hlt⟩ ⟨hle, _⟩
  exact Nat.not_lt_of_le (Nat.le_trans h hle) hlt

/-- The range with the lower start ends before the other one. -/
theorem Apart.before (h : Apart a b) (hstart : a.start ≤ b.start) (hlen : 0 < b.length) :
    Before a b := by
  by_contra hnot
  refine h b.start ⟨hstart, Nat.lt_of_not_le hnot⟩ ⟨Nat.le_refl _, ?_⟩
  exact Nat.lt_add_of_pos_right hlen

/-- Neighbours one after the other are apart, and so are all. -/
theorem isChain_before_iff {α : Type*} (range : α → Range) {l : List α} :
    l.IsChain (fun a b => Before (range a) (range b)) ↔
      l.Pairwise fun a b => Before (range a) (range b) := by
  have htrans : Trans (fun a b => Before (range a) (range b))
      (fun a b => Before (range a) (range b)) fun a b => Before (range a) (range b) :=
    ⟨Before.trans⟩
  exact List.isChain_iff_pairwise

/-- In the order of the starts, it is enough to look at neighbours. -/
theorem pairwise_apart_iff {α : Type*} (range : α → Range) {l : List α}
    (hsorted : l.Pairwise fun a b => (range a).start ≤ (range b).start)
    (hlen : ∀ a ∈ l, 0 < (range a).length) :
    l.Pairwise (fun a b => Apart (range a) (range b)) ↔
      l.IsChain fun a b => Before (range a) (range b) := by
  rw [isChain_before_iff]
  constructor
  · intro h
    refine (h.and hsorted).imp_of_mem ?_
    intro a b _ hb hab
    exact hab.1.before hab.2 (hlen b hb)
  · exact fun h => h.imp Before.apart

end FusionBinutils.Ranges
