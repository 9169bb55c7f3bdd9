import Mathlib.Algebra.BigOperators.Group.List.Basic
import Mathlib.Tactic.Linarith

/-! Items that open and close a level, and the first of them at which the level is down to zero. -/
namespace FusionBinutils.Nesting

variable {α : Type*} {change : α → Int} {d : Int} {a x : α} {l before after : List α}

/-- The level after some items. -/
def level (change : α → Int) (d : Int) (l : List α) : Int := d + (l.map change).sum

@[simp]
theorem level_nil : level change d [] = d := by simp [level]

@[simp]
theorem level_cons : level change d (a :: l) = level change (d + change a) l := by
  simp [level, add_assoc]

/-- The item at which the level comes to zero, for the first time. -/
structure EndsAt (change : α → Int) (d : Int) (l before : List α) (x : α) (after : List α) :
    Prop where
  split : l = before ++ x :: after
  zero : level change d (before ++ [x]) = 0
  first : ∀ p, p <+: before → level change d p ≠ 0

theorem not_endsAt_nil : ¬ EndsAt change d [] before x after := by
  intro h
  simpa using h.split

/-- The first item ends it. -/
theorem endsAt_here (hd : d ≠ 0) (hz : d + change a = 0) : EndsAt change d (a :: l) [] a l where
  split := rfl
  zero := by simpa using hz
  first := by
    intro p hp
    rw [List.prefix_nil.mp hp, level_nil]
    exact hd

/-- When the first item ends it, nothing else does. -/
theorem EndsAt.eq_here (h : EndsAt change d (a :: l) before x after) (hz : d + change a = 0) :
    before = [] ∧ x = a ∧ after = l := by
  cases before with
  | nil =>
    obtain ⟨rfl, rfl⟩ := List.cons.inj h.split
    exact ⟨rfl, rfl, rfl⟩
  | cons b before =>
    obtain ⟨rfl, -⟩ := List.cons.inj h.split
    refine absurd ?_ (h.first [a] (by simp))
    simpa using hz

/-- When the first item does not end it, the rest decides at the level it leaves. -/
theorem endsAt_cons (hd : d ≠ 0) (hz : d + change a ≠ 0) :
    EndsAt change d (a :: l) before x after ↔
      ∃ b, before = a :: b ∧ EndsAt change (d + change a) l b x after := by
  constructor
  · intro h
    cases before with
    | nil =>
      obtain ⟨rfl, -⟩ := List.cons.inj h.split
      exact absurd (by simpa using h.zero) hz
    | cons b before =>
      obtain ⟨rfl, hl⟩ := List.cons.inj h.split
      refine ⟨before, rfl, hl, by simpa using h.zero, ?_⟩
      intro p hp
      have hfirst := h.first (a :: p) (List.cons_prefix_cons.mpr ⟨rfl, hp⟩)
      rwa [level_cons] at hfirst
  · rintro ⟨b, rfl, h⟩
    refine ⟨by rw [h.split]; rfl, by simpa using h.zero, ?_⟩
    intro p hp
    cases p with
    | nil => simpa using hd
    | cons c p =>
      obtain ⟨rfl, htail⟩ := List.cons_prefix_cons.mp hp
      rw [level_cons]
      exact h.first p htail

end FusionBinutils.Nesting
