import Mathlib.Data.List.Basic

/-! A pass that keeps the first item of every kind: an item is dropped when one with the same key has
been kept before it. -/
namespace FusionBinutils.Representatives

variable {α κ β : Type*} {key : α → κ} {val : α → β} {es : List (α × Bool)} {a b : α} {dropped : Bool}

/-- The items in turn, and whether each was dropped. -/
def Marked (key : α → κ) (es : List (α × Bool)) : Prop :=
  ∀ pre a dropped post, es = pre ++ (a, dropped) :: post →
    (dropped = true ↔ ∃ x, (x, false) ∈ pre ∧ key x = key a)

/-- What is dropped repeats something that was kept before. -/
def Repeats (val : α → β) (es : List (α × Bool)) : Prop :=
  ∀ pre a post, es = pre ++ (a, true) :: post → ∃ x, (x, false) ∈ pre ∧ val x = val a

theorem marked_nil (key : α → κ) : Marked key [] := by
  intro pre a dropped post h
  exact absurd h (by simp)

theorem Marked.snoc (h : Marked key es)
    (hlast : dropped = true ↔ ∃ x, (x, false) ∈ es ∧ key x = key a) :
    Marked key (es ++ [(a, dropped)]) := by
  intro pre b flag post heq
  rcases List.eq_nil_or_concat post with rfl | ⟨post, last, rfl⟩
  · obtain ⟨rfl, hlast'⟩ := List.append_inj' heq rfl
    obtain ⟨rfl, rfl⟩ := Prod.mk.inj (List.cons.inj hlast').1
    exact hlast
  · rw [List.concat_eq_append, ← List.cons_append, ← List.append_assoc] at heq
    obtain ⟨rfl, -⟩ := List.append_inj' heq rfl
    exact h pre b flag post rfl

/-- Two items of one kind that were both kept are one. -/
theorem Marked.kept_eq (h : Marked key es) (ha : (a, false) ∈ es) (hb : (b, false) ∈ es)
    (hkey : key a = key b) : a = b := by
  -- the one behind would have been dropped
  have hlast {pre mid post : List (α × Bool)} {x y : α}
      (heq : es = pre ++ (x, false) :: (mid ++ (y, false) :: post)) : key x ≠ key y := by
    intro hxy
    have hsplit : es = (pre ++ (x, false) :: mid) ++ (y, false) :: post := by
      rw [heq, List.append_assoc, List.cons_append]
    have hfalse := (h _ y false post hsplit).mpr ⟨x, by simp, hxy⟩
    cases hfalse
  obtain ⟨pre, post, rfl⟩ := List.append_of_mem ha
  rcases List.mem_append.mp hb with hb | hb
  · obtain ⟨pre', mid, rfl⟩ := List.append_of_mem hb
    exact absurd hkey.symm (hlast (List.append_assoc _ _ _))
  · rcases List.mem_cons.mp hb with hb | hb
    · exact (Prod.mk.inj hb).1.symm
    · obtain ⟨mid, post', rfl⟩ := List.append_of_mem hb
      exact absurd hkey (hlast rfl)

/-- Where the key tells the items apart, what is dropped is a repetition. -/
theorem Marked.repeats (h : Marked key es)
    (hval : ∀ x ∈ es, ∀ y ∈ es, key x.1 = key y.1 → val x.1 = val y.1) : Repeats val es := by
  intro pre a post heq
  obtain ⟨x, hx, hkey⟩ := (h pre a true post heq).mp rfl
  refine ⟨x, hx, hval (x, false) ?_ (a, true) ?_ hkey⟩
  · rw [heq]
    exact List.mem_append_left _ hx
  · rw [heq]
    exact List.mem_append_right _ List.mem_cons_self

/-- Every item repeats one that was kept. -/
theorem Repeats.kept (h : Repeats val es) {x : α × Bool} (hx : x ∈ es) :
    ∃ y, (y, false) ∈ es ∧ val y = val x.1 := by
  obtain ⟨a, dropped⟩ := x
  cases dropped with
  | false => exact ⟨a, hx, rfl⟩
  | true =>
    obtain ⟨pre, post, rfl⟩ := List.append_of_mem hx
    obtain ⟨y, hy, hval⟩ := h pre a post rfl
    exact ⟨y, List.mem_append_left _ hy, hval⟩

/-- Where all that is dropped is a repetition, the key has told the items apart. -/
theorem Marked.same_of_repeats (h : Marked key es) (hr : Repeats val es)
    (hkey : ∀ a b, val a = val b → key a = key b) {x y : α × Bool} (hx : x ∈ es) (hy : y ∈ es)
    (hxy : key x.1 = key y.1) : val x.1 = val y.1 := by
  obtain ⟨a, ha, hax⟩ := hr.kept hx
  obtain ⟨b, hb, hby⟩ := hr.kept hy
  have hab : a = b := h.kept_eq ha hb (((hkey _ _ hax).trans hxy).trans (hkey _ _ hby).symm)
  rw [← hax, hab, hby]

end FusionBinutils.Representatives
