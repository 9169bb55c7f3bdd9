import FusionBinutils.Lib.Cells

/-! A pass over some cells of an array, each of which is kept or made to share the contents of the
last one that was kept. -/
namespace FusionBinutils.Sharing

open Cells

variable {α : Type*} {restore : α → α} {test : α → α → Bool} {share : α → Nat → α}

/-- The cells `rest` in turn; `e` is the last one that was kept. -/
def loop (restore : α → α) (test : α → α → Bool) (share : α → Nat → α) :
    List α → Nat → List Nat → Option (List α)
  | array, _, [] => some array
  | array, e, i :: rest => do
    let kept ← array[e]?
    let cmp ← array[i]?
    if test kept (restore cmp) then
      loop restore test share (array.set i (share (restore cmp) e)) e rest
    else loop restore test share (array.set i (restore cmp)) i rest

theorem loop_length {array array' : List α} {e : Nat} {rest : List Nat}
    (h : loop restore test share array e rest = some array') : array'.length = array.length := by
  induction rest generalizing array e with
  | nil =>
    cases h
    rfl
  | cons i rest ih =>
    rw [loop] at h
    obtain ⟨kept, -, h⟩ := Option.bind_eq_some_iff.mp h
    obtain ⟨cmp, -, h⟩ := Option.bind_eq_some_iff.mp h
    split at h
    · rw [ih h, List.length_set]
    · rw [ih h, List.length_set]

/-- What became of a cell that held `x`: it was kept, or it shares with one that was. -/
def Passed (restore : α → α) (test : α → α → Bool) (share : α → Nat → α) (Kept : α → Prop)
    (array : List α) (i : Nat) (x : α) : Prop :=
  array[i]? = some (restore x) ∨ ∃ (j : Nat) (a : α), array[i]? = some (share (restore x) j) ∧
    array[j]? = some a ∧ Kept a ∧ test a (restore x) = true

/-- The pass leaves all other cells as they are. -/
theorem loop_passed {Kept : α → Prop} {array : List α} {e : Nat} {a : α} {rest : List Nat}
    (hnodup : rest.Nodup) (he : e ∉ rest) (ha : array[e]? = some a) (hkept : Kept a)
    (hrest : ∀ i ∈ rest, ∃ x, array[i]? = some x ∧ Kept (restore x)) :
    ∃ array', loop restore test share array e rest = some array' ∧
      (∀ i, i ∉ rest → array'[i]? = array[i]?) ∧
      ∀ i ∈ rest, ∀ x, array[i]? = some x → Passed restore test share Kept array' i x := by
  induction rest generalizing array e a with
  | nil => exact ⟨array, rfl, fun _ _ => rfl, by simp⟩
  | cons i rest ih =>
    obtain ⟨hi, hnodup⟩ := List.nodup_cons.mp hnodup
    obtain ⟨x, hx, hkx⟩ := hrest i (by simp)
    rw [List.mem_cons, not_or] at he
    obtain ⟨hei, he⟩ := he
    -- the cells that are left hold what they held, whatever is written now
    have hleft : ∀ (y : α), ∀ j ∈ rest, ∃ z, (array.set i y)[j]? = some z ∧ Kept (restore z) := by
      intro y j hj
      obtain ⟨z, hz, hkz⟩ := hrest j (List.mem_cons_of_mem i hj)
      refine ⟨z, ?_, hkz⟩
      rw [getElem?_set_other, hz]
      rintro rfl
      exact hi hj
    have hback : ∀ (y : α) (array' : List α),
        (∀ j, j ∉ rest → array'[j]? = (array.set i y)[j]?) →
        (∀ j ∈ rest, ∀ z, (array.set i y)[j]? = some z →
          Passed restore test share Kept array' j z) →
        Passed restore test share Kept array' i x →
        (∀ j, j ∉ i :: rest → array'[j]? = array[j]?) ∧
        ∀ j ∈ i :: rest, ∀ z, array[j]? = some z →
          Passed restore test share Kept array' j z := by
      intro y array' hsame hpassed hpi
      refine ⟨?_, ?_⟩
      · intro j hj
        rw [List.mem_cons, not_or] at hj
        rw [hsame j hj.2, getElem?_set_other hj.1]
      · intro j hj z hz
        rcases List.mem_cons.mp hj with rfl | hjr
        · rw [hx, Option.some.injEq] at hz
          exact hz ▸ hpi
        · have hji : j ≠ i := fun hji => hi (hji ▸ hjr)
          exact hpassed j hjr z ((getElem?_set_other hji).trans hz)
    simp only [loop, ha, hx, Option.bind_eq_bind, Option.bind_some]
    split
    · next htest =>
      have he' : (array.set i (share (restore x) e))[e]? = some a :=
        (getElem?_set_other hei).trans ha
      obtain ⟨array', hrun, hsame, hpassed⟩ := ih hnodup he he' hkept (hleft _)
      refine ⟨array', hrun, hback _ array' hsame hpassed (.inr ⟨e, a, ?_, ?_, hkept, htest⟩)⟩
      · rw [hsame i hi, getElem?_set_same hx]
      · rw [hsame e he, he']
    · obtain ⟨array', hrun, hsame, hpassed⟩ := ih hnodup hi (getElem?_set_same hx) hkx (hleft _)
      refine ⟨array', hrun, hback _ array' hsame hpassed (.inl ?_)⟩
      rw [hsame i hi, getElem?_set_same hx]

end FusionBinutils.Sharing
