import Mathlib.Order.Basic

/-! Binary search over positions. -/
namespace FusionBinutils.Bisect

variable {cmp : Nat → Option Ordering} {fuel low high t : Nat} {last : Option Nat}

/-- The loop over `[low, high)`, and the position it looked at last; it ends early at a hit. A
comparison may fail. -/
def search (cmp : Nat → Option Ordering) : Nat → Nat → Nat → Option Nat → Option (Option Nat)
  | 0, _, _, last => some last
  | fuel + 1, low, high, last =>
    if low < high then do
      let mid := (low + high) / 2
      match ← cmp mid with
      | .lt => search cmp fuel low mid (some mid)
      | .gt => search cmp fuel (mid + 1) high (some mid)
      | .eq => some (some mid)
    else some last

/-- A hit with nothing but misses on either side is found. -/
theorem search_found (hlow : low ≤ t) (hhigh : t < high) (hit : cmp t = some .eq)
    (hbefore : ∀ i, low ≤ i → i < t → cmp i = some .gt)
    (hafter : ∀ i, t < i → i < high → cmp i = some .lt) (hfuel : high - low ≤ fuel) :
    search cmp fuel low high last = some (some t) := by
  induction fuel generalizing low high last with
  | zero => omega
  | succ fuel ih =>
    have hlt : low < high := Nat.lt_of_le_of_lt hlow hhigh
    rw [search, if_pos hlt]
    rcases Nat.lt_trichotomy ((low + high) / 2) t with hmid | hmid | hmid
    · simp only [hbefore _ (by omega) hmid, Option.bind_eq_bind, Option.bind_some]
      exact ih (by omega) hhigh (fun i hi hit => hbefore i (by omega) hit) hafter (by omega)
    · simp only [hmid, hit, Option.bind_eq_bind, Option.bind_some]
    · simp only [hafter _ hmid (by omega), Option.bind_eq_bind, Option.bind_some]
      exact ih hlow hmid hbefore (fun i hi hih => hafter i hi (by omega)) (by omega)

/-- The search ends at a position it may look at. -/
theorem search_total (fuel low : Nat) (last : Option Nat)
    (h : ∀ i, i < high → ∃ o, cmp i = some o) :
    ∃ r, search cmp fuel low high last = some r ∧ (r = last ∨ ∃ i, r = some i ∧ i < high) := by
  induction fuel generalizing low high last with
  | zero => exact ⟨last, rfl, .inl rfl⟩
  | succ fuel ih =>
    rw [search]
    by_cases hlt : low < high
    · have hmid : (low + high) / 2 < high := by omega
      obtain ⟨o, ho⟩ := h _ hmid
      simp only [if_pos hlt, ho, Option.bind_eq_bind, Option.bind_some]
      cases o with
      | eq => exact ⟨_, rfl, .inr ⟨_, rfl, hmid⟩⟩
      | lt =>
        obtain ⟨r, hr, hcase⟩ := ih low (some ((low + high) / 2))
          fun i hi => h i (Nat.lt_trans hi hmid)
        refine ⟨r, hr, .inr ?_⟩
        rcases hcase with rfl | ⟨i, rfl, hi⟩
        · exact ⟨_, rfl, hmid⟩
        · exact ⟨i, rfl, Nat.lt_trans hi hmid⟩
      | gt =>
        obtain ⟨r, hr, hcase⟩ := ih ((low + high) / 2 + 1) (some ((low + high) / 2)) h
        refine ⟨r, hr, .inr ?_⟩
        rcases hcase with rfl | ⟨i, rfl, hi⟩
        · exact ⟨_, rfl, hmid⟩
        · exact ⟨i, rfl, hi⟩
    · rw [if_neg hlt]
      exact ⟨last, rfl, .inl rfl⟩

end FusionBinutils.Bisect
