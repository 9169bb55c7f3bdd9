import Mathlib.Logic.Function.Basic
import Mathlib.Logic.Relation

/-! Chains of links: every cell has one link or none. What a new link must not do for all chains to
end. Nothing here refers to a program. -/
namespace FusionBinutils.Chains

variable {ι : Type*} {next next' : ι → Option ι} {i j k : ι}

/-- From the cell on, the links end. -/
inductive Ends (next : ι → Option ι) : ι → Prop
  | last {i : ι} : next i = none → Ends next i
  | link {i j : ι} : next i = some j → Ends next j → Ends next i

/-- The links lead from one cell to the other. -/
def Leads (next : ι → Option ι) : ι → ι → Prop :=
  Relation.ReflTransGen fun i j => next i = some j

theorem Leads.refl (i : ι) : Leads next i i := Relation.ReflTransGen.refl

theorem Leads.head (hn : next i = some j) (h : Leads next j k) : Leads next i k :=
  Relation.ReflTransGen.head hn h

/-- From a cell without a link nothing else is led to. -/
theorem Leads.eq_of_none (h : Leads next i j) (hn : next i = none) : j = i := by
  rcases h.cases_head with rfl | ⟨k, hk, _⟩
  · rfl
  · rw [hn] at hk
    cases hk

/-- What no link points at is led to from itself only. -/
theorem Leads.eq_of_source (h : Leads next i j) (hsource : ∀ k, next k ≠ some j) : i = j := by
  rcases h.cases_tail with rfl | ⟨k, _, hk⟩
  · rfl
  · exact absurd hk (hsource k)

theorem Ends.ne_self (h : Ends next i) : next i ≠ some i := by
  induction h with
  | last hlast =>
    rw [hlast]
    exact nofun
  | @link i j hlink _ ih =>
    intro hself
    obtain rfl : i = j := Option.some.inj (hself.symm.trans hlink)
    exact ih hself

/-- A chain that ends does not come back. -/
theorem Leads.antisymm (hends : Ends next i) (h : Leads next i j) (hback : Leads next j i) :
    i = j := by
  induction hends generalizing j with
  | last hlast => exact (h.eq_of_none hlast).symm
  | @link i k hlink hends ih =>
    rcases h.cases_head with rfl | ⟨l, hl, htail⟩
    · rfl
    · obtain rfl : l = k := Option.some.inj (hl.symm.trans hlink)
      have hsame : l = i := ih (htail.trans hback) (Leads.head hlink (.refl l))
      subst hsame
      exact absurd hlink hends.ne_self

/-- Links that are taken away leave chains that end. -/
theorem Ends.of_le (h : Ends next i) (hle : ∀ k, next' k = next k ∨ next' k = none) :
    Ends next' i := by
  induction h with
  | @last i hlast =>
    rcases hle i with hsame | hnone
    · exact .last (hsame.trans hlast)
    · exact .last hnone
  | @link i j hlink _ ih =>
    rcases hle i with hsame | hnone
    · exact .link (hsame.trans hlink) ih
    · exact .last hnone

variable [DecidableEq ι]

/-- A chain that does not lead to the cell does not see its link. -/
theorem Ends.update_of_not_leads {n : Option ι} (h : Ends next j) (hnot : ¬ Leads next j i) :
    Ends (Function.update next i n) j := by
  induction h with
  | @last j hlast =>
    have hne : j ≠ i := fun he => hnot (he ▸ .refl j)
    exact .last (by rw [Function.update_of_ne hne, hlast])
  | @link j k hlink _ ih =>
    have hne : j ≠ i := fun he => hnot (he ▸ .refl j)
    refine .link (by rw [Function.update_of_ne hne, hlink]) (ih ?_)
    exact fun hleads => hnot (hleads.head hlink)

/-- A link to a cell that does not lead back keeps all chains ending. -/
theorem ends_update (hends : ∀ k, Ends next k) (hnot : ¬ Leads next j i) (k : ι) :
    Ends (Function.update next i (some j)) k := by
  have hj := (hends j).update_of_not_leads (n := some j) hnot
  have hi : Ends (Function.update next i (some j)) i := .link (Function.update_self _ _ _) hj
  induction hends k with
  | @last k hlast =>
    by_cases hk : k = i
    · exact hk ▸ hi
    · exact .last (by rw [Function.update_of_ne hk, hlast])
  | @link k l hlink _ ih =>
    by_cases hk : k = i
    · exact hk ▸ hi
    · exact .link (by rw [Function.update_of_ne hk, hlink]) ih

end FusionBinutils.Chains
