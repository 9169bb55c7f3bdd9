import FusionBinutils.Opcode.Encoding
import FusionBinutils.Lib.Chains

/-! `relax_frag` (gas/write.c): a frag goes along a table of states until one reaches its target. -/
namespace FusionBinutils.Gas.RelaxStates

open Chains (Ends Leads)

/-- `relax_typeS` -/
structure RelaxType where
  rlxForward : Int
  rlxBackward : Int
  rlxLength : BitVec 8
  rlxMore : Nat
  deriving DecidableEq

/-- `TC_GENERIC_RELAX_TABLE` -/
abbrev RelaxTable := Nat → RelaxType

/-- A symbol, with what `relax_frag` reads of the frag it is in. -/
structure Symbol where
  value : Vma
  segment : Nat
  relaxMarker : Bool
  region : Nat

/-- What `relax_frag` reads and changes of a frag, and the address of the frag behind it. -/
structure Frag where
  frOffset : Vma
  frAddress : Vma
  frFix : Vma
  frSubtype : Nat
  frSymbol : Option Symbol
  relaxMarker : Bool
  region : Nat
  frNextAddress : Vma

/-- The address that the frag refers to, as it is taken to be in this pass. -/
def target (segment : Nat) (f : Frag) (stretch : Int) : Vma :=
  match f.frSymbol with
  | none => f.frOffset
  | some s =>
    let target := f.frOffset + s.value
    if stretch ≠ 0 ∧ s.relaxMarker ≠ f.relaxMarker ∧ s.segment = segment then
      if stretch < 0 ∨ s.region = f.region then target + .ofInt 64 stretch
      else if target < f.frAddress then f.frNextAddress + .ofInt 64 stretch
      else target
    else target

/-- The distance to be reached, where the target machine does not adjust it. -/
def aim (segment : Nat) (f : Frag) (stretch : Int) : Int :=
  (target segment f stretch - f.frAddress - f.frFix).toInt

/-- The tests of the two loops. -/
def covers (aim : Int) (t : RelaxType) : Bool :=
  if aim < 0 then t.rlxBackward ≤ aim else aim ≤ t.rlxForward

/-- The two loops, which differ in their tests only. -/
def grow (table : RelaxTable) (aim : Int) : Nat → Nat → Option Nat
  | 0, _ => none
  | n + 1, thisState =>
    let nextState := (table thisState).rlxMore
    if nextState = 0 then some thisState
    else if covers aim (table thisState) then some thisState
    else grow table aim n nextState

/-- `relax_frag`: the frag and the growth; `none` is a loop that is longer than the fuel. -/
def relaxFrag (table : RelaxTable) (fuel segment : Nat) (f : Frag) (stretch : Int) :
    Option (Frag × Int) :=
  (grow table (aim segment f stretch) fuel f.frSubtype).map fun thisState =>
    let growth : Int :=
      (table thisState).rlxLength.toNat - (table f.frSubtype).rlxLength.toNat
    (if growth ≠ 0 then { f with frSubtype := thisState } else f, growth)

/-! The chain of the states -/

/-- The state behind a state on its chain. -/
def more (table : RelaxTable) (state : Nat) : Option Nat :=
  if (table state).rlxMore = 0 then none else some (table state).rlxMore

/-- The state is on the chain from the old one, it covers the aim or is the last, and no earlier one
covers the aim. -/
structure Reaches (table : RelaxTable) (aim : Int) (old new : Nat) : Prop where
  leads : Leads (more table) old new
  covers_or_last : covers aim (table new) ∨ more table new = none
  earlier (state : Nat) : Leads (more table) old state → Leads (more table) state new →
    state ≠ new → covers aim (table state) = false

section Chain
variable {table : RelaxTable} {a : Int} {old new : Nat}

theorem more_none (h : (table old).rlxMore = 0) : more table old = none := if_pos h

theorem more_some (h : (table old).rlxMore ≠ 0) : more table old = some (table old).rlxMore :=
  if_neg h

/-- The old state itself, where the loop stops at once. -/
theorem Reaches.here (hends : Ends (more table) old)
    (h : covers a (table old) ∨ more table old = none) : Reaches table a old old where
  leads := .refl old
  covers_or_last := h
  earlier _ hleads hback hne := absurd (hleads.antisymm hends hback).symm hne

/-- And the one that is reached from the next state. -/
theorem Reaches.grown {next : Nat} (hnext : more table old = some next)
    (hcovers : covers a (table old) = false)
    (h : Reaches table a next new) : Reaches table a old new where
  leads := .head hnext h.leads
  covers_or_last := h.covers_or_last
  earlier state hleads hback hne := by
    rcases hleads.cases_head with rfl | ⟨k, hk, htail⟩
    · exact hcovers
    · obtain rfl : k = next := Option.some.inj (hk.symm.trans hnext)
      exact h.earlier state htail hback hne

/-- Two states that lead to the target in this way are the same. -/
theorem Reaches.unique {new' : Nat} (h : Reaches table a old new) (h' : Reaches table a old new') :
    new = new' := by
  have hfirst {x y : Nat} (hx : Reaches table a old x) (hy : Reaches table a old y)
      (hleads : Leads (more table) x y) : x = y := by
    by_contra hne
    have hcovers := hy.earlier x hx.leads hleads hne
    rcases hx.covers_or_last with hc | hlast
    · rw [hcovers] at hc
      cases hc
    · exact hne (hleads.eq_of_none hlast).symm
  have hfun : Relator.RightUnique fun i j => more table i = some j :=
    fun _ _ _ hj hk => Option.some.inj (hj.symm.trans hk)
  rcases h.leads.total_of_right_unique hfun h'.leads with hleads | hleads
  · exact hfirst h h' hleads
  · exact (hfirst h' h hleads).symm

/-- The loops stop at the state that reaches the target. -/
theorem grow_reaches (hends : Ends (more table) old) :
    ∃ n, ∀ fuel ≥ n, ∃ new, grow table a fuel old = some new ∧ Reaches table a old new := by
  induction hends with
  | @last old hlast =>
    refine ⟨1, ?_⟩
    intro fuel hfuel
    obtain ⟨fuel, rfl⟩ : ∃ k, fuel = k + 1 := ⟨fuel - 1, by omega⟩
    have hmore : (table old).rlxMore = 0 := by
      by_contra hne
      rw [more_some hne] at hlast
      cases hlast
    refine ⟨old, ?_, .here (.last hlast) (.inr hlast)⟩
    rw [grow]
    exact if_pos hmore
  | @link old next hnext hends ih =>
    obtain ⟨n, ih⟩ := ih
    refine ⟨n + 1, ?_⟩
    intro fuel hfuel
    obtain ⟨fuel, rfl⟩ : ∃ k, fuel = k + 1 := ⟨fuel - 1, by omega⟩
    have hmore : (table old).rlxMore ≠ 0 := by
      intro hzero
      rw [more_none hzero] at hnext
      cases hnext
    have hold : Ends (more table) old := .link hnext hends
    by_cases hcovers : covers a (table old) = true
    · refine ⟨old, ?_, .here hold (.inl hcovers)⟩
      rw [grow]
      simp only [if_neg hmore, if_pos hcovers]
    · obtain ⟨new, hgrow, hreaches⟩ := ih fuel (by omega)
      obtain rfl : (table old).rlxMore = next :=
        Option.some.inj ((more_some hmore).symm.trans hnext)
      refine ⟨new, ?_, hreaches.grown hnext (Bool.eq_false_iff.mpr hcovers)⟩
      rw [grow]
      simp only [if_neg hmore, if_neg hcovers]
      exact hgrow

end Chain

/-- `relax_frag` finds the first state of the chain that covers the aim, or the last. It returns
the difference of the lengths, and without a difference the frag stays in its state. -/
theorem relaxFrag_reaches (table : RelaxTable) (segment : Nat) (f : Frag) (stretch : Int)
    (hends : ∀ state, Ends (more table) state) :
    ∃ n, ∀ fuel ≥ n, ∃ new, Reaches table (aim segment f stretch) f.frSubtype new ∧
      relaxFrag table fuel segment f stretch = some
        ({ f with frSubtype :=
            if (table new).rlxLength = (table f.frSubtype).rlxLength then f.frSubtype else new },
          (table new).rlxLength.toNat - ((table f.frSubtype).rlxLength.toNat : Int)) := by
  obtain ⟨n, hgrow⟩ := grow_reaches (a := aim segment f stretch) (hends f.frSubtype)
  refine ⟨n, ?_⟩
  intro fuel hfuel
  obtain ⟨new, hgrow, hreaches⟩ := hgrow fuel hfuel
  refine ⟨new, hreaches, ?_⟩
  rw [relaxFrag, hgrow]
  by_cases hlength : (table new).rlxLength = (table f.frSubtype).rlxLength
  · simp [hlength]
  · have hgrowth :
        ((table new).rlxLength.toNat : Int) - (table f.frSubtype).rlxLength.toNat ≠ 0 := by
      intro hzero
      apply hlength
      apply BitVec.eq_of_toNat_eq
      omega
    simp only [Option.map_some, if_pos hgrowth, if_neg hlength]

/-- The first states of `md_relax_table` in config/tc-mep.c: a branch of 17 bits and a jump have the
same length. -/
def mepRelaxTable : RelaxTable
  | 2 => ⟨2047, -2048, 0, 3⟩
  | 3 => ⟨0, 0, 2, 0⟩
  | 4 => ⟨2047, -2048, 0, 5⟩
  | 5 => ⟨65535, -65536, 2, 6⟩
  | 6 => ⟨0, 0, 2, 0⟩
  | _ => ⟨0, 0, 0, 0⟩

theorem mep_ends (state : Nat) : Ends (more mepRelaxTable) state := by
  have hthree : Ends (more mepRelaxTable) 3 := .last rfl
  have hsix : Ends (more mepRelaxTable) 6 := .last rfl
  have hfive : Ends (more mepRelaxTable) 5 := .link rfl hsix
  match state with
  | 0 | 1 | n + 7 => exact .last rfl
  | 2 => exact .link rfl hthree
  | 3 => exact hthree
  | 4 => exact .link rfl hfive
  | 5 => exact hfive
  | 6 => exact hsix

/-- A short branch over 4096 bytes grows by two bytes into the one of 17 bits. -/
theorem short_branch_grows :
    ∃ n, ∀ fuel ≥ n, relaxFrag mepRelaxTable fuel 1 ⟨4096, 0, 0, 4, none, false, 0, 0⟩ 0 =
      some (⟨4096, 0, 0, 5, none, false, 0, 0⟩, 2) := by
  obtain ⟨n, h⟩ := relaxFrag_reaches mepRelaxTable 1 ⟨4096, 0, 0, 4, none, false, 0, 0⟩ 0 mep_ends
  refine ⟨n, ?_⟩
  intro fuel hfuel
  obtain ⟨new, hreaches, hrun⟩ := h fuel hfuel
  have hlong : Reaches mepRelaxTable 4096 4 5 :=
    (Reaches.here (mep_ends 5) (.inl rfl)).grown rfl rfl
  obtain rfl : new = 5 := hreaches.unique hlong
  exact hrun

/-- The branch of 17 bits over 70000 bytes stays what it is, though the jump is behind it. -/
theorem out_of_range_branch_stays :
    relaxFrag mepRelaxTable 10 1 ⟨70000, 0, 0, 5, none, false, 0, 0⟩ 0 =
        some (⟨70000, 0, 0, 5, none, false, 0, 0⟩, 0) ∧
      aim 1 ⟨70000, 0, 0, 5, none, false, 0, 0⟩ 0 = 70000 ∧
      ¬Reaches mepRelaxTable 70000 5 5 := by
  refine ⟨rfl, rfl, ?_⟩
  intro h
  rcases h.covers_or_last with hcovers | hlast
  · cases hcovers
  · cases hlast

end FusionBinutils.Gas.RelaxStates
