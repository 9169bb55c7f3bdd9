import FusionBinutils.Ld.SortedWild
import Mathlib.Data.Char
import Mathlib.Data.List.Lex
import Mathlib.Data.Prod.Lex

/-! By which keys `compare_section` compares. -/
namespace FusionBinutils.Ld

open Insertion

variable {s t : List Char} {a b : Asection} {sort : SortType} {sections : List Asection}

/-! Names. -/

theorem strcmp_swap (s t : List Char) : strcmp t s = -strcmp s t := by
  induction s generalizing t with
  | nil =>
    cases t with
    | nil => rfl
    | cons d t => exact (Int.neg_neg _).symm
  | cons c s ih =>
    cases t with
    | nil => rfl
    | cons d t =>
      rw [strcmp, strcmp]
      by_cases hcd : c = d
      · rw [if_pos hcd, if_pos hcd.symm, ih]
      · rw [if_neg hcd, if_neg fun h => hcd h.symm]
        omega

theorem toNat_pos_of_ne {c : Char} (h : c ≠ '\x00') : 0 < c.toNat := by
  by_contra hzero
  apply h
  rw [← Char.toNat_inj]
  exact Nat.eq_zero_of_not_pos hzero

/-- `strcmp` compares by the order of strings. -/
theorem strcmp_neg_iff (hs : '\x00' ∉ s) (ht : '\x00' ∉ t) : strcmp s t < 0 ↔ s < t := by
  induction s generalizing t with
  | nil =>
    cases t with
    | nil => simp [strcmp]
    | cons d t =>
      rw [List.mem_cons, not_or] at ht
      have hpos := toNat_pos_of_ne fun h => ht.1 h.symm
      rw [strcmp]
      exact ⟨fun _ => List.nil_lt_cons d t, fun _ => by omega⟩
  | cons c s ih =>
    rw [List.mem_cons, not_or] at hs
    cases t with
    | nil =>
      rw [strcmp]
      exact ⟨fun h => by omega, fun h => absurd h (List.not_lt_nil _)⟩
    | cons d t =>
      rw [List.mem_cons, not_or] at ht
      rw [strcmp, List.cons_lt_cons_iff]
      by_cases hcd : c = d
      · subst hcd
        rw [if_pos rfl, ih hs.2 ht.2]
        simp
      · have hlt : (c.toNat : Int) - d.toNat < 0 ↔ c < d := by
          have hnat : c.toNat < d.toNat ↔ c < d := UInt32.lt_iff_toNat_lt.symm
          rw [← hnat]
          omega
        rw [if_neg hcd, hlt]
        simp [hcd]

theorem strcmp_eq_zero_iff (hs : '\x00' ∉ s) (ht : '\x00' ∉ t) : strcmp s t = 0 ↔ s = t := by
  have hlt := strcmp_neg_iff hs ht
  have hgt := strcmp_neg_iff ht hs
  rw [strcmp_swap] at hgt
  constructor
  · intro h
    refine le_antisymm (le_of_not_gt fun h' => ?_) (le_of_not_gt fun h' => ?_)
    · have := hgt.mpr h'
      omega
    · have := hlt.mpr h'
      omega
  · rintro rfl
    have hnot : ¬ s < s := lt_irrefl s
    have hnotlt : ¬ strcmp s s < 0 := fun h => hnot (hlt.mp h)
    have hnotgt : ¬ -strcmp s s < 0 := fun h => hnot (hgt.mp h)
    omega

theorem compareNames_neg_iff : compareNames a b < 0 ↔ a.name.chars < b.name.chars :=
  strcmp_neg_iff a.name.noNul b.name.noNul

theorem compareNames_eq_zero_iff : compareNames a b = 0 ↔ a.name.chars = b.name.chars :=
  strcmp_eq_zero_iff a.name.noNul b.name.noNul

theorem compareNames_swap (a b : Asection) : compareNames b a = -compareNames a b :=
  strcmp_swap _ _

theorem compareNames_self (s : Asection) : compareNames s s = 0 := compareNames_eq_zero_iff.mpr rfl

/-! Alignments and priorities. -/

theorem compareAlignments_self (s : Asection) : compareAlignments s s = 0 := by
  rw [compareAlignments, BitVec.sub_self]
  rfl

theorem comparePriorities_self (s : Asection) : comparePriorities s s = 0 := by
  rw [comparePriorities, BitVec.sub_self]
  rfl

theorem compareAlignments_pos (h : 0 < compareAlignments a b) : compareAlignments b a < 0 := by
  rw [compareAlignments, BitVec.toInt_eq_toNat_cond, BitVec.toNat_sub] at h ⊢
  have ha := a.alignmentPower.isLt
  have hb := b.alignmentPower.isLt
  split at h <;> split <;> omega

theorem compareAlignments_zero (h : compareAlignments a b = 0) : compareAlignments b a = 0 := by
  rw [compareAlignments, BitVec.toInt_eq_toNat_cond, BitVec.toNat_sub] at h ⊢
  have ha := a.alignmentPower.isLt
  have hb := b.alignmentPower.isLt
  split at h <;> split <;> omega

/-- The larger alignment comes first, where the difference fits. -/
theorem compareAlignments_eq (ha : a.alignmentPower.toNat < 2 ^ 31)
    (hb : b.alignmentPower.toNat < 2 ^ 31) :
    compareAlignments a b = (b.alignmentPower.toNat : Int) - a.alignmentPower.toNat := by
  rw [compareAlignments, BitVec.toInt_eq_toNat_cond, BitVec.toNat_sub]
  split <;> omega

theorem comparePriorities_pos (h : 0 < comparePriorities a b) : comparePriorities b a < 0 := by
  rw [comparePriorities, BitVec.toInt_eq_toNat_cond, BitVec.toNat_setWidth, BitVec.toNat_sub]
    at h ⊢
  have ha := a.initPriority.isLt
  have hb := b.initPriority.isLt
  split at h <;> split <;> omega

theorem comparePriorities_zero (h : comparePriorities a b = 0) : comparePriorities b a = 0 := by
  rw [comparePriorities, BitVec.toInt_eq_toNat_cond, BitVec.toNat_setWidth, BitVec.toNat_sub]
    at h ⊢
  have ha := a.initPriority.isLt
  have hb := b.initPriority.isLt
  split at h <;> split <;> omega

/-- The smaller priority comes first, where the difference fits. -/
theorem comparePriorities_eq (ha : a.initPriority.toNat < 2 ^ 31)
    (hb : b.initPriority.toNat < 2 ^ 31) :
    comparePriorities a b = (a.initPriority.toNat : Int) - b.initPriority.toNat := by
  rw [comparePriorities, BitVec.toInt_eq_toNat_cond, BitVec.toNat_setWidth, BitVec.toNat_sub]
  split <;> omega

/-! All sort kinds. -/

/-- A comparison by a sort kind that `compare_section` knows. -/
theorem exists_compareSection {sort : SortType} (h : sort ≠ .none) (h' : sort ≠ .byNone)
    (s l : Asection) : ∃ ret, compareSection sort s l = some ret := by
  cases sort with
  | none => exact absurd rfl h
  | byNone => exact absurd rfl h'
  | byName => exact ⟨_, rfl⟩
  | byAlignment => exact ⟨_, rfl⟩
  | byNameAlignment =>
    rw [compareSection]
    split <;> exact ⟨_, rfl⟩
  | byAlignmentName =>
    rw [compareSection]
    split <;> exact ⟨_, rfl⟩
  | byInitPriority =>
    rw [compareSection]
    split
    · exact ⟨_, rfl⟩
    · split <;> exact ⟨_, rfl⟩

theorem goesBefore_of_compareSection {ret : Int} (h : compareSection sort a b = some ret) :
    goesBefore sort a b = decide (ret < 0) := by
  rw [goesBefore, h]

theorem goesBefore_byName : goesBefore .byName a b = true ↔ compareNames a b < 0 := by
  have hret : compareSection .byName a b = some (compareNames a b) := rfl
  rw [goesBefore_of_compareSection hret, decide_eq_true_eq]

theorem goesBefore_byAlignment :
    goesBefore .byAlignment a b = true ↔ compareAlignments a b < 0 := by
  have hret : compareSection .byAlignment a b = some (compareAlignments a b) := rfl
  rw [goesBefore_of_compareSection hret, decide_eq_true_eq]

theorem goesBefore_byNameAlignment : goesBefore .byNameAlignment a b = true ↔
    compareNames a b < 0 ∨ compareNames a b = 0 ∧ compareAlignments a b < 0 := by
  by_cases h : compareNames a b = 0
  · have hret : compareSection .byNameAlignment a b = some (compareAlignments a b) :=
      if_neg (not_not_intro h)
    rw [goesBefore_of_compareSection hret, decide_eq_true_eq, h]
    simp
  · have hret : compareSection .byNameAlignment a b = some (compareNames a b) := if_pos h
    rw [goesBefore_of_compareSection hret, decide_eq_true_eq]
    simp [h]

theorem goesBefore_byAlignmentName : goesBefore .byAlignmentName a b = true ↔
    compareAlignments a b < 0 ∨ compareAlignments a b = 0 ∧ compareNames a b < 0 := by
  by_cases h : compareAlignments a b = 0
  · have hret : compareSection .byAlignmentName a b = some (compareNames a b) :=
      if_neg (not_not_intro h)
    rw [goesBefore_of_compareSection hret, decide_eq_true_eq, h]
    simp
  · have hret : compareSection .byAlignmentName a b = some (compareAlignments a b) := if_pos h
    rw [goesBefore_of_compareSection hret, decide_eq_true_eq]
    simp [h]

/-- A section without a priority is compared by its name. -/
theorem goesBefore_byInitPriority_of_zero (h : a.initPriority = 0 ∨ b.initPriority = 0) :
    goesBefore .byInitPriority a b = true ↔ compareNames a b < 0 := by
  have hret : compareSection .byInitPriority a b = some (compareNames a b) := if_pos h
  rw [goesBefore_of_compareSection hret, decide_eq_true_eq]

theorem goesBefore_byInitPriority (hzero : ¬ (a.initPriority = 0 ∨ b.initPriority = 0)) :
    goesBefore .byInitPriority a b = true ↔
      comparePriorities a b < 0 ∨ comparePriorities a b = 0 ∧ compareNames a b < 0 := by
  have hsplit : compareSection .byInitPriority a b
      = if comparePriorities a b ≠ 0 then some (comparePriorities a b)
        else some (compareNames a b) := if_neg hzero
  by_cases h : comparePriorities a b = 0
  · rw [if_neg (not_not_intro h)] at hsplit
    rw [goesBefore_of_compareSection hsplit, decide_eq_true_eq, h]
    simp
  · rw [if_pos h] at hsplit
    rw [goesBefore_of_compareSection hsplit, decide_eq_true_eq]
    simp [h]

/-- A section is equal to itself. -/
theorem compareSection_self (h : sort ≠ .none) (h' : sort ≠ .byNone) (s : Asection) :
    compareSection sort s s = some 0 := by
  have hnames := compareNames_self s
  have halignments := compareAlignments_self s
  have hpriorities := comparePriorities_self s
  cases sort with
  | none => exact absurd rfl h
  | byNone => exact absurd rfl h'
  | byName => rw [compareSection, hnames]
  | byAlignment => rw [compareSection, halignments]
  | byNameAlignment => rw [compareSection, if_neg (by simp [hnames]), halignments]
  | byAlignmentName => rw [compareSection, if_neg (by simp [halignments]), hnames]
  | byInitPriority =>
    rw [compareSection, hnames, if_neg (not_not_intro hpriorities)]
    split <;> rfl

theorem goesBefore_self (sort : SortType) (s : Asection) : goesBefore sort s s = false := by
  by_cases h : sort = .none
  · subst h
    rfl
  · by_cases h' : sort = .byNone
    · subst h'
      rfl
    · rw [goesBefore_of_compareSection (compareSection_self h h' s)]
      rfl

/-- A section that is greater than another one goes behind it. -/
theorem goesBefore_of_pos {ret : Int} (h : compareSection sort a b = some ret) (hpos : 0 < ret) :
    goesBefore sort b a = true := by
  have hswap := compareNames_swap a b
  cases sort with
  | none => cases h
  | byNone => cases h
  | byName =>
    cases h
    rw [goesBefore_byName]
    omega
  | byAlignment =>
    cases h
    exact goesBefore_byAlignment.mpr (compareAlignments_pos hpos)
  | byNameAlignment =>
    rw [compareSection] at h
    rw [goesBefore_byNameAlignment]
    split at h
    case isTrue hne =>
      cases h
      left
      omega
    case isFalse heq =>
      cases h
      right
      exact ⟨by omega, compareAlignments_pos hpos⟩
  | byAlignmentName =>
    rw [compareSection] at h
    rw [goesBefore_byAlignmentName]
    split at h
    case isTrue hne =>
      cases h
      left
      exact compareAlignments_pos hpos
    case isFalse heq =>
      cases h
      right
      exact ⟨compareAlignments_zero (not_not.mp heq), by omega⟩
  | byInitPriority =>
    rw [compareSection] at h
    split at h
    case isTrue hzero =>
      cases h
      rw [goesBefore_byInitPriority_of_zero hzero.symm]
      omega
    case isFalse hzero =>
      rw [goesBefore_byInitPriority fun hzero' => hzero hzero'.symm]
      split at h
      case isTrue hne =>
        cases h
        left
        exact comparePriorities_pos hpos
      case isFalse heq =>
        cases h
        right
        exact ⟨comparePriorities_zero (not_not.mp heq), by omega⟩

end FusionBinutils.Ld
