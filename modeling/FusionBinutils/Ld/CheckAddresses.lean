import FusionBinutils.Lib.Ranges
import Mathlib.Algebra.Group.Nat.Defs
import Mathlib.Data.List.Pairwise

/-! The check of the addresses of the output sections (ld/ldlang.c). -/
namespace FusionBinutils.Ld.CheckAddresses

open Ranges

abbrev Vma := BitVec 64

/-- `opb_shift` and `bfd_arch_bits_per_address` of the output. -/
structure Target where
  opbShift : Nat
  bits : Nat
  bits_pos : 0 < bits
  bits_le : bits ≤ 64

/-- `TO_ADDR`. -/
def Target.toAddr (t : Target) (x : Vma) : Vma := x >>> t.opbShift

/-- `asection`. The size is `TO_SIZE` of a number of addresses, as `lang_size_sections_1` sets
it. -/
structure Asection (t : Target) where
  id : Nat
  name : String
  alloc : Bool
  load : Bool
  threadLocal : Bool
  vma : Vma
  lma : Vma
  size : Vma
  whole : size = t.toAddr size <<< t.opbShift

/-- `lang_memory_region_type`. -/
structure MemoryRegion where
  name : String
  origin : Vma
  length : Vma
  current : Vma
  hadFullMessage : Bool

/-- What `einfo` reports. -/
inductive Report
  | vmaWraps (sect : String)
  | lmaWraps (sect : String)
  | lmaOverlaps (s : String) (sStart sEnd : Vma) (p : String) (pStart pEnd : Vma)
  | vmaOverlaps (s : String) (sStart sEnd : Vma) (p : String) (pStart pEnd : Vma)
  | regionOverflowed (region : String) (bytes : Int)

variable {t : Target}

/-- `IS_TBSS`. -/
def Asection.isTbss (s : Asection t) : Bool := s.threadLocal && !s.load

/-- `IGNORE_SECTION`. -/
def Asection.ignore (s : Asection t) : Bool := !s.alloc || s.isTbss

/-- The result of a `qsort` comparison by the address, then by the id. -/
def compareBy (address : Asection t → Vma) (sec1 sec2 : Asection t) : Int :=
  if address sec1 < address sec2 then -1
  else if address sec1 > address sec2 then 1
  else if sec1.id < sec2.id then -1
  else if sec1.id > sec2.id then 1
  else 0

/-- `sort_sections_by_lma`. -/
def sortSectionsByLma : Asection t → Asection t → Int := compareBy Asection.lma

/-- `sort_sections_by_vma`. -/
def sortSectionsByVma : Asection t → Asection t → Int := compareBy Asection.vma

/-- `struct check_sec`. -/
structure CheckSec (t : Target) where
  sec : Asection t
  warned : Bool

def qsort (compare : Asection t → Asection t → Int) (l : List (CheckSec t)) :
    List (CheckSec t) :=
  l.mergeSort fun a b => compare a.sec b.sec ≤ 0

/-- `addr_mask`. -/
def Target.addrMask (t : Target) : Vma := ((((1 : Vma) <<< (t.bits - 1)) - 1) <<< 1) + 1

/-- The end of the section, as an address of the target, is below its start. -/
def wrapTest (t : Target) (address size : Vma) : Bool :=
  let sEnd := (address + size) &&& t.addrMask
  sEnd ≠ 0 && sEnd < (address &&& t.addrMask)

def wrapReport (s : Asection t) : Option Report :=
  if s.alloc then
    if wrapTest t s.vma s.size then some (.vmaWraps s.name)
    else if wrapTest t s.lma s.size then some (.lmaWraps s.name)
    else none
  else none

/-- `s_end`, or `p_end`: the last address of the section. -/
def Asection.lastAt (s : Asection t) (start : Vma) : Vma := start + t.toAddr s.size - 1

/-- The section overlaps the previous one, or that one wraps around. -/
def clashes (address : Asection t → Vma) (p s : Asection t) : Bool :=
  address s ≤ p.lastAt (address p) || p.lastAt (address p) < address p

/-- The loop over the LMAs of the loaded sections, after the section `p`. -/
def checkLmas (p : Option (Asection t)) : List (CheckSec t) → List (CheckSec t) × List Report
  | [] => ([], [])
  | c :: rest =>
    if c.sec.load then
      let s := c.sec
      let (rest', reports) := checkLmas (some s) rest
      match p with
      | some p =>
        if clashes Asection.lma p s then
          ({ c with warned := true } :: rest',
            .lmaOverlaps s.name s.lma (s.lastAt s.lma) p.name p.lma (p.lastAt p.lma) :: reports)
        else (c :: rest', reports)
      | none => (c :: rest', reports)
    else
      let (rest', reports) := checkLmas p rest
      (c :: rest', reports)

/-- The loop that looks for overlays: two sections at one VMA. -/
def overlays (pStart : Vma) : List (CheckSec t) → Bool
  | [] => false
  | c :: rest => pStart = c.sec.vma || overlays c.sec.vma rest

/-- The loop over the VMAs, after the section `p`. -/
def checkVmas (p : Option (Asection t)) : List (CheckSec t) → List Report
  | [] => []
  | c :: rest =>
    let s := c.sec
    let reports := checkVmas (some s) rest
    match p with
    | some p =>
      if !c.warned && clashes Asection.vma p s then
        .vmaOverlaps s.name s.vma (s.lastAt s.vma) p.name p.vma (p.lastAt p.vma) :: reports
      else reports
    | none => reports

def regionReport (m : MemoryRegion) : Option Report :=
  if m.hadFullMessage then
    some (.regionOverflowed m.name (m.current - (m.origin + m.length)).toInt)
  else none

/-- The sections that are compared. -/
def counted (sections : List (Asection t)) : List (Asection t) :=
  sections.filter fun s => !(s.ignore || s.size = 0)

/-- `lang_check_section_addresses`. -/
def langCheckSectionAddresses (sections : List (Asection t)) (regions : List MemoryRegion) :
    List Report :=
  let wraps := sections.filterMap wrapReport
  if sections.length ≤ 1 then wraps
  else
    let checked := (counted sections).map fun s => { sec := s, warned := false }
    if checked.length ≤ 1 then wraps
    else
      let (checked, lmas) := checkLmas none (qsort sortSectionsByLma checked)
      let checked := qsort sortSectionsByVma checked
      let vmas :=
        match checked with
        | [] => []
        | c :: rest => if overlays c.sec.vma rest then [] else checkVmas none (c :: rest)
      wraps ++ lmas ++ vmas ++ regions.filterMap regionReport

/-! What the comparisons say about ranges. -/

variable {address : Asection t → Vma} {a b p s : Asection t} {sections : List (Asection t)}

/-- The addresses of a section. -/
def Asection.range (address : Asection t → Vma) (s : Asection t) : Range :=
  ⟨(address s).toNat, (t.toAddr s.size).toNat⟩

theorem toAddr_pos (h : s.size ≠ 0) : 0 < (t.toAddr s.size).toNat := by
  rw [Nat.pos_iff_ne_zero]
  intro hzero
  apply h
  rw [s.whole, BitVec.eq_of_toNat_eq (y := 0#64) hzero, BitVec.zero_shiftLeft]
  rfl

/-- For sections in the order of their addresses. -/
theorem clashes_eq_false_iff (hp : p.size ≠ 0) (hle : address p ≤ address s) :
    clashes address p s = false ↔ Before (p.range address) (s.range address) := by
  have hpos := toAddr_pos hp
  have hp64 := (address p).isLt
  have hs64 := (address s).isLt
  have hlen := (t.toAddr p.size).isLt
  have hnat : (address p).toNat ≤ (address s).toNat := hle
  have hlast : (p.lastAt (address p)).toNat
      = ((address p).toNat + (t.toAddr p.size).toNat - 1) % 2 ^ 64 := by
    rw [Asection.lastAt, BitVec.toNat_sub, BitVec.toNat_add]
    change (2 ^ 64 - 1 + _) % 2 ^ 64 = _
    omega
  rw [clashes, Bool.or_eq_false_iff, decide_eq_false_iff_not, decide_eq_false_iff_not,
    BitVec.le_def, BitVec.lt_def, hlast]
  simp only [Before, Range.stop, Asection.range]
  omega

theorem compareBy_nonpos_iff : compareBy address a b ≤ 0 ↔
    address a < address b ∨ address a = address b ∧ a.id ≤ b.id := by
  rw [compareBy]
  rcases BitVec.lt_trichotomy (address a) (address b) with h | h | h
  · rw [if_pos h]
    exact ⟨fun _ => .inl h, fun _ => by decide⟩
  · have hlt : ¬ address a < address b := by
      rw [h]
      exact BitVec.lt_irrefl _
    have hgt : ¬ address a > address b := by
      rw [h]
      exact BitVec.lt_irrefl _
    rw [if_neg hlt, if_neg hgt]
    rcases Nat.lt_trichotomy a.id b.id with hid | hid | hid
    · rw [if_pos hid]
      exact ⟨fun _ => .inr ⟨h, Nat.le_of_lt hid⟩, fun _ => by decide⟩
    · rw [if_neg (Nat.not_lt_of_le (Nat.le_of_eq hid.symm)),
        if_neg (Nat.not_lt_of_le (Nat.le_of_eq hid))]
      exact ⟨fun _ => .inr ⟨h, Nat.le_of_eq hid⟩, fun _ => Int.le_refl 0⟩
    · rw [if_neg (Nat.lt_asymm hid), if_pos hid]
      constructor
      · intro hpos
        exact absurd hpos (by decide)
      · rintro (hlt' | ⟨_, hle⟩)
        · exact absurd hlt' hlt
        · exact absurd hid (Nat.not_lt_of_le hle)
  · have hlt := BitVec.lt_asymm h
    rw [if_neg hlt, if_pos h]
    constructor
    · intro hpos
      exact absurd hpos (by decide)
    · rintro (hlt' | ⟨heq, _⟩)
      · exact absurd hlt' hlt
      · rw [heq] at h
        exact absurd h (BitVec.lt_irrefl _)

/-- `qsort` puts the addresses in order. -/
theorem qsort_sorted (address : Asection t → Vma) (l : List (CheckSec t)) :
    (qsort (compareBy address) l).Pairwise fun a b => address a.sec ≤ address b.sec := by
  have hsorted : (qsort (compareBy address) l).Pairwise
      fun a b => decide (compareBy address a.sec b.sec ≤ 0) = true := by
    apply List.pairwise_mergeSort
    · intro a b c hab hbc
      rw [decide_eq_true_eq, compareBy_nonpos_iff, BitVec.lt_def, ← BitVec.toNat_inj] at *
      omega
    · intro a b
      rw [Bool.or_eq_true, decide_eq_true_eq, decide_eq_true_eq, compareBy_nonpos_iff,
        compareBy_nonpos_iff, BitVec.lt_def, BitVec.lt_def, ← BitVec.toNat_inj,
        ← BitVec.toNat_inj]
      omega
  refine hsorted.imp ?_
  intro a b hab
  rw [decide_eq_true_eq, compareBy_nonpos_iff, BitVec.lt_def, ← BitVec.toNat_inj] at hab
  rw [BitVec.le_def]
  omega

/-! The loops. -/

/-- Two relations on neighbours that agree on lists in order. -/
theorem isChain_congr {α : Type} {q r : α → α → Prop} {order : α → α → Prop} {l : List α}
    (hl : l.Pairwise order)
    (h : ∀ a ∈ l, ∀ b ∈ l, order a b → (q a b ↔ r a b)) : l.IsChain q ↔ l.IsChain r := by
  induction l with
  | nil => simp
  | cons a l ih =>
    cases l with
    | nil => simp
    | cons b l =>
      have hab := (List.pairwise_cons.mp hl).1 b List.mem_cons_self
      have htail := ih (List.pairwise_cons.mp hl).2 fun c hc d hd =>
        h c (List.mem_cons_of_mem a hc) d (List.mem_cons_of_mem a hd)
      rw [List.isChain_cons_cons, List.isChain_cons_cons, htail,
        h a List.mem_cons_self b (List.mem_cons_of_mem a List.mem_cons_self) hab]

/-- The loaded sections of a list, in its order. -/
def loaded (l : List (CheckSec t)) : List (Asection t) :=
  (l.map CheckSec.sec).filter Asection.load

/-- No report says that no loaded section clashes with the one before it, and leaves the sections
without warnings. -/
theorem checkLmas_eq_nil_iff (p : Option (Asection t)) (l : List (CheckSec t)) :
    ((checkLmas p l).2 = [] ↔
      (p.toList ++ loaded l).IsChain fun p s => clashes Asection.lma p s = false) ∧
    ((checkLmas p l).2 = [] → (checkLmas p l).1 = l) := by
  induction l generalizing p with
  | nil =>
    refine ⟨⟨fun _ => ?_, fun _ => rfl⟩, fun _ => rfl⟩
    cases p <;> simp [loaded]
  | cons c l ih =>
    obtain ⟨hiff, hsame⟩ := ih (some c.sec)
    obtain ⟨hiff', hsame'⟩ := ih p
    rw [checkLmas]
    cases hload : c.sec.load with
    | false =>
      have hloaded : loaded (c :: l) = loaded l := by
        rw [loaded, List.map_cons, List.filter_cons_of_neg (by simp [hload])]
        rfl
      rw [hloaded, if_neg (by simp)]
      exact ⟨hiff', fun h => congrArg (c :: ·) (hsame' h)⟩
    | true =>
      have hloaded : loaded (c :: l) = c.sec :: loaded l := by
        rw [loaded, List.map_cons, List.filter_cons_of_pos hload]
        rfl
      rw [hloaded, if_pos rfl]
      cases p with
      | none => exact ⟨hiff, fun h => congrArg (c :: ·) (hsame h)⟩
      | some p =>
        dsimp only
        split
        case isTrue hclash =>
          refine ⟨⟨?_, ?_⟩, ?_⟩
          · intro hnil
            cases hnil
          · intro hchain
            have hnot := (List.isChain_cons_cons.mp hchain).1
            rw [hclash] at hnot
            cases hnot
          · intro hnil
            cases hnil
        case isFalse hclash =>
          refine ⟨?_, fun h => congrArg (c :: ·) (hsame h)⟩
          rw [Option.toList_some, List.singleton_append, List.isChain_cons_cons]
          exact hiff.trans (and_iff_right (Bool.eq_false_iff.mpr hclash)).symm

theorem checkVmas_eq_nil_iff (p : Option (Asection t)) {l : List (CheckSec t)}
    (hwarned : ∀ c ∈ l, c.warned = false) :
    checkVmas p l = [] ↔
      (p.toList ++ l.map CheckSec.sec).IsChain fun p s => clashes Asection.vma p s = false := by
  induction l generalizing p with
  | nil => cases p <;> simp [checkVmas]
  | cons c l ih =>
    have hiff := ih (some c.sec) fun d hd => hwarned d (List.mem_cons_of_mem c hd)
    cases p with
    | none => exact hiff
    | some p =>
      rw [checkVmas, Option.toList_some, List.singleton_append, List.map_cons, List.isChain_cons_cons,
        hwarned c List.mem_cons_self, Bool.not_false, Bool.true_and]
      split
      case isTrue hclash =>
        constructor
        · intro hnil
          cases hnil
        · rintro ⟨hnot, _⟩
          rw [hclash] at hnot
          cases hnot
      case isFalse hclash =>
        exact hiff.trans (and_iff_right (Bool.eq_false_iff.mpr hclash)).symm

/-- Without overlays, all VMAs are different. -/
theorem overlays_eq_false_iff (pStart : Vma) {l : List (CheckSec t)} :
    overlays pStart l = false ↔ (pStart :: l.map fun c => c.sec.vma).IsChain (· ≠ ·) := by
  induction l generalizing pStart with
  | nil => simp [overlays]
  | cons c l ih =>
    rw [overlays, Bool.or_eq_false_iff, decide_eq_false_iff_not, ih, List.map_cons,
      List.isChain_cons_cons]

theorem nodup_iff_isChain {l : List Vma} (hsorted : l.Pairwise (· ≤ ·)) :
    l.Nodup ↔ l.IsChain (· ≠ ·) := by
  constructor
  · exact fun h => h.isChain
  · intro h
    have hlt : l.IsChain (· < ·) := by
      refine (isChain_congr hsorted ?_).mp h
      intro a _ b _ hle
      rw [BitVec.le_def] at hle
      rw [BitVec.lt_def, ne_eq, ← BitVec.toNat_inj]
      omega
    have htrans : Trans (α := Vma) (· < ·) (· < ·) (· < ·) := ⟨BitVec.lt_trans⟩
    refine (List.isChain_iff_pairwise.mp hlt).imp ?_
    intro a b hab heq
    rw [heq] at hab
    exact BitVec.lt_irrefl _ hab

/-! What the check says. -/

/-- Nothing but the regions is complained about. -/
def NoError (reports : List Report) : Prop :=
  ∀ r ∈ reports, ∃ region bytes, r = .regionOverflowed region bytes

def LmaApart (sections : List (Asection t)) : Prop :=
  ((counted sections).filter Asection.load).Pairwise fun a b =>
    Apart (a.range Asection.lma) (b.range Asection.lma)

def VmaApart (sections : List (Asection t)) : Prop :=
  (counted sections).Pairwise fun a b => Apart (a.range Asection.vma) (b.range Asection.vma)

/-- No two sections start at the same VMA. -/
def NoOverlays (sections : List (Asection t)) : Prop :=
  ((counted sections).map Asection.vma).Nodup

/-- The range goes past the top of the address space. -/
def Wraps (t : Target) (r : Range) : Prop := 2 ^ t.bits < r.start % 2 ^ t.bits + r.length

def NoWrap (sections : List (Asection t)) : Prop :=
  ∀ s ∈ sections, s.alloc = true →
    ¬ Wraps t (s.range Asection.vma) ∧ ¬ Wraps t (s.range Asection.lma)

/-- No section's end, as an address, is below its start. -/
def NoWrapSeen (sections : List (Asection t)) : Prop :=
  ∀ s ∈ sections, s.alloc = true → wrapTest t s.vma s.size = false ∧
    wrapTest t s.lma s.size = false

theorem size_ne_zero_of_counted (h : s ∈ counted sections) : s.size ≠ 0 := by
  have hkeep := (List.mem_filter.mp h).2
  rw [Bool.not_eq_true', Bool.or_eq_false_iff, decide_eq_false_iff_not] at hkeep
  exact hkeep.2

/-- For sections in the order of their addresses, the neighbours tell about all. -/
theorem isChain_clashes_iff {l : List (Asection t)}
    (hsorted : l.Pairwise fun a b => address a ≤ address b) (hsize : ∀ s ∈ l, s.size ≠ 0) :
    l.IsChain (fun p s => clashes address p s = false) ↔
      l.Pairwise fun a b => Apart (a.range address) (b.range address) := by
  rw [isChain_congr hsorted fun a ha b _ hab => clashes_eq_false_iff (hsize a ha) hab]
  exact (pairwise_apart_iff (Asection.range address) hsorted
    fun s hs => toAddr_pos (hsize s hs)).symm

theorem apart_comm (address : Asection t → Vma) (a b : Asection t)
    (h : Apart (a.range address) (b.range address)) :
    Apart (b.range address) (a.range address) := h.symm

/-- The sections as they are checked, before sorting. -/
def unwarned (sections : List (Asection t)) : List (CheckSec t) :=
  (counted sections).map fun s => { sec := s, warned := false }

theorem unwarned_secs (sections : List (Asection t)) :
    (unwarned sections).map CheckSec.sec = counted sections := by
  rw [unwarned, List.map_map]
  exact List.map_id _

/-- The sections as they are checked, in the order of their addresses. -/
theorem sorted_secs (address : Asection t → Vma) {checked : List (CheckSec t)}
    (h : checked.Perm (unwarned sections)) :
    ((qsort (compareBy address) checked).map CheckSec.sec).Perm (counted sections) ∧
      ((qsort (compareBy address) checked).map CheckSec.sec).Pairwise
        fun a b => address a ≤ address b := by
  refine ⟨?_, ?_⟩
  · rw [← unwarned_secs]
    exact ((List.mergeSort_perm checked _).trans h).map CheckSec.sec
  · rw [List.pairwise_map]
    exact qsort_sorted address _

theorem lmas_eq_nil_iff (sections : List (Asection t)) :
    (checkLmas none (qsort sortSectionsByLma (unwarned sections))).2 = [] ↔
      LmaApart sections := by
  obtain ⟨hperm, hsorted⟩ := sorted_secs Asection.lma (List.Perm.refl (unwarned sections))
  rw [(checkLmas_eq_nil_iff none _).1, Option.toList_none, List.nil_append, loaded]
  unfold sortSectionsByLma
  rw [isChain_clashes_iff (hsorted.filter Asection.load)]
  · exact (hperm.filter Asection.load).pairwise_iff (apart_comm Asection.lma _ _)
  · intro s hs
    exact size_ne_zero_of_counted (hperm.mem_iff.mp (List.mem_filter.mp hs).1)

/-- The reports about VMAs, for a list of sections in the order of their VMAs. -/
def vmaReports : List (CheckSec t) → List Report
  | [] => []
  | c :: rest => if overlays c.sec.vma rest then [] else checkVmas none (c :: rest)

theorem vmaReports_eq_nil_iff {checked : List (CheckSec t)}
    (h : checked.Perm (unwarned sections)) :
    vmaReports (qsort sortSectionsByVma checked) = [] ↔
      (NoOverlays sections → VmaApart sections) := by
  obtain ⟨hperm, hsorted⟩ := sorted_secs Asection.vma h
  have hwarned : ∀ c ∈ qsort (compareBy Asection.vma) checked, c.warned = false := by
    intro c hc
    obtain ⟨s, _, rfl⟩ := List.mem_map.mp (((List.mergeSort_perm _ _).trans h).mem_iff.mp hc)
    rfl
  unfold sortSectionsByVma
  generalize qsort (compareBy Asection.vma) checked = l at hperm hsorted hwarned
  have hvmas : NoOverlays sections ↔
      ((l.map CheckSec.sec).map Asection.vma).IsChain (· ≠ ·) := by
    rw [NoOverlays, ← (hperm.map Asection.vma).nodup_iff]
    apply nodup_iff_isChain
    rw [List.pairwise_map]
    exact hsorted
  have hapart : VmaApart sections ↔
      (l.map CheckSec.sec).IsChain fun p s => clashes Asection.vma p s = false := by
    rw [isChain_clashes_iff hsorted fun s hs => size_ne_zero_of_counted (hperm.mem_iff.mp hs)]
    exact (hperm.pairwise_iff (apart_comm Asection.vma _ _)).symm
  rw [hvmas, hapart]
  cases l with
  | nil => simp [vmaReports]
  | cons c rest =>
    have hover := overlays_eq_false_iff c.sec.vma (l := rest)
    rw [vmaReports, List.map_map, List.map_cons]
    cases hov : overlays c.sec.vma rest with
    | true =>
      rw [hov] at hover
      refine ⟨fun _ hchain => ?_, fun _ => rfl⟩
      have habsurd := hover.mpr hchain
      cases habsurd
    | false =>
      have hchain := hover.mp hov
      have hiff := checkVmas_eq_nil_iff none hwarned
      exact ⟨fun h _ => hiff.mp h, fun h => hiff.mpr (h hchain)⟩

theorem noError_nil : NoError [] := by
  intro r hr
  cases hr

theorem noError_append {l l' : List Report} : NoError (l ++ l') ↔ NoError l ∧ NoError l' :=
  List.forall_mem_append

theorem noError_regions (regions : List MemoryRegion) :
    NoError (regions.filterMap regionReport) := by
  intro r hr
  obtain ⟨m, _, hm⟩ := List.mem_filterMap.mp hr
  rw [regionReport] at hm
  split at hm
  · cases hm
    exact ⟨_, _, rfl⟩
  · cases hm

theorem noError_wraps_iff (sections : List (Asection t)) :
    NoError (sections.filterMap wrapReport) ↔ NoWrapSeen sections := by
  constructor
  · intro h s hs halloc
    have hnone : ∀ r, wrapReport s = some r → ∃ region bytes, r = .regionOverflowed region bytes :=
      fun r hr => h r (List.mem_filterMap.mpr ⟨s, hs, hr⟩)
    rw [wrapReport, if_pos halloc] at hnone
    split at hnone
    case isTrue =>
      obtain ⟨_, _, hr⟩ := hnone _ rfl
      cases hr
    case isFalse hvma =>
      split at hnone
      case isTrue =>
        obtain ⟨_, _, hr⟩ := hnone _ rfl
        cases hr
      case isFalse hlma => exact ⟨Bool.eq_false_iff.mpr hvma, Bool.eq_false_iff.mpr hlma⟩
  · intro h r hr
    obtain ⟨s, hs, hr⟩ := List.mem_filterMap.mp hr
    rw [wrapReport] at hr
    split at hr
    case isTrue halloc =>
      obtain ⟨hvma, hlma⟩ := h s hs halloc
      rw [hvma, hlma] at hr
      cases hr
    case isFalse => cases hr

/-- The reports of the two loops are all errors. -/
theorem noError_iff_nil {l : List Report}
    (h : ∀ r ∈ l, ¬ ∃ region bytes, r = .regionOverflowed region bytes) :
    NoError l ↔ l = [] := by
  constructor
  · intro hno
    rw [List.eq_nil_iff_forall_not_mem]
    exact fun r hr => h r hr (hno r hr)
  · rintro rfl
    exact noError_nil

theorem checkLmas_errors (p : Option (Asection t)) (l : List (CheckSec t)) :
    ∀ r ∈ (checkLmas p l).2, ¬ ∃ region bytes, r = .regionOverflowed region bytes := by
  induction l generalizing p with
  | nil =>
    intro r hr
    cases hr
  | cons c l ih =>
    rw [checkLmas]
    split
    · cases p with
      | none => exact ih (some c.sec)
      | some p =>
        dsimp only
        split
        · intro r hr
          rcases List.mem_cons.mp hr with rfl | hr
          · rintro ⟨_, _, ⟨⟩⟩
          · exact ih (some c.sec) r hr
        · exact ih (some c.sec)
    · exact ih p

theorem checkVmas_errors (p : Option (Asection t)) (l : List (CheckSec t)) :
    ∀ r ∈ checkVmas p l, ¬ ∃ region bytes, r = .regionOverflowed region bytes := by
  induction l generalizing p with
  | nil =>
    intro r hr
    cases hr
  | cons c l ih =>
    cases p with
    | none => exact ih (some c.sec)
    | some p =>
      rw [checkVmas]
      split
      · intro r hr
        rcases List.mem_cons.mp hr with rfl | hr
        · rintro ⟨_, _, ⟨⟩⟩
        · exact ih (some c.sec) r hr
      · exact ih (some c.sec)

theorem vmaReports_errors (l : List (CheckSec t)) :
    ∀ r ∈ vmaReports l, ¬ ∃ region bytes, r = .regionOverflowed region bytes := by
  cases l with
  | nil =>
    intro r hr
    cases hr
  | cons c rest =>
    rw [vmaReports]
    split
    · intro r hr
      cases hr
    · exact checkVmas_errors none (c :: rest)

theorem pairwise_of_length_le_one {α : Type} {r : α → α → Prop} {l : List α} (h : l.length ≤ 1) :
    l.Pairwise r := by
  cases l with
  | nil => exact List.Pairwise.nil
  | cons a l =>
    cases l with
    | nil => exact List.pairwise_singleton r a
    | cons b l =>
      simp at h

/-- What is reported, in terms of ranges. -/
theorem noError_check_iff (sections : List (Asection t)) (regions : List MemoryRegion) :
    NoError (langCheckSectionAddresses sections regions) ↔
      NoWrapSeen sections ∧ LmaApart sections ∧ (NoOverlays sections → VmaApart sections) := by
  have hfew : (counted sections).length ≤ 1 →
      LmaApart sections ∧ (NoOverlays sections → VmaApart sections) := by
    intro h
    have hloads := Nat.le_trans (List.length_filter_le Asection.load (counted sections)) h
    exact ⟨pairwise_of_length_le_one hloads, fun _ => pairwise_of_length_le_one h⟩
  have hlength : (counted sections).length ≤ sections.length := List.length_filter_le _ _
  rw [langCheckSectionAddresses]
  split
  case isTrue h =>
    rw [noError_wraps_iff]
    exact (and_iff_left (hfew (Nat.le_trans hlength h))).symm
  case isFalse =>
    dsimp only
    rw [List.length_map]
    split
    case isTrue h =>
      rw [noError_wraps_iff]
      exact (and_iff_left (hfew h)).symm
    case isFalse =>
      have hloop := checkLmas_eq_nil_iff none (qsort sortSectionsByLma (unwarned sections))
      have hlmas := lmas_eq_nil_iff sections
      have hsorted : (qsort sortSectionsByLma (unwarned sections)).Perm (unwarned sections) :=
        List.mergeSort_perm _ _
      change NoError (_ ++ (checkLmas none (qsort sortSectionsByLma (unwarned sections))).2 ++
        vmaReports (qsort sortSectionsByVma
          (checkLmas none (qsort sortSectionsByLma (unwarned sections))).1) ++ _) ↔ _
      rw [noError_append, noError_append, noError_append, noError_wraps_iff,
        noError_iff_nil (checkLmas_errors none _), hlmas,
        and_iff_left (noError_regions regions), and_assoc]
      refine and_congr_right fun _ => and_congr_right fun hapart => ?_
      -- the loop over the LMAs has set no flag, so that the second one looks at all neighbours
      rw [hloop.2 (hlmas.mpr hapart), noError_iff_nil (vmaReports_errors _),
        vmaReports_eq_nil_iff hsorted]

/-! When a wrapping section is seen. -/

theorem addrMask_eq (t : Target) : t.addrMask.toNat = 2 ^ t.bits - 1 := by
  have hpos := t.bits_pos
  have hle := t.bits_le
  have hdouble : 2 ^ t.bits = 2 * 2 ^ (t.bits - 1) := by
    rw [← Nat.pow_succ', Nat.succ_eq_add_one, Nat.sub_add_cancel hpos]
  have htop : 2 ^ (t.bits - 1) ≤ 2 ^ 63 := Nat.pow_le_pow_right (by decide) (by omega)
  have hone : ((1 : Vma) <<< (t.bits - 1)).toNat = 2 ^ (t.bits - 1) := by
    rw [BitVec.toNat_shiftLeft, Nat.shiftLeft_eq]
    change 1 * _ % 2 ^ 64 = _
    omega
  have hge := Nat.two_pow_pos (t.bits - 1)
  rw [Target.addrMask, BitVec.toNat_add, BitVec.toNat_shiftLeft, BitVec.toNat_sub, hone,
    Nat.shiftLeft_eq, hdouble]
  change ((2 ^ 64 - 1 + _) % 2 ^ 64 * 2 ^ 1 % 2 ^ 64 + 1) % 2 ^ 64 = _
  omega

theorem toNat_and_addrMask (t : Target) (x : Vma) :
    (x &&& t.addrMask).toNat = x.toNat % 2 ^ t.bits := by
  rw [BitVec.toNat_and, addrMask_eq, Nat.and_two_pow_sub_one_eq_mod]

/-- A section that is shorter than the address space is seen to wrap when it does. -/
theorem wrapTest_iff {address size : Vma} (hsize : size.toNat < 2 ^ t.bits) :
    wrapTest t address size = true ↔ Wraps t ⟨address.toNat, size.toNat⟩ := by
  have hdvd : 2 ^ t.bits ∣ 2 ^ 64 := Nat.pow_dvd_pow 2 t.bits_le
  have hsum : ((address + size) &&& t.addrMask).toNat
      = (address.toNat % 2 ^ t.bits + size.toNat) % 2 ^ t.bits := by
    rw [toNat_and_addrMask, BitVec.toNat_add, Nat.mod_mod_of_dvd _ hdvd, Nat.mod_add_mod]
  have hlt := Nat.mod_lt address.toNat (Nat.two_pow_pos t.bits)
  rw [wrapTest, Bool.and_eq_true, decide_eq_true_eq, decide_eq_true_eq, ne_eq, ← BitVec.toNat_inj,
    BitVec.lt_def, hsum, toNat_and_addrMask, Wraps]
  change ¬ _ = 0 ∧ _ ↔ 2 ^ t.bits < address.toNat % 2 ^ t.bits + size.toNat
  generalize address.toNat % 2 ^ t.bits = a at hlt ⊢
  rcases Nat.lt_or_ge (a + size.toNat) (2 ^ t.bits) with hin | hout
  · rw [Nat.mod_eq_of_lt hin]
    omega
  · rw [Nat.mod_eq_sub_mod hout, Nat.mod_eq_of_lt (by omega)]
    omega

theorem noWrapSeen_iff {sections : List (Asection t)} (hopb : t.opbShift = 0)
    (hsize : ∀ s ∈ sections, s.alloc = true → s.size.toNat < 2 ^ t.bits) :
    NoWrapSeen sections ↔ NoWrap sections := by
  refine forall₃_congr fun s hs halloc => ?_
  have haddr : t.toAddr s.size = s.size := by
    rw [Target.toAddr, hopb, BitVec.ushiftRight_zero]
  have hiff : ∀ address : Vma, wrapTest t address s.size = false ↔
      ¬ Wraps t ⟨address.toNat, s.size.toNat⟩ := by
    intro address
    rw [Bool.eq_false_iff, ne_eq, wrapTest_iff (hsize s hs halloc)]
  rw [hiff, hiff, Asection.range, Asection.range, haddr]

/-- The check is exact when ranges overlap anyway, or it sees a wrapping section exactly when there
is one; which it does when an address is an octet and the sections are shorter than the address
space. -/
theorem check_exact (sections : List (Asection t)) (regions : List MemoryRegion) :
    ((NoError (langCheckSectionAddresses sections regions) ↔
        LmaApart sections ∧ NoWrap sections ∧ (NoOverlays sections → VmaApart sections)) ↔
      (¬ LmaApart sections ∨ (NoOverlays sections ∧ ¬ VmaApart sections) ∨
        (NoWrapSeen sections ↔ NoWrap sections))) ∧
    (t.opbShift = 0 → (∀ s ∈ sections, s.alloc = true → s.size.toNat < 2 ^ t.bits) →
      (NoError (langCheckSectionAddresses sections regions) ↔
        LmaApart sections ∧ NoWrap sections ∧ (NoOverlays sections → VmaApart sections))) := by
  rw [noError_check_iff]
  constructor
  · by_cases hlma : LmaApart sections
    · by_cases hvma : NoOverlays sections → VmaApart sections
      · have hno : ¬ (NoOverlays sections ∧ ¬ VmaApart sections) :=
          fun h => h.2 (hvma h.1)
        rw [and_iff_left ⟨hlma, hvma⟩, and_iff_right hlma, and_iff_left hvma,
          or_iff_right (not_not_intro hlma), or_iff_right hno]
      · have hno : NoOverlays sections ∧ ¬ VmaApart sections := Classical.not_imp.mp hvma
        refine iff_of_true (iff_of_false ?_ ?_) (.inr (.inl hno))
        · exact fun h => hvma h.2.2
        · exact fun h => hvma h.2.2
    · refine iff_of_true (iff_of_false ?_ ?_) (.inl hlma)
      · exact fun h => hlma h.2.1
      · exact fun h => hlma h.1
  · intro hopb hsize
    rw [noWrapSeen_iff hopb hsize, and_left_comm]

/-- A target with addresses of 32 bits. -/
def bits32 : Target := ⟨0, 32, by decide, by decide⟩

/-- A section that fills the address space and does not start at its beginning. -/
def wholeSpace : Asection bits32 where
  id := 0
  name := ".bss"
  alloc := true
  load := false
  threadLocal := false
  vma := 0x10
  lma := 0x10
  size := 0x100000000
  whole := rfl

/-- Two sections next to each other. -/
def first : Asection bits32 := { wholeSpace with size := 0x10, whole := rfl }
def second : Asection bits32 :=
  { wholeSpace with id := 1, vma := 0x20, lma := 0x20, size := 0x8, whole := rfl }

theorem check_exact_two : NoError (langCheckSectionAddresses [first, second] []) := by
  have hsmall : ∀ s ∈ [first, second], s.alloc = true → s.size.toNat < 2 ^ bits32.bits := by
    decide
  have hnowrap : NoWrap [first, second] := by
    unfold NoWrap Wraps
    decide
  have hapart : VmaApart [first, second] := by
    refine List.pairwise_pair.mpr (Before.apart ?_)
    unfold Before
    decide
  exact ((check_exact [first, second] []).2 rfl hsmall).mpr
    ⟨List.Pairwise.nil, hnowrap, fun _ => hapart⟩

/-- Its end is its start again, and nothing is reported. -/
theorem wholeSpace_not_seen :
    ¬ (NoError (langCheckSectionAddresses [wholeSpace] []) ↔
      LmaApart [wholeSpace] ∧ NoWrap [wholeSpace] ∧
        (NoOverlays [wholeSpace] → VmaApart [wholeSpace])) := by
  have hnone : langCheckSectionAddresses [wholeSpace] [] = [] := by decide
  rw [hnone]
  intro h
  have hwrap := ((h.mp noError_nil).2.1 wholeSpace List.mem_cons_self rfl).1
  apply hwrap
  unfold Wraps
  decide

end FusionBinutils.Ld.CheckAddresses
