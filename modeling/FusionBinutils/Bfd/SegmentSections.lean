import FusionBinutils.Bfd.SegmentMap
import Mathlib.Data.List.Sort
import Mathlib.Data.Prod.Lex

/-! Every allocated section goes into one loadable segment. -/
namespace FusionBinutils.Bfd.SegmentMap
open FusionBinutils.Bfd Ranges

variable {ρ : Type} [DecidableEq ρ] {t : Target} {info : Option (Lang ρ)}
  {last hdr : Section} {lastSize : Vma} {writable : Bool} {seg pre : List Section} {w : Walk}

/-- The page on which a section ends is the one on which the next one starts. -/
def SharesPage (t : Target) (prev s : Section) : Prop :=
  t.page (prev.lma + prev.loadSize - 1) = t.page s.lma

/-- The sections of a segment that the loop has made. -/
structure WellMade (t : Target) (seg : List Section) : Prop where
  nonempty : seg ≠ []
  offset : ∀ a ∈ seg, ∀ b ∈ seg, a.lma - a.vma = b.lma - b.vma
  before : seg.Pairwise fun a b => Before a.loadRange b.loadRange
  /-- only a shared page takes a writable section in after read-only ones -/
  shared : t.dPaged → ∀ pre prev s post, seg = pre ++ prev :: s :: post →
    (∀ r ∈ pre ++ [prev], r.readonly) → s.readonly = false → SharesPage t prev s

/-- What has to hold for a section to go into the segment of the last one. -/
structure Joins (t : Target) (last : Section) (writable : Bool) (hdr : Section) : Prop where
  offset : last.lma - last.vma = hdr.lma - hdr.vma
  before : Before last.loadRange hdr.loadRange
  shared : t.dPaged → writable = false → hdr.readonly = false → SharesPage t last hdr

/-- A test that did not ask for a new segment does not hold. -/
theorem not_of_ite {c : Prop} [Decidable c] {b : Bool} (h : (if c then true else b) = false) :
    ¬ c ∧ b = false := by
  by_cases hc : c
  · rw [if_pos hc] at h
    cases h
  · rw [if_neg hc] at h
    exact ⟨hc, h⟩

theorem joins_of_not_new (h : newSegment t last last.loadSize writable hdr = false) :
    Joins t last writable hdr := by
  rw [newSegment] at h
  obtain ⟨hoffset, h⟩ := not_of_ite h
  obtain ⟨hoverlap, h⟩ := not_of_ite h
  obtain ⟨-, h⟩ := not_of_ite h
  obtain ⟨-, h⟩ := not_of_ite h
  refine ⟨not_ne_iff.mp hoffset, ?_, ?_⟩
  · simp only [not_or, BitVec.not_lt] at hoverlap
    simp only [Before, Range.stop, Section.loadRange]
    bv_omega
  · intro hp hw hr
    rw [if_neg (not_not_intro hp)] at h
    by_contra hne
    exact (not_of_ite h).1 ⟨by simp [hw], by simp [hr], hne⟩

/-- The callback of the linker only makes more segments. -/
theorem not_new_of_overridden {new : Bool} (h : overridden info hdr last new = false) :
    new = false := by
  cases new with
  | false => rfl
  | true => cases info <;> simp [overridden, ldlangOverrideSegmentAssignment] at h

theorem WellMade.single (s : Section) : WellMade t [s] where
  nonempty := by simp
  offset := by simp
  before := by simp
  shared := by
    intro _ pre prev s' post hsplit
    have hlen := congrArg List.length hsplit
    simp only [List.length_append, List.length_cons, List.length_nil] at hlen
    omega

/-- A section that joins keeps the segment well made. -/
theorem WellMade.snoc (hseg : WellMade t (pre ++ [last]))
    (h : Joins t last ((pre ++ [last]).any fun s => !s.readonly) hdr) :
    WellMade t (pre ++ [last] ++ [hdr]) where
  nonempty := by simp
  offset := by
    have hlast : ∀ a ∈ pre ++ [last], a.lma - a.vma = hdr.lma - hdr.vma := by
      intro a ha
      rw [hseg.offset a ha last (by simp), h.offset]
    intro a ha b hb
    rcases List.mem_append.mp ha with ha | ha
    · rcases List.mem_append.mp hb with hb | hb
      · exact hseg.offset a ha b hb
      · rw [List.mem_singleton.mp hb]
        exact hlast a ha
    · rw [List.mem_singleton.mp ha]
      rcases List.mem_append.mp hb with hb | hb
      · exact (hlast b hb).symm
      · rw [List.mem_singleton.mp hb]
  before := by
    refine List.pairwise_append.mpr ⟨hseg.before, List.pairwise_singleton _ _, ?_⟩
    intro a ha b hb
    rw [List.mem_singleton.mp hb]
    rcases List.mem_append.mp ha with ha | ha
    · exact ((List.pairwise_append.mp hseg.before).2.2 a ha last (by simp)).trans h.before
    · rw [List.mem_singleton.mp ha]
      exact h.before
  shared := by
    intro hp before prev s after hsplit hro hw
    rcases List.eq_nil_or_concat after with rfl | ⟨after', x, rfl⟩
    · have hsame : pre ++ [last] ++ [hdr] = before ++ [prev] ++ [s] := by
        rw [hsplit]
        simp
      obtain ⟨hpre, hs⟩ := List.append_inj' hsame rfl
      obtain ⟨rfl, hlast⟩ := List.append_inj' hpre rfl
      obtain rfl := List.singleton_inj.mp hs
      obtain rfl := List.singleton_inj.mp hlast
      refine h.shared hp ?_ hw
      rw [List.any_eq_false]
      intro r hr
      simp [hro r hr]
    · have hsame : pre ++ [last] ++ [hdr] = (before ++ prev :: s :: after') ++ [x] := by
        rw [hsplit]
        simp
      exact hseg.shared hp before prev s after' (List.append_inj' hsame rfl).1 hro hw

/-! The loop -/

/-- The section the loop is at, and the segment it has begun. -/
structure Open (t : Target) (w : Walk) : Prop where
  wellMade : WellMade t w.current
  last : ∃ pre last, w.current = pre ++ [last] ∧ w.lastHdr = some last ∧ w.lastSize = last.loadSize
  writable : w.writable = w.current.any fun s => !s.readonly

/-- The sections of the segments, one after the other. -/
def placed (l : List Segment) : List Section := (l.map Segment.sections).flatten

/-- The state of the loop after some sections. -/
structure Inv (t : Target) (done : List Section) (w : Walk) : Prop where
  all : placed w.made ++ w.current = done
  made : ∀ m ∈ w.made, WellMade t m.sections
  state : w.lastHdr = none ∧ w.current = [] ∧ w.made = [] ∧ w.writable = false ∨ Open t w

theorem inv_start (phdrInSegment : Bool) : Inv t [] (.start phdrInSegment) where
  all := rfl
  made := by simp [Walk.start]
  state := .inl ⟨rfl, rfl, rfl, rfl⟩

theorem inv_step {done : List Section} (h : Inv t done w) (hdr : Section) :
    Inv t (done ++ [hdr]) (w.step t info hdr) := by
  rcases h.state with ⟨hnone, hcur, hmade, hw⟩ | hopen
  · have hstep : w.step t info hdr =
        { w with
          writable := !hdr.readonly
          lastHdr := some hdr
          lastSize := hdr.loadSize
          current := [hdr] } := by
      simp [Walk.step, hnone, hcur, hw]
    rw [hstep]
    refine ⟨?_, h.made, .inr ⟨WellMade.single hdr, ⟨[], hdr, rfl, rfl, rfl⟩, by simp⟩⟩
    rw [← h.all, hcur, List.append_nil]
  · obtain ⟨pre, last, hcur, hlast, hsize⟩ := hopen.last
    cases hnew : overridden info hdr last (newSegment t last w.lastSize w.writable hdr) with
    | false =>
      have hjoins := not_new_of_overridden hnew
      rw [hsize, hopen.writable, hcur] at hjoins
      have hseg := hopen.wellMade
      rw [hcur] at hseg
      have hsnoc := hseg.snoc (joins_of_not_new hjoins)
      rw [← hcur] at hsnoc
      have hstep : w.step t info hdr =
          { w with
            writable := w.writable || !hdr.readonly
            lastHdr := some hdr
            lastSize := hdr.loadSize
            current := w.current ++ [hdr] } := by
        simp [Walk.step, hlast, hnew]
      rw [hstep]
      refine ⟨?_, h.made, .inr ⟨hsnoc, ⟨w.current, hdr, rfl, rfl, rfl⟩, ?_⟩⟩
      · rw [← h.all, List.append_assoc]
      · simp [hopen.writable]
    | true =>
      have hstep : w.step t info hdr = {
          lastHdr := some hdr
          lastSize := hdr.loadSize
          writable := !hdr.readonly
          current := [hdr]
          made := w.made ++ [w.makeMapping]
          phdrInSegment := false } := by
        simp [Walk.step, hlast, hnew]
      rw [hstep]
      refine ⟨?_, ?_, .inr ⟨WellMade.single hdr, ⟨[], hdr, rfl, rfl, rfl⟩, by simp⟩⟩
      · rw [← h.all]
        simp [placed, Walk.makeMapping]
      · intro m hm
        rcases List.mem_append.mp hm with hm | hm
        · exact h.made m hm
        · rw [List.mem_singleton.mp hm]
          exact hopen.wellMade

theorem inv_run {done sections : List Section} (h : Inv t done w) :
    Inv t (done ++ sections) (sections.foldl (Walk.step t info) w) := by
  induction sections generalizing done w with
  | nil => rwa [List.append_nil]
  | cons hdr sections ih =>
    have hstep : Inv t (done ++ [hdr]) (w.step t info hdr) := inv_step h hdr
    have hrun := ih hstep
    rwa [List.append_assoc] at hrun

/-- At the end of the loop only a lone .tbss is left out. -/
theorem finish_spec {done : List Section} (h : Inv t done w) :
    (∃ dropped, placed w.finish ++ dropped = done ∧
      (dropped = [] ∨ ∃ s, dropped = [s] ∧ s.isTbss)) ∧
    ∀ m ∈ w.finish, WellMade t m.sections := by
  rcases h.state with ⟨hnone, hcur, hmade, -⟩ | hopen
  · have hfinish : w.finish = w.made := by rw [Walk.finish, hnone]
    rw [hfinish]
    refine ⟨⟨[], ?_, .inl rfl⟩, h.made⟩
    rw [← h.all, hcur]
  · obtain ⟨pre, last, hcur, hlast, -⟩ := hopen.last
    by_cases hkeep : w.current.length ≠ 1 ∨ ¬ last.isTbss
    · have hfinish : w.finish = w.made ++ [w.makeMapping] := by
        simp only [Walk.finish, hlast, if_pos hkeep]
      rw [hfinish]
      refine ⟨⟨[], ?_, .inl rfl⟩, ?_⟩
      · rw [← h.all]
        simp [placed, Walk.makeMapping]
      · intro m hm
        rcases List.mem_append.mp hm with hm | hm
        · exact h.made m hm
        · rw [List.mem_singleton.mp hm]
          exact hopen.wellMade
    · have hfinish : w.finish = w.made := by
        simp only [Walk.finish, hlast, if_neg hkeep]
      rw [not_or, not_not, not_not] at hkeep
      obtain ⟨hlen, htbss⟩ := hkeep
      rw [hfinish]
      refine ⟨⟨[last], ?_, .inr ⟨last, rfl, htbss⟩⟩, h.made⟩
      have hpre : pre = [] := by
        rw [hcur, List.length_append, List.length_singleton] at hlen
        exact List.length_eq_zero_iff.mp (by omega)
      rw [← h.all, hcur, hpre, List.nil_append]

/-! The order -/

/-- What `elf_sort_sections` compares, the first first. -/
def sortKey (s : Section) : Nat ×ₗ Nat ×ₗ Nat ×ₗ Nat ×ₗ Int :=
  toLex (s.lma.toNat, toLex (s.vma.toNat, toLex (s.toEnd.toNat,
    toLex ((if s.load then s.size.toNat else 0), s.targetIndex))))

/-- A comparison of two words with what decides between equal ones. -/
theorem compare_le_iff (x y : Vma) (rest : Int) :
    (if x < y then -1 else if x > y then 1 else rest) ≤ 0 ↔
      x.toNat < y.toNat ∨ x.toNat = y.toNat ∧ rest ≤ 0 := by
  split_ifs with hlt hgt
  · exact ⟨fun _ => .inl hlt, fun _ => by decide⟩
  · have hgt : y.toNat < x.toNat := hgt
    omega
  · have hnlt : ¬ x.toNat < y.toNat := hlt
    have hngt : ¬ y.toNat < x.toNat := hgt
    omega

theorem elfSortSections_le_iff (a b : Section) :
    elfSortSections a b ≤ 0 ↔ sortKey a ≤ sortKey b := by
  have hsize (s : Section) : (if s.load then s.size else (0 : Vma)).toNat =
      if s.load then s.size.toNat else 0 := by split <;> rfl
  have hend (s : Section) (h : s.toEnd = true) : s.load = false := by
    cases hl : s.load
    · rfl
    · simp [Section.toEnd, hl] at h
  simp only [sortKey, Prod.Lex.toLex_le_toLex]
  rw [elfSortSections, compare_le_iff, compare_le_iff, ← hsize a, ← hsize b]
  refine or_congr_right (and_congr_right fun _ => or_congr_right (and_congr_right fun _ => ?_))
  have hrest := compare_le_iff (if a.load then a.size else 0) (if b.load then b.size else 0)
    (a.targetIndex - b.targetIndex)
  cases ha : a.toEnd <;> cases hb : b.toEnd
  · rw [if_neg (by simp), if_neg (by simp), if_neg (by simp), hrest]
    simp
  · simp
  · simp
  · simp [hend a ha, hend b hb]

/-- Sections can always be put in the order of `elf_sort_sections`. -/
theorem exists_sorted (l : List Section) :
    ∃ sorted : List Section, sorted.Perm l ∧
      sorted.Pairwise fun a b => elfSortSections a b ≤ 0 := by
  refine ⟨l.mergeSort fun a b => sortKey a ≤ sortKey b, List.mergeSort_perm _ _, ?_⟩
  have hsorted : (l.mergeSort fun a b => sortKey a ≤ sortKey b).Pairwise
      fun a b => decide (sortKey a ≤ sortKey b) = true := by
    apply List.pairwise_mergeSort
    · intro a b c hab hbc
      rw [decide_eq_true_eq] at hab hbc ⊢
      exact hab.trans hbc
    · intro a b
      simpa using le_total (sortKey a) (sortKey b)
  refine hsorted.imp ?_
  intro a b hab
  exact (elfSortSections_le_iff a b).mpr (of_decide_eq_true hab)

/-- On pages of a power of two, the last address of the one section and the first of the next
are on the same page. -/
theorem sharesPage_iff {prev s : Section} {k : Nat} (hk : k < 64)
    (hpage : t.maxpagesize = BitVec.twoPow 64 k) :
    SharesPage t prev s ↔
      (prev.lma + prev.loadSize - 1).toNat / 2 ^ k = s.lma.toNat / 2 ^ k := by
  have hmask : -t.maxpagesize = ~~~(t.maxpagesize - 1) := by
    apply BitVec.eq_of_toNat_eq
    bv_omega
  have hpow : t.maxpagesize.toNat = 2 ^ k := by
    rw [hpage, BitVec.toNat_twoPow]
    exact Nat.mod_eq_of_lt (Nat.pow_lt_pow_right (by decide) hk)
  have hlow : (t.maxpagesize - 1).toNat = 2 ^ k - 1 := by
    have hone : (1 : Vma) ≤ t.maxpagesize := by
      rw [BitVec.le_def, hpow]
      exact Nat.one_le_two_pow
    rw [BitVec.toNat_sub_of_le hone, hpow]
    rfl
  have hdiv (x : Vma) : (t.page x).toNat = x.toNat / 2 ^ k * 2 ^ k := by
    rw [Target.page, hmask]
    exact BitField.toNat_and_not_low k hlow
  constructor
  · intro h
    have hnat := congrArg BitVec.toNat h
    rw [hdiv, hdiv] at hnat
    exact Nat.eq_of_mul_eq_mul_right (Nat.two_pow_pos k) hnat
  · intro h
    apply BitVec.eq_of_toNat_eq
    rw [hdiv, hdiv, h]

/-- Segments of allocated sections that are not excluded stay as they are. -/
theorem elfModifySegmentMap_eq {l : List Segment} (hne : ∀ m ∈ l, m.sections ≠ [])
    (h : ∀ m ∈ l, ∀ s ∈ m.sections, s.alloc ∧ s.exclude = false) :
    elfModifySegmentMap true l = l := by
  induction l with
  | nil => rfl
  | cons m l ih =>
    have hfilter : m.sections.filter (fun s => !s.exclude && s.alloc) = m.sections := by
      refine List.filter_eq_self.mpr fun s hs => ?_
      obtain ⟨halloc, hexclude⟩ := h m List.mem_cons_self s hs
      simp [halloc, hexclude]
    have hrest : elfModifySegmentMap true l = l :=
      ih (fun m' hm => hne m' (List.mem_cons_of_mem _ hm))
        fun m' hm => h m' (List.mem_cons_of_mem _ hm)
    have hnil : m.sections ≠ [] := hne m List.mem_cons_self
    unfold elfModifySegmentMap at hrest ⊢
    rw [List.filterMap_cons, hrest]
    simp [hfilter, hnil]

/-- Every allocated section goes into exactly one loadable segment, in the order of the addresses,
but for a .tbss that would be alone in the last one. In a segment the sections have one offset
between their addresses, lie one after the other, and a writable one comes behind read-only ones
only on the page on which the last of them ends. -/
theorem allocated_in_one_segment (t : Target) (info : Option (Lang ρ)) (phdrInSegment : Bool)
    (bfdSections sorted : List Section)
    (hperm : sorted.Perm (bfdSections.filter Section.alloc))
    (hsorted : sorted.Pairwise fun a b => elfSortSections a b ≤ 0) :
    (∃ dropped, placed (mapSectionsToSegments t info phdrInSegment sorted) ++ dropped = sorted ∧
      (placed (mapSectionsToSegments t info phdrInSegment sorted) ++ dropped).Perm
        (bfdSections.filter Section.alloc) ∧
      (placed (mapSectionsToSegments t info phdrInSegment sorted) ++ dropped).Pairwise
        (fun a b => elfSortSections a b ≤ 0) ∧
      (dropped = [] ∨ ∃ s, dropped = [s] ∧ s.isTbss)) ∧
    (∀ m ∈ mapSectionsToSegments t info phdrInSegment sorted,
      (∀ a ∈ m.sections, ∀ b ∈ m.sections, a.lma - a.vma = b.lma - b.vma) ∧
      m.sections.Pairwise (fun a b => Apart a.loadRange b.loadRange) ∧
      (t.dPaged → ∀ pre prev s post, m.sections = pre ++ prev :: s :: post →
        (∀ r ∈ pre ++ [prev], r.readonly) → s.readonly = false →
        SharesPage t prev s ∧
        ∀ k < 64, t.maxpagesize = BitVec.twoPow 64 k →
          (prev.lma + prev.loadSize - 1).toNat / 2 ^ k = s.lma.toNat / 2 ^ k)) ∧
    ((∀ s ∈ bfdSections, s.alloc → s.exclude = false) →
      elfModifySegmentMap true (mapSectionsToSegments t info phdrInSegment sorted) =
        mapSectionsToSegments t info phdrInSegment sorted) := by
  have hinv : Inv t sorted (sorted.foldl (Walk.step t info) (.start phdrInSegment)) :=
    inv_run (inv_start phdrInSegment)
  obtain ⟨⟨dropped, hall, hdropped⟩, hmade⟩ := finish_spec hinv
  refine ⟨⟨dropped, hall, ?_, ?_, hdropped⟩, ?_, ?_⟩
  · rw [mapSectionsToSegments, hall]
    exact hperm
  · rw [mapSectionsToSegments, hall]
    exact hsorted
  · intro m hm
    have hwell := hmade m hm
    refine ⟨hwell.offset, hwell.before.imp Before.apart, ?_⟩
    intro hp pre prev s post hsplit hro hw
    have hshares := hwell.shared hp pre prev s post hsplit hro hw
    exact ⟨hshares, fun k hk hpage => (sharesPage_iff hk hpage).mp hshares⟩
  · intro hexclude
    refine elfModifySegmentMap_eq (fun m hm => (hmade m hm).nonempty) ?_
    intro m hm s hs
    have hin : s ∈ sorted := by
      rw [← hall]
      exact List.mem_append_left _
        (List.mem_flatten.mpr ⟨m.sections, List.mem_map_of_mem hm, hs⟩)
    obtain ⟨hmem, halloc⟩ := List.mem_filter.mp (hperm.mem_iff.mp hin)
    exact ⟨halloc, hexclude s hmem halloc⟩

def textSection : Section :=
  ⟨".text", true, true, true, false, true, false, 0x1000, 0x1000, 0x800, 1⟩

def dataSection : Section :=
  ⟨".data", true, true, false, false, false, false, 0x2000, 0x2000, 0x10, 2⟩

def commentSection : Section :=
  ⟨".comment", false, false, true, false, false, false, 0, 0, 0x40, 3⟩

theorem text_and_data_placed :
    placed (mapSectionsToSegments ⟨true, 0x1000⟩ (none : Option (Lang String)) true
      [textSection, dataSection]) = [textSection, dataSection] ∧
    elfModifySegmentMap true (mapSectionsToSegments ⟨true, 0x1000⟩ (none : Option (Lang String))
      true [textSection, dataSection]) = [⟨[textSection], true⟩, ⟨[dataSection], false⟩] := by
  obtain ⟨⟨dropped, hall, -, -, hdropped⟩, -, hmodify⟩ := allocated_in_one_segment ⟨true, 0x1000⟩
    (none : Option (Lang String)) true [commentSection, dataSection, textSection]
    [textSection, dataSection] (List.Perm.swap _ _ _) (by decide)
  constructor
  · rcases hdropped with rfl | ⟨s, rfl, hs⟩
    · rwa [List.append_nil] at hall
    · have hlast := congrArg List.getLast? hall
      simp only [List.getLast?_concat, List.getLast?_cons_cons, List.getLast?_singleton,
        Option.some.injEq] at hlast
      rw [hlast] at hs
      revert hs
      decide
  · rw [hmodify (by decide)]
    decide

end FusionBinutils.Bfd.SegmentMap
