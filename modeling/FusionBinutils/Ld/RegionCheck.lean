import FusionBinutils.Ld.SizeSections
import FusionBinutils.Lib.Ranges

/-! The check that a section fits into its memory region, over a pass that sets the addresses. -/
namespace FusionBinutils.Ld.Layout

open Ranges

variable {cfg : Config} {phase : LangPhase} {checkRegions : Bool} {st st' st'' : State}
  {os : OutputSection} {n : Nat} {dot dot' : Vma} {sec : Section'}

def Report.ofRegion : Report → Bool
  | .notWithin .. | .willNotFit .. => true
  | _ => false

/-- No section was reported to be outside of its region. -/
def Silent (st : State) : Prop := ∀ r ∈ st.reports, r.ofRegion = false

/-- Only the output section `n` changes, no region's bounds do, and a region is only noted to be full
when that is reported. -/
structure Touches (n : Nat) (st st' : State) : Prop where
  sections : ∀ m ≠ n, st'.sections m = st.sections m
  osRegion : ∀ m ≠ n, st'.osRegion m = st.osRegion m
  origin : ∀ r, (st'.regions r).origin = (st.regions r).origin
  length : ∀ r, (st'.regions r).length = (st.regions r).length
  reports : st.reports <+: st'.reports
  full : ∀ r, (st'.regions r).hadFullMessage = true →
    (st.regions r).hadFullMessage = true ∨ ∃ s, Report.willNotFit s r ∈ st'.reports

theorem Touches.refl : Touches n st st :=
  ⟨fun _ _ => rfl, fun _ _ => rfl, fun _ => rfl, fun _ => rfl, List.prefix_rfl, fun _ => .inl⟩

theorem Touches.trans (h : Touches n st st') (h' : Touches n st' st'') : Touches n st st'' where
  sections m hm := (h'.sections m hm).trans (h.sections m hm)
  osRegion m hm := (h'.osRegion m hm).trans (h.osRegion m hm)
  origin r := (h'.origin r).trans (h.origin r)
  length r := (h'.length r).trans (h.length r)
  reports := h.reports.trans h'.reports
  full r hr := by
    rcases h'.full r hr with hr' | hnew
    · rcases h.full r hr' with hold | ⟨s, hs⟩
      · exact .inl hold
      · exact .inr ⟨s, h'.reports.subset hs⟩
    · exact .inr hnew

theorem Silent.of_touches (h : Touches n st st') (hsilent : Silent st') : Silent st :=
  fun r hr => hsilent r (h.reports.subset hr)

/-- No region has been noted to be full. -/
def Fresh (st : State) : Prop := ∀ r, (st.regions r).hadFullMessage = false

theorem Fresh.of_touches (h : Touches n st st') (hsilent : Silent st') (hfresh : Fresh st) :
    Fresh st' := by
  intro r
  by_contra hfull
  rw [Bool.not_eq_false] at hfull
  rcases h.full r hfull with hold | ⟨s, hs⟩
  · rw [hfresh r] at hold
    exact Bool.false_ne_true hold
  · exact Bool.false_ne_true (hsilent _ hs).symm

/-- The sections, the regions and the reports stay. -/
structure Quiet (st st' : State) : Prop where
  sections : st'.sections = st.sections
  osRegion : st'.osRegion = st.osRegion
  regions : st'.regions = st.regions
  reports : st'.reports = st.reports

theorem Quiet.refl : Quiet st st := ⟨rfl, rfl, rfl, rfl⟩

theorem Quiet.touches (h : Quiet st st') : Touches n st st' where
  sections _ _ := by rw [h.sections]
  osRegion _ _ := by rw [h.osRegion]
  origin _ := by rw [h.regions]
  length _ := by rw [h.regions]
  reports := by rw [h.reports]
  full r hr := .inl (by rw [← h.regions]; exact hr)

theorem quiet_expFoldTree {tree : Etree} {v : Option EtreeValue}
    (h : expFoldTree cfg phase st sec dot tree = some (v, st')) : Quiet st st' := by
  obtain ⟨p, _, heq⟩ := Option.map_eq_some_iff.mp h
  cases heq
  exact ⟨rfl, rfl, rfl, rfl⟩

theorem quiet_assignDot {src : Etree}
    (h : assignDot cfg phase sec dot src st = some (dot', st')) : Quiet st st' := by
  unfold assignDot at h
  split at h
  · cases h
    exact .refl
  · obtain ⟨p, _, hp⟩ := Option.bind_eq_some_iff.mp h
    have hq : Quiet st { st with dataseg := p.2.dataseg } := ⟨rfl, rfl, rfl, rfl⟩
    rcases hv : p.1 with _ | v <;> simp only [hv, Option.elim] at hp
    all_goals
      split at hp
      · first | (cases hp; exact hq) | (split at hp <;> cases hp; exact hq)
      · cases hp <;> exact hq

theorem quiet_assignSymbol {c : AssignClass} {dst : String} {src : Etree}
    (h : assignSymbol cfg phase sec dot c dst src st = some st') : Quiet st st' := by
  unfold assignSymbol at h
  split at h
  · cases h
    exact .refl
  · obtain ⟨p, _, hp⟩ := Option.map_eq_some_iff.mp h
    rw [← hp]
    rcases p.1 with _ | v
    · exact ⟨rfl, rfl, rfl, rfl⟩
    · simp only [Option.elim]
      split <;> exact ⟨rfl, rfl, rfl, rfl⟩

theorem quiet_foldAssignment {a : Assignment}
    (h : foldAssignment cfg phase sec dot a st = some (dot', st')) : Quiet st st' := by
  cases a with
  | dot src => exact quiet_assignDot h
  | symbol c dst src =>
    obtain ⟨s, hs, heq⟩ := Option.map_eq_some_iff.mp h
    cases heq
    exact quiet_assignSymbol hs
  | assert child =>
    obtain ⟨p, hp, heq⟩ := Option.map_eq_some_iff.mp h
    cases heq
    exact quiet_expFoldTree hp

/-- The contents of the output section `n` are sized: its addresses stay, and all else. -/
structure Sizes (n : Nat) (st st' : State) : Prop where
  sections : ∀ m ≠ n, st'.sections m = st.sections m
  vma : (st'.sections n).vma = (st.sections n).vma
  osRegion : st'.osRegion = st.osRegion
  regions : st'.regions = st.regions
  reports : st'.reports = st.reports

theorem Quiet.sizes (h : Quiet st st') : Sizes n st st' where
  sections _ _ := by rw [h.sections]
  vma := by rw [h.sections]
  osRegion := h.osRegion
  regions := h.regions
  reports := h.reports

theorem Sizes.trans (h : Sizes n st st') (h' : Sizes n st' st'') : Sizes n st st'' where
  sections m hm := (h'.sections m hm).trans (h.sections m hm)
  vma := h'.vma.trans h.vma
  osRegion := h'.osRegion.trans h.osRegion
  regions := h'.regions.trans h.regions
  reports := h'.reports.trans h.reports

theorem Sizes.touches (h : Sizes n st st') : Touches n st st' where
  sections := h.sections
  osRegion _ _ := by rw [h.osRegion]
  origin _ := by rw [h.regions]
  length _ := by rw [h.regions]
  reports := by rw [h.reports]
  full r hr := .inl (by rw [← h.regions]; exact hr)

theorem sizes_setSection (f : Asection → Asection) (hf : ∀ o, (f o).vma = o.vma) :
    Sizes n st (st.setSection n f) where
  sections _ hm := Function.update_of_ne hm _ _
  vma := by simp only [State.setSection, Function.update_self, hf]
  osRegion := rfl
  regions := rfl
  reports := rfl

theorem sizes_endsAt : Sizes os.id st (st.endsAt cfg os dot) := sizes_setSection _ fun _ => rfl

theorem sizes_sizeInputSection {i : InputSection} :
    Sizes os.id st (sizeInputSection cfg os i dot st).2 := by
  unfold sizeInputSection
  split
  · exact Quiet.refl.sizes
  · have hpower : Sizes os.id st (st.setSection os.id fun o => { o with
        alignmentPower := max o.alignmentPower (os.subsectionAlignment.getD i.alignmentPower) }) :=
      sizes_setSection _ fun _ => rfl
    refine Sizes.trans ?_ sizes_endsAt
    split
    · exact hpower.trans sizes_endsAt
    · exact hpower

theorem sizes_sizeAssignment {a : Assignment}
    (h : sizeAssignment cfg phase os a dot st = some (dot', st')) : Sizes os.id st st' := by
  obtain ⟨⟨newdot, st1⟩, hp, heq⟩ := Option.map_eq_some_iff.mp h
  have hquiet := (quiet_foldAssignment hp).sizes (n := os.id)
  dsimp only at heq
  split at heq
  · cases heq
    exact hquiet
  · split at heq
    · split at heq
      · cases heq
        exact hquiet.trans (sizes_endsAt.trans (sizes_setSection _ fun _ => rfl))
      · cases heq
        exact hquiet.trans sizes_endsAt
    · cases heq
      exact hquiet

mutual
theorem sizes_sizeChild : ∀ (c : Child) {dot dot' : Vma} {st st' : State},
    sizeChild cfg phase os c dot st = some (dot', st') → Sizes os.id st st'
  | .constructors children, _, _, _, _, h => sizes_sizeChildren children (by rwa [sizeChild] at h)
  | .wild children, _, _, _, _, h => sizes_sizeChildren children (by rwa [sizeChild] at h)
  | .group children, _, _, _, _, h => sizes_sizeChildren children (by rwa [sizeChild] at h)
  | .data type exp, _, _, _, _, h => by
    rw [sizeChild] at h
    obtain ⟨p, hp, heq⟩ := Option.map_eq_some_iff.mp h
    cases heq
    exact (quiet_expFoldTree hp).sizes.trans sizes_endsAt
  | .reloc size, _, _, _, _, h => by
    rw [sizeChild] at h
    cases h
    exact sizes_endsAt
  | .inputSection i, _, _, _, _, h => by
    rw [sizeChild] at h
    have hst := congrArg Prod.snd (Option.some.inj h)
    dsimp only at hst
    rw [← hst]
    exact sizes_sizeInputSection
  | .assignment a, _, _, _, _, h => by
    rw [sizeChild] at h
    exact sizes_sizeAssignment h
  | .other, _, _, _, _, h => by
    rw [sizeChild] at h
    cases h
    exact Quiet.refl.sizes

theorem sizes_sizeChildren : ∀ (l : List Child) {dot dot' : Vma} {st st' : State},
    sizeChildren cfg phase os l dot st = some (dot', st') → Sizes os.id st st'
  | [], _, _, _, _, h => by
    rw [sizeChildren] at h
    cases h
    exact Quiet.refl.sizes
  | c :: rest, _, _, _, _, h => by
    rw [sizeChildren] at h
    obtain ⟨p, hp, hrest⟩ := Option.bind_eq_some_iff.mp h
    exact (sizes_sizeChild c hp).trans (sizes_sizeChildren rest hrest)
end

theorem sizes_explicitAddress
    (h : explicitAddress cfg phase os dot st = some (dot', st')) : Sizes os.id st st' := by
  unfold explicitAddress at h
  rcases haddr : os.address cfg with _ | tree <;> rw [haddr] at h
  · cases h
    exact Quiet.refl.sizes
  · obtain ⟨p, hp, heq⟩ := Option.bind_eq_some_iff.mp h
    have hfold := (quiet_expFoldTree hp).sizes (n := os.id)
    have hnote : Sizes os.id st (st.setSection os.id fun o => { o with processedVma := false }) :=
      sizes_setSection _ fun _ => rfl
    have hsizes := hnote.trans hfold
    rcases hv : p.1 with _ | v <;> rw [hv] at heq
    · simp only [Option.elim] at heq
      split at heq
      · cases heq
        exact hsizes
      · cases heq
    · cases heq
      exact hsizes

/-- The regions stay when the default region joins the list. -/
theorem quiet_lookupDefault : Quiet st st.lookupDefault := by
  unfold State.lookupDefault
  split
  · exact .refl
  · exact ⟨rfl, rfl, rfl, rfl⟩

theorem quiet_memoryDefault {flags : BitVec 32} : Quiet st (memoryDefault flags st).2 := by
  unfold memoryDefault
  dsimp only
  cases List.find? _ st.regionList with
  | none => exact quiet_lookupDefault
  | some r => exact .refl

theorem quiet_chooseRegion (os : OutputSection) (st : State) : Quiet st (chooseRegion os st).2 := by
  unfold chooseRegion
  dsimp only
  cases st.osRegion os.id with
  | none => exact quiet_memoryDefault
  | some r =>
    simp only [Option.elim]
    split
    · exact quiet_memoryDefault
    · exact .refl

/-- The output section `n` is placed: it has a region and an address, and what is reported is not
about regions that are too small. -/
structure Places (n : Nat) (st st' : State) : Prop where
  sections : ∀ m ≠ n, st'.sections m = st.sections m
  osRegion : ∀ m ≠ n, st'.osRegion m = st.osRegion m
  regions : st'.regions = st.regions
  reports : st.reports <+: st'.reports

theorem Sizes.places (h : Sizes n st st') : Places n st st' where
  sections := h.sections
  osRegion _ _ := by rw [h.osRegion]
  regions := h.regions
  reports := by rw [h.reports]

theorem Quiet.places (h : Quiet st st') : Places n st st' := h.sizes.places

theorem Places.trans (h : Places n st st') (h' : Places n st' st'') : Places n st st'' where
  sections m hm := (h'.sections m hm).trans (h.sections m hm)
  osRegion m hm := (h'.osRegion m hm).trans (h.osRegion m hm)
  regions := h'.regions.trans h.regions
  reports := h.reports.trans h'.reports

theorem Places.touches (h : Places n st st') : Touches n st st' where
  sections := h.sections
  osRegion := h.osRegion
  origin _ := by rw [h.regions]
  length _ := by rw [h.regions]
  reports := h.reports
  full r hr := .inl (by rw [← h.regions]; exact hr)

theorem places_report (r : Report) : Places n st (st.report r) where
  sections _ _ := rfl
  osRegion _ _ := rfl
  regions := rfl
  reports := List.prefix_append _ _

theorem places_setSection (f : Asection → Asection) : Places n st (st.setSection n f) where
  sections _ hm := Function.update_of_ne hm _ _
  osRegion _ _ := rfl
  regions := rfl
  reports := List.prefix_rfl

theorem places_setOsRegion (r : Option String) :
    Places n st { st with osRegion := Function.update st.osRegion n r } where
  sections _ _ := rfl
  osRegion _ hm := Function.update_of_ne hm _ _
  regions := rfl
  reports := List.prefix_rfl

theorem places_unalignedStart {p : Vma × Int × State}
    (h : unalignedStart cfg phase checkRegions os dot st = some p) : Places os.id st p.2.2 := by
  unfold unalignedStart at h
  split at h
  · have hchosen := (quiet_chooseRegion os st).places (n := os.id)
    have hset := hchosen.trans (places_setOsRegion (some (chooseRegion os st).1))
    dsimp only at h
    split at h
    · split at h
      · cases h
      · cases h
        exact hset.trans (places_report _)
    · cases h
      exact hset
  · cases h
    exact Quiet.refl.places

theorem places_placeSection {start : Start}
    (h : placeSection cfg phase checkRegions os dot st = some (start, st')) :
    Places os.id st st' := by
  unfold placeSection at h
  split at h
  · split at h
    · cases h
      exact Quiet.refl.places
    · cases h
  · obtain ⟨p, hp, heq⟩ := Option.map_eq_some_iff.mp h
    have hstart := places_unalignedStart hp
    have hst := congrArg Prod.snd heq
    dsimp only at hst
    rw [← hst]
    refine Places.trans ?_ (places_setSection _)
    split
    · exact hstart.trans (places_report _)
    · exact hstart

/-- Between the sizing of the contents and the check, the output section `n` gets its LMA. -/
structure Meanwhile (n : Nat) (st st' : State) : Prop where
  sections : ∀ m ≠ n, st'.sections m = st.sections m
  lma : ∃ lma, st'.sections n = { st.sections n with lma := lma }
  osRegion : st'.osRegion = st.osRegion
  origin : ∀ r, (st'.regions r).origin = (st.regions r).origin
  length : ∀ r, (st'.regions r).length = (st.regions r).length
  current : ∀ r, (st'.regions r).current = (st.regions r).current
  full : ∀ r, (st'.regions r).hadFullMessage = (st.regions r).hadFullMessage
  reports : st.reports <+: st'.reports

theorem Quiet.meanwhile (h : Quiet st st') : Meanwhile n st st' where
  sections _ _ := by rw [h.sections]
  lma := ⟨(st.sections n).lma, by rw [h.sections]⟩
  osRegion := h.osRegion
  origin _ := by rw [h.regions]
  length _ := by rw [h.regions]
  current _ := by rw [h.regions]
  full _ := by rw [h.regions]
  reports := by rw [h.reports]

theorem Meanwhile.trans (h : Meanwhile n st st') (h' : Meanwhile n st' st'') :
    Meanwhile n st st'' where
  sections m hm := (h'.sections m hm).trans (h.sections m hm)
  lma := by
    obtain ⟨_, hl⟩ := h.lma
    obtain ⟨lma, hl'⟩ := h'.lma
    exact ⟨lma, by rw [hl', hl]⟩
  osRegion := h'.osRegion.trans h.osRegion
  origin r := (h'.origin r).trans (h.origin r)
  length r := (h'.length r).trans (h.length r)
  current r := (h'.current r).trans (h.current r)
  full r := (h'.full r).trans (h.full r)
  reports := h.reports.trans h'.reports

theorem Meanwhile.touches (h : Meanwhile n st st') : Touches n st st' where
  sections := h.sections
  osRegion _ _ := by rw [h.osRegion]
  origin := h.origin
  length := h.length
  reports := h.reports
  full r hr := .inl (by rw [← h.full]; exact hr)

theorem Meanwhile.vma (h : Meanwhile n st st') : (st'.sections n).vma = (st.sections n).vma := by
  obtain ⟨lma, hl⟩ := h.lma
  rw [hl]

theorem Meanwhile.size (h : Meanwhile n st st') : (st'.sections n).size = (st.sections n).size := by
  obtain ⟨lma, hl⟩ := h.lma
  rw [hl]

theorem Meanwhile.flags (h : Meanwhile n st st') :
    (st'.sections n).flags = (st.sections n).flags := by
  obtain ⟨lma, hl⟩ := h.lma
  rw [hl]

theorem Meanwhile.dotdelta (h : Meanwhile n st st') :
    (st'.sections n).dotdelta cfg = (st.sections n).dotdelta cfg := by
  unfold Asection.dotdelta Asection.isTbss
  rw [h.size, h.flags]

theorem meanwhile_setLma (lma : Vma) : Meanwhile os.id st (st.setLma os lma) where
  sections _ hm := Function.update_of_ne hm _ _
  lma := ⟨lma, by simp only [State.setLma, State.setSection, Function.update_self]⟩
  osRegion := rfl
  origin _ := rfl
  length _ := rfl
  current _ := rfl
  full _ := rfl
  reports := List.prefix_rfl

theorem meanwhile_report (r : Report) : Meanwhile n st (st.report r) where
  sections _ _ := rfl
  lma := ⟨_, rfl⟩
  osRegion := rfl
  origin _ := rfl
  length _ := rfl
  current _ := rfl
  full _ := rfl
  reports := List.prefix_append _ _

theorem quiet_lmaTracking (os : OutputSection) (st : State) :
    Quiet st (lmaTracking os st).2 := by
  unfold lmaTracking
  cases st.osRegion os.id with
  | none => exact quiet_lookupDefault
  | some r => exact .refl

theorem meanwhile_lmaAfter {start : Start} {last : Asection} :
    Meanwhile os.id st (lmaAfter cfg os dot start last st) := by
  unfold lmaAfter
  dsimp only
  split
  · split
    · exact meanwhile_report _
    · exact Quiet.refl.meanwhile
  · exact meanwhile_setLma _

theorem meanwhile_setSectionLma {r : String} {start : Start}
    (h : setSectionLma cfg phase os r dot start st = some st') : Meanwhile os.id st st' := by
  unfold setSectionLma at h
  split at h
  · obtain ⟨p, hp, heq⟩ := Option.map_eq_some_iff.mp h
    rw [← heq]
    refine Meanwhile.trans ?_ (meanwhile_setLma _)
    unfold loadBaseValue at hp
    obtain ⟨q, hq, hv⟩ := Option.bind_eq_some_iff.mp hp
    have hfold := (quiet_expFoldTree hq).meanwhile (n := os.id)
    rcases hval : q.1 with _ | v <;> rw [hval] at hv
    · simp only [Option.elim] at hv
      split at hv
      · cases hv
        exact hfold
      · cases hv
    · cases hv
      exact hfold
  · cases h
    exact meanwhile_setLma _
  · split at h
    · cases h
      exact meanwhile_lmaAfter
    · cases h
      exact Quiet.refl.meanwhile
  · cases h
    exact Quiet.refl.meanwhile

/-- With a region for LMAs, and no load address, the LMA is the next address of the region. -/
theorem setSectionLma_region {r l : String} {start : Start} (hbase : os.loadBase = none)
    (hl : os.lmaRegion = some l) (h : setSectionLma cfg phase os r dot start st = some st') :
    (st'.sections os.id).lma = lmaInRegion os l start st := by
  unfold setSectionLma at h
  rw [hbase, hl] at h
  cases h
  simp only [State.setLma, State.setSection, Function.update_self]

theorem meanwhile_trackLastOs (cfg : Config) (r : String) (dot : Vma) :
    Meanwhile os.id st (trackLastOs cfg os r dot st) := by
  unfold trackLastOs
  dsimp only
  split
  · refine ⟨fun _ _ => rfl, ⟨_, rfl⟩, rfl, ?_, ?_, ?_, ?_, List.prefix_rfl⟩
    all_goals
      intro r'
      by_cases hr : r' = r
      · subst hr
        simp only [State.setRegion, Function.update_self]
      · simp only [State.setRegion, Function.update_of_ne hr]
  · exact Quiet.refl.meanwhile

theorem trackLastOs_sections {r : String} : (trackLastOs cfg os r dot st).sections = st.sections := by
  unfold trackLastOs
  dsimp only
  split <;> rfl

theorem quiet_updateDot (h : updateDot cfg phase os dot st = some (dot', st')) : Quiet st st' := by
  unfold updateDot at h
  cases htree : os.updateDotTree with
  | none =>
    rw [htree] at h
    cases h
    exact .refl
  | some tree =>
    rw [htree] at h
    exact quiet_assignDot h

/-- What is done with a section after its contents are sized. -/
theorem closeSection_spec {start : Start}
    (h : closeSection cfg phase checkRegions os start dot st = some (dot', st')) :
    ∃ st0, Meanwhile os.id st st0 ∧
      (∀ l, os.loadBase = none → os.lmaRegion = some l →
        (st0.sections os.id).lma = lmaInRegion os l start st) ∧
      if os.isAbs || os.ignored then st' = st0
      else ∃ st1,
        updateDot cfg phase os (dot + (st.sections os.id).dotdelta cfg) st0 = some (dot', st1) ∧
        st' = updateRegions cfg checkRegions os dot' ((st.sections os.id).dotdelta cfg) st1 := by
  unfold closeSection at h
  have htracking := quiet_lmaTracking os st
  obtain ⟨stLma, hlma, hrest⟩ := Option.bind_eq_some_iff.mp h
  have hset := meanwhile_setSectionLma hlma
  have hmean := (htracking.meanwhile (n := os.id)).trans
    (hset.trans (meanwhile_trackLastOs cfg (lmaTracking os st).1 dot))
  refine ⟨_, hmean, ?_, ?_⟩
  · intro l hbase hl
    rw [trackLastOs_sections, setSectionLma_region hbase hl hlma]
    unfold lmaInRegion
    rw [htracking.regions, htracking.osRegion]
  · split at hrest
    · rename_i hskip
      rw [if_pos hskip]
      cases hrest
      rfl
    · rename_i hskip
      rw [if_neg hskip]
      obtain ⟨⟨d, st1⟩, hdot, heq⟩ := Option.map_eq_some_iff.mp hrest
      rw [hmean.dotdelta] at hdot heq
      cases heq
      exact ⟨st1, hdot, rfl⟩

theorem touches_setRegion (r : String) (f : MemoryRegion → MemoryRegion)
    (hf : ∀ m, (f m).origin = m.origin ∧ (f m).length = m.length ∧
      (f m).hadFullMessage = m.hadFullMessage) : Touches n st (st.setRegion r f) := by
  refine ⟨fun _ _ => rfl, fun _ _ => rfl, ?_, ?_, List.prefix_rfl, ?_⟩
  all_goals
    intro r'
    by_cases hr : r' = r
    · subst hr
      simp only [State.setRegion, Function.update_self, hf]
      try exact .inl
    · simp only [State.setRegion, Function.update_of_ne hr]
      try exact .inl

theorem touches_osRegionCheck {r : String} {tree : Option Etree} {rbase : Vma} :
    Touches n st (osRegionCheck os r tree rbase st) := by
  unfold osRegionCheck
  dsimp only
  split
  · split
    · exact (places_report _).touches
    · split
      · refine ⟨fun _ _ => rfl, fun _ _ => rfl, ?_, ?_, List.prefix_append _ _, ?_⟩
        all_goals
          intro r'
          by_cases hr : r' = r
          · subst hr
            simp [State.report, State.setRegion]
          · simp only [State.report, State.setRegion, Function.update_of_ne hr]
            try exact .inl
      · exact .refl
  · exact .refl

theorem touches_leaveRegion {r : String} {tree : Option Etree} {rbase : Vma} :
    Touches n st (leaveRegion checkRegions os r dot tree rbase st) := by
  unfold leaveRegion
  have hset : Touches n st (st.setRegion r fun m => { m with current := dot }) :=
    touches_setRegion r _ fun _ => ⟨rfl, rfl, rfl⟩
  dsimp only
  split
  · exact hset.trans touches_osRegionCheck
  · exact hset

/-- The sections stay as they are when a region is left. -/
theorem leaveRegion_sections {r : String} {tree : Option Etree} {rbase : Vma} :
    (leaveRegion checkRegions os r dot tree rbase st).sections = st.sections ∧
      (leaveRegion checkRegions os r dot tree rbase st).osRegion = st.osRegion := by
  unfold leaveRegion osRegionCheck
  dsimp only
  split
  · split
    · split
      · exact ⟨rfl, rfl⟩
      · split <;> exact ⟨rfl, rfl⟩
    · exact ⟨rfl, rfl⟩
  · exact ⟨rfl, rfl⟩

theorem updateRegions_sections (cfg : Config) (checkRegions : Bool) (os : OutputSection)
    (dot dotdelta : Vma) (st : State) :
    (updateRegions cfg checkRegions os dot dotdelta st).sections = st.sections ∧
      (updateRegions cfg checkRegions os dot dotdelta st).osRegion = st.osRegion := by
  unfold updateRegions
  dsimp only
  split
  · exact ⟨rfl, rfl⟩
  · split
    · split
      · exact leaveRegion_sections
      · split
        · refine ⟨leaveRegion_sections.1.trans leaveRegion_sections.1, ?_⟩
          exact leaveRegion_sections.2.trans leaveRegion_sections.2
        · exact leaveRegion_sections
    · exact ⟨rfl, rfl⟩

theorem touches_updateRegions {dotdelta : Vma} :
    Touches n st (updateRegions cfg checkRegions os dot dotdelta st) := by
  unfold updateRegions
  dsimp only
  split
  · exact .refl
  · split
    · split
      · exact touches_leaveRegion
      · split
        · exact touches_leaveRegion.trans touches_leaveRegion
        · exact touches_leaveRegion
    · exact .refl

/-- A region that is left, and not noted to be full, is reported. -/
theorem osRegionCheck_reports (os : OutputSection) {r : String} (tree : Option Etree)
    {rbase : Vma} {st : State}
    (hfull : (st.regions r).hadFullMessage = false) (hleft : (st.regions r).left rbase = true) :
    ∃ rep ∈ (osRegionCheck os r tree rbase st).reports, rep.ofRegion = true := by
  unfold osRegionCheck
  rw [if_pos hleft]
  by_cases htree : tree.isSome = true
  · rw [if_pos htree]
    exact ⟨_, List.mem_append_right _ (List.mem_singleton.mpr rfl), rfl⟩
  · rw [if_neg htree, if_pos (by rw [hfull]; rfl)]
    exact ⟨_, List.mem_append_right _ (List.mem_singleton.mpr rfl), rfl⟩

theorem not_left_of_silent {r : String} {tree : Option Etree} {rbase : Vma}
    (hfull : (st.regions r).hadFullMessage = false)
    (hsilent : Silent (leaveRegion true os r dot tree rbase st)) :
    ({ st.regions r with current := dot } : MemoryRegion).left rbase = false := by
  by_contra hleft
  rw [Bool.not_eq_false] at hleft
  have hregion : (st.setRegion r fun m => { m with current := dot }).regions r =
      { st.regions r with current := dot } := Function.update_self _ _ _
  have hreport := osRegionCheck_reports os tree (hregion ▸ hfull) (hregion ▸ hleft)
  obtain ⟨rep, hrep, htrue⟩ := hreport
  rw [hsilent rep hrep] at htrue
  exact Bool.false_ne_true htrue

/-- The addresses of a section, or of a region. -/
def addresses (start length : Vma) : Range := ⟨start.toNat, length.toNat⟩

def MemoryRegion.addresses (m : MemoryRegion) : Range := Layout.addresses m.origin m.length

/-- The range starts at the origin of the region or above, and `stop` is not below its end. The end
of all addresses is address 0, which is in order unless the region starts there. -/
structure StartsIn (m : MemoryRegion) (start length stop : Vma) : Prop where
  origin_le : m.origin ≤ start
  stop_ge : start.toNat + length.toNat ≤ stop.toNat ∨
    (start.toNat + length.toNat = 2 ^ 64 ∧ stop = 0 ∧ m.origin ≠ 0)

/-- Then the check of the end of the range is enough. -/
theorem StartsIn.within {m : MemoryRegion} {start length stop rbase : Vma}
    (h : StartsIn m start length stop)
    (hleft : ({ m with current := stop } : MemoryRegion).left rbase = false) :
    Within (addresses start length) m.addresses := by
  refine within_of_le (BitVec.le_def.mp h.origin_le) ?_
  show start.toNat + length.toNat ≤ m.origin.toNat + m.length.toNat
  simp only [MemoryRegion.left, Bool.and_eq_false_iff, Bool.or_eq_false_iff,
    decide_eq_false_iff_not] at hleft
  have hle := BitVec.le_def.mp h.origin_le
  rcases hleft with ⟨hlow, hhigh⟩ | ⟨heq, _⟩
  · have horigin : m.origin.toNat ≤ stop.toNat := by
      have := mt BitVec.lt_def.mpr hlow
      omega
    have hlength : stop.toNat - m.origin.toNat ≤ m.length.toNat := by
      have hnot := mt BitVec.lt_def.mpr hhigh
      rw [BitVec.toNat_sub_of_le (BitVec.le_def.mpr horigin)] at hnot
      omega
    rcases h.stop_ge with hge | ⟨_, hzero, hne⟩
    · omega
    · rw [hzero] at horigin
      exact absurd (BitVec.eq_of_toNat_eq (Nat.le_zero.mp horigin)) hne
  · have hstop : stop = m.origin + m.length := by
      by_contra hne
      exact heq hne
    have hnat : stop.toNat = (m.origin.toNat + m.length.toNat) % 2 ^ 64 := by
      rw [hstop, BitVec.toNat_add]
    rcases h.stop_ge with hge | ⟨hend, hzero, hne⟩
    · have := Nat.mod_le (m.origin.toNat + m.length.toNat) (2 ^ 64)
      omega
    · have hpos : 0 < m.origin.toNat := by
        rcases Nat.eq_zero_or_pos m.origin.toNat with h0 | h0
        · exact absurd (BitVec.eq_of_toNat_eq h0) hne
        · exact h0
      rw [hzero] at hnat
      have hdvd : (m.origin.toNat + m.length.toNat) % 2 ^ 64 = 0 := hnat.symm
      omega

/-- The output section lies in its regions: its addresses in the one, where it is loaded in the
other. -/
structure Contained (cfg : Config) (os : OutputSection) (st : State) : Prop where
  vma : (st.sections os.id).alloc = true → (st.sections os.id).isTbss = false →
    ∀ r, st.osRegion os.id = some r → r ≠ DEFAULT_MEMORY_REGION →
      Within (addresses (st.sections os.id).vma (cfg.toAddr (st.sections os.id).size))
        (st.regions r).addresses
  lma : (st.sections os.id).load = true →
    ∀ l, os.lmaRegion = some l → st.osRegion os.id ≠ some l →
      Within (addresses (st.sections os.id).lma (cfg.toAddr (st.sections os.id).size))
        (st.regions l).addresses

/-- The section, placed and with its contents sized, starts in its regions: where its address
expression or the next address of the region puts it. An expression that moves the dot after the
section does not move it back into the section. -/
structure Regular (cfg : Config) (phase : LangPhase) (os : OutputSection) (p : Placed) : Prop where
  vma : (p.state.sections os.id).alloc = true → (p.state.sections os.id).isTbss = false →
    ∀ r, p.state.osRegion os.id = some r → r ≠ DEFAULT_MEMORY_REGION →
      ∀ st0 st1 stop, Meanwhile os.id p.state st0 →
        updateDot cfg phase os (p.dot + cfg.toAddr (p.state.sections os.id).size) st0 =
          some (stop, st1) →
        StartsIn (p.state.regions r) p.dot (cfg.toAddr (p.state.sections os.id).size) stop
  lma : (p.state.sections os.id).load = true →
    ∀ l, os.lmaRegion = some l → p.state.osRegion os.id ≠ some l →
      os.loadBase = none ∧ (p.state.osRegion os.id).isSome = true ∧
        StartsIn (p.state.regions l) (lmaInRegion os l p.start p.state)
          (cfg.toAddr (p.state.sections os.id).size)
          (lmaInRegion os l p.start p.state + cfg.toAddr (p.state.sections os.id).size)

theorem StartsIn.congr {m m' : MemoryRegion} {start length stop : Vma}
    (h : StartsIn m start length stop) (ho : m'.origin = m.origin) : StartsIn m' start length stop :=
  ⟨by rw [ho]; exact h.origin_le, by rw [ho]; exact h.stop_ge⟩

theorem addresses_congr {m m' : MemoryRegion} (ho : m'.origin = m.origin)
    (hl : m'.length = m.length) : m'.addresses = m.addresses := by
  unfold MemoryRegion.addresses
  rw [ho, hl]

theorem within_of_size_zero {start : Vma} {s : Asection} {b : Range} (h : s.size = 0) :
    Within (addresses start (cfg.toAddr s.size)) b := by
  refine within_of_length_zero ?_
  unfold addresses Config.toAddr
  rw [h]
  simp

theorem isTbss_of_load {s : Asection} (h : s.load = true) : s.isTbss = false := by
  by_contra htbss
  unfold Asection.load at h
  unfold Asection.isTbss at htbss
  have hflags : s.flags &&& (SEC_LOAD ||| SEC_THREAD_LOCAL) = SEC_THREAD_LOCAL := by
    simpa using htbss
  have hload : s.flags &&& SEC_LOAD = (s.flags &&& (SEC_LOAD ||| SEC_THREAD_LOCAL)) &&& SEC_LOAD := by
    rw [BitVec.and_assoc]
    rfl
  rw [hload, hflags] at h
  exact absurd h (by decide)

theorem flags_of_alloc_or_load {s : Asection} (h : s.alloc = true ∨ s.load = true) :
    s.flags &&& (SEC_ALLOC ||| SEC_LOAD) ≠ 0 := by
  intro hzero
  have halloc : s.flags &&& SEC_ALLOC = (s.flags &&& (SEC_ALLOC ||| SEC_LOAD)) &&& SEC_ALLOC := by
    rw [BitVec.and_assoc]
    rfl
  have hload : s.flags &&& SEC_LOAD = (s.flags &&& (SEC_ALLOC ||| SEC_LOAD)) &&& SEC_LOAD := by
    rw [BitVec.and_assoc]
    rfl
  rw [hzero] at halloc hload
  rcases h with h | h
  · exact absurd (halloc.trans (BitVec.zero_and)) (by simpa [Asection.alloc] using h)
  · exact absurd (hload.trans (BitVec.zero_and)) (by simpa [Asection.load] using h)

theorem dotdelta_of_not_tbss {s : Asection} (h : s.isTbss = false) :
    s.dotdelta cfg = cfg.toAddr s.size := by
  unfold Asection.dotdelta
  rw [h]
  rfl

/-- A silent check leaves a section that starts in its regions inside of them. -/
theorem contained_updateRegions {s : Asection} {dotdelta : Vma} (hs : st.sections os.id = s)
    (hfresh : Fresh st) (hsilent : Silent (updateRegions cfg true os dot dotdelta st))
    (hvma : s.alloc = true → s.isTbss = false →
      ∀ r, st.osRegion os.id = some r → r ≠ DEFAULT_MEMORY_REGION →
        StartsIn (st.regions r) s.vma (cfg.toAddr s.size) dot)
    (hlma : s.load = true → ∀ l, os.lmaRegion = some l → st.osRegion os.id ≠ some l →
      (st.osRegion os.id).isSome = true ∧
        StartsIn (st.regions l) s.lma (cfg.toAddr s.size) (s.lma + dotdelta)) :
    Contained cfg os (updateRegions cfg true os dot dotdelta st) := by
  have htouches : Touches os.id st (updateRegions cfg true os dot dotdelta st) :=
    touches_updateRegions
  have hsame := updateRegions_sections cfg true os dot dotdelta st
  constructor
  · rw [hsame.1, hsame.2, hs]
    intro halloc htbss r hr hne
    rw [addresses_congr (htouches.origin r) (htouches.length r)]
    -- the state after the first of the two checks is silent too
    have hfirst : Silent (leaveRegion true os r dot (os.address cfg) s.vma st) := by
      unfold updateRegions at hsilent
      simp only [hs, hr, if_pos (flags_of_alloc_or_load (.inl halloc))] at hsilent
      split at hsilent
      · exact hsilent
      · split at hsilent
        · exact hsilent.of_touches (touches_leaveRegion (n := os.id))
        · exact hsilent
    exact (hvma halloc htbss r hr hne).within (not_left_of_silent (hfresh r) hfirst)
  · rw [hsame.1, hsame.2, hs]
    intro hload l hl hne
    rw [addresses_congr (htouches.origin l) (htouches.length l)]
    obtain ⟨hsome, hstarts⟩ := hlma hload l hl hne
    obtain ⟨r, hr⟩ := Option.isSome_iff_exists.mp hsome
    have hlr : l ≠ r := by
      intro heq
      rw [heq] at hne
      exact hne hr
    unfold updateRegions at hsilent
    have hboth : (l ≠ r && (s.load || os.alignLmaWithInput)) = true := by
      rw [hload, Bool.true_or, Bool.and_true]
      exact decide_eq_true hlr
    simp only [hs, hr, if_pos (flags_of_alloc_or_load (.inr hload)), hl, if_pos hboth] at hsilent
    have hleave : Touches os.id st (leaveRegion true os r dot (os.address cfg) s.vma st) :=
      touches_leaveRegion
    have hfirst : Silent (leaveRegion true os r dot (os.address cfg) s.vma st) :=
      hsilent.of_touches (touches_leaveRegion (n := os.id))
    have hnot := not_left_of_silent (hfresh.of_touches hleave hfirst l) hsilent
    have hwithin := (hstarts.congr (hleave.origin l)).within hnot
    rwa [addresses_congr (hleave.origin l) (hleave.length l)] at hwithin

theorem touches_closeSection {start : Start}
    (h : closeSection cfg phase checkRegions os start dot st = some (dot', st')) :
    Touches os.id st st' := by
  obtain ⟨st0, hmean, -, hrest⟩ := closeSection_spec h
  split at hrest
  · rw [hrest]
    exact hmean.touches
  · obtain ⟨st1, hdot, heq⟩ := hrest
    rw [heq]
    exact hmean.touches.trans ((quiet_updateDot hdot).touches.trans touches_updateRegions)

theorem sizes_roundSize : Sizes os.id st (roundSize cfg os st) := sizes_setSection _ fun _ => rfl

/-- The section that is placed and sized: an ignored one is empty, another one's dot is its
address. -/
theorem placeAndSize_spec {children : List Child} {p : Placed}
    (h : placeAndSize cfg phase checkRegions os children dot st = some p) :
    Touches os.id st p.state ∧
      if os.isAbs || os.ignored then (p.state.sections os.id).size = 0
      else p.dot = (p.state.sections os.id).vma := by
  obtain ⟨⟨start, st1⟩, hplace, hrest⟩ := Option.bind_eq_some_iff.mp h
  obtain ⟨⟨d, st2⟩, hsize, heq⟩ := Option.bind_eq_some_iff.mp hrest
  have hnote : Sizes os.id st2 (st2.setSection os.id fun o => { o with processedVma := true }) :=
    sizes_setSection _ fun _ => rfl
  have hboth := (places_placeSection hplace).touches.trans
    ((sizes_sizeChildren children hsize).trans hnote).touches
  dsimp only at heq
  split at heq
  · rename_i hskip
    rw [if_pos hskip]
    split at heq
    · rename_i hzero
      cases heq
      exact ⟨hboth, hzero⟩
    · cases heq
  · rename_i hskip
    rw [if_neg hskip]
    cases heq
    exact ⟨hboth.trans sizes_roundSize.touches, sizes_roundSize.vma.symm⟩

/-- A section that starts in its regions, and is not reported, is inside of them. -/
theorem contained_closeSection {children : List Child} {p : Placed}
    (hplace : placeAndSize cfg phase true os children dot st = some p)
    (hregular : Regular cfg phase os p) (hfresh : Fresh p.state)
    (hclose : closeSection cfg phase true os p.start p.dot p.state = some (dot', st'))
    (hsilent : Silent st') : Contained cfg os st' := by
  have hplaced := (placeAndSize_spec hplace).2
  obtain ⟨st0, hmean, hlma, hrest⟩ := closeSection_spec hclose
  split at hrest
  · rename_i hskip
    rw [if_pos hskip] at hplaced
    have hzero : (st'.sections os.id).size = 0 := by
      rw [hrest, hmean.size]
      exact hplaced
    exact ⟨fun _ _ _ _ _ => within_of_size_zero hzero, fun _ _ _ _ => within_of_size_zero hzero⟩
  · rename_i hskip
    rw [if_neg hskip] at hplaced
    obtain ⟨st1, hdot, heq⟩ := hrest
    have hquiet := quiet_updateDot hdot
    have hmean1 : Meanwhile os.id p.state st1 := hmean.trans hquiet.meanwhile
    have hflags := hmean1.flags
    have hsize := hmean1.size
    have htbss : (st1.sections os.id).isTbss = (p.state.sections os.id).isTbss := by
      unfold Asection.isTbss
      rw [hflags]
    have hfresh1 : Fresh st1 := fun r => (hmean1.full r).trans (hfresh r)
    rw [heq] at hsilent ⊢
    refine contained_updateRegions rfl hfresh1 hsilent ?_ ?_
    · intro halloc hnot r hr hne
      rw [hmean1.osRegion] at hr
      rw [htbss] at hnot
      rw [dotdelta_of_not_tbss hnot] at hdot
      rw [hsize, hmean1.vma, ← hplaced]
      have halloc' : (p.state.sections os.id).alloc = true := by
        unfold Asection.alloc at halloc ⊢
        rwa [hflags] at halloc
      have hstarts := hregular.vma halloc' hnot r hr hne st0 st1 dot' hmean hdot
      exact hstarts.congr (hmean1.origin r)
    · intro hload l hl hne
      rw [hmean1.osRegion] at hne ⊢
      have hload' : (p.state.sections os.id).load = true := by
        unfold Asection.load at hload ⊢
        rwa [hflags] at hload
      obtain ⟨hbase, hsome, hstarts⟩ := hregular.lma hload' l hl hne
      refine ⟨hsome, ?_⟩
      rw [dotdelta_of_not_tbss (isTbss_of_load hload'), hsize, hquiet.sections, hlma l hbase hl]
      exact hstarts.congr (hmean1.origin l)

/-- The step at the output section does not take a COFF shared library section, and finds the
section to start in its regions. -/
structure RegularStep (cfg : Config) (phase : LangPhase) (os : OutputSection)
    (children : List Child) (dot : Vma) (st : State) : Prop where
  notShared : ∀ d s, explicitAddress cfg phase os dot st = some (d, s) →
    (cfg.coff && (s.sections os.id).flags &&& SEC_COFF_SHARED_LIBRARY ≠ 0) = false
  regular : ∀ d s p, explicitAddress cfg phase os dot st = some (d, s) →
    placeAndSize cfg phase true os children d s = some p → Regular cfg phase os p

theorem touches_sizeOutputSection {children : List Child}
    (h : sizeOutputSection cfg phase checkRegions os children dot st = some (dot', st')) :
    Touches os.id st st' := by
  unfold sizeOutputSection at h
  split at h
  · cases h
    exact .refl
  · obtain ⟨⟨d, s⟩, haddr, hrest⟩ := Option.bind_eq_some_iff.mp h
    have haddress := (sizes_explicitAddress haddr).touches
    split at hrest
    · cases hrest
      exact haddress
    · split at hrest
      · obtain ⟨s1, hshared, heq⟩ := Option.map_eq_some_iff.mp hrest
        cases heq
        refine haddress.trans ?_
        unfold coffSharedLibrary at hshared
        split at hshared
        · cases hshared
          exact (places_setSection _).touches
        · cases hshared
      · obtain ⟨p, hplace, hclose⟩ := Option.bind_eq_some_iff.mp hrest
        exact haddress.trans ((placeAndSize_spec hplace).1.trans (touches_closeSection hclose))

theorem contained_sizeOutputSection {children : List Child} (hconstraint : os.constraint ≠ -1)
    (hbfd : os.hasBfdSection = true) (hstep : RegularStep cfg phase os children dot st)
    (hfresh : Fresh st)
    (h : sizeOutputSection cfg phase true os children dot st = some (dot', st'))
    (hsilent : Silent st') : Contained cfg os st' := by
  unfold sizeOutputSection at h
  rw [if_neg hconstraint] at h
  obtain ⟨⟨d, s⟩, haddr, hrest⟩ := Option.bind_eq_some_iff.mp h
  rw [hbfd, if_neg (by decide), hstep.notShared d s haddr, if_neg Bool.false_ne_true] at hrest
  obtain ⟨p, hplace, hclose⟩ := Option.bind_eq_some_iff.mp hrest
  have hbefore := (sizes_explicitAddress haddr).touches.trans (placeAndSize_spec hplace).1
  have hplaced : Silent p.state := hsilent.of_touches (touches_closeSection hclose)
  exact contained_closeSection hplace (hstep.regular d s p haddr hplace)
    (hfresh.of_touches hbefore hplaced) hclose hsilent

/-- What a step keeps of the regions, whatever section it changes. -/
structure Follows (st st' : State) : Prop where
  origin : ∀ r, (st'.regions r).origin = (st.regions r).origin
  length : ∀ r, (st'.regions r).length = (st.regions r).length
  reports : st.reports <+: st'.reports
  fresh : Silent st' → Fresh st → Fresh st'

theorem Touches.follows (h : Touches n st st') : Follows st st' :=
  ⟨h.origin, h.length, h.reports, fun hsilent hfresh => hfresh.of_touches h hsilent⟩

theorem Silent.of_follows (h : Follows st st') (hsilent : Silent st') : Silent st :=
  fun r hr => hsilent r (h.reports.subset hr)

theorem Follows.trans (h : Follows st st') (h' : Follows st' st'') : Follows st st'' where
  origin r := (h'.origin r).trans (h.origin r)
  length r := (h'.length r).trans (h.length r)
  reports := h.reports.trans h'.reports
  fresh hsilent hfresh := h'.fresh hsilent (h.fresh (hsilent.of_follows h') hfresh)

/-- The number of the output section, if the statement is one. -/
def Statement.osId : Statement → Option Nat
  | .outputSection os _ => some os.id
  | _ => none

theorem touches_sizeAbsAssignment {a : Assignment}
    (h : sizeAbsAssignment cfg phase a dot st = some (dot', st')) : Touches n st st' := by
  obtain ⟨p, hp, heq⟩ := Option.map_eq_some_iff.mp h
  cases heq
  refine (quiet_foldAssignment hp).touches.trans (quiet_lookupDefault.touches.trans ?_)
  exact touches_setRegion _ _ fun _ => ⟨rfl, rfl, rfl⟩

/-- A statement changes no output section but its own. -/
theorem touches_sizeStatement {s : Statement} (hs : ∀ m, s.osId = some m → m = n)
    (h : sizeStatement cfg phase checkRegions s dot st = some (dot', st')) : Touches n st st' := by
  cases s with
  | outputSection os children =>
    rw [← hs os.id rfl]
    exact touches_sizeOutputSection h
  | assignment a => exact touches_sizeAbsAssignment h
  | other =>
    cases h
    exact .refl

/-- An output section that is not among the statements stays as it is. -/
structure Spares (n : Nat) (st st' : State) : Prop where
  follows : Follows st st'
  sections : st'.sections n = st.sections n
  osRegion : st'.osRegion n = st.osRegion n

theorem spares_langSizeSections1 : ∀ (l : List Statement) {dot dot' : Vma} {st st' : State},
    n ∉ l.filterMap Statement.osId →
    langSizeSections1 cfg phase checkRegions l dot st = some (dot', st') → Spares n st st'
  | [], _, _, _, _, _, h => by
    cases h
    exact ⟨(Touches.refl (n := n)).follows, rfl, rfl⟩
  | s :: rest, _, _, _, _, hn, h => by
    obtain ⟨⟨d, s1⟩, hstep, hrest⟩ := Option.bind_eq_some_iff.mp h
    rw [List.filterMap_cons] at hn
    have htail : n ∉ rest.filterMap Statement.osId := by
      cases hid : s.osId with
      | none => simpa only [hid] using hn
      | some m =>
        simp only [hid] at hn
        exact fun hmem => hn (List.mem_cons_of_mem _ hmem)
    have ih := spares_langSizeSections1 rest htail hrest
    -- whichever section the first statement changes, it is not this one
    obtain ⟨m, hm, hne⟩ : ∃ m, (∀ k, s.osId = some k → k = m) ∧ n ≠ m := by
      cases hid : s.osId with
      | none => exact ⟨n + 1, nofun, Nat.ne_of_lt (Nat.lt_succ_self n)⟩
      | some m =>
        simp only [hid] at hn
        refine ⟨m, fun k hk => (Option.some.inj hk).symm, ?_⟩
        exact fun heq => hn (heq ▸ List.mem_cons_self)
    have htouches := touches_sizeStatement hm hstep
    refine ⟨htouches.follows.trans ih.follows, ?_, ?_⟩
    · exact ih.sections.trans (htouches.sections n hne)
    · exact ih.osRegion.trans (htouches.osRegion n hne)

theorem follows_langSizeSections1 : ∀ (l : List Statement) {dot dot' : Vma} {st st' : State},
    langSizeSections1 cfg phase checkRegions l dot st = some (dot', st') → Follows st st'
  | [], _, _, _, _, h => by
    cases h
    exact (Touches.refl (n := 0)).follows
  | s :: rest, _, _, st, _, h => by
    obtain ⟨⟨d, s1⟩, hstep, hrest⟩ := Option.bind_eq_some_iff.mp h
    have htouches : Touches (s.osId.getD 0) st s1 := by
      refine touches_sizeStatement ?_ hstep
      intro m hm
      rw [hm]
      rfl
    exact htouches.follows.trans (follows_langSizeSections1 rest hrest)

theorem Contained.of_spares (h : Contained cfg os st) (hs : Spares os.id st st') :
    Contained cfg os st' where
  vma := by
    rw [hs.sections, hs.osRegion]
    intro halloc htbss r hr hne
    rw [addresses_congr (hs.follows.origin r) (hs.follows.length r)]
    exact h.vma halloc htbss r hr hne
  lma := by
    rw [hs.sections, hs.osRegion]
    intro hload l hl hne
    rw [addresses_congr (hs.follows.origin l) (hs.follows.length l)]
    exact h.lma hload l hl hne

/-- The statements of a linker script: every output section stands once. -/
structure Script where
  statements : List Statement
  nodup : (statements.filterMap Statement.osId).Nodup

/-- Every output section of the run starts in its regions. -/
def RegularRun (cfg : Config) (phase : LangPhase) (script : Script) (dot : Vma) (st : State) :
    Prop :=
  ∀ pre os children post, script.statements = pre ++ .outputSection os children :: post →
    ∀ d s, langSizeSections1 cfg phase true pre dot st = some (d, s) →
      RegularStep cfg phase os children d s

def plainConfig : Config where
  opbShift := 0
  saneExpr := false
  maxpagesize := 0x1000
  commonpagesize := 0x1000
  relocatable := false
  coff := false
  elf := true
  checkSectionAddresses := true
  warnSectionAlign := false
  relro := false

/-- MEMORY { ram : ORIGIN = 0x1000, LENGTH = 0x1000 }, and loaded sections that go there. -/
def ramState : State where
  sections _ := ⟨0, 0, 0, 0, SEC_ALLOC ||| SEC_LOAD, false⟩
  osRegion _ := some "ram"
  regions r :=
    if r = "ram" then ⟨0x1000, 0x1000, 0x1000, none, 0, 0, false⟩
    else ⟨0, ~~~0, 0, none, 0, 0, false⟩
  regionList := ["ram"]
  symbols _ := none
  referenced _ := false
  iteration := true
  dataseg := ⟨.none, 0, 0, 0, 0, 0, 0⟩
  reports := []

/-- .text, at an address if there is one. -/
def textAt (address : Option Etree) : OutputSection where
  id := 0
  name := ".text"
  hasBfdSection := true
  isAbs := false
  addrTree := address
  loadBase := none
  updateDotTree := none
  lmaRegion := none
  blockValue := 1
  subsectionAlignment := none
  sectionAlignment := -1
  constraint := 0
  sectype := .normal
  ignored := false
  alignLmaWithInput := false

/-- One input section of that many bytes. -/
def bytes (size : Vma) : List Child :=
  [.inputSection ⟨0, size, 0, false, false⟩]

def textScript (address : Option Etree) (size : Vma) : Script where
  statements := [.outputSection (textAt address) (bytes size)]
  nodup := List.nodup_singleton 0

end FusionBinutils.Ld.Layout
