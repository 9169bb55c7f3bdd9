import FusionBinutils.Ld.WildFast

/-! In which order the sections of a pattern with a sort kind come. -/
namespace FusionBinutils.Ld

open Insertion

variable {out : Output} {assigned sections children kept : List Asection} {sort : SortType}
  {a b s : Asection}

/-- No section goes before an earlier one, equal ones are in the order of the input, and, by
`by_init_priority`, the priorities that are not zero increase. -/
structure SortedBy (sort : SortType) (sections children : List Asection) : Prop where
  ordered : ∀ a b, [a, b].Sublist children → goesBefore sort b a = false
  stable : ∀ a b, [a, b].Sublist children → compareSection sort a b = some 0 →
    [a, b].Sublist sections
  priorities : sort = .byInitPriority → ∀ a b, [a, b].Sublist children →
    a.initPriority ≠ 0 → b.initPriority ≠ 0 → a.initPriority.toNat ≤ b.initPriority.toNat

/-- The sort kind compares the sections without contradiction: never both ways, not in circles,
and not against the priorities. -/
structure Consistent (sort : SortType) (kept : List Asection) : Prop where
  asymm : ∀ a ∈ kept, ∀ b ∈ kept, goesBefore sort a b = true → goesBefore sort b a = false
  transitive : Transitive (goesBefore sort) kept
  priorities : sort = .byInitPriority → ∀ a ∈ kept, ∀ b ∈ kept, a.initPriority ≠ 0 →
    b.initPriority ≠ 0 → a.initPriority.toNat < b.initPriority.toNat →
      Comes (goesBefore sort) kept a b

theorem Consistent.sortedBy (hnodup : sections.Nodup) {keep : Asection → Bool}
    (h : Consistent sort (sections.filter keep)) :
    SortedBy sort sections (putAll (goesBefore sort) (sections.filter keep)) := by
  have hkept := hnodup.filter keep
  have hpairs : ∀ {a b}, [a, b].Sublist (putAll (goesBefore sort) (sections.filter keep)) →
      Comes (goesBefore sort) (sections.filter keep) a b :=
    List.pairwise_iff_forall_sublist.mp (putAll_pairwise hkept h.transitive)
  refine ⟨?_, ?_, ?_⟩
  · intro a b hab
    rcases hpairs hab with ⟨_, hgo⟩ | ⟨hba, hgo⟩
    · exact hgo
    · exact h.asymm a (hba.subset (List.mem_cons_of_mem _ List.mem_cons_self)) b
        (hba.subset List.mem_cons_self) hgo
  · intro a b hab hzero
    rcases hpairs hab with ⟨hsub, _⟩ | ⟨_, hgo⟩
    · exact hsub.trans List.filter_sublist
    · rw [goesBefore_of_compareSection hzero] at hgo
      cases hgo
  · intro hpriority a b hab ha hb
    have hcomes := hpairs hab
    by_contra hlt
    have hba := h.priorities hpriority b hcomes.mem.2 a hcomes.mem.1 hb ha (Nat.lt_of_not_le hlt)
    exact hcomes.asymm hkept hba

theorem SortedBy.consistent (hsort : sort ≠ .none) (hsort' : sort ≠ .byNone)
    (hnodup : sections.Nodup) {keep : Asection → Bool}
    (h : SortedBy sort sections (putAll (goesBefore sort) (sections.filter keep))) :
    Consistent sort (sections.filter keep) := by
  have hkept := hnodup.filter keep
  have hperm := putAll_perm (goesBefore sort) (sections.filter keep)
  generalize putAll (goesBefore sort) (sections.filter keep) = children at h hperm
  have hpairs : children.Pairwise (Comes (goesBefore sort) (sections.filter keep)) := by
    rw [List.pairwise_iff_forall_sublist]
    intro a b hab
    have ha := hperm.mem_iff.mp (hab.subset List.mem_cons_self)
    have hb := hperm.mem_iff.mp (hab.subset (List.mem_cons_of_mem _ List.mem_cons_self))
    have hne : a ≠ b := by
      rintro rfl
      have hdup := hab.nodup (hperm.nodup_iff.mpr hkept)
      exact (List.nodup_cons.mp hdup).1 List.mem_cons_self
    rcases pair_total ha hb hne with hsub | hsub
    · exact .inl ⟨hsub, h.ordered a b hab⟩
    · right
      refine ⟨hsub, ?_⟩
      obtain ⟨ret, hret⟩ := exists_compareSection hsort hsort' a b
      rw [goesBefore_of_compareSection hret, decide_eq_true_eq]
      rcases lt_trichotomy ret 0 with hneg | rfl | hpos
      · exact hneg
      · exact (pair_antisymm hnodup (h.stable a b hab hret)
          (hsub.trans List.filter_sublist)).elim
      · have hgo := h.ordered a b hab
        rw [goesBefore_of_pos hret hpos] at hgo
        cases hgo
  have hside : ∀ a ∈ sections.filter keep, ∀ b ∈ sections.filter keep, a ≠ b →
      [a, b].Sublist children ∨ [b, a].Sublist children := fun a ha b hb hne =>
    pair_total (hperm.mem_iff.mpr ha) (hperm.mem_iff.mpr hb) hne
  refine ⟨?_, transitive_of_pairwise hkept hperm hpairs, ?_⟩
  · intro a ha b hb hab
    by_cases hne : a = b
    · subst hne
      exact goesBefore_self sort a
    · rcases hside a ha b hb hne with hsub | hsub
      · exact h.ordered a b hsub
      · have hgo := h.ordered b a hsub
        rw [hab] at hgo
        cases hgo
  · intro hpriority a ha b hb hpa hpb hlt
    have hne : a ≠ b := by
      rintro rfl
      exact Nat.lt_irrefl _ hlt
    rcases hside a ha b hb hne with hsub | hsub
    · exact List.pairwise_iff_forall_sublist.mp hpairs hsub
    · have hle := h.priorities hpriority b a hsub hpb hpa
      omega

/-! Sort kinds that compare by keys. -/

/-- What the sections need for that. -/
def Keyed (kept : List Asection) : SortType → Prop
  | .none => False
  | .byNone => False
  | .byName => True
  | .byInitPriority =>
    (∀ s ∈ kept, s.initPriority = 0) ∨
      ∀ s ∈ kept, s.initPriority ≠ 0 ∧ s.initPriority.toNat < 2 ^ 31
  | _ => ∀ s ∈ kept, s.alignmentPower.toNat < 2 ^ 31

/-- The larger alignment comes first. -/
def Asection.alignmentKey (s : Asection) : Int := -(s.alignmentPower.toNat : Int)

theorem compareAlignments_neg_iff (ha : a.alignmentPower.toNat < 2 ^ 31)
    (hb : b.alignmentPower.toNat < 2 ^ 31) :
    compareAlignments a b < 0 ↔ a.alignmentKey < b.alignmentKey := by
  rw [compareAlignments_eq ha hb, Asection.alignmentKey, Asection.alignmentKey]
  omega

theorem compareAlignments_eq_zero_iff (ha : a.alignmentPower.toNat < 2 ^ 31)
    (hb : b.alignmentPower.toNat < 2 ^ 31) :
    compareAlignments a b = 0 ↔ a.alignmentKey = b.alignmentKey := by
  rw [compareAlignments_eq ha hb, Asection.alignmentKey, Asection.alignmentKey]
  omega

theorem Keyed.exists_key (h : Keyed kept sort) :
    ∃ (κ : Type) (_ : LinearOrder κ) (key : Asection → κ),
      ∀ a ∈ kept, ∀ b ∈ kept, (goesBefore sort a b = true ↔ key a < key b) := by
  cases sort with
  | none => exact h.elim
  | byNone => exact h.elim
  | byName =>
    exact ⟨List Char, inferInstance, fun s => s.name.chars, fun a _ b _ =>
      goesBefore_byName.trans compareNames_neg_iff⟩
  | byAlignment =>
    exact ⟨Int, inferInstance, Asection.alignmentKey, fun a ha b hb =>
      goesBefore_byAlignment.trans (compareAlignments_neg_iff (h a ha) (h b hb))⟩
  | byNameAlignment =>
    refine ⟨List Char ×ₗ Int, inferInstance, fun s => toLex (s.name.chars, s.alignmentKey), ?_⟩
    intro a ha b hb
    rw [goesBefore_byNameAlignment, compareNames_neg_iff, compareNames_eq_zero_iff,
      compareAlignments_neg_iff (h a ha) (h b hb)]
    exact (Prod.Lex.toLex_lt_toLex (x := (a.name.chars, a.alignmentKey))
      (y := (b.name.chars, b.alignmentKey))).symm
  | byAlignmentName =>
    refine ⟨Int ×ₗ List Char, inferInstance, fun s => toLex (s.alignmentKey, s.name.chars), ?_⟩
    intro a ha b hb
    rw [goesBefore_byAlignmentName, compareNames_neg_iff,
      compareAlignments_eq_zero_iff (h a ha) (h b hb),
      compareAlignments_neg_iff (h a ha) (h b hb)]
    exact (Prod.Lex.toLex_lt_toLex (x := (a.alignmentKey, a.name.chars))
      (y := (b.alignmentKey, b.name.chars))).symm
  | byInitPriority =>
    rcases h with hzero | hall
    · refine ⟨List Char, inferInstance, fun s => s.name.chars, ?_⟩
      intro a ha b _
      rw [goesBefore_byInitPriority_of_zero (.inl (hzero a ha)), compareNames_neg_iff]
    · refine ⟨Nat ×ₗ List Char, inferInstance,
        fun s => toLex (s.initPriority.toNat, s.name.chars), ?_⟩
      intro a ha b hb
      obtain ⟨hane, halt⟩ := hall a ha
      obtain ⟨hbne, hblt⟩ := hall b hb
      have hneg : comparePriorities a b < 0 ↔ a.initPriority.toNat < b.initPriority.toNat := by
        rw [comparePriorities_eq halt hblt]
        omega
      have heq : comparePriorities a b = 0 ↔ a.initPriority.toNat = b.initPriority.toNat := by
        rw [comparePriorities_eq halt hblt]
        omega
      rw [goesBefore_byInitPriority fun h => h.elim hane hbne, compareNames_neg_iff, hneg, heq]
      exact (Prod.Lex.toLex_lt_toLex (x := (a.initPriority.toNat, a.name.chars))
      (y := (b.initPriority.toNat, b.name.chars))).symm

theorem Keyed.consistent (hnodup : kept.Nodup) (h : Keyed kept sort) : Consistent sort kept := by
  obtain ⟨κ, _, key, hkey⟩ := h.exists_key
  have hasymm : ∀ a ∈ kept, ∀ b ∈ kept, goesBefore sort a b = true →
      goesBefore sort b a = false := by
    intro a ha b hb hab
    rw [Bool.eq_false_iff, ne_eq, hkey b hb a ha]
    exact lt_asymm ((hkey a ha b hb).mp hab)
  refine ⟨hasymm, transitive_of_key key hnodup hkey, ?_⟩
  rintro rfl a ha b hb hane hbne hlt
  have hgo : goesBefore .byInitPriority a b = true := by
    rcases h with hzero | hall
    · exact absurd (hzero a ha) hane
    · rw [goesBefore_byInitPriority fun h => h.elim hane hbne,
        comparePriorities_eq (hall a ha).2 (hall b hb).2]
      left
      omega
  have hne : a ≠ b := by
    rintro rfl
    exact Nat.lt_irrefl _ hlt
  rcases pair_total ha hb hne with hsub | hsub
  · exact .inl ⟨hsub, hasymm a ha b hb hgo⟩
  · exact .inr ⟨hsub, hgo⟩

/-! A statement with one pattern. -/

theorem visited_map (out : Output) (sort : SortType) (sections : List Asection) :
    visited out (sections.map fun s => (some sort, s))
      = (sections.filter fun s => !out.unique s).map fun s => (some sort, s) := by
  rw [visited, List.filter_map]
  rfl

theorem map_snd (sort : SortType) (l : List Asection) :
    (l.map fun s => ((some sort, s) : Visit)).map Prod.snd = l := by
  rw [List.map_map]
  exact List.map_id l

/-- The plain way inserts the kept sections. -/
theorem wildPlain_sorted (out : Output) (assigned : List Asection) (sort : SortType)
    (hnodup : sections.Nodup) :
    (wildPlain out (sections.map fun s => (some sort, s)) ⟨assigned, []⟩).children
      = putAll (goesBefore sort) (sections.filter fun s =>
          !out.unique s && (free out assigned s && passes out s)) := by
  have hvisited := visited_map out sort sections
  have hsnd : (visited out (sections.map fun s => (some sort, s))).map Prod.snd
      = sections.filter fun s => !out.unique s := by
    rw [hvisited, map_snd]
  have hkind : ∀ v ∈ visited out (sections.map fun s => (some sort, s)), v.1 = some sort := by
    intro v hv
    rw [hvisited] at hv
    obtain ⟨s, _, rfl⟩ := List.mem_map.mp hv
    rfl
  rw [(wildPlain_children out assigned _).1, keptPlain]
  generalize visited out (sections.map fun s => (some sort, s)) = vs at hsnd hkind
  have honce : (vs.map Prod.snd).Nodup := hsnd ▸ hnodup.filter _
  have hget : ∀ {n : Visit × Nat}, n ∈ vs.zipIdx → n.1 ∈ vs :=
    fun hn => List.mem_of_getElem? (List.mem_zipIdx_iff_getElem?.mp hn)
  have hfirst : vs.zipIdx.filter (fun n =>
      (free out assigned n.1.2 && passes out n.1.2) && isFirst Prod.snd vs n)
      = vs.zipIdx.filter fun n => free out assigned n.1.2 && passes out n.1.2 := by
    apply List.filter_congr
    intro n hn
    rw [isFirst_of_nodup honce hn, Bool.and_true]
  have hcongr : putAll (numbered Visit.goes)
      (vs.zipIdx.filter fun n => free out assigned n.1.2 && passes out n.1.2)
      = putAll (fun m n => goesBefore sort m.1.2 n.1.2)
        (vs.zipIdx.filter fun n => free out assigned n.1.2 && passes out n.1.2) := by
    apply putAll_congr
    intro m hm n _
    obtain ⟨⟨sec, s⟩, i⟩ := m
    cases hkind _ (hget (List.mem_filter.mp hm).1)
    exact Visit.goes_some sort s n.1
  have hmap : (vs.zipIdx.map fun n => n.1.2) = sections.filter fun s => !out.unique s := by
    rw [← hsnd]
    conv => rhs; rw [← List.zipIdx_map_fst 0 vs, List.map_map]
    rfl
  have hfilter := List.filter_map (f := fun n : Visit × Nat => n.1.2)
    (p := fun s => free out assigned s && passes out s) (l := vs.zipIdx)
  rw [hfirst, hcongr, putAll_map (goesBefore sort) (fun n : Visit × Nat => n.1.2)]
  congr 1
  refine Eq.trans hfilter.symm ?_
  rw [hmap, List.filter_filter]
  simp only [Bool.and_comm]

/-- The fast way sorts with the tree, and does not ask the filter of flags. -/
theorem wildFast_sorted (out : Output) (assigned : List Asection) (hnodup : sections.Nodup) :
    ∃ st, wild out (some .byName) (sections.map fun s => (some .byName, s)) ⟨assigned, []⟩
        = some st ∧
      st.children = putAll (goesBefore .byName) (sections.filter fun s =>
        !out.unique s && free out assigned s) := by
  have hvisited := visited_map out .byName sections
  have hno : NoAbort (visited out (sections.map fun s => (some .byName, s))) := by
    intro pre v hv _
    have hmem := hv.subset (List.mem_append_right pre List.mem_cons_self)
    rw [hvisited] at hmem
    obtain ⟨s, _, rfl⟩ := List.mem_map.mp hmem
    rintro ⟨⟩
  obtain ⟨st, hst, hchildren⟩ := wild_fast assigned hno
  refine ⟨st, hst, ?_⟩
  have hunique : (sections.filter fun s => !out.unique s).Nodup := hnodup.filter _
  have hkeyed : Keyed (sections.filter fun s => !out.unique s) .byName := trivial
  have htrans := (hkeyed.consistent hunique).transitive
  have hperm := putAll_perm (goesBefore .byName) (sections.filter fun s => !out.unique s)
  have hlist : (SearchTree.insertAll Visit.goes
        (visited out (sections.map fun s => (some .byName, s)))).toList
      = (SearchTree.insertAll (goesBefore .byName)
          (sections.filter fun s => !out.unique s)).toList.map fun s => (some .byName, s) := by
    rw [hvisited, SearchTree.insertAll_map, SearchTree.map_toList]
    rfl
  have hnodup' := (hperm.nodup_iff.mpr hunique).filter (free out assigned)
  rw [hchildren, hlist, SearchTree.insertAll_toList (htrans.steady hunique), List.filter_map,
    map_snd]
  refine (eraseDups_of_nodup hnodup').trans ((putAll_filter _ hunique htrans).trans ?_)
  rw [List.filter_filter]
  simp only [Bool.and_comm]

/-- The sections that `wild` adds: the fast way does not ask the filter of flags. -/
def keeps (out : Output) (assigned : List Asection) (handlerData0 : Option SortType)
    (s : Asection) : Bool :=
  !out.unique s && free out assigned s && (handlerData0 = some .byName || passes out s)

/-- The children are sorted where the sort kind compares them without contradiction, which it does
where there are keys. -/
theorem wild_sorted (out : Output) (assigned sections : List Asection) (sort : SortType)
    (handlerData0 : Option SortType) (hsort : sort ≠ .none) (hsort' : sort ≠ .byNone)
    (hhandler : handlerData0 = none ∨ handlerData0 = some sort) (hsections : sections.Nodup) :
    ∃ st, wild out handlerData0 (sections.map fun s => (some sort, s)) ⟨assigned, []⟩ = some st ∧
      (SortedBy sort sections st.children ↔
        Consistent sort (sections.filter (keeps out assigned handlerData0))) ∧
      (Keyed (sections.filter (keeps out assigned handlerData0)) sort →
        SortedBy sort sections st.children) := by
  obtain ⟨st, hst, hchildren⟩ : ∃ st,
      wild out handlerData0 (sections.map fun s => (some sort, s)) ⟨assigned, []⟩ = some st ∧
        st.children
          = putAll (goesBefore sort) (sections.filter (keeps out assigned handlerData0)) := by
    by_cases hfast : handlerData0 = some .byName
    · subst hfast
      cases hhandler.resolve_left (by simp)
      obtain ⟨st, hst, hchildren⟩ := wildFast_sorted out assigned hsections
      refine ⟨st, hst, hchildren.trans ?_⟩
      congr 2
      funext s
      exact (Bool.and_true _).symm
    · refine ⟨_, if_neg hfast, ?_⟩
      rw [wildPlain_sorted out assigned sort hsections]
      congr 2
      funext s
      rw [keeps, decide_eq_false hfast, Bool.false_or, Bool.and_assoc]
  refine ⟨st, hst, ?_, ?_⟩
  · rw [hchildren]
    exact ⟨SortedBy.consistent hsort hsort' hsections, Consistent.sortedBy hsections⟩
  · intro hkeyed
    rw [hchildren]
    exact (hkeyed.consistent (hsections.filter _)).sortedBy hsections

def initArray5 : Asection := ⟨0, ⟨initArray ++ ['5'], by decide⟩, 3⟩
def initArray3x : Asection := ⟨1, ⟨initArray ++ ['3', 'x'], by decide⟩, 3⟩
def initArray10 : Asection := ⟨2, ⟨initArray ++ ['1', '0'], by decide⟩, 3⟩

theorem wild_sorted_priorities : ∃ st,
    wild everySection none [(some .byInitPriority, initArray10), (some .byInitPriority, initArray5)]
        ⟨[], []⟩ = some st ∧
      SortedBy .byInitPriority [initArray10, initArray5] st.children := by
  obtain ⟨st, hst, _, hsorted⟩ := wild_sorted everySection [] [initArray10, initArray5]
    .byInitPriority none (by decide) (by decide) (.inl rfl) (by decide)
  exact ⟨st, hst, hsorted (.inr (by decide))⟩

/-- The section without a priority is between the other two by its name, and they come in the wrong
order. -/
theorem priorities_not_sorted : ¬ ∃ st,
    wild everySection none [(some .byInitPriority, initArray5), (some .byInitPriority, initArray3x),
        (some .byInitPriority, initArray10)] ⟨[], []⟩ = some st ∧
      SortedBy .byInitPriority [initArray5, initArray3x, initArray10] st.children := by
  rintro ⟨st, hst, hsorted⟩
  have hwild : wild everySection none [(some .byInitPriority, initArray5),
      (some .byInitPriority, initArray3x), (some .byInitPriority, initArray10)] ⟨[], []⟩
      = some ⟨[initArray10, initArray3x, initArray5], [initArray10, initArray3x, initArray5]⟩ :=
    rfl
  rw [hwild] at hst
  cases hst
  have hle := hsorted.priorities rfl initArray10 initArray5 (by decide) (by decide) (by decide)
  exact absurd hle (by decide)

end FusionBinutils.Ld
