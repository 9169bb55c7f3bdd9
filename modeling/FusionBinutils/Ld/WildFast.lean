import FusionBinutils.Ld.CompareSection

/-! The two ways to sort the sections of a wild statement, and when they give the same children. -/
namespace FusionBinutils.Ld

open Insertion

variable {out : Output} {visits : List Visit} {v w : Visit} {st : Placed} {s : Asection}
  {assigned : List Asection} {t : SearchTree Asection}

/-- A section is put before another one: by the sort kind of its own pattern. -/
def Visit.goes (v w : Visit) : Bool :=
  match v.1 with
  | none => false
  | some .none => false
  | some .byNone => false
  | some sort => goesBefore sort v.2 w.2

theorem Visit.goes_some (sort : SortType) (s : Asection) (w : Visit) :
    Visit.goes (some sort, s) w = goesBefore sort s w.2 := by
  cases sort <;> rfl

/-- The sections that `unique_section_p` does not exclude. -/
def visited (out : Output) (visits : List Visit) : List Visit :=
  visits.filter fun v => !out.unique v.2

/-- The section is neither discarded nor assigned to an output section before. -/
def free (out : Output) (assigned : List Asection) (s : Asection) : Bool :=
  !out.discard s && !decide (s ∈ assigned)

/-- The filter of flags lets the section pass. -/
def passes (out : Output) (s : Asection) : Bool :=
  !out.sectionFlagList.any fun keep => !keep s

/-! The plain way. -/

theorem insertStatement_findIdx (p : Asection → Bool) (l : List Asection) (s : Asection) :
    insertStatement l s (l.findIdx? p)
      = l.takeWhile (fun y => !p y) ++ s :: l.dropWhile (fun y => !p y) := by
  induction l with
  | nil => rfl
  | cons a l ih =>
    rw [List.findIdx?_cons]
    cases ha : p a with
    | true =>
      rw [List.takeWhile_cons_of_neg (by simp [ha]), List.dropWhile_cons_of_neg (by simp [ha])]
      rfl
    | false =>
      rw [List.takeWhile_cons_of_pos (by simp [ha]), List.dropWhile_cons_of_pos (by simp [ha]),
        List.cons_append, ← ih]
      cases l.findIdx? p with
      | none => rfl
      | some i => rfl

theorem insertStatement_none (l : List Asection) (s : Asection) :
    insertStatement l s none
      = l.takeWhile (fun _ => !false) ++ s :: l.dropWhile (fun _ => !false) := by
  have hnone : l.findIdx? (fun _ => false) = none := List.findIdx?_eq_none_iff.mpr fun _ _ => rfl
  rw [← hnone]
  exact insertStatement_findIdx (fun _ => false) l s

/-- `wild_sort` finds the place by the sort kind. -/
theorem insertStatement_wildSort (l : List Asection) (v : Visit) :
    insertStatement l v.2 (wildSort l v.1 v.2)
      = l.takeWhile (fun y => !v.goes (none, y)) ++ v.2 :: l.dropWhile (fun y => !v.goes (none, y))
    := by
  obtain ⟨sec, s⟩ := v
  cases sec with
  | none => exact insertStatement_none l s
  | some sort =>
    cases sort with
    | none => exact insertStatement_none l s
    | byNone => exact insertStatement_findIdx (fun _ => false) l s
    | byName => exact insertStatement_findIdx (goesBefore .byName s) l s
    | byAlignment => exact insertStatement_findIdx (goesBefore .byAlignment s) l s
    | byNameAlignment => exact insertStatement_findIdx (goesBefore .byNameAlignment s) l s
    | byAlignmentName => exact insertStatement_findIdx (goesBefore .byAlignmentName s) l s
    | byInitPriority => exact insertStatement_findIdx (goesBefore .byInitPriority s) l s

theorem map_put (l : List (Visit × Nat)) (n : Visit × Nat) :
    (put (numbered Visit.goes) l n).map (fun n => n.1.2)
      = (l.map fun n => n.1.2).takeWhile (fun y => !n.1.goes (none, y)) ++
        n.1.2 :: (l.map fun n => n.1.2).dropWhile (fun y => !n.1.goes (none, y)) := by
  rw [put, List.map_append, List.map_cons, List.takeWhile_map, List.dropWhile_map]
  rfl

/-- A section is added, and then not added again, or left out. -/
theorem langAddSection_eq (out : Output) (s : Asection) (sflagInfo : Option (Asection → Bool))
    (assigned : List Asection) :
    (langAddSection out s sflagInfo assigned).1
        = (free out assigned s && !sflagInfo.any fun keep => !keep s) ∧
      ∀ r, (free out (langAddSection out s sflagInfo assigned).2 r &&
          !sflagInfo.any fun keep => !keep r)
        = ((free out assigned r && !sflagInfo.any fun keep => !keep r) && !decide (r = s)) := by
  rw [langAddSection]
  split
  case isTrue hdiscard =>
    refine ⟨by simp [free, hdiscard], ?_⟩
    intro r
    by_cases hr : r = s
    · simp [free, hr, hdiscard]
    · simp [free, hr]
  case isFalse hdiscard =>
    split
    case isTrue hflags =>
      refine ⟨by simp [hflags], ?_⟩
      intro r
      by_cases hr : r = s
      · simp [hr, hflags]
      · simp [hr]
    case isFalse hflags =>
      split
      case isTrue hmem =>
        refine ⟨by simp [free, hmem], ?_⟩
        intro r
        by_cases hr : r = s
        · simp [free, hr, hmem]
        · simp [hr]
      case isFalse hmem =>
        refine ⟨by simp [free, hdiscard, hmem, hflags], ?_⟩
        intro r
        by_cases hr : r = s
        · simp [free, hr]
        · simp [free, hr]

/-- The visits whose sections the plain way keeps, with their numbers. -/
def keptPlain (out : Output) (assigned : List Asection) (visits : List Visit) :
    List (Visit × Nat) :=
  (visited out visits).zipIdx.filter fun n =>
    (free out assigned n.1.2 && passes out n.1.2) && isFirst Prod.snd (visited out visits) n

theorem visited_snoc_of_unique (h : out.unique v.2 = true) :
    visited out (visits ++ [v]) = visited out visits := by
  rw [visited, List.filter_append, List.filter_cons_of_neg (by simp [h]), List.filter_nil,
    List.append_nil]
  rfl

theorem visited_snoc_of_not_unique (h : out.unique v.2 = false) :
    visited out (visits ++ [v]) = visited out visits ++ [v] := by
  rw [visited, List.filter_append, List.filter_cons_of_pos (by simp [h]), List.filter_nil]
  rfl

theorem wildPlain_snoc (st : Placed) :
    wildPlain out (visits ++ [v]) st = outputSectionCallback out (wildPlain out visits st) v := by
  rw [wildPlain, List.foldl_append]
  rfl

/-- One callback. -/
theorem outputSectionCallback_eq (hunique : out.unique v.2 = false) (st : Placed) :
    (outputSectionCallback out st v).children
        = (if free out st.assigned v.2 && passes out v.2 then
            insertStatement st.children v.2 (wildSort st.children v.1 v.2)
          else st.children) ∧
      ∀ r, (free out (outputSectionCallback out st v).assigned r && passes out r)
        = ((free out st.assigned r && passes out r) && !decide (r = v.2)) := by
  obtain ⟨hmade, hothers⟩ := langAddSection_eq out v.2 out.sectionFlagList st.assigned
  rw [outputSectionCallback, if_neg (by simp [hunique])]
  refine ⟨?_, hothers⟩
  rw [passes, ← hmade]

/-- The plain way inserts the kept sections one after the other, and none of them twice. -/
theorem wildPlain_children (out : Output) (assigned : List Asection) (visits : List Visit) :
    (wildPlain out visits ⟨assigned, []⟩).children
        = (putAll (numbered Visit.goes) (keptPlain out assigned visits)).map (fun n => n.1.2) ∧
      ∀ r, (free out (wildPlain out visits ⟨assigned, []⟩).assigned r && passes out r)
        = ((free out assigned r && passes out r) &&
            !decide (r ∈ (visited out visits).map Prod.snd)) := by
  induction visits using List.reverseRecOn with
  | nil =>
    refine ⟨rfl, ?_⟩
    intro r
    exact (Bool.and_true _).symm
  | append_singleton visits v ih =>
    obtain ⟨hchildren, hassigned⟩ := ih
    rw [wildPlain_snoc, keptPlain]
    cases hunique : out.unique v.2 with
    | true =>
      have hsame : ∀ st, outputSectionCallback out st v = st := fun st => if_pos hunique
      rw [hsame, visited_snoc_of_unique hunique]
      exact ⟨hchildren, hassigned⟩
    | false =>
      obtain ⟨hadded, hothers⟩ :=
        outputSectionCallback_eq hunique (wildPlain out visits ⟨assigned, []⟩)
      rw [visited_snoc_of_not_unique hunique,
        filter_isFirst_snoc Prod.snd fun s => free out assigned s && passes out s]
      refine ⟨?_, ?_⟩
      · rw [hadded, hassigned v.2]
        split
        · rw [putAll_snoc, map_put, insertStatement_wildSort, hchildren]
          rfl
        · rw [List.append_nil]
          exact hchildren
      · intro r
        rw [hothers r, hassigned r, Bool.and_assoc, List.map_append, List.map_singleton]
        simp only [List.mem_append, List.mem_singleton, Bool.decide_or, Bool.not_or]

/-! The fast way. -/

/-- A section goes down the tree by the sort kind, without `abort`. -/
theorem wildSortFast_eq (v : Visit) (t : SearchTree Visit) (h : v.1 ≠ some .byNone ∨ t = .nil) :
    wildSortFast v.1 v.2 (t.map Prod.snd)
      = some ((t.insert Visit.goes v).map Prod.snd) := by
  obtain ⟨sec, s⟩ := v
  induction t with
  | nil => rfl
  | node left w right ihl ihr =>
    have hsort : sec ≠ some .byNone := h.resolve_right fun h => by cases h
    have hl := ihl (.inl hsort)
    have hr := ihr (.inl hsort)
    dsimp only at hl hr ⊢
    rw [SearchTree.map, SearchTree.insert]
    cases sec with
    | none =>
      rw [wildSortFast, hr]
      rfl
    | some sort =>
      by_cases hnone : sort = .none
      · subst hnone
        rw [wildSortFast, hr]
        rfl
      · have hknown : sort ≠ .byNone := fun he => hsort (congrArg some he)
        obtain ⟨ret, hret⟩ := exists_compareSection hnone hknown s w.2
        have hgoes : Visit.goes (some sort, s) w = decide (ret < 0) := by
          rw [Visit.goes_some, goesBefore_of_compareSection hret]
        have hstep : wildSortFast (some sort) s
            (.node (left.map Prod.snd) w.2 (right.map Prod.snd))
            = if ret < 0 then (wildSortFast (some sort) s (left.map Prod.snd)).map
                fun left => .node left w.2 (right.map Prod.snd)
              else (wildSortFast (some sort) s (right.map Prod.snd)).map
                fun right => .node (left.map Prod.snd) w.2 right := by
          rw [wildSortFast, hret]
          · rfl
          · exact hnone
        rw [hstep, hl, hr, hgoes]
        by_cases hneg : ret < 0
        · simp only [hneg, decide_true, if_true, Option.map_some, SearchTree.map]
        · simp only [hneg, decide_false, if_false, Option.map_some]
          rfl

theorem wildSortFast_byNone (s : Asection) {t : SearchTree Asection} (h : t ≠ .nil) :
    wildSortFast (some .byNone) s t = none := by
  cases t with
  | nil => exact absurd rfl h
  | node left l right => rfl

/-- A pattern sorted `by_none` compares with no section of the tree: it can only be the first. -/
def NoAbort (visits : List Visit) : Prop :=
  ∀ pre v, pre ++ [v] <+: visits → pre ≠ [] → v.1 ≠ some .byNone

theorem noAbort_snoc (visits : List Visit) (v : Visit) :
    NoAbort (visits ++ [v]) ↔ NoAbort visits ∧ (visits = [] ∨ v.1 ≠ some .byNone) := by
  constructor
  · intro h
    refine ⟨fun pre w hw => h pre w (hw.trans (List.prefix_append visits [v])), ?_⟩
    rw [or_iff_not_imp_left]
    exact h visits v (List.prefix_refl _)
  · rintro ⟨h, hv⟩ pre w hw hpre
    rcases List.prefix_concat_iff.mp hw with heq | hw
    · obtain ⟨rfl, hvw⟩ := List.append_inj' heq rfl
      cases hvw
      exact hv.resolve_left hpre
    · exact h pre w hw hpre

/-- The tree that the callbacks make, where they do not abort. -/
theorem foldlM_callbackFast (out : Output) (visits : List Visit) :
    (NoAbort (visited out visits) ∧ visits.foldlM (outputSectionCallbackFast out) .nil
      = some ((SearchTree.insertAll Visit.goes (visited out visits)).map Prod.snd)) ∨
    (¬ NoAbort (visited out visits) ∧
      visits.foldlM (outputSectionCallbackFast out) .nil = none) := by
  induction visits using List.reverseRecOn with
  | nil =>
    left
    refine ⟨?_, rfl⟩
    intro pre v hv
    exact absurd (List.prefix_nil.mp hv) (by simp)
  | append_singleton visits v ih =>
    rw [List.foldlM_append]
    cases hunique : out.unique v.2 with
    | true =>
      have hsame : ∀ t, outputSectionCallbackFast out t v = some t := fun t => if_pos hunique
      rw [visited_snoc_of_unique hunique]
      rcases ih with ⟨hno, hfold⟩ | ⟨hno, hfold⟩
      · left
        refine ⟨hno, ?_⟩
        rw [hfold, Option.bind_eq_bind, Option.bind_some, List.foldlM_cons, hsame]
        rfl
      · right
        refine ⟨hno, ?_⟩
        rw [hfold]
        rfl
    | false =>
      have hstep : ∀ t, outputSectionCallbackFast out t v = wildSortFast v.1 v.2 t :=
        fun t => if_neg (by simp [hunique])
      rw [visited_snoc_of_not_unique hunique, noAbort_snoc, SearchTree.insertAll_snoc]
      rcases ih with ⟨hno, hfold⟩ | ⟨hno, hfold⟩
      · rw [hfold, Option.bind_eq_bind, Option.bind_some, List.foldlM_cons, hstep]
        by_cases hv : visited out visits = [] ∨ v.1 ≠ some .byNone
        · left
          refine ⟨⟨hno, hv⟩, ?_⟩
          rw [wildSortFast_eq]
          · rfl
          · rcases hv with hnil | hsort
            · right
              rw [hnil]
              rfl
            · exact .inl hsort
        · right
          refine ⟨fun h => hv h.2, ?_⟩
          rw [not_or, not_not] at hv
          rw [hv.2, wildSortFast_byNone]
          · rfl
          · intro hnil
            apply hv.1
            have hlist := congrArg SearchTree.toList hnil
            rw [SearchTree.map_toList] at hlist
            have hperm := SearchTree.insertAll_perm Visit.goes (visited out visits)
            rw [List.map_eq_nil_iff.mp hlist] at hperm
            exact hperm.symm.eq_nil
      · right
        refine ⟨fun h => hno h.1, ?_⟩
        rw [hfold]
        rfl

/-- The tree gives its sections from left to right. -/
theorem treeToList_eq (out : Output) (t : SearchTree Asection) (st : Placed) :
    treeToList out t st = t.toList.foldl (addFromTree out) st := by
  induction t generalizing st with
  | nil => rfl
  | node left s right ihl ihr =>
    rw [treeToList, ihl, ihr, SearchTree.toList, List.foldl_append, List.foldl_cons]

/-- The sections of the tree are added one after the other, and none of them twice. -/
theorem foldl_addFromTree (out : Output) (l : List Asection) (st : Placed) :
    (l.foldl (addFromTree out) st).children
      = st.children ++ (l.filter (free out st.assigned)).eraseDups := by
  induction l generalizing st with
  | nil => exact (List.append_nil _).symm
  | cons s l ih =>
    obtain ⟨hmade, hothers⟩ := langAddSection_eq out s none st.assigned
    simp only [Option.any_none, Bool.not_false, Bool.and_true] at hmade hothers
    have hfree : ∀ r, free out (addFromTree out st s).assigned r
        = (free out st.assigned r && !decide (r = s)) := hothers
    have hchildren : (addFromTree out st s).children
        = if free out st.assigned s then st.children ++ [s] else st.children := by
      rw [← hmade]
      rfl
    rw [List.foldl_cons, ih, hchildren, List.filter_cons]
    split
    case isTrue =>
      have hrest : l.filter (free out (addFromTree out st s).assigned)
          = (l.filter (free out st.assigned)).filter fun r => !r == s := by
        rw [List.filter_filter]
        apply List.filter_congr
        intro r _
        rw [hfree, Bool.and_comm]
        rfl
      rw [hrest, List.eraseDups_cons, List.append_assoc]
      rfl
    case isFalse hs =>
      have hrest : l.filter (free out (addFromTree out st s).assigned)
          = l.filter (free out st.assigned) := by
        apply List.filter_congr
        intro r _
        rw [hfree]
        by_cases hr : r = s
        · rw [hr, Bool.eq_false_iff.mpr hs, Bool.false_and]
        · rw [decide_eq_false hr, Bool.not_false, Bool.and_true]
      rw [hrest]

/-- The children of the fast way. -/
theorem wild_fast (assigned : List Asection) (h : NoAbort (visited out visits)) :
    ∃ st, wild out (some .byName) visits ⟨assigned, []⟩ = some st ∧
      st.children = (((SearchTree.insertAll Visit.goes (visited out visits)).toList.filter
        fun v => free out assigned v.2).map Prod.snd).eraseDups := by
  rcases foldlM_callbackFast out visits with ⟨_, hfold⟩ | ⟨hno, _⟩
  · refine ⟨_, by rw [wild, if_pos rfl, hfold]; rfl, ?_⟩
    rw [treeToList_eq, SearchTree.map_toList, foldl_addFromTree, List.nil_append, List.filter_map]
    rfl
  · exact absurd h hno

/-! When both are the same. -/

/-- No section is left out by the filter of flags only; no pattern sorted `by_none` comes after the
first section; and the comparisons, ties by the order of the visits, have no circles, or else no
section is discarded, assigned before or visited twice and the comparisons are steady. -/
structure Alike (out : Output) (assigned : List Asection) (visits : List Visit) : Prop where
  flags : ∀ v ∈ visited out visits, free out assigned v.2 = true → passes out v.2 = true
  noAbort : NoAbort (visited out visits)
  order : Transitive (numbered Visit.goes) (visited out visits).zipIdx ∨
    (∀ v ∈ visited out visits, free out assigned v.2 = true) ∧
      ((visited out visits).map Prod.snd).Nodup ∧ Steady Visit.goes (visited out visits)

/-- Visits of one section do not go before one another. -/
theorem Visit.goes_same {v w : Visit} (h : v.2 = w.2) : v.goes w = false := by
  obtain ⟨sec, s⟩ := v
  cases h
  cases sec with
  | none => rfl
  | some sort =>
    rw [Visit.goes_some]
    exact goesBefore_self sort w.2

/-- Only the filter of flags makes a difference to what is kept. -/
theorem Alike.keptPlain (h : Alike out assigned visits) :
    keptPlain out assigned visits = (visited out visits).zipIdx.filter fun n =>
      free out assigned n.1.2 && isFirst Prod.snd (visited out visits) n := by
  apply List.filter_congr
  intro n hn
  cases hfree : free out assigned n.1.2 with
  | false => rfl
  | true =>
    have hmem := List.mem_of_getElem? (List.mem_zipIdx_iff_getElem?.mp hn)
    rw [h.flags n.1 hmem hfree, Bool.and_true]

/-- The tree of the numbered visits. -/
theorem insertAll_zipIdx (l : List Visit) :
    (SearchTree.insertAll Visit.goes l).toList
      = (SearchTree.insertAll (numbered Visit.goes) l.zipIdx).toList.map Prod.fst := by
  have hmap := SearchTree.insertAll_map Visit.goes Prod.fst l.zipIdx
  rw [List.zipIdx_map_fst] at hmap
  rw [hmap, SearchTree.map_toList]
  rfl

theorem Alike.children (h : Alike out assigned visits) :
    ∃ st, wild out (some .byName) visits ⟨assigned, []⟩ = some st ∧
      st.children = (wildPlain out visits ⟨assigned, []⟩).children := by
  obtain ⟨st, hst, hchildren⟩ := wild_fast assigned h.noAbort
  refine ⟨st, hst, ?_⟩
  rw [hchildren, (wildPlain_children out assigned visits).1, h.keptPlain]
  rcases h.order with htrans | ⟨hall, honce, hsteady⟩
  · rw [insertAll_zipIdx, SearchTree.insertAll_toList (htrans.steady (zipIdx_nodup _)),
      List.filter_map, List.map_map]
    exact eraseDups_putAll Prod.snd (free out assigned)
      (fun v _ w _ hvw => Visit.goes_same hvw) htrans
  · have hperm := putAll_perm Visit.goes (visited out visits)
    have hkeep : (visited out visits).zipIdx.filter (fun n =>
        free out assigned n.1.2 && isFirst Prod.snd (visited out visits) n)
        = (visited out visits).zipIdx := by
      apply List.filter_eq_self.mpr
      intro n hn
      have hmem := List.mem_of_getElem? (List.mem_zipIdx_iff_getElem?.mp hn)
      rw [hall n.1 hmem, isFirst_of_nodup honce hn]
      rfl
    have hall' : ∀ v ∈ putAll Visit.goes (visited out visits), free out assigned v.2 = true :=
      fun v hv => hall v (hperm.mem_iff.mp hv)
    have hplain := putAll_map Visit.goes Prod.fst (visited out visits).zipIdx
    rw [List.zipIdx_map_fst] at hplain
    rw [SearchTree.insertAll_toList hsteady, List.filter_eq_self.mpr hall', hkeep,
      eraseDups_of_nodup ((hperm.map Prod.snd).nodup_iff.mpr honce), ← hplain, List.map_map]
    rfl

/-- A statement whose patterns are all sorted by name. -/
theorem Alike.of_byName
    (hsort : ∀ v ∈ visited out visits, v.1 = some .byName)
    (hflags : ∀ v ∈ visited out visits, free out assigned v.2 = true → passes out v.2 = true) :
    Alike out assigned visits := by
  refine ⟨hflags, ?_, .inl ?_⟩
  · intro pre v hv _ hbyNone
    have hmem := hv.subset (List.mem_append_right pre List.mem_cons_self)
    rw [hsort v hmem] at hbyNone
    cases hbyNone
  · refine transitive_of_key (fun n => n.1.2.name.chars) (zipIdx_nodup _) ?_
    intro m hm n _
    have hmem := List.mem_of_getElem? (List.mem_zipIdx_iff_getElem?.mp hm)
    obtain ⟨⟨sec, s⟩, i⟩ := m
    cases hsort _ hmem
    rw [numbered, Visit.goes_some]
    exact goesBefore_byName.trans compareNames_neg_iff

/-- Where both give the same children, nothing is left out by the filter of flags only, and the
tree was made without `abort`. -/
theorem flags_of_children
    (h : ∃ st, wild out (some .byName) visits ⟨assigned, []⟩ = some st ∧
      st.children = (wildPlain out visits ⟨assigned, []⟩).children) :
    NoAbort (visited out visits) ∧
      ∀ v ∈ visited out visits, free out assigned v.2 = true → passes out v.2 = true := by
  obtain ⟨st, hst, hchildren⟩ := h
  have hno : NoAbort (visited out visits) := by
    rcases foldlM_callbackFast out visits with ⟨hno, _⟩ | ⟨_, hfold⟩
    · exact hno
    · rw [wild, if_pos rfl, hfold] at hst
      cases hst
  refine ⟨hno, ?_⟩
  intro v hv hfree
  obtain ⟨st', hst', hchildren'⟩ := wild_fast assigned hno
  rw [hst] at hst'
  cases hst'
  -- the fast way keeps the section, so the plain one does
  have hmem : v.2 ∈ st.children := by
    rw [hchildren', List.mem_eraseDups]
    apply List.mem_map_of_mem
    rw [List.mem_filter, (SearchTree.insertAll_perm _ _).mem_iff]
    exact ⟨hv, hfree⟩
  rw [hchildren, (wildPlain_children out assigned visits).1] at hmem
  obtain ⟨n, hn, hsame⟩ := List.mem_map.mp hmem
  rw [(putAll_perm _ _).mem_iff, keptPlain, List.mem_filter, Bool.and_eq_true,
    Bool.and_eq_true] at hn
  rw [← hsame]
  exact hn.2.1.2

/-- The fast way gives the children of the plain one under the condition, and its parts about the
filter and about `by_none` are also necessary. -/
theorem fast_eq_plain (out : Output) (assigned : List Asection) (visits : List Visit) :
    (Alike out assigned visits →
      ∃ st, wild out (some .byName) visits ⟨assigned, []⟩ = some st ∧
        st.children = (wildPlain out visits ⟨assigned, []⟩).children) ∧
    ((∃ st, wild out (some .byName) visits ⟨assigned, []⟩ = some st ∧
        st.children = (wildPlain out visits ⟨assigned, []⟩).children) →
      NoAbort (visited out visits) ∧
        ∀ v ∈ visited out visits, free out assigned v.2 = true → passes out v.2 = true) :=
  ⟨Alike.children, flags_of_children⟩

def sectionA : Asection := ⟨0, ⟨['.', 'a'], by decide⟩, 0⟩
def sectionB : Asection := ⟨1, ⟨['.', 'b'], by decide⟩, 0⟩

def everySection : Output := ⟨fun _ => false, fun _ => false, none⟩

theorem fast_eq_plain_ab :
    (∃ st, wild everySection (some .byName)
        [(some .byName, sectionB), (some .byName, sectionA), (some .byName, sectionB)] ⟨[], []⟩
        = some st ∧
      st.children = (wildPlain everySection
        [(some .byName, sectionB), (some .byName, sectionA), (some .byName, sectionB)]
        ⟨[], []⟩).children) ∧
    NoAbort (visited everySection [(some .byName, sectionB), (some .byName, sectionA)]) := by
  refine ⟨(fast_eq_plain _ _ _).1 (Alike.of_byName ?_ ?_), ?_⟩
  · decide
  · decide
  · refine ((fast_eq_plain everySection [] _).2 ⟨_, rfl, ?_⟩).1
    rfl

/-- A filter of flags that the section does not pass. -/
def noSection : Output := ⟨fun _ => false, fun _ => false, some fun _ => false⟩

theorem fast_ignores_flags :
    ¬ ∃ st, wild noSection (some .byName) [(some .byName, sectionA)] ⟨[], []⟩ = some st ∧
      st.children = (wildPlain noSection [(some .byName, sectionA)] ⟨[], []⟩).children := by
  rintro ⟨st, hst, hchildren⟩
  have hfast : wild noSection (some .byName) [(some .byName, sectionA)] ⟨[], []⟩
      = some ⟨[sectionA], [sectionA]⟩ := rfl
  rw [hfast] at hst
  cases hst
  cases hchildren

end FusionBinutils.Ld
