import FusionBinutils.Bfd.ObjAttrs
import Mathlib.Data.List.Infix

/-! Merging the lists of unknown attributes of two files (bfd/elf-attrs.c). -/
namespace FusionBinutils.Bfd

/-- Whose attribute a warning is about. -/
inductive MergeFile where
  | ibfd
  | obfd
  deriving DecidableEq

abbrev AttrList := List (BitVec 32 × ObjAttribute)

/-- The comparison of two attributes, whose types are not looked at. -/
def sameValue (a b : ObjAttribute) : Bool :=
  a.i = b.i &&
    match a.s, b.s with
    | none, none => true
    | some s, some t => s.1 = t.1
    | _, _ => false

/-- The variables of the loop. Nothing is ever assigned to `out_listp`, so that `*out_listp` is
the list of the output file throughout. -/
structure MergeState where
  inList : AttrList
  outList : AttrList
  list : AttrList
  result : Bool

section

variable (handleUnknown : MergeFile → BitVec 32 → Bool)

/-- `result && obj_attrs_handle_unknown (err_bfd, err_tag)` -/
def MergeState.handle (st : MergeState) (err : MergeFile) (tag : BitVec 32) : MergeState :=
  { st with result := st.result && handleUnknown err tag }

/-- The attribute at the front of `out_list` is deleted. -/
def MergeState.delete (st : MergeState) (o : BitVec 32 × ObjAttribute) (outs : AttrList) :
    MergeState :=
  MergeState.handle handleUnknown { st with list := outs, outList := outs } .obfd o.1

/-- One round of the loop; nothing at its end. -/
def mergeStep (st : MergeState) : Option MergeState :=
  match st.inList, st.outList with
  | [], [] => none
  | [], o :: outs => some (st.delete handleUnknown o outs)
  | i :: ins, [] => some ({ st with inList := ins }.handle handleUnknown .ibfd i.1)
  | i :: ins, o :: outs =>
    if i.1 > o.1 then some (st.delete handleUnknown o outs)
    else if i.1 < o.1 then some ({ st with inList := ins }.handle handleUnknown .ibfd i.1)
    else if !sameValue i.2 o.2 then some (st.delete handleUnknown o outs)
    else some ({ st with outList := outs, inList := ins }.handle handleUnknown .obfd o.1)

/-- The loop, given a number of rounds in which it may end. -/
def mergeLoop : Nat → MergeState → Option MergeState
  | 0, _ => none
  | rounds + 1, st =>
    match mergeStep handleUnknown st with
    | none => some st
    | some st => mergeLoop rounds st

/-- `_bfd_elf_merge_unknown_attribute_list`, if it ends in that many rounds: the list of the output
file, and what is returned. -/
def elfMergeUnknownAttributeList (rounds : Nat) (ins outs : AttrList) : Option (AttrList × Bool) :=
  (mergeLoop handleUnknown rounds ⟨ins, outs, outs, true⟩).map fun st => (st.list, st.result)

end

/-- An attribute occurs in a list with the same value. -/
def Agrees (ins : AttrList) (o : BitVec 32 × ObjAttribute) : Prop :=
  ∃ i ∈ ins, i.1 = o.1 ∧ i.2.i = o.2.i ∧ i.2.s = o.2.s

instance (ins : AttrList) (o : BitVec 32 × ObjAttribute) : Decidable (Agrees ins o) :=
  inferInstanceAs (Decidable (∃ i ∈ ins, _))

/-- The loop ends and leaves exactly the attributes that agree. -/
def KeepsAgreeing (handleUnknown : MergeFile → BitVec 32 → Bool) (ins outs : AttrList) : Prop :=
  ∃ rounds list result, elfMergeUnknownAttributeList handleUnknown rounds ins outs =
      some (list, result) ∧ list = outs.filter fun o => Agrees ins o

/-- The values under a tag. -/
def valuesAt (l : AttrList) (tag : BitVec 32) : List (BitVec 32 × Option AttrString) :=
  (l.filter fun p => p.1 = tag).map fun p => (p.2.i, p.2.s)

/-- Under every tag the values are the first ones of the other list. -/
def Leading (ins outs : AttrList) : Prop := ∀ tag, valuesAt outs tag <+: valuesAt ins tag

/-- The attributes of the output file that agree come last. Tags that occur more than once agree
one by one. -/
def AgreeingLast (ins outs : AttrList) : Prop :=
  ∃ front back, outs = front ++ back ∧ (∀ o ∈ front, ¬ Agrees ins o) ∧ Leading ins back

abbrev TagSorted (l : AttrList) : Prop := l.Pairwise fun p q => p.1 ≤ q.1

variable {handleUnknown : MergeFile → BitVec 32 → Bool} {ins outs front back : AttrList}
  {i o : BitVec 32 × ObjAttribute}

theorem sameValue_iff (a b : ObjAttribute) : sameValue a b = true ↔ a.i = b.i ∧ a.s = b.s := by
  rw [sameValue, Bool.and_eq_true, decide_eq_true_iff]
  cases a.s <;> cases b.s <;> simp [Subtype.ext_iff]

/-! Values under a tag. -/

theorem valuesAt_cons (p : BitVec 32 × ObjAttribute) (l : AttrList) (tag : BitVec 32) :
    valuesAt (p :: l) tag = if p.1 = tag then (p.2.i, p.2.s) :: valuesAt l tag else valuesAt l tag := by
  rw [valuesAt, List.filter_cons]
  by_cases h : p.1 = tag
  · simp [h, valuesAt]
  · simp [h, valuesAt]

theorem valuesAt_nil_of_ne {l : AttrList} {tag : BitVec 32} (h : ∀ p ∈ l, p.1 ≠ tag) :
    valuesAt l tag = [] := by
  rw [valuesAt, List.filter_eq_nil_iff.2 ?_]
  · rfl
  · intro p hp he
    exact h p hp (of_decide_eq_true he)

theorem agrees_iff : Agrees ins o ↔ (o.2.i, o.2.s) ∈ valuesAt ins o.1 := by
  simp [Agrees, valuesAt, and_assoc]

theorem Leading.agrees (h : Leading ins outs) (ho : o ∈ outs) : Agrees ins o := by
  have hmem : (o.2.i, o.2.s) ∈ valuesAt outs o.1 :=
    List.mem_map.2 ⟨o, List.mem_filter.2 ⟨ho, decide_eq_true rfl⟩, rfl⟩
  exact agrees_iff.2 ((h o.1).subset hmem)

theorem leading_nil (ins : AttrList) : Leading ins [] := fun _ => List.nil_prefix

/-- An attribute whose tag does not occur makes no difference. -/
theorem leading_cons_left (h : ∀ o ∈ outs, o.1 ≠ i.1) : Leading (i :: ins) outs ↔ Leading ins outs := by
  refine forall_congr' ?_
  intro tag
  rw [valuesAt_cons]
  split_ifs with ht
  · rw [valuesAt_nil_of_ne (ht ▸ h)]
    exact iff_of_true List.nil_prefix List.nil_prefix
  · rfl

theorem agrees_cons_left (h : o.1 ≠ i.1) : Agrees (i :: ins) o ↔ Agrees ins o := by
  rw [agrees_iff, valuesAt_cons, if_neg h.symm, agrees_iff]

theorem leading_cons_cons (ht : i.1 = o.1) (hv : i.2.i = o.2.i ∧ i.2.s = o.2.s) :
    Leading (i :: ins) (o :: outs) ↔ Leading ins outs := by
  refine forall_congr' ?_
  intro tag
  rw [valuesAt_cons, valuesAt_cons, ht, hv.1, hv.2]
  split_ifs
  · exact List.prefix_cons_inj _
  · rfl

/-! What a round does. -/

/-- The attribute at the front of the output file's list is not in the input file's list, as far
as the loop looks. -/
def Unmatched (ins : AttrList) (o : BitVec 32 × ObjAttribute) : Prop :=
  ∀ i ∈ ins.head?, o.1 < i.1 ∨ i.1 = o.1 ∧ ¬ (i.2.i = o.2.i ∧ i.2.s = o.2.s)

theorem mergeStep_cases (handleUnknown : MergeFile → BitVec 32 → Bool) (st : MergeState) :
    (st.inList = [] ∧ st.outList = [] ∧ mergeStep handleUnknown st = none) ∨
    (∃ o outs result, st.outList = o :: outs ∧ Unmatched st.inList o ∧
      mergeStep handleUnknown st = some ⟨st.inList, outs, outs, result⟩) ∨
    (∃ i ins result, st.inList = i :: ins ∧ (∀ o ∈ st.outList.head?, i.1 < o.1) ∧
      mergeStep handleUnknown st = some ⟨ins, st.outList, st.list, result⟩) ∨
    (∃ i ins o outs result, st.inList = i :: ins ∧ st.outList = o :: outs ∧ i.1 = o.1 ∧
      (i.2.i = o.2.i ∧ i.2.s = o.2.s) ∧
      mergeStep handleUnknown st = some ⟨ins, outs, st.list, result⟩) := by
  obtain ⟨ins, outs, list, result⟩ := st
  rcases ins with _ | ⟨i, ins⟩ <;> rcases outs with _ | ⟨o, outs⟩
  · exact .inl ⟨rfl, rfl, rfl⟩
  · exact .inr (.inl ⟨o, outs, _, rfl, by simp [Unmatched], rfl⟩)
  · exact .inr (.inr (.inl ⟨i, ins, _, rfl, by simp, rfl⟩))
  · by_cases hgt : i.1 > o.1
    · have hun : Unmatched (i :: ins) o := by
        rintro _ ⟨⟩
        exact .inl hgt
      refine .inr (.inl ⟨o, outs, result && handleUnknown .obfd o.1, rfl, hun, ?_⟩)
      simp only [mergeStep, if_pos hgt]
      rfl
    by_cases hlt : i.1 < o.1
    · have hhead : ∀ p ∈ (o :: outs).head?, i.1 < p.1 := by
        rintro _ ⟨⟩
        exact hlt
      refine .inr (.inr (.inl ⟨i, ins, result && handleUnknown .ibfd i.1, rfl, hhead, ?_⟩))
      simp only [mergeStep, if_neg hgt, if_pos hlt]
      rfl
    have heq : i.1 = o.1 := BitVec.le_antisymm (BitVec.not_lt.1 hgt) (BitVec.not_lt.1 hlt)
    cases hsame : sameValue i.2 o.2 with
    | false =>
      have hun : Unmatched (i :: ins) o := by
        rintro _ ⟨⟩
        refine .inr ⟨heq, ?_⟩
        intro h
        exact Bool.false_ne_true (hsame.symm.trans ((sameValue_iff _ _).2 h))
      refine .inr (.inl ⟨o, outs, result && handleUnknown .obfd o.1, rfl, hun, ?_⟩)
      simp only [mergeStep, if_neg hgt, if_neg hlt, hsame]
      rfl
    | true =>
      refine .inr (.inr (.inr ⟨i, ins, o, outs, result && handleUnknown .obfd o.1, rfl, rfl, heq,
        (sameValue_iff _ _).1 hsame, ?_⟩))
      simp only [mergeStep, if_neg hgt, if_neg hlt, hsame]
      rfl

/-- A round takes an attribute from one of the lists. -/
theorem mergeLoop_ends (handleUnknown : MergeFile → BitVec 32 → Bool) (rounds : Nat) (st : MergeState)
    (h : st.inList.length + st.outList.length < rounds) :
    ∃ st', mergeLoop handleUnknown rounds st = some st' := by
  induction rounds generalizing st with
  | zero => omega
  | succ rounds ih =>
    rw [mergeLoop]
    rcases mergeStep_cases handleUnknown st with ⟨-, -, hs⟩ | ⟨o, outs, r, ho, -, hs⟩ |
      ⟨i, ins, r, hi, -, hs⟩ | ⟨i, ins, o, outs, r, hi, ho, -, -, hs⟩ <;> rw [hs]
    · exact ⟨st, rfl⟩
    · rw [ho, List.length_cons] at h
      exact ih _ (by dsimp only; omega)
    · rw [hi, List.length_cons] at h
      exact ih _ (by dsimp only; omega)
    · rw [hi, ho, List.length_cons, List.length_cons] at h
      exact ih _ (by dsimp only; omega)

/-! What the loop leaves. -/

theorem not_agrees_of_unmatched (hins : TagSorted ins) (h : Unmatched ins o)
    (hlead : Leading ins (o :: outs)) : False := by
  have hpre := hlead o.1
  rw [valuesAt_cons, if_pos rfl] at hpre
  rcases ins with _ | ⟨i, ins⟩
  · exact absurd hpre.length_le (by simp [valuesAt])
  rcases h i rfl with hlt | ⟨ht, hv⟩
  · have hnil : valuesAt (i :: ins) o.1 = [] := by
      apply valuesAt_nil_of_ne
      intro p hp he
      rcases List.mem_cons.1 hp with rfl | hp
      · exact BitVec.lt_irrefl _ (he ▸ hlt)
      · exact BitVec.not_lt.2 (he ▸ (List.pairwise_cons.1 hins).1 p hp) hlt
    exact absurd hpre.length_le (by simp [hnil])
  · rw [valuesAt_cons, if_pos ht] at hpre
    obtain ⟨he, -⟩ := List.cons_prefix_cons.1 hpre
    exact hv ⟨(Prod.mk.inj he).1.symm, (Prod.mk.inj he).2.symm⟩

theorem ne_of_head_lt (houts : TagSorted outs) (h : ∀ o ∈ outs.head?, i.1 < o.1) :
    ∀ o ∈ outs, o.1 ≠ i.1 := by
  intro p hp he
  rcases outs with _ | ⟨o, outs⟩
  · cases hp
  have hlt := h o rfl
  rcases List.mem_cons.1 hp with rfl | hp
  · exact BitVec.lt_irrefl _ (he ▸ hlt)
  · exact BitVec.not_lt.2 (he ▸ (List.pairwise_cons.1 houts).1 p hp) hlt

/-- The outcome of the loop from a state in which the list holds `kept` and the attributes still to
be visited: nothing is deleted any more, or what is behind the last deleted one is left. -/
def MergeOutcome (kept ins outs list : AttrList) : Prop :=
  (Leading ins outs ∧ list = kept ++ outs) ∨
    (¬ Leading ins outs ∧ ∃ front, outs = front ++ list ∧ (∀ o ∈ list, Agrees ins o) ∧
      ((∀ o ∈ front, ¬ Agrees ins o) → Leading ins list))

theorem mergeLoop_outcome {rounds : Nat} (st : MergeState) {st' : MergeState} (kept : AttrList)
    (hins : TagSorted st.inList) (houts : TagSorted st.outList) (hlist : st.list = kept ++ st.outList)
    (h : mergeLoop handleUnknown rounds st = some st') :
    MergeOutcome kept st.inList st.outList st'.list := by
  induction rounds generalizing st kept with
  | zero => cases h
  | succ rounds ih =>
    rw [mergeLoop] at h
    rcases mergeStep_cases handleUnknown st with ⟨hi, ho, hs⟩ |
      ⟨o, outs, r, ho, hun, hs⟩ | ⟨i, ins, r, hi, hlt, hs⟩ |
      ⟨i, ins, o, outs, r, hi, ho, ht, hv, hs⟩ <;> rw [hs] at h
    · cases h
      rw [ho] at hlist ⊢
      exact .inl ⟨leading_nil _, hlist⟩
    · -- deleted: the list is what comes behind
      rw [ho] at houts ⊢
      have hnot : ¬ Leading st.inList (o :: outs) := not_agrees_of_unmatched hins hun
      rcases ih ⟨_, outs, outs, r⟩ [] hins (List.pairwise_cons.1 houts).2 rfl h with
        ⟨hlead, he⟩ | ⟨-, front, he, hall, hlead⟩
      · have he' : st'.list = outs := he
        rw [he']
        exact .inr ⟨hnot, [o], rfl, fun p hp => hlead.agrees hp, fun _ => hlead⟩
      · refine .inr ⟨hnot, o :: front, congrArg (o :: ·) he, hall, ?_⟩
        intro hfront
        exact hlead fun p hp => hfront p (.tail _ hp)
    · -- ignored: its tag is below all that are left
      rw [hi] at hins ⊢
      have hne := ne_of_head_lt houts hlt
      rcases ih ⟨ins, st.outList, st.list, r⟩ kept (List.pairwise_cons.1 hins).2 houts hlist h with
        ⟨hlead, he⟩ | ⟨hnot, front, he, hall, hlead⟩
      · exact .inl ⟨(leading_cons_left hne).2 hlead, he⟩
      · have hsub : ∀ p, p ∈ front ∨ p ∈ st'.list → p.1 ≠ i.1 := by
          intro p hp
          exact hne p (he ▸ List.mem_append.2 hp)
        refine .inr ⟨fun hl => hnot ((leading_cons_left hne).1 hl), front, he, ?_, ?_⟩
        · intro p hp
          exact (agrees_cons_left (hsub p (.inr hp))).2 (hall p hp)
        · intro hfront
          refine (leading_cons_left fun p hp => hsub p (.inr hp)).2 (hlead ?_)
          intro p hp hagree
          exact hfront p hp ((agrees_cons_left (hsub p (.inl hp))).2 hagree)
    · -- kept
      rw [hi] at hins ⊢
      rw [ho] at houts hlist ⊢
      rcases ih ⟨ins, outs, st.list, r⟩ (kept ++ [o]) (List.pairwise_cons.1 hins).2
        (List.pairwise_cons.1 houts).2 (by simp [hlist]) h with ⟨hlead, he⟩ | ⟨hnot, front, he, hall, -⟩
      · exact .inl ⟨(leading_cons_cons ht hv).2 hlead, by simpa using he⟩
      · refine .inr ⟨fun hl => hnot ((leading_cons_cons ht hv).1 hl), o :: front,
          congrArg (o :: ·) he, ?_, ?_⟩
        · intro p hp
          obtain ⟨j, hj, hp⟩ := hall p hp
          exact ⟨j, .tail _ hj, hp⟩
        · intro hfront
          exact (hfront o (.head _) ⟨i, .head _, ht, hv⟩).elim

/-- Attributes that do not agree are deleted one by one, until only those are left that lead. -/
theorem mergeLoop_front {rounds : Nat} {st st' : MergeState} (hins : TagSorted st.inList)
    (houts : TagSorted st.outList) (hsplit : st.outList = front ++ back) (hne : front ≠ [])
    (hfront : ∀ o ∈ front, ¬ Agrees st.inList o) (hback : Leading st.inList back)
    (h : mergeLoop handleUnknown rounds st = some st') : st'.list = back := by
  induction rounds generalizing st front with
  | zero => cases h
  | succ rounds ih =>
    obtain ⟨x, front, rfl⟩ := List.exists_cons_of_ne_nil hne
    rw [mergeLoop] at h
    rcases mergeStep_cases handleUnknown st with ⟨hi, ho, hs⟩ |
      ⟨o, outs, r, ho, hun, hs⟩ | ⟨i, ins, r, hi, hlt, hs⟩ |
      ⟨i, ins, o, outs, r, hi, ho, ht, hv, hs⟩ <;> rw [hs] at h
    · rw [ho] at hsplit
      cases hsplit
    · obtain ⟨rfl, rfl⟩ := List.cons.inj (ho.symm.trans hsplit)
      rw [ho] at houts
      have hsorted := (List.pairwise_cons.1 houts).2
      by_cases hnil : front = []
      · subst hnil
        rcases mergeLoop_outcome ⟨_, back, back, r⟩ [] hins hsorted rfl h with
          ⟨-, he⟩ | ⟨hnot, -⟩
        · exact he
        · exact (hnot hback).elim
      · exact @ih front ⟨_, front ++ back, front ++ back, r⟩ hins hsorted rfl hnil
          (fun p hp => hfront p (.tail _ hp)) hback h
    · rw [hi] at hins hfront hback
      have hneq := ne_of_head_lt houts hlt
      rw [hsplit] at hneq
      refine @ih _ ⟨ins, st.outList, st.list, r⟩ (List.pairwise_cons.1 hins).2 houts hsplit hne ?_ ?_ h
      · intro p hp hagree
        exact hfront p hp ((agrees_cons_left (hneq p (List.mem_append_left _ hp))).2 hagree)
      · exact (leading_cons_left fun p hp => hneq p (List.mem_append_right _ hp)).1 hback
    · obtain ⟨rfl, -⟩ := List.cons.inj (ho.symm.trans hsplit)
      rw [hi] at hfront
      exact (hfront o (.head _) ⟨i, .head _, ht, hv⟩).elim

/-- The merge keeps exactly the attributes that agree if and only if these come last. -/
theorem keepsAgreeing_iff (handleUnknown : MergeFile → BitVec 32 → Bool) (hins : TagSorted ins)
    (houts : TagSorted outs) : KeepsAgreeing handleUnknown ins outs ↔ AgreeingLast ins outs := by
  have hfilter : ∀ {l}, Leading ins l → (l.filter fun o => Agrees ins o) = l := by
    intro l hl
    exact List.filter_eq_self.2 fun o ho => decide_eq_true (hl.agrees ho)
  constructor
  · rintro ⟨rounds, list, result, h, hlist⟩
    obtain ⟨st, hst, he⟩ := Option.map_eq_some_iff.1 h
    cases he
    rcases mergeLoop_outcome ⟨ins, _, _, true⟩ [] hins houts rfl hst with ⟨hlead, -⟩ | ⟨-, front, he, hall, hlead⟩
    · exact ⟨[], outs, rfl, by simp, hlead⟩
    · dsimp only at he
      have hall' : (st.list.filter fun o => Agrees ins o) = st.list :=
        List.filter_eq_self.2 fun o ho => decide_eq_true (hall o ho)
      have hnil : (front.filter fun o => Agrees ins o) = [] := by
        rw [he, List.filter_append, hall'] at hlist
        exact List.self_eq_append_left.1 hlist
      have hfront : ∀ o ∈ front, ¬ Agrees ins o := by
        intro o ho hagree
        exact List.filter_eq_nil_iff.1 hnil o ho (decide_eq_true hagree)
      exact ⟨front, st.list, he, hfront, hlead hfront⟩
  · rintro ⟨front, back, rfl, hfront, hback⟩
    obtain ⟨st, hst⟩ := mergeLoop_ends handleUnknown (ins.length + (front ++ back).length + 1)
      ⟨ins, front ++ back, front ++ back, true⟩ (Nat.lt_succ_self _)
    refine ⟨_, st.list, st.result, by rw [elfMergeUnknownAttributeList, hst]; rfl, ?_⟩
    have hnil : (front.filter fun o => Agrees ins o) = [] :=
      List.filter_eq_nil_iff.2 fun o ho hd => hfront o ho (of_decide_eq_true hd)
    rw [List.filter_append, hnil, hfilter hback, List.nil_append]
    by_cases hne : front = []
    · subst hne
      rcases mergeLoop_outcome ⟨ins, _, _, true⟩ [] hins houts rfl hst with ⟨-, he⟩ | ⟨hnot, -⟩
      · exact he
      · exact (hnot hback).elim
    · exact mergeLoop_front hins houts rfl hne hfront hback hst

/-- An attribute with an integer. -/
def intAttr (tag i : BitVec 32) : BitVec 32 × ObjAttribute := (tag, ⟨⟨true, false, false⟩, i, none⟩)

/-- An attribute that differs and then one that agrees. -/
theorem keepsAgreeing_one :
    KeepsAgreeing (fun _ _ => true) [intAttr 100 1, intAttr 102 5] [intAttr 100 2, intAttr 102 5] :=
  (keepsAgreeing_iff _ (by decide) (by decide)).2
    ⟨[intAttr 100 2], [intAttr 102 5], rfl, by decide, by
      intro tag
      have hback : valuesAt [intAttr 102 5] tag <+: valuesAt [intAttr 102 5] tag := List.prefix_refl _
      by_cases h : tag = 102
      · subst h
        exact hback
      · rw [valuesAt_nil_of_ne (by rintro p hp rfl; simp_all [intAttr])]
        exact List.nil_prefix⟩

/-- The attribute 100 agrees and is lost when 102 is deleted. -/
theorem agreeing_attribute_lost :
    ¬ KeepsAgreeing (fun _ _ => true) [intAttr 100 1] [intAttr 100 1, intAttr 102 5] := by
  rw [keepsAgreeing_iff _ (by decide) (by decide)]
  rintro ⟨front, back, hsplit, hfront, hback⟩
  have hlast : ¬ Agrees [intAttr 100 1] (intAttr 102 5) := by decide
  have hfirst : Agrees [intAttr 100 1] (intAttr 100 1) := by decide
  rcases front with _ | ⟨x, front⟩
  · rw [List.nil_append] at hsplit
    exact hlast (hback.agrees (hsplit ▸ .tail _ (.head _)))
  · obtain ⟨rfl, -⟩ := List.cons.inj hsplit
    exact hfront _ (.head _) hfirst

end FusionBinutils.Bfd
