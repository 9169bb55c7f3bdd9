import FusionBinutils.Bfd.ObjAttrs
import Mathlib.Data.List.Nodup
import Mathlib.Data.List.Perm.Basic

/-! The attributes of a file as a store of integers (bfd/elf-attrs.c). -/
namespace FusionBinutils.Bfd

variable {bed : AttrBackend} {attrs : ObjAttrs} {vendor : ObjAttrVendor} {tag : BitVec 32}
  {attr : ObjAttribute} {l : List (BitVec 32 × ObjAttribute)}

/-- The search of `bfd_elf_get_obj_attr_int` in the list of other attributes, which ends at the
first larger tag. -/
def otherInt (tag : BitVec 32) : List (BitVec 32 × ObjAttribute) → BitVec 32
  | [] => 0
  | p :: l => if tag = p.1 then p.2.i else if tag < p.1 then 0 else otherInt tag l

def bfdElfGetObjAttrInt (attrs : ObjAttrs) (vendor : ObjAttrVendor) (tag : BitVec 32) : BitVec 32 :=
  if tag.toNat < numKnownObjAttributes then (attrs.known vendor tag.toNat).i
  else otherInt tag (attrs.other vendor)

/-- A call of `bfd_elf_add_obj_attr_int`. -/
structure AddInt where
  vendor : ObjAttrVendor
  tag : BitVec 32
  i : BitVec 32
  deriving DecidableEq

/-- The file after a sequence of calls. -/
def addInts (bed : AttrBackend) (calls : List AddInt) : ObjAttrs :=
  calls.foldl (fun attrs c => bfdElfAddObjAttrInt bed attrs c.vendor c.tag c.i) .empty

/-- The value of the last call for a vendor and tag. -/
def lastInt (calls : List AddInt) (vendor : ObjAttrVendor) (tag : BitVec 32) : BitVec 32 :=
  ((calls.filter fun c => c.vendor = vendor ∧ c.tag = tag).getLast?.map AddInt.i).getD 0

/-- Every tag has the value it was given last, and the list has every tag once and in order. -/
def ActsAsMap (calls : List AddInt) (attrs : ObjAttrs) : Prop :=
  (∀ vendor tag, bfdElfGetObjAttrInt attrs vendor tag = lastInt calls vendor tag) ∧
    ∀ vendor, (attrs.other vendor).Pairwise (fun p q => p.1 ≤ q.1) ∧
      ((attrs.other vendor).map Prod.fst).Nodup

/-- The calls for a vendor whose tags are not known ones. -/
def otherCalls (calls : List AddInt) (vendor : ObjAttrVendor) : List AddInt :=
  calls.filter fun c => c.vendor = vendor ∧ numKnownObjAttributes ≤ c.tag.toNat

theorem mem_otherCalls {calls : List AddInt} {c : AddInt} :
    c ∈ otherCalls calls vendor ↔
      c ∈ calls ∧ c.vendor = vendor ∧ numKnownObjAttributes ≤ c.tag.toNat := by
  rw [otherCalls, List.mem_filter, decide_eq_true_iff]

/-- No tag outside the known ones is set twice. -/
def SetOnce (calls : List AddInt) : Prop :=
  ∀ vendor, ((otherCalls calls vendor).map AddInt.tag).Nodup

/-! The list of other attributes. -/

theorem insertObjAttr_perm (tag : BitVec 32) (attr : ObjAttribute)
    (l : List (BitVec 32 × ObjAttribute)) : (insertObjAttr tag attr l).Perm ((tag, attr) :: l) := by
  induction l with
  | nil => exact .refl _
  | cons p l ih =>
    rw [insertObjAttr]
    split_ifs
    · exact .refl _
    · exact (ih.cons p).trans (.swap (tag, attr) p l)

theorem insertObjAttr_sorted (h : l.Pairwise fun p q => p.1 ≤ q.1) :
    (insertObjAttr tag attr l).Pairwise fun p q => p.1 ≤ q.1 := by
  induction l with
  | nil => exact List.pairwise_singleton _ _
  | cons p l ih =>
    obtain ⟨hp, hl⟩ := List.pairwise_cons.1 h
    rw [insertObjAttr]
    split_ifs with hlt
    · refine h.cons ?_
      intro q hq
      rcases List.mem_cons.1 hq with rfl | hq
      · exact BitVec.le_of_lt hlt
      · exact BitVec.le_trans (BitVec.le_of_lt hlt) (hp q hq)
    · refine (ih hl).cons ?_
      intro q hq
      rcases List.mem_cons.1 ((insertObjAttr_perm tag attr l).mem_iff.1 hq) with rfl | hq
      · exact BitVec.not_lt.1 hlt
      · exact hp q hq

/-- In a list that is in order the search finds the one entry of a tag. -/
theorem otherInt_of_mem (hs : l.Pairwise fun p q => p.1 ≤ q.1) (hn : (l.map Prod.fst).Nodup)
    (h : (tag, attr) ∈ l) : otherInt tag l = attr.i := by
  induction l with
  | nil => cases h
  | cons p l ih =>
    obtain ⟨hp, hs⟩ := List.pairwise_cons.1 hs
    obtain ⟨hnot, hn⟩ := List.nodup_cons.1 hn
    rw [otherInt]
    rcases List.mem_cons.1 h with rfl | h
    · exact if_pos rfl
    · have hne : tag ≠ p.1 := by
        rintro rfl
        exact hnot (List.mem_map.2 ⟨_, h, rfl⟩)
      rw [if_neg hne, if_neg (BitVec.not_lt.2 (hp _ h))]
      exact ih hs hn h

theorem otherInt_of_not_mem (h : ∀ p ∈ l, p.1 ≠ tag) : otherInt tag l = 0 := by
  induction l with
  | nil => rfl
  | cons p l ih =>
    rw [otherInt, if_neg (h p (.head _)).symm, ih fun q hq => h q (.tail _ hq)]
    exact ite_self _

/-! One call, and all of them. -/

theorem known_store (attrs : ObjAttrs) (vendor : ObjAttrVendor)
    (hlt : tag.toNat < numKnownObjAttributes) (f : ObjAttribute → ObjAttribute) :
    (attrs.store vendor tag f).other = attrs.other ∧
      ∀ vendor' tag', (attrs.store vendor tag f).known vendor' tag' =
        if vendor' = vendor ∧ tag' = tag.toNat then f (attrs.known vendor tag.toNat)
        else attrs.known vendor' tag' := by
  rw [ObjAttrs.store, if_pos hlt]
  refine ⟨rfl, ?_⟩
  intro vendor' tag'
  by_cases hv : vendor' = vendor
  · subst hv
    by_cases ht : tag' = tag.toNat
    · subst ht
      simp
    · simp [ht]
  · simp [hv]

theorem other_store (attrs : ObjAttrs) (vendor : ObjAttrVendor)
    (hge : numKnownObjAttributes ≤ tag.toNat) (f : ObjAttribute → ObjAttribute) :
    (attrs.store vendor tag f).known = attrs.known ∧
      ∀ vendor', (attrs.store vendor tag f).other vendor' =
        if vendor' = vendor then insertObjAttr tag (f .zero) (attrs.other vendor)
        else attrs.other vendor' := by
  rw [ObjAttrs.store, if_neg (by omega)]
  refine ⟨rfl, ?_⟩
  intro vendor'
  by_cases hv : vendor' = vendor
  · subst hv
    simp
  · simp [hv]

theorem addInts_snoc (calls : List AddInt) (c : AddInt) :
    addInts bed (calls ++ [c]) = bfdElfAddObjAttrInt bed (addInts bed calls) c.vendor c.tag c.i := by
  rw [addInts, List.foldl_append]
  rfl

theorem lastInt_snoc (calls : List AddInt) (c : AddInt) (vendor : ObjAttrVendor) (tag : BitVec 32) :
    lastInt (calls ++ [c]) vendor tag =
      if c.vendor = vendor ∧ c.tag = tag then c.i else lastInt calls vendor tag := by
  rw [lastInt, List.filter_append]
  split_ifs with h
  · simp [h]
  · simp [h, lastInt]

/-- What a run of calls leaves, whatever the tags. -/
structure Stored (calls : List AddInt) (attrs : ObjAttrs) : Prop where
  known : ∀ vendor, ∀ tag : BitVec 32, tag.toNat < numKnownObjAttributes →
    (attrs.known vendor tag.toNat).i = lastInt calls vendor tag
  sorted : ∀ vendor, (attrs.other vendor).Pairwise fun p q => p.1 ≤ q.1
  entries : ∀ vendor, ((attrs.other vendor).map fun p => (p.1, p.2.i)).Perm
    ((otherCalls calls vendor).map fun c => (c.tag, c.i))

theorem Stored.add {calls : List AddInt} (h : Stored calls attrs) (c : AddInt) :
    Stored (calls ++ [c]) (bfdElfAddObjAttrInt bed attrs c.vendor c.tag c.i) := by
  rw [bfdElfAddObjAttrInt]
  by_cases hlt : c.tag.toNat < numKnownObjAttributes
  · obtain ⟨hother, hknown⟩ := known_store attrs c.vendor hlt fun attr =>
      { attr with type := elfObjAttrsArgType bed c.vendor c.tag, i := c.i }
    have hsame (vendor) : otherCalls (calls ++ [c]) vendor = otherCalls calls vendor := by
      simp [otherCalls, List.filter_append, Nat.not_le.2 hlt]
    constructor
    · intro vendor tag htag
      rw [hknown, lastInt_snoc]
      by_cases hv : c.vendor = vendor ∧ c.tag = tag
      · rw [if_pos ⟨hv.1.symm, by rw [hv.2]⟩, if_pos hv]
      · rw [if_neg ?_, if_neg hv, h.known vendor tag htag]
        rintro ⟨rfl, ht⟩
        exact hv ⟨rfl, (BitVec.eq_of_toNat_eq ht).symm⟩
    · intro vendor
      rw [hother]
      exact h.sorted vendor
    · intro vendor
      rw [hother, hsame]
      exact h.entries vendor
  · obtain ⟨hknown, hother⟩ := other_store attrs c.vendor (Nat.le_of_not_lt hlt) fun attr =>
      { attr with type := elfObjAttrsArgType bed c.vendor c.tag, i := c.i }
    constructor
    · intro vendor tag htag
      have hne : ¬ (c.vendor = vendor ∧ c.tag = tag) := by
        rintro ⟨-, rfl⟩
        exact hlt htag
      rw [hknown, lastInt_snoc, if_neg hne, h.known vendor tag htag]
    · intro vendor
      rw [hother]
      split_ifs
      · exact insertObjAttr_sorted (h.sorted c.vendor)
      · exact h.sorted vendor
    · intro vendor
      rw [hother]
      by_cases hv : vendor = c.vendor
      · subst hv
        rw [if_pos rfl, otherCalls, List.filter_append, List.map_append]
        refine ((insertObjAttr_perm _ _ _).map _).trans ?_
        simp only [List.map_cons, Nat.le_of_not_lt hlt, decide_true, and_self, List.filter_cons,
          List.filter_nil, if_true, List.map_nil]
        exact ((h.entries c.vendor).cons _).trans (List.perm_append_singleton _ _).symm
      · have hsame : otherCalls (calls ++ [c]) vendor = otherCalls calls vendor := by
          simp [otherCalls, List.filter_append, Ne.symm hv]
        rw [if_neg hv, hsame]
        exact h.entries vendor

theorem stored_addInts (bed : AttrBackend) (calls : List AddInt) :
    Stored calls (addInts bed calls) := by
  induction calls using List.reverseRecOn with
  | nil => exact ⟨fun _ _ _ => rfl, fun _ => .nil, fun _ => .refl _⟩
  | append_singleton calls c ih =>
    rw [addInts_snoc]
    exact ih.add c

theorem Stored.tags {calls : List AddInt} (h : Stored calls attrs) (vendor : ObjAttrVendor) :
    ((attrs.other vendor).map Prod.fst).Perm ((otherCalls calls vendor).map AddInt.tag) := by
  simpa [List.map_map, Function.comp_def] using (h.entries vendor).map Prod.fst

/-- A tag that was set once has the value it was set to. -/
theorem lastInt_of_mem {calls : List AddInt} {c : AddInt}
    (h : ((otherCalls calls c.vendor).map AddInt.tag).Nodup) (hc : c ∈ otherCalls calls c.vendor) :
    lastInt calls c.vendor c.tag = c.i := by
  obtain ⟨hcall, -, hge⟩ := mem_otherCalls.1 hc
  have hall : ∀ d ∈ calls.filter fun d => d.vendor = c.vendor ∧ d.tag = c.tag, d = c := by
    intro d hd
    obtain ⟨hmem, hd⟩ := List.mem_filter.1 hd
    obtain ⟨hv, ht⟩ := of_decide_eq_true hd
    exact List.inj_on_of_nodup_map h (mem_otherCalls.2 ⟨hmem, hv, ht ▸ hge⟩) hc ht
  have hmem : c ∈ calls.filter fun d => d.vendor = c.vendor ∧ d.tag = c.tag :=
    List.mem_filter.2 ⟨hcall, decide_eq_true ⟨rfl, rfl⟩⟩
  have hlast := List.getLast?_eq_getLast_of_ne_nil (List.ne_nil_of_mem hmem)
  rw [lastInt, hlast, hall _ (List.getLast_mem _)]
  rfl

theorem lastInt_of_not_mem {calls : List AddInt} (hge : numKnownObjAttributes ≤ tag.toNat)
    (h : ∀ c ∈ otherCalls calls vendor, c.tag ≠ tag) : lastInt calls vendor tag = 0 := by
  have hnil : calls.filter (fun c => c.vendor = vendor ∧ c.tag = tag) = [] := by
    rw [List.filter_eq_nil_iff]
    intro c hc hd
    obtain ⟨hv, ht⟩ := of_decide_eq_true hd
    exact h c (mem_otherCalls.2 ⟨hc, hv, ht ▸ hge⟩) ht
  rw [lastInt, hnil]
  rfl

/-- The store is a map exactly when no tag outside the known ones is set twice. -/
theorem actsAsMap_iff (bed : AttrBackend) (calls : List AddInt) :
    ActsAsMap calls (addInts bed calls) ↔ SetOnce calls := by
  have h := stored_addInts bed calls
  constructor
  · rintro ⟨-, hlist⟩ vendor
    exact (h.tags vendor).nodup_iff.1 (hlist vendor).2
  · intro honce
    have hnodup (vendor) := (h.tags vendor).nodup_iff.2 (honce vendor)
    refine ⟨?_, fun vendor => ⟨h.sorted vendor, hnodup vendor⟩⟩
    intro vendor tag
    rw [bfdElfGetObjAttrInt]
    split_ifs with hlt
    · exact h.known vendor tag hlt
    by_cases hc : ∃ c ∈ otherCalls calls vendor, c.tag = tag
    · obtain ⟨c, hc, rfl⟩ := hc
      obtain ⟨-, rfl, -⟩ := mem_otherCalls.1 hc
      rw [lastInt_of_mem (honce c.vendor) hc]
      have hmem : (c.tag, c.i) ∈ ((addInts bed calls).other c.vendor).map fun p => (p.1, p.2.i) :=
        (h.entries c.vendor).mem_iff.2 (List.mem_map_of_mem (f := fun c => (c.tag, c.i)) hc)
      obtain ⟨⟨tag, attr⟩, hp, he⟩ := List.mem_map.1 hmem
      obtain ⟨rfl, hi⟩ := Prod.mk.inj he
      rw [otherInt_of_mem (h.sorted c.vendor) (hnodup c.vendor) hp]
      exact hi
    · push Not at hc
      rw [lastInt_of_not_mem (Nat.le_of_not_lt hlt) hc]
      apply otherInt_of_not_mem
      intro p hp ht
      obtain ⟨c, hc', he⟩ := List.mem_map.1 ((h.tags vendor).mem_iff.1 (List.mem_map_of_mem hp))
      exact hc c hc' (he.trans ht)

/-- A tag above the known ones that is set to 1 and then to 2 still has the value 1. -/
theorem second_value_lost :
    ¬ ActsAsMap [⟨.gnu, 100, 1⟩, ⟨.gnu, 100, 2⟩]
      (addInts fusionAttrBackend [⟨.gnu, 100, 1⟩, ⟨.gnu, 100, 2⟩]) := by
  rintro ⟨hget, -⟩
  exact absurd (hget .gnu 100) (by decide)

end FusionBinutils.Bfd
