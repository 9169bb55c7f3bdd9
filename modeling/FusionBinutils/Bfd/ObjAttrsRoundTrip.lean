import FusionBinutils.Bfd.ObjAttrsWrite

/-! Object attributes are read back. -/
namespace FusionBinutils.Bfd

open Blocks (Remains)
open scoped List

variable {big : Bool} {bed : AttrBackend} {attrs st : ObjAttrs} {vendor v : ObjAttrVendor}
  {tag : BitVec 32} {attr : ObjAttribute} {p : BitVec 32 × ObjAttribute}
  {l entries : List (BitVec 32 × ObjAttribute)} {contents rest : List BfdByte} {off last : Nat}

/-! What is stored for an entry. -/

/-- The slot of an entry is free. -/
def Free (st : ObjAttrs) (vendor : ObjAttrVendor) (tag : BitVec 32) : Prop :=
  tag.toNat < numKnownObjAttributes → st.known vendor tag.toNat = .zero

/-- The entry with its value. -/
def putEntry (vendor : ObjAttrVendor) (st : ObjAttrs) (p : BitVec 32 × ObjAttribute) : ObjAttrs :=
  st.store vendor p.1 fun _ => p.2.kept

theorem store_eq {f : ObjAttribute → ObjAttribute} (h : Free st vendor tag)
    (hf : f .zero = attr) : st.store vendor tag f = st.store vendor tag fun _ => attr := by
  rw [ObjAttrs.store, ObjAttrs.store]
  split_ifs with hlt
  · rw [h hlt, hf]
  · rw [hf]

theorem putEntry_known (vendor : ObjAttrVendor) (st : ObjAttrs)
    (hlt : p.1.toNat < numKnownObjAttributes) :
    (putEntry vendor st p).known =
      Function.update st.known vendor (Function.update (st.known vendor) p.1.toNat p.2.kept) ∧
      (putEntry vendor st p).other = st.other := by
  rw [putEntry, ObjAttrs.store, if_pos hlt]
  exact ⟨rfl, rfl⟩

theorem insertObjAttr_last (h : ∀ q ∈ l, q.1 ≤ tag) :
    insertObjAttr tag attr l = l ++ [(tag, attr)] := by
  induction l with
  | nil => rfl
  | cons q l ih =>
    have hq : ¬ tag < q.1 := by
      have hle := h q List.mem_cons_self
      rw [BitVec.le_def] at hle
      rw [BitVec.lt_def]
      omega
    rw [insertObjAttr, if_neg hq, ih fun r hr => h r (List.mem_cons_of_mem _ hr)]
    rfl

theorem putEntry_other (hge : numKnownObjAttributes ≤ p.1.toNat)
    (hle : ∀ q ∈ st.other vendor, q.1 ≤ p.1) :
    (putEntry vendor st p).known = st.known ∧ (putEntry vendor st p).other =
      Function.update st.other vendor (st.other vendor ++ [(p.1, p.2.kept)]) := by
  rw [putEntry, ObjAttrs.store, if_neg (by omega), ← insertObjAttr_last hle]
  exact ⟨rfl, rfl⟩

theorem Free.put {q : BitVec 32 × ObjAttribute} (h : Free st vendor q.1)
    (hne : q.1.toNat < numKnownObjAttributes → p.1 ≠ q.1) :
    Free (putEntry vendor st p) vendor q.1 := by
  intro hq
  by_cases hp : p.1.toNat < numKnownObjAttributes
  · rw [(putEntry_known vendor st hp).1, Function.update_self, Function.update_of_ne, h hq]
    exact fun heq => hne hq (BitVec.eq_of_toNat_eq heq).symm
  · rw [putEntry, ObjAttrs.store, if_neg hp]
    exact h hq

/-! Reading one entry. -/

theorem readTag_unsigned (last : Nat) (hr : Remains contents off (writeUleb128 tag ++ rest))
    (hlast : off + (writeUleb128 tag).length ≤ last) :
    readTag contents off last = (tag, (writeUleb128 tag).length) := by
  obtain ⟨r, htake⟩ := hr.take_drop hlast
  have hread : Leb128.read 64 false (writeUleb128 tag ++ r) = (tag.toNat, r) :=
    Leb128.read_unsigned (by omega)
  rw [readTag, htake]
  simp only [hread, BitVec.ofNat_toNat, BitVec.setWidth_eq, List.length_append,
    Nat.add_sub_cancel]

theorem stringAt_eq {s : List BfdByte} (h0 : 0 ∉ s) (hr : Remains contents off (s ++ 0 :: rest)) :
    stringAt contents off = s := by
  rw [stringAt, hr.1, List.takeWhile_append_of_pos]
  · simp
  · intro b hb
    rw [decide_eq_true_eq]
    rintro rfl
    exact h0 hb

theorem elfAttrStrdup_eq (s : AttrString) : elfAttrStrdup s.1 = some s := by
  rw [elfAttrStrdup, dif_pos s.2]

theorem attrBytes_pos (h : p.2.isDefaultAttr = false) : 0 < (attrBytes p).length := by
  have hpos : 0 < (writeUleb128 p.1).length := by
    rw [writeUleb128, Leb128.length_unsigned]
    exact Leb128.sizeUnsigned_pos _
  rw [attrBytes, h]
  simp only [Bool.false_eq_true, if_false, List.length_append]
  omega

/-- One round of the loop over a subsection. -/
theorem parseFileAttrs_entry (hd : p.2.isDefaultAttr = false) (ht : p.2.Typed bed vendor p.1)
    (hfree : Free st vendor p.1) (hr : Remains contents off (attrBytes p ++ rest))
    (hlast : off + (attrBytes p).length ≤ last) (fuel : Nat) :
    parseFileAttrs bed vendor contents last (fuel + 1) off st =
      parseFileAttrs bed vendor contents last fuel (off + (attrBytes p).length)
        (putEntry vendor st p) := by
  obtain ⟨tag, attr⟩ := p
  obtain ⟨htype, hstr⟩ := ht
  have hpos := attrBytes_pos hd
  have hlt : off < last := by omega
  have hkept : attr.kept = ⟨attr.type, if attr.type.intVal then attr.i else 0,
      if attr.type.strVal then attr.s else none⟩ := by
    rw [ObjAttribute.kept, hd]
    rfl
  simp only at hd htype hstr hfree
  rw [parseFileAttrs, if_pos hlt]
  cases hi : attr.type.intVal with
  | true =>
    cases hs : attr.type.strVal with
    | true =>
      obtain ⟨s, hs'⟩ := Option.isSome_iff_exists.1 (hstr hs)
      have hbytes : attrBytes (tag, attr) =
          writeUleb128 tag ++ (writeUleb128 attr.i ++ (s.1 ++ [0])) := by
        simp [attrBytes, hd, hi, hs, hs']
      rw [hbytes] at hr hlast ⊢
      simp only [List.length_append, List.length_cons, List.length_nil] at hlast
      rw [List.append_assoc] at hr
      have htag := readTag_unsigned last hr (by omega)
      have hr₁ := hr.next
      rw [List.append_assoc] at hr₁
      have hval := readTag_unsigned last hr₁ (by omega)
      have hr₂ := hr₁.next
      rw [List.append_assoc] at hr₂
      have htext := stringAt_eq s.2.1 hr₂
      simp only [htag, ← htype, hi, hs, hval, htext, elfAttrStrdup_eq, Option.bind_eq_bind,
        Option.bind_some]
      have hstore : bfdElfAddObjAttrIntString bed st vendor tag attr.i s =
          putEntry vendor st (tag, attr) := by
        refine store_eq hfree ?_
        rw [hkept, hi, hs, hs', ← htype]
        rfl
      rw [hstore]
      congr 1
      simp only [List.length_append, List.length_cons, List.length_nil]
      omega
    | false =>
      have hbytes : attrBytes (tag, attr) = writeUleb128 tag ++ writeUleb128 attr.i := by
        simp [attrBytes, hd, hi, hs]
      rw [hbytes] at hr hlast ⊢
      rw [List.length_append] at hlast
      rw [List.append_assoc] at hr
      have htag := readTag_unsigned last hr (by omega)
      have hval := readTag_unsigned last hr.next (by omega)
      simp only [htag, ← htype, hi, hs, hval]
      have hstore : bfdElfAddObjAttrInt bed st vendor tag attr.i =
          putEntry vendor st (tag, attr) := by
        refine store_eq hfree ?_
        rw [hkept, hi, hs, ← htype]
        rfl
      rw [hstore, List.length_append, Nat.add_assoc]
  | false =>
    have hs : attr.type.strVal = true := by
      have hsome : attr.type.intVal = true ∨ attr.type.strVal = true := by
        rw [htype]
        cases vendor with
        | proc => exact bed.takes_some tag
        | gnu => exact gnuObjAttrsArgType_some tag
      rw [hi] at hsome
      exact hsome.resolve_left (by decide)
    obtain ⟨s, hs'⟩ := Option.isSome_iff_exists.1 (hstr hs)
    have hbytes : attrBytes (tag, attr) = writeUleb128 tag ++ (s.1 ++ [0]) := by
      simp [attrBytes, hd, hi, hs, hs']
    rw [hbytes] at hr hlast ⊢
    simp only [List.length_append, List.length_cons, List.length_nil] at hlast
    rw [List.append_assoc] at hr
    have htag := readTag_unsigned last hr (by omega)
    have hr₁ := hr.next
    rw [List.append_assoc] at hr₁
    have htext := stringAt_eq s.2.1 hr₁
    simp only [htag, ← htype, hi, hs, htext, elfAttrStrdup_eq, Option.bind_eq_bind,
      Option.bind_some]
    have hstore : bfdElfAddObjAttrString bed st vendor tag s = putEntry vendor st (tag, attr) := by
      refine store_eq hfree ?_
      rw [hkept, hi, hs, hs', ← htype]
      rfl
    rw [hstore]
    congr 1
    simp only [List.length_append, List.length_cons, List.length_nil]
    omega

/-- The entries that are written, one after the other. -/
theorem parseFileAttrs_entries (fuel : Nat) (hfuel : entries.length < fuel)
    (hd : ∀ p ∈ entries, p.2.isDefaultAttr = false)
    (ht : ∀ p ∈ entries, p.2.Typed bed vendor p.1)
    (hfree : ∀ p ∈ entries, Free st vendor p.1)
    (hne : entries.Pairwise fun p q => q.1.toNat < numKnownObjAttributes → p.1 ≠ q.1)
    (hr : Remains contents off (entries.flatMap attrBytes ++ rest))
    (hlast : last = off + (entries.flatMap attrBytes).length) :
    parseFileAttrs bed vendor contents last fuel off st =
      some (last, entries.foldl (putEntry vendor) st) := by
  induction entries generalizing fuel off st with
  | nil =>
    obtain ⟨fuel, rfl⟩ := Nat.exists_eq_succ_of_ne_zero (Nat.ne_of_gt hfuel)
    rw [hlast, parseFileAttrs, if_neg (by simp)]
    rfl
  | cons p entries ih =>
    obtain ⟨fuel, rfl⟩ := Nat.exists_eq_succ_of_ne_zero (by omega : fuel ≠ 0)
    rw [List.length_cons] at hfuel
    rw [List.flatMap_cons, List.append_assoc] at hr
    rw [List.flatMap_cons, List.length_append] at hlast
    rw [List.pairwise_cons] at hne
    rw [parseFileAttrs_entry (hd p List.mem_cons_self) (ht p List.mem_cons_self)
      (hfree p List.mem_cons_self) hr (by omega)]
    refine ih fuel (by omega) ?_ ?_ ?_ hne.2 hr.next (by omega)
    · exact fun q hq => hd q (List.mem_cons_of_mem _ hq)
    · exact fun q hq => ht q (List.mem_cons_of_mem _ hq)
    · exact fun q hq => (hfree q (List.mem_cons_of_mem _ hq)).put (hne.1 q hq)

/-! What is stored for a list of entries. -/

theorem foldl_known (attrs : ObjAttrs) (vendor : ObjAttrVendor) (st : ObjAttrs)
    (hlt : ∀ p ∈ l, p.1.toNat < numKnownObjAttributes)
    (hval : ∀ p ∈ l, p.2 = attrs.known vendor p.1.toNat) :
    (l.foldl (putEntry vendor) st).other = st.other ∧
      (∀ v, v ≠ vendor → (l.foldl (putEntry vendor) st).known v = st.known v) ∧
        ∀ t, (l.foldl (putEntry vendor) st).known vendor t =
          if t ∈ l.map (·.1.toNat) then (attrs.known vendor t).kept else st.known vendor t := by
  induction l generalizing st with
  | nil => exact ⟨rfl, fun _ _ => rfl, fun t => by simp⟩
  | cons p l ih =>
    obtain ⟨hk, ho⟩ := putEntry_known vendor st (hlt p List.mem_cons_self)
    obtain ⟨hother, hvendor, hknown⟩ := ih (putEntry vendor st p)
      (fun q hq => hlt q (List.mem_cons_of_mem _ hq))
      fun q hq => hval q (List.mem_cons_of_mem _ hq)
    rw [List.foldl_cons]
    refine ⟨hother.trans ho, fun v hv => ?_, fun t => ?_⟩
    · rw [hvendor v hv, hk, Function.update_of_ne hv]
    · rw [hknown t, hk, Function.update_self, List.map_cons]
      by_cases hmem : t ∈ l.map (·.1.toNat)
      · rw [if_pos hmem, if_pos (List.mem_cons_of_mem _ hmem)]
      · rw [if_neg hmem]
        by_cases ht : t = p.1.toNat
        · rw [ht, Function.update_self, if_pos List.mem_cons_self, hval p List.mem_cons_self]
        · rw [Function.update_of_ne ht, if_neg]
          rw [List.mem_cons, not_or]
          exact ⟨ht, hmem⟩

theorem foldl_other (vendor : ObjAttrVendor) (st : ObjAttrs)
    (hge : ∀ p ∈ l, numKnownObjAttributes ≤ p.1.toNat)
    (hsorted : l.Pairwise fun p q => p.1 ≤ q.1)
    (hle : ∀ p ∈ l, ∀ q ∈ st.other vendor, q.1 ≤ p.1) :
    (l.foldl (putEntry vendor) st).known = st.known ∧
      (∀ v, v ≠ vendor → (l.foldl (putEntry vendor) st).other v = st.other v) ∧
        (l.foldl (putEntry vendor) st).other vendor =
          st.other vendor ++ l.map fun p => (p.1, p.2.kept) := by
  induction l generalizing st with
  | nil => exact ⟨rfl, fun _ _ => rfl, by simp⟩
  | cons p l ih =>
    obtain ⟨hk, ho⟩ := putEntry_other (hge p List.mem_cons_self) (hle p List.mem_cons_self)
    rw [List.pairwise_cons] at hsorted
    obtain ⟨hknown, hvendor, hother⟩ := ih (putEntry vendor st p)
      (fun q hq => hge q (List.mem_cons_of_mem _ hq)) hsorted.2 (by
        intro q hq r hr
        rw [ho, Function.update_self, List.mem_append, List.mem_singleton] at hr
        rcases hr with hr | rfl
        · exact hle q (List.mem_cons_of_mem _ hq) r hr
        · exact hsorted.1 q hq)
    rw [List.foldl_cons]
    refine ⟨hknown.trans hk, fun v hv => ?_, ?_⟩
    · rw [hvendor v hv, ho, Function.update_of_ne hv]
    · rw [hother, ho, Function.update_self, List.append_assoc]
      rfl

/-! The entries of a vendor. -/

/-- The entries of a vendor that are written. -/
def written (bed : AttrBackend) (attrs : ObjAttrs) (vendor : ObjAttrVendor) :
    List (BitVec 32 × ObjAttribute) :=
  (vendorEntries bed attrs vendor).filter fun p => !p.2.isDefaultAttr

theorem written_bytes : (written bed attrs vendor).flatMap attrBytes =
    vendorBody bed attrs vendor := by
  rw [written, vendorBody]
  induction vendorEntries bed attrs vendor with
  | nil => rfl
  | cons p l ih =>
    rw [List.filter_cons, List.flatMap_cons]
    cases hd : p.2.isDefaultAttr with
    | true =>
      have hnil : attrBytes p = [] := by
        rw [attrBytes, hd]
        rfl
      rw [hnil, List.nil_append]
      exact ih
    | false => simp [ih]

theorem knownTag_lt {i : Nat} (hi : i ∈ knownTags) :
    (BitVec.ofNat 32 i).toNat = i ∧ i < numKnownObjAttributes := by
  rw [knownTags, List.mem_range'_1] at hi
  rw [BitVec.toNat_ofNat, numKnownObjAttributes]
  omega

theorem written_default (hp : p ∈ written bed attrs vendor) : p.2.isDefaultAttr = false := by
  have h := (List.mem_filter.1 hp).2
  simpa using h

theorem written_nil (h : vendorBody bed attrs vendor = []) : written bed attrs vendor = [] := by
  rw [List.eq_nil_iff_forall_not_mem]
  intro p hp
  have hpos := attrBytes_pos (written_default hp)
  rw [← written_bytes, List.flatMap_eq_nil_iff] at h
  rw [h p hp] at hpos
  exact absurd hpos (by decide)

theorem entry_cases (hp : p ∈ vendorEntries bed attrs vendor) :
    (∃ i ∈ knownTags, p = (.ofNat 32 i, attrs.known vendor i)) ∨ p ∈ attrs.other vendor := by
  rw [vendorEntries, List.mem_append] at hp
  refine hp.imp_left fun hk => ?_
  obtain ⟨i, hi, rfl⟩ := List.mem_map.1 hk
  exact ⟨orderedTag bed i, orderedTag_mem hi, rfl⟩

section

variable (hw : attrs.WellFormed bed)

include hw

theorem written_typed (hp : p ∈ written bed attrs vendor) : p.2.Typed bed vendor p.1 := by
  have hd := written_default hp
  rcases entry_cases (List.mem_filter.1 hp).1 with ⟨i, hi, rfl⟩ | ho
  · exact hw.known vendor i hi hd
  · exact (hw.other vendor p ho).2 hd

theorem written_distinct : (written bed attrs vendor).Pairwise fun p q =>
    q.1.toNat < numKnownObjAttributes → p.1 ≠ q.1 := by
  refine List.Pairwise.filter _ ?_
  rw [vendorEntries, List.pairwise_append]
  refine ⟨?_, ?_, ?_⟩
  · rw [knownEntries, List.pairwise_map]
    have hnd : (knownTags.map (orderedTag bed)).Nodup := (orderedTag_perm bed).nodup_iff.2
      List.nodup_range'
    rw [List.nodup_iff_pairwise_ne, List.pairwise_map] at hnd
    refine hnd.imp_of_mem fun {i j} hi hj hne _ heq => hne ?_
    have h := congrArg BitVec.toNat heq
    rwa [(knownTag_lt (orderedTag_mem hi)).1, (knownTag_lt (orderedTag_mem hj)).1] at h
  · refine (hw.sorted vendor).imp_of_mem fun {q r} _ hr _ hlt => ?_
    have hge := (hw.other vendor r hr).1
    omega
  · intro q _ r hr hlt
    have hge := (hw.other vendor r hr).1
    omega

/-- A target without a vendor name has nothing to write for one. -/
theorem written_unnamed (hname : vendorObjAttrName bed vendor = none) :
    written bed attrs vendor = [] := by
  cases vendor with
  | gnu => cases hname
  | proc =>
    obtain ⟨hk, ho⟩ := hw.proc hname
    rw [written, List.filter_eq_nil_iff]
    intro p hp
    rcases entry_cases hp with ⟨i, hi, rfl⟩ | hother
    · simp [hk i hi]
    · simp [ho p hother]

/-- What the entries of a vendor leave behind, when nothing has been stored for it. -/
theorem foldl_written (vendor : ObjAttrVendor) (st : ObjAttrs)
    (hk : ∀ t, st.known vendor t = .zero) (ho : st.other vendor = []) :
    (∀ tag ∈ knownTags, ((written bed attrs vendor).foldl (putEntry vendor) st).known vendor tag =
        (attrs.known vendor tag).kept) ∧
      ((written bed attrs vendor).foldl (putEntry vendor) st).other vendor =
        ((attrs.other vendor).filter fun p => !p.2.isDefaultAttr).map
          (fun p => (p.1, p.2.kept)) ∧
      ∀ v, v ≠ vendor →
        ((written bed attrs vendor).foldl (putEntry vendor) st).known v = st.known v ∧
        ((written bed attrs vendor).foldl (putEntry vendor) st).other v = st.other v := by
  have hmem : ∀ p ∈ (knownEntries attrs vendor (orderedTag bed)).filter (fun p => !p.2.isDefaultAttr),
      ∃ i ∈ knownTags, p = (.ofNat 32 i, attrs.known vendor i) := by
    intro p hp
    obtain ⟨i, hi, rfl⟩ := List.mem_map.1 (List.mem_filter.1 hp).1
    exact ⟨_, orderedTag_mem hi, rfl⟩
  obtain ⟨hother₁, hvendor₁, hknown₁⟩ := foldl_known attrs vendor st
    (l := (knownEntries attrs vendor (orderedTag bed)).filter fun p => !p.2.isDefaultAttr)
    (by
      intro p hp
      obtain ⟨i, hi, rfl⟩ := hmem p hp
      rw [(knownTag_lt hi).1]
      exact (knownTag_lt hi).2)
    (by
      intro p hp
      obtain ⟨i, hi, rfl⟩ := hmem p hp
      rw [(knownTag_lt hi).1])
  rw [written, vendorEntries, List.filter_append, List.foldl_append]
  generalize ((knownEntries attrs vendor (orderedTag bed)).filter fun p =>
    !p.2.isDefaultAttr).foldl (putEntry vendor) st = st₁ at *
  have hempty : st₁.other vendor = [] := by rw [hother₁, ho]
  obtain ⟨hknown₂, hvendor₂, hother₂⟩ := foldl_other vendor st₁
    (l := (attrs.other vendor).filter fun p => !p.2.isDefaultAttr)
    (fun p hp => (hw.other vendor p (List.mem_filter.1 hp).1).1)
    ((hw.sorted vendor).filter _)
    (by
      intro p _ q hq
      rw [hempty] at hq
      cases hq)
  refine ⟨fun tag htag => ?_, ?_, fun v hv => ⟨?_, ?_⟩⟩
  · rw [hknown₂, hknown₁]
    split_ifs with hin
    · rfl
    · -- an entry that is missing is the default
      rw [hk, ObjAttribute.kept, if_pos]
      by_contra hd
      refine hin (List.mem_map.2 ⟨(.ofNat 32 tag, attrs.known vendor tag), ?_, ?_⟩)
      · rw [List.mem_filter]
        refine ⟨(knownEntries_perm _ _ _).mem_iff.2 (List.mem_map.2 ⟨tag, htag, rfl⟩), ?_⟩
        simpa using hd
      · exact (knownTag_lt htag).1
  · rw [hother₂, hempty, List.nil_append]
  · rw [hknown₂, hvendor₁ v hv]
  · rw [hvendor₂ v hv, hother₁]

end

/-! Reading a section. -/

theorem get32At_put {n : Nat} (hr : Remains contents off (Endian.put big 4 n ++ rest)) :
    get32At big contents off = n % 2 ^ 32 := by
  rw [get32At, hr.1, List.take_append_of_le_length (by simp), List.take_of_length_le (by simp),
    Endian.get_put]
  norm_num

theorem parseSubsections_end (fuel : Nat) :
    parseSubsections big bed vendor contents fuel 0 off st = some (off, st) := by
  cases fuel with
  | zero => rfl
  | succ fuel => simp [parseSubsections]

/-- The one subsection of a vendor, which may be an empty one at the end of the section. -/
theorem parseSubsections_file (hw : attrs.WellFormed bed) {n : Nat} (fuel : Nat)
    (hn : n = 5 + (vendorBody bed attrs vendor).length) (hlt : n < 2 ^ 32)
    (hc : contents.length < 2 ^ 64) (hfree : ∀ t, st.known vendor t = .zero)
    (hr : Remains contents off ([1] ++ (Endian.put big 4 n ++ (vendorBody bed attrs vendor ++ rest)))) :
    parseSubsections big bed vendor contents (fuel + 1) n off st =
      some (off + n, (written bed attrs vendor).foldl (putEntry vendor) st) := by
  have htotal := hr.2
  simp only [List.length_append, Endian.length_put, List.length_cons, List.length_nil] at htotal
  have hone : writeUleb128 1 = [1] := by
    rw [writeUleb128, Leb128.unsigned]
    rfl
  have htag : readTag contents off contents.length = (1, 1) := by
    rw [← hone] at hr
    rw [readTag_unsigned _ hr (by rw [hone, List.length_singleton]; omega), hone]
    rfl
  have hr₁ := hr.next
  rw [List.length_singleton] at hr₁
  have hlen := get32At_put hr₁
  rw [Nat.mod_eq_of_lt hlt] at hlen
  have hr₂ := hr₁.next
  rw [Endian.length_put] at hr₂
  rw [parseSubsections, if_pos (by omega)]
  simp only [htag]
  by_cases hempty : (vendorBody bed attrs vendor ++ rest) = []
  · -- nothing is left behind the length, so it is not read
    have hnil := List.append_eq_nil_iff.1 hempty
    have hwritten := written_nil hnil.1
    rw [hnil.1, hnil.2] at htotal
    rw [hnil.1] at hn
    rw [List.length_nil] at htotal hn
    have hshort : ¬ off + 1 + 4 < contents.length := by omega
    simp only [hshort, if_false, if_true, hwritten]
    rw [hn]
    rfl
  · have hpos : 0 < (vendorBody bed attrs vendor ++ rest).length := List.length_pos_iff.2 hempty
    rw [List.length_append] at hpos
    have hlong : off + 1 + 4 < contents.length := by omega
    have hne : n ≠ 0 := by omega
    have hmod : (2 ^ 64 + n - (1 + 4)) % 2 ^ 64 = (vendorBody bed attrs vendor).length := by omega
    have hlast : min ((off + 1 + 4 + (vendorBody bed attrs vendor).length) % 2 ^ 64)
        contents.length = off + 1 + 4 + (vendorBody bed attrs vendor).length := by omega
    simp only [hlong, hlen, hne, if_true, if_false, Nat.min_self, hmod, hlast, Nat.sub_self]
    have hentries : (written bed attrs vendor).length < contents.length + 1 := by
      have hle : (written bed attrs vendor).length ≤
          ((written bed attrs vendor).flatMap attrBytes).length := by
        rw [List.length_flatMap]
        refine (List.length_map (f := fun p => (attrBytes p).length)).symm.le.trans ?_
        refine List.length_le_sum_of_one_le _ fun n hmem => ?_
        obtain ⟨p, hp, rfl⟩ := List.mem_map.1 hmem
        exact attrBytes_pos (written_default hp)
      rw [written_bytes] at hle
      omega
    rw [parseFileAttrs_entries _ hentries (fun p hp => written_default hp)
      (fun p hp => written_typed hw hp) (fun p _ _ => hfree _) (written_distinct hw)
      (by rw [written_bytes]; exact hr₂) (by rw [written_bytes])]
    simp only [Option.bind_eq_bind, Option.bind_some]
    rw [parseSubsections_end]
    congr 2
    omega

theorem vendorOf_name {name : List BfdByte} (hname : vendorObjAttrName bed vendor = some name) :
    vendorOf bed name = some vendor := by
  cases vendor with
  | proc =>
    rw [vendorObjAttrName] at hname
    rw [vendorOf, if_pos hname]
  | gnu =>
    cases hname
    rw [vendorOf, if_neg, if_pos rfl]
    exact fun h => (bed.vendor_plain gnuVendor h).2 rfl

theorem vendorName_plain {name : List BfdByte} (hname : vendorObjAttrName bed vendor = some name) :
    0 ∉ name := by
  cases vendor with
  | proc => exact (bed.vendor_plain name hname).1
  | gnu =>
    cases hname
    decide

/-- The part of a vendor, if there is one, in front of what remains. -/
theorem parseVendors_part (st : ObjAttrs) (hw : attrs.WellFormed bed) (fuel : Nat)
    (hlt : (vendorPart big bed attrs vendor).length < 2 ^ 32) (hc : contents.length < 2 ^ 64)
    (hfree : ∀ t, st.known vendor t = .zero)
    (hr : Remains contents off (vendorPart big bed attrs vendor ++ rest)) :
    ∃ fuel', fuel ≤ fuel' ∧
      parseVendors big bed contents (fuel + 1) (vendorPart big bed attrs vendor ++ rest).length
          off st =
        parseVendors big bed contents fuel' rest.length
          (off + (vendorPart big bed attrs vendor).length)
          ((written bed attrs vendor).foldl (putEntry vendor) st) := by
  cases hname : vendorObjAttrName bed vendor with
  | none =>
    have hnil : vendorPart big bed attrs vendor = [] := by
      rw [vendorPart, hname]
    rw [hnil, written_unnamed hw hname]
    exact ⟨fuel + 1, Nat.le_succ fuel, rfl⟩
  | some name =>
    by_cases hsome : vendorBody bed attrs vendor ≠ [] ∨ vendor = .proc
    · refine ⟨fuel, le_rfl, ?_⟩
      have hpart : vendorPart big bed attrs vendor = Endian.put big 4
          ((vendorBody bed attrs vendor).length + 10 + name.length) ++ (name ++ 0 :: ([1] ++
            (Endian.put big 4 (5 + (vendorBody bed attrs vendor).length) ++
              vendorBody bed attrs vendor))) := by
        have hsub : (vendorBody bed attrs vendor).length + 10 + name.length - 4 -
            (name.length + 1) = 5 + (vendorBody bed attrs vendor).length := by omega
        rw [vendorPart, hname]
        simp only [if_pos hsome, hsub]
        simp
      have hsize : (vendorPart big bed attrs vendor).length =
          (vendorBody bed attrs vendor).length + 10 + name.length := by
        rw [hpart]
        simp only [List.length_append, Endian.length_put, List.length_cons, List.length_nil]
        omega
      have htotal := hr.2
      rw [List.length_append, hsize] at htotal
      rw [List.length_append, hsize]
      rw [hsize] at hlt
      rw [hpart] at hr
      have hsplit : ∀ a b c d e : List BfdByte, a ++ (b ++ 0 :: ([1] ++ (c ++ d))) ++ e =
          a ++ (b ++ 0 :: ([1] ++ (c ++ (d ++ e)))) := by simp
      rw [hsplit] at hr
      have hlen := get32At_put hr
      rw [Nat.mod_eq_of_lt hlt] at hlen
      have hr₁ := hr.next
      rw [Endian.length_put] at hr₁
      have hstr := stringAt_eq (vendorName_plain hname) hr₁
      have hr₂ : Remains contents (off + 4 + (name.length + 1)) ([1] ++ (Endian.put big 4
          (5 + (vendorBody bed attrs vendor).length) ++ (vendorBody bed attrs vendor ++ rest))) := by
        have hsplit' : ∀ a b : List BfdByte, a ++ 0 :: b = (a ++ [0]) ++ b := by simp
        rw [hsplit'] at hr₁
        simpa using hr₁.next
      have hsub := parseSubsections_file hw contents.length rfl (by omega) hc hfree hr₂
      rw [parseVendors, if_pos (by omega)]
      simp only [hlen, hstr]
      have hmin : min ((vendorBody bed attrs vendor).length + 10 + name.length)
          ((vendorBody bed attrs vendor).length + 10 + name.length + rest.length) =
            (vendorBody bed attrs vendor).length + 10 + name.length := by omega
      have hnamelen : (min name.length ((vendorBody bed attrs vendor).length + 10 + name.length -
          4) + 1) % 2 ^ 32 = name.length + 1 := by omega
      have hleft : (vendorBody bed attrs vendor).length + 10 + name.length - 4 -
          (name.length + 1) = 5 + (vendorBody bed attrs vendor).length := by omega
      rw [if_neg (by omega), hmin, if_neg (by omega), hnamelen, if_neg (by omega), hleft,
        vendorOf_name hname]
      simp only [hsub, Option.bind_eq_bind, Option.bind_some]
      congr 1 <;> omega
    · have hnil : vendorPart big bed attrs vendor = [] := by
        rw [vendorPart, hname]
        simp only
        rw [if_neg hsome]
      have hwritten : written bed attrs vendor = [] := by
        rw [not_or, not_not] at hsome
        exact written_nil hsome.1
      rw [hnil, hwritten]
      exact ⟨fuel + 1, Nat.le_succ fuel, rfl⟩

/-- Attributes survive if the length fields can hold the length of each vendor's part. -/
theorem attributes_survive (big : Bool) (hw : attrs.WellFormed bed)
    (hfit : ∀ vendor, ∀ size, vendorObjAttrSize bed attrs vendor = some size → size < 2 ^ 32) :
    attrs.RoundTrips big bed := by
  have hproc := hfit .proc _ (vendorSize_eq big hw)
  have hgnu := hfit .gnu _ (vendorSize_eq big hw)
  have hread : ∃ read, elfParseAttributes big bed .empty (attrContents big bed attrs) =
      some read ∧ read = (written bed attrs .gnu).foldl (putEntry .gnu)
        ((written bed attrs .proc).foldl (putEntry .proc) .empty) := by
    by_cases hnil : vendorPart big bed attrs .proc ++ vendorPart big bed attrs .gnu = []
    · have hnone : ∀ vendor, vendorPart big bed attrs vendor = [] →
          written bed attrs vendor = [] := by
        intro vendor h
        cases hname : vendorObjAttrName bed vendor with
        | none => exact written_unnamed hw hname
        | some name =>
          refine written_nil ?_
          by_contra hne
          rw [vendorPart, hname] at h
          simp [hne] at h
      have hboth := List.append_eq_nil_iff.1 hnil
      refine ⟨_, ?_, rfl⟩
      rw [attrContents, if_pos hnil, hnone .proc hboth.1, hnone .gnu hboth.2]
      rfl
    · have hcontents : attrContents big bed attrs =
          [0x41] ++ (vendorPart big bed attrs .proc ++ vendorPart big bed attrs .gnu) := by
        rw [attrContents, if_neg hnil]
        rfl
      have hlen : (attrContents big bed attrs).length = 1 +
          ((vendorPart big bed attrs .proc).length + (vendorPart big bed attrs .gnu).length) := by
        rw [hcontents, List.length_append, List.length_append, List.length_singleton]
      have hc : (attrContents big bed attrs).length < 2 ^ 64 := by omega
      have hr : Remains (attrContents big bed attrs) 1
          (vendorPart big bed attrs .proc ++ vendorPart big bed attrs .gnu) := by
        have h := Blocks.remains_zero (attrContents big bed attrs)
        nth_rewrite 2 [hcontents] at h
        exact h.next
      obtain ⟨fuel, hfuel, hfirst⟩ := parseVendors_part .empty hw
        (attrContents big bed attrs).length hproc hc (fun _ => rfl) hr
      obtain ⟨fuel, rfl⟩ : ∃ f, fuel = f + 1 := ⟨fuel - 1, by omega⟩
      have hafter := foldl_written hw .proc .empty (fun _ => rfl) rfl
      have hr' := hr.next
      rw [← List.append_nil (vendorPart big bed attrs .gnu)] at hr'
      obtain ⟨fuel', -, hsecond⟩ := parseVendors_part _ hw fuel hgnu hc
        (fun t => by rw [(hafter.2.2 .gnu (by decide)).1]; rfl) hr'
      rw [List.append_nil] at hsecond
      refine ⟨_, ?_, rfl⟩
      have hhead : (attrContents big bed attrs).head? = some 0x41 := by
        rw [hcontents]
        rfl
      have hrest : (attrContents big bed attrs).length - 1 =
          (vendorPart big bed attrs .proc ++ vendorPart big bed attrs .gnu).length := by
        rw [List.length_append]
        omega
      rw [elfParseAttributes, if_neg (by omega), if_pos hhead, hrest, hfirst, hsecond]
      cases fuel' with
      | zero => rfl
      | succ fuel' => simp [parseVendors]
  obtain ⟨read, hparse, rfl⟩ := hread
  refine ⟨_, _, _, bfdElfObjAttrSize_eq big hw, rfl,
    fun hne buf hbuf => bfdElfSetObjAttrContents_eq hw hbuf hne, hparse, ?_⟩
  have hafter := foldl_written hw .proc .empty (fun _ => rfl) rfl
  obtain ⟨hk, ho⟩ := hafter.2.2 .gnu (by decide)
  have hend := foldl_written hw .gnu
    ((written bed attrs .proc).foldl (putEntry .proc) .empty)
    (fun t => by rw [hk]; rfl) (by rw [ho]; rfl)
  obtain ⟨hk', ho'⟩ := hend.2.2 .proc (by decide)
  constructor
  · intro vendor tag htag
    cases vendor with
    | proc => rw [hk', hafter.1 tag htag]
    | gnu => exact hend.1 tag htag
  · intro vendor
    cases vendor with
    | proc => rw [ho', hafter.2.1]
    | gnu => exact hend.2.1

/-- A string of the processor and a number for an unknown tag of GNU. -/
def twoAttrs : ObjAttrs where
  known v t := if v = .proc ∧ t = 5 then ⟨⟨false, true, false⟩, 0, some ⟨[0x41], by decide⟩⟩
    else .zero
  other v := if v = .gnu then [(72, ⟨⟨true, false, false⟩, 300, none⟩)] else []

theorem attributes_survive_two : twoAttrs.RoundTrips true elf32ArmAttrBackend := by
  have hw : twoAttrs.WellFormed elf32ArmAttrBackend := by
    refine ⟨?_, ?_, ?_, fun h => by cases h⟩ <;> rintro ⟨⟩ <;> decide
  have hproc : vendorObjAttrSize elf32ArmAttrBackend twoAttrs .proc = some 18 := by decide +kernel
  have hgnu : vendorObjAttrSize elf32ArmAttrBackend twoAttrs .gnu = some 16 := by decide +kernel
  refine attributes_survive true hw fun vendor size hsize => ?_
  cases vendor with
  | proc =>
    rw [hproc] at hsize
    cases hsize
    decide
  | gnu =>
    rw [hgnu] at hsize
    cases hsize
    decide

/-- Two strings for unknown tags of GNU. -/
def twoStrings (s₁ s₂ : AttrString) : ObjAttrs where
  known _ _ := .zero
  other v := if v = .gnu then
    [(73, ⟨⟨false, true, false⟩, 0, some s₁⟩), (75, ⟨⟨false, true, false⟩, 0, some s₂⟩)] else []

theorem twoStrings_wellFormed (s₁ s₂ : AttrString) :
    (twoStrings s₁ s₂).WellFormed fusionAttrBackend where
  known vendor tag htag hd := by cases hd
  other vendor p hp := by
    have htags : ∀ tag : BitVec 32, tag = 73 ∨ tag = 75 → numKnownObjAttributes ≤ tag.toNat ∧
        gnuObjAttrsArgType tag = ⟨false, true, false⟩ := by
      rintro tag (rfl | rfl) <;> decide
    cases vendor with
    | proc => cases hp
    | gnu =>
      simp only [twoStrings, if_true, List.mem_cons, List.not_mem_nil, or_false] at hp
      rcases hp with rfl | rfl
      · exact ⟨(htags 73 (.inl rfl)).1, fun _ => ⟨(htags 73 (.inl rfl)).2.symm, fun _ => rfl⟩⟩
      · exact ⟨(htags 75 (.inr rfl)).1, fun _ => ⟨(htags 75 (.inr rfl)).2.symm, fun _ => rfl⟩⟩
  sorted vendor := by
    cases vendor with
    | proc => exact List.Pairwise.nil
    | gnu => simp [twoStrings]
  proc _ := ⟨fun _ _ => rfl, fun p hp => by cases hp⟩

/-- A part of exactly 2^32 bytes is written with the length 0, and nothing is read. -/
theorem twoStrings_lost {s₁ s₂ : AttrString} (h₁ : s₁.1 ≠ [])
    (hsize : s₁.1.length + s₂.1.length + 17 = 2 ^ 32) (h₂ : s₂.1 ≠ []) :
    ¬ (twoStrings s₁ s₂).RoundTrips false fusionAttrBackend := by
  have hw := twoStrings_wellFormed s₁ s₂
  have hd : ∀ s : AttrString, s.1 ≠ [] →
      ObjAttribute.isDefaultAttr ⟨⟨false, true, false⟩, 0, some s⟩ = false := by
    intro s hs
    simp [ObjAttribute.isDefaultAttr, hs]
  have huleb : ∀ tag : BitVec 32, tag.toNat < 128 → (writeUleb128 tag).length = 1 := by
    intro tag htag
    rw [writeUleb128, Leb128.unsigned, if_pos (by omega)]
    rfl
  have hattr : ∀ (tag : BitVec 32) (s : AttrString), tag.toNat < 128 → s.1 ≠ [] →
      (attrBytes (tag, ⟨⟨false, true, false⟩, 0, some s⟩)).length = s.1.length + 2 := by
    intro tag s htag hs
    rw [attrBytes, hd s hs]
    simp only [Bool.false_eq_true, if_false, if_true, Option.elim_some, List.append_nil,
      List.length_append, huleb tag htag, List.length_singleton]
    omega
  have hknown : (knownEntries (twoStrings s₁ s₂) .gnu (orderedTag fusionAttrBackend)).flatMap
      attrBytes = [] := by
    rw [List.flatMap_eq_nil_iff]
    intro p hp
    obtain ⟨i, -, rfl⟩ := List.mem_map.1 hp
    rfl
  have hbody : (vendorBody fusionAttrBackend (twoStrings s₁ s₂) .gnu).length + 13 = 2 ^ 32 := by
    rw [vendorBody, vendorEntries, List.flatMap_append, hknown, List.nil_append]
    change ([_, _].flatMap attrBytes).length + 13 = _
    rw [List.flatMap_cons, List.flatMap_cons, List.flatMap_nil, List.append_nil,
      List.length_append, hattr 73 s₁ (by decide) h₁, hattr 75 s₂ (by decide) h₂]
    omega
  generalize hb : vendorBody fusionAttrBackend (twoStrings s₁ s₂) .gnu = body at hbody
  have hne : body ≠ [] := by
    rintro rfl
    rw [List.length_nil] at hbody
    omega
  obtain ⟨rest, hcontents⟩ : ∃ rest, attrContents false fusionAttrBackend (twoStrings s₁ s₂) =
      [0x41] ++ (Endian.put false 4 (body.length + 13) ++ rest) := by
    have hgnu : vendorPart false fusionAttrBackend (twoStrings s₁ s₂) .gnu =
        Endian.put false 4 (body.length + 13) ++ (gnuVendor ++ [0] ++ [1] ++ Endian.put false 4
          (body.length + 13 - 4 - 4) ++ body) := by
      rw [vendorPart, hb]
      simp only [vendorObjAttrName]
      rw [if_pos (.inl hne)]
      simp only [List.append_assoc]
      rfl
    rw [attrContents]
    change ∃ rest, (if [] ++ vendorPart false fusionAttrBackend (twoStrings s₁ s₂) .gnu = [] then _
      else _) = _
    rw [List.nil_append, hgnu, if_neg]
    · exact ⟨_, rfl⟩
    · intro hnil
      have hlen := congrArg List.length hnil
      simp at hlen
  rintro ⟨size, contents, read, hs, hlen, hwrite, hparse, -, hother⟩
  rw [bfdElfObjAttrSize_eq false hw, Option.some.injEq] at hs
  have hpos : (attrContents false fusionAttrBackend (twoStrings s₁ s₂)).length ≠ 0 := by
    rw [hcontents]
    simp
  subst hs
  have hbuf := hwrite hpos contents hlen
  rw [bfdElfSetObjAttrContents_eq hw hlen hpos, Option.some.injEq] at hbuf
  subst hbuf
  have hr := Blocks.remains_zero (attrContents false fusionAttrBackend (twoStrings s₁ s₂))
  nth_rewrite 2 [hcontents] at hr
  have hget := get32At_put hr.next
  rw [hbody] at hget
  have hempty : elfParseAttributes false fusionAttrBackend .empty
      (attrContents false fusionAttrBackend (twoStrings s₁ s₂)) = some .empty := by
    have hhead : (attrContents false fusionAttrBackend (twoStrings s₁ s₂)).head? = some 0x41 := by
      rw [hcontents]
      rfl
    rw [elfParseAttributes, if_neg hpos, if_pos hhead, parseVendors]
    have hzero : get32At false (attrContents false fusionAttrBackend (twoStrings s₁ s₂)) 1 = 0 :=
      hget
    simp only [hzero, if_true]
    split_ifs <;> rfl
  rw [hempty, Option.some.injEq] at hparse
  subst hparse
  have hgnu := hother .gnu
  change [] = _ at hgnu
  have hfirst : (twoStrings s₁ s₂).other .gnu =
      [(73, ⟨⟨false, true, false⟩, 0, some s₁⟩), (75, ⟨⟨false, true, false⟩, 0, some s₂⟩)] := rfl
  rw [hfirst, List.filter_cons_of_pos (by rw [Bool.not_eq_true']; exact hd s₁ h₁)] at hgnu
  cases hgnu

/-- A string of as many characters. -/
def longString (n : Nat) (h : n + 1 < 2 ^ 31) : AttrString :=
  ⟨List.replicate n 0x61, by simp, by rwa [List.length_replicate]⟩

theorem attributes_lost : ¬ AttributesSurvive := by
  intro h
  have h₁ : 2147483646 + 1 < 2 ^ 31 := by decide
  have h₂ : 2147483633 + 1 < 2 ^ 31 := by decide
  have hne : ∀ n (h : n + 1 < 2 ^ 31), 0 < n → (longString n h).1 ≠ [] := by
    intro n h hn hnil
    have hlen := congrArg List.length hnil
    rw [longString, List.length_replicate, List.length_nil] at hlen
    omega
  refine twoStrings_lost (hne _ h₁ (by decide)) ?_ (hne _ h₂ (by decide))
    (h false fusionAttrBackend _ (twoStrings_wellFormed _ _))
  rw [longString, longString, List.length_replicate, List.length_replicate]
  norm_num

end FusionBinutils.Bfd
