import FusionBinutils.Lib.Blocks
import FusionBinutils.Lib.Cells
import FusionBinutils.Bfd.ObjAttrs
import Mathlib.Algebra.BigOperators.Group.List.Basic

/-! What is written for the attributes of a file. -/
namespace FusionBinutils.Bfd

open scoped List

variable {big : Bool} {bed : AttrBackend} {attrs : ObjAttrs} {vendor : ObjAttrVendor}
  {tag : BitVec 32} {attr : ObjAttribute}

/-- The bytes of an attribute. -/
def attrBytes (p : BitVec 32 × ObjAttribute) : List BfdByte :=
  if p.2.isDefaultAttr then []
  else writeUleb128 p.1 ++ (if p.2.type.intVal then writeUleb128 p.2.i else []) ++
    (if p.2.type.strVal then (p.2.s.elim [] fun s => s.1 ++ [0]) else [])

/-- An attribute that is written has its string. -/
def Writable (attr : ObjAttribute) : Prop :=
  attr.isDefaultAttr = false → attr.type.strVal = true → attr.s.isSome = true

theorem writeObjAttribute_eq (h : Writable attr) :
    writeObjAttribute tag attr = some (attrBytes (tag, attr)) := by
  rw [writeObjAttribute, attrBytes]
  cases hd : attr.isDefaultAttr with
  | true => rfl
  | false =>
    cases hs : attr.type.strVal with
    | false => rfl
    | true =>
      obtain ⟨s, hs'⟩ := Option.isSome_iff_exists.1 (h hd hs)
      simp [hs']

theorem objAttrSize_eq (h : Writable attr) :
    objAttrSize tag attr = some (attrBytes (tag, attr)).length := by
  have huleb (v : BitVec 32) : (writeUleb128 v).length = uleb128Size v :=
    Leb128.length_unsigned v.toNat
  rw [objAttrSize, attrBytes]
  cases hd : attr.isDefaultAttr with
  | true => rfl
  | false =>
    cases hs : attr.type.strVal with
    | false =>
      cases hi : attr.type.intVal <;> simp [huleb]
    | true =>
      obtain ⟨s, hs'⟩ := Option.isSome_iff_exists.1 (h hd hs)
      cases hi : attr.type.intVal <;> simp [huleb, hs', Nat.add_assoc]

/-- The known attributes of a vendor in the order of their tags `f`. -/
def knownEntries (attrs : ObjAttrs) (vendor : ObjAttrVendor) (f : Nat → Nat) :
    List (BitVec 32 × ObjAttribute) :=
  knownTags.map fun i => (.ofNat 32 (f i), attrs.known vendor (f i))

/-- All attributes of a vendor as they are written. -/
def vendorEntries (bed : AttrBackend) (attrs : ObjAttrs) (vendor : ObjAttrVendor) :
    List (BitVec 32 × ObjAttribute) :=
  knownEntries attrs vendor (orderedTag bed) ++ attrs.other vendor

def vendorBody (bed : AttrBackend) (attrs : ObjAttrs) (vendor : ObjAttrVendor) : List BfdByte :=
  (vendorEntries bed attrs vendor).flatMap attrBytes

theorem orderedTag_perm (bed : AttrBackend) : knownTags.map (orderedTag bed) ~ knownTags := by
  cases hf : bed.objAttrsOrder with
  | none =>
    have hid : orderedTag bed = id := by
      funext i
      rw [orderedTag, hf]
      rfl
    rw [hid, List.map_id]
  | some f =>
    have hord : orderedTag bed = f := by
      funext i
      rw [orderedTag, hf]
      rfl
    rw [hord]
    exact bed.order_perm f (by rw [hf]; rfl)

theorem orderedTag_mem {i : Nat} (hi : i ∈ knownTags) : orderedTag bed i ∈ knownTags :=
  (orderedTag_perm bed).mem_iff.1 (List.mem_map_of_mem hi)

theorem knownEntries_perm (bed : AttrBackend) (attrs : ObjAttrs) (vendor : ObjAttrVendor) : knownEntries attrs vendor (orderedTag bed) ~
    knownEntries attrs vendor id := by
  have h := (orderedTag_perm bed).map fun t => (BitVec.ofNat 32 t, attrs.known vendor t)
  rw [List.map_map] at h
  exact h

section

variable (hw : attrs.WellFormed bed)

include hw

theorem writable_known {i : Nat} (hi : i ∈ knownTags) : Writable (attrs.known vendor i) :=
  fun hd => (hw.known vendor i hi hd).2

theorem writable_other {p : BitVec 32 × ObjAttribute} (hp : p ∈ attrs.other vendor) :
    Writable p.2 := fun hd => ((hw.other vendor p hp).2 hd).2

theorem vendorSetObjAttrContents_eq {name : List BfdByte}
    (hname : vendorObjAttrName bed vendor = some name) (size : Nat) :
    vendorSetObjAttrContents big bed attrs size vendor = some (Endian.put big 4 size ++ name ++
      [0] ++ [1] ++ Endian.put big 4 (size - 4 - (name.length + 1)) ++
        vendorBody bed attrs vendor) := by
  have hknown := Cells.mapM_eq_map (l := knownTags)
    (f := fun i => writeObjAttribute (.ofNat 32 (orderedTag bed i))
      (attrs.known vendor (orderedTag bed i)))
    fun i hi => writeObjAttribute_eq (writable_known hw (orderedTag_mem hi))
  have hother := Cells.mapM_eq_map (l := attrs.other vendor)
    (f := fun p => writeObjAttribute p.1 p.2)
    fun p hp => writeObjAttribute_eq (writable_other hw hp)
  rw [vendorSetObjAttrContents, hname]
  simp only [Option.bind_eq_bind, Option.bind_some, hknown, hother]
  rw [vendorBody, vendorEntries, List.flatMap_append, knownEntries, List.flatMap_map,
    List.append_assoc _ (List.flatten _) (List.flatten _), List.flatMap_def, List.flatMap_def]

/-- The size of a vendor's part is what is written for it, with ten bytes and the name around. -/
theorem vendorObjAttrSize_eq {name : List BfdByte}
    (hname : vendorObjAttrName bed vendor = some name) :
    vendorObjAttrSize bed attrs vendor = some (if (vendorBody bed attrs vendor).length ≠ 0 ∨
      vendor = .proc then (vendorBody bed attrs vendor).length + 10 + name.length else 0) := by
  have hknown := Cells.mapM_eq_map (l := knownTags)
    (f := fun i => objAttrSize (.ofNat 32 i) (attrs.known vendor i))
    fun i hi => objAttrSize_eq (writable_known hw hi)
  have hother := Cells.mapM_eq_map (l := attrs.other vendor) (f := fun p => objAttrSize p.1 p.2)
    fun p hp => objAttrSize_eq (writable_other hw hp)
  have hbody : (vendorBody bed attrs vendor).length =
      (knownTags.map fun i => (attrBytes (.ofNat 32 i, attrs.known vendor i)).length).sum +
        ((attrs.other vendor).map fun p => (attrBytes p).length).sum := by
    have hperm := ((knownEntries_perm bed attrs vendor).map
      fun p => (attrBytes p).length).sum_eq
    rw [vendorBody, vendorEntries, List.flatMap_append, List.length_append, List.length_flatMap,
      List.length_flatMap, hperm, knownEntries, List.map_map]
    rfl
  rw [vendorObjAttrSize, hname]
  simp only [Option.bind_eq_bind, Option.bind_some, hknown, hother]
  rw [hbody]

end

/-- The part of a vendor as it is written, if there is one. -/
def vendorPart (big : Bool) (bed : AttrBackend) (attrs : ObjAttrs) (vendor : ObjAttrVendor) :
    List BfdByte :=
  match vendorObjAttrName bed vendor with
  | none => []
  | some name =>
    if vendorBody bed attrs vendor ≠ [] ∨ vendor = .proc then
      let size := (vendorBody bed attrs vendor).length + 10 + name.length
      Endian.put big 4 size ++ name ++ [0] ++ [1] ++
        Endian.put big 4 (size - 4 - (name.length + 1)) ++ vendorBody bed attrs vendor
    else []

theorem vendorSize_eq (big : Bool) (hw : attrs.WellFormed bed) :
    vendorObjAttrSize bed attrs vendor = some (vendorPart big bed attrs vendor).length := by
  rw [vendorPart]
  cases hname : vendorObjAttrName bed vendor with
  | none =>
    rw [vendorObjAttrSize, hname]
    rfl
  | some name =>
    rw [vendorObjAttrSize_eq hw hname]
    simp only [ne_eq, List.length_eq_zero_iff]
    split_ifs
    · simp only [List.length_append, Endian.length_put, List.length_cons, List.length_nil]
      congr 1
      omega
    · rfl

/-- A part goes to the place that has been left for it. -/
theorem putBytes_append {done rest bytes : List BfdByte} :
    putBytes (done ++ rest) done.length bytes = (done ++ bytes) ++ rest.drop bytes.length := by
  rw [putBytes, List.take_left, ← List.drop_drop, List.drop_left]

theorem setVendorContents_eq (big : Bool) (vendor : ObjAttrVendor) (hw : attrs.WellFormed bed)
    (done rest : List BfdByte) (n : Nat) :
    setVendorContents big bed attrs (done ++ rest, done.length, n) vendor =
      some ((done ++ vendorPart big bed attrs vendor) ++
          rest.drop (vendorPart big bed attrs vendor).length,
        (done ++ vendorPart big bed attrs vendor).length,
        n + (vendorPart big bed attrs vendor).length) := by
  rw [setVendorContents, vendorSize_eq big hw]
  simp only [Option.bind_eq_bind, Option.bind_some]
  by_cases hnil : vendorPart big bed attrs vendor = []
  · simp [hnil]
  · have hpos : (vendorPart big bed attrs vendor).length ≠ 0 := by
      rwa [ne_eq, List.length_eq_zero_iff]
    have hpart : vendorSetObjAttrContents big bed attrs
        (vendorPart big bed attrs vendor).length vendor = some (vendorPart big bed attrs vendor) := by
      cases hname : vendorObjAttrName bed vendor with
      | none =>
        rw [vendorPart, hname] at hnil
        exact absurd rfl hnil
      | some name =>
        rw [vendorSetObjAttrContents_eq hw hname]
        rw [vendorPart, hname] at hnil ⊢
        simp only at hnil ⊢
        split_ifs at hnil ⊢ with hsome
        · have hlen : (Endian.put big 4 ((vendorBody bed attrs vendor).length + 10 + name.length) ++
              name ++ [0] ++ [1] ++ Endian.put big 4 ((vendorBody bed attrs vendor).length + 10 +
                name.length - 4 - (name.length + 1)) ++ vendorBody bed attrs vendor).length =
              (vendorBody bed attrs vendor).length + 10 + name.length := by
            simp only [List.length_append, Endian.length_put, List.length_cons, List.length_nil]
            omega
          rw [hlen]
        · exact absurd rfl hnil
    rw [if_pos hpos, hpart, Option.map_some, putBytes_append, List.length_append]
    rfl

/-- The contents of the section. -/
def attrContents (big : Bool) (bed : AttrBackend) (attrs : ObjAttrs) : List BfdByte :=
  let parts := vendorPart big bed attrs .proc ++ vendorPart big bed attrs .gnu
  if parts = [] then [] else 0x41 :: parts

theorem bfdElfObjAttrSize_eq (big : Bool) (hw : attrs.WellFormed bed) :
    bfdElfObjAttrSize bed attrs = some (attrContents big bed attrs).length := by
  rw [bfdElfObjAttrSize, vendorSize_eq big hw, vendorSize_eq big hw, attrContents]
  simp only [Option.bind_eq_bind, Option.bind_some, ← List.length_append]
  generalize vendorPart big bed attrs .proc ++ vendorPart big bed attrs .gnu = parts
  cases parts with
  | nil => rfl
  | cons b parts => simp

/-- Every byte of the buffer is written, and none behind it. -/
theorem bfdElfSetObjAttrContents_eq (hw : attrs.WellFormed bed) {buf : List BfdByte}
    (hbuf : buf.length = (attrContents big bed attrs).length)
    (hne : (attrContents big bed attrs).length ≠ 0) :
    bfdElfSetObjAttrContents big bed attrs buf (attrContents big bed attrs).length =
      some (attrContents big bed attrs) := by
  have hparts : attrContents big bed attrs =
      0x41 :: (vendorPart big bed attrs .proc ++ vendorPart big bed attrs .gnu) := by
    by_cases hnil : vendorPart big bed attrs .proc ++ vendorPart big bed attrs .gnu = []
    · rw [attrContents, if_pos hnil] at hne
      exact absurd rfl hne
    · rw [attrContents, if_neg hnil]
  rw [hparts] at hbuf ⊢
  rw [List.length_cons, List.length_append] at hbuf
  have hstart : putBytes buf 0 [0x41] = [0x41] ++ buf.drop 1 := by
    rw [putBytes]
    simp
  have hlen : (buf.drop 1).length = (vendorPart big bed attrs .proc).length +
      (vendorPart big bed attrs .gnu).length := by
    rw [List.length_drop]
    omega
  generalize buf.drop 1 = rest at hlen hstart
  have hproc := setVendorContents_eq big .proc hw [0x41] rest 1
  have hgnu := setVendorContents_eq big .gnu hw
    ([0x41] ++ vendorPart big bed attrs .proc)
    (rest.drop (vendorPart big bed attrs .proc).length)
    (1 + (vendorPart big bed attrs .proc).length)
  have hrest : (rest.drop (vendorPart big bed attrs .proc).length).drop
      (vendorPart big bed attrs .gnu).length = [] := by
    rw [List.drop_drop]
    exact List.drop_of_length_le (by omega)
  rw [hrest, List.append_nil] at hgnu
  have hone : ([0x41] : List BfdByte).length = 1 := rfl
  rw [hone] at hproc
  rw [bfdElfSetObjAttrContents, hstart]
  simp only [List.foldlM_cons, List.foldlM_nil, Option.bind_eq_bind, hproc, Option.bind_some, hgnu,
    Option.pure_def]
  rw [if_neg]
  · simp
  · simp only [List.length_cons, List.length_append, not_not]
    omega

end FusionBinutils.Bfd
