import FusionBinutils.Lib.Endian
import FusionBinutils.Lib.Leb128
import FusionBinutils.Bfd.Bytes
import Mathlib.Algebra.Group.Nat.Defs

/-! Object attributes: the section they are written to and read from (bfd/elf-attrs.c). -/
namespace FusionBinutils.Bfd

/-- The `ATTR_TYPE_FLAG` bits of a type. -/
structure AttrType where
  intVal : Bool
  strVal : Bool
  noDefault : Bool
  deriving DecidableEq

/-- What `_bfd_elf_attr_strdup` makes: its `int len` counts the NUL. -/
abbrev AttrString := { s : List BfdByte // 0 ∉ s ∧ s.length + 1 < 2 ^ 31 }

structure ObjAttribute where
  type : AttrType
  i : BitVec 32
  s : Option AttrString
  deriving DecidableEq

/-- An attribute nothing has been stored in. -/
def ObjAttribute.zero : ObjAttribute := ⟨⟨false, false, false⟩, 0, none⟩

inductive ObjAttrVendor where
  | proc
  | gnu
  deriving DecidableEq

/-- The tags from `LEAST_KNOWN_OBJ_ATTRIBUTE` to below `NUM_KNOWN_OBJ_ATTRIBUTES`. -/
def knownTags : List Nat := List.range' 2 69

def numKnownObjAttributes : Nat := 71

def tagCompatibility : BitVec 32 := 32

/-- The string "gnu". -/
def gnuVendor : List BfdByte := [0x67, 0x6e, 0x75]

/-- What a target says about its attributes. It has a name of its own for them, every tag takes
something, and the order in which the known ones are written leaves none out. -/
structure AttrBackend where
  objAttrsVendor : Option (List BfdByte)
  objAttrsArgType : BitVec 32 → AttrType
  objAttrsOrder : Option (Nat → Nat)
  vendor_plain : ∀ name ∈ objAttrsVendor, 0 ∉ name ∧ name ≠ gnuVendor
  takes_some : ∀ tag, (objAttrsArgType tag).intVal = true ∨ (objAttrsArgType tag).strVal = true
  order_perm : ∀ f ∈ objAttrsOrder, (knownTags.map f).Perm knownTags

/-- `gnu_obj_attrs_arg_type` -/
def gnuObjAttrsArgType (tag : BitVec 32) : AttrType :=
  if tag = tagCompatibility then ⟨true, true, false⟩
  else if tag &&& 1 ≠ 0 then ⟨false, true, false⟩ else ⟨true, false, false⟩

theorem gnuObjAttrsArgType_some (tag : BitVec 32) :
    (gnuObjAttrsArgType tag).intVal = true ∨ (gnuObjAttrsArgType tag).strVal = true := by
  rw [gnuObjAttrsArgType]
  split_ifs
  · exact .inl rfl
  · exact .inr rfl
  · exact .inl rfl

/-- The default, without attributes of its own. -/
def fusionAttrBackend : AttrBackend where
  objAttrsVendor := none
  objAttrsArgType := gnuObjAttrsArgType
  objAttrsOrder := none
  vendor_plain := by simp
  takes_some := gnuObjAttrsArgType_some
  order_perm := by simp

/-- `elf32_arm_obj_attrs_arg_type` -/
def elf32ArmObjAttrsArgType (tag : BitVec 32) : AttrType :=
  if tag = tagCompatibility then ⟨true, true, false⟩
  else if tag = 64 then ⟨true, false, true⟩
  else if tag = 4 ∨ tag = 5 then ⟨false, true, false⟩
  else if tag.toInt < 32 then ⟨true, false, false⟩
  else if tag &&& 1 ≠ 0 then ⟨false, true, false⟩ else ⟨true, false, false⟩

/-- `elf32_arm_obj_attrs_order` -/
def elf32ArmObjAttrsOrder (num : Nat) : Nat :=
  if num = 2 then 67
  else if num = 3 then 64
  else if num - 2 < 64 then num - 2
  else if num - 1 < 67 then num - 1
  else num

/-- The target with the most of its own: an order, and a tag without a default. -/
def elf32ArmAttrBackend : AttrBackend where
  objAttrsVendor := some [0x61, 0x65, 0x61, 0x62, 0x69]
  objAttrsArgType := elf32ArmObjAttrsArgType
  objAttrsOrder := some elf32ArmObjAttrsOrder
  vendor_plain := by
    rintro name ⟨⟩
    decide
  takes_some tag := by
    rw [elf32ArmObjAttrsArgType]
    split_ifs <;> simp
  order_perm := by
    rintro f ⟨⟩
    decide +kernel

/-- The attributes of a file: those with known tags, and the others in a list by tags. -/
structure ObjAttrs where
  known : ObjAttrVendor → Nat → ObjAttribute
  other : ObjAttrVendor → List (BitVec 32 × ObjAttribute)

def ObjAttrs.empty : ObjAttrs := ⟨fun _ _ => .zero, fun _ => []⟩

/-! Writing. -/

def uleb128Size (i : BitVec 32) : Nat := Leb128.sizeUnsigned i.toNat

def writeUleb128 (val : BitVec 32) : List BfdByte := Leb128.unsigned val.toNat

def ObjAttribute.isDefaultAttr (attr : ObjAttribute) : Bool :=
  if attr.type.intVal ∧ attr.i ≠ 0 then false
  else if attr.type.strVal ∧ attr.s.any (·.1 ≠ []) then false
  else !attr.type.noDefault

/-- The `strlen` of a null pointer is no size. -/
def objAttrSize (tag : BitVec 32) (attr : ObjAttribute) : Option Nat :=
  if attr.isDefaultAttr then some 0
  else do
    let s ← if attr.type.strVal then attr.s.map (·.1.length + 1) else some 0
    some (uleb128Size tag + (if attr.type.intVal then uleb128Size attr.i else 0) + s)

def writeObjAttribute (tag : BitVec 32) (attr : ObjAttribute) : Option (List BfdByte) :=
  if attr.isDefaultAttr then some []
  else do
    let s ← if attr.type.strVal then attr.s.map (·.1 ++ [0]) else some []
    some (writeUleb128 tag ++ (if attr.type.intVal then writeUleb128 attr.i else []) ++ s)

/-- `memcpy` into a buffer. -/
def putBytes (buf : List BfdByte) (p : Nat) (bytes : List BfdByte) : List BfdByte :=
  buf.take p ++ bytes ++ buf.drop (p + bytes.length)

section

variable (big : Bool) (bed : AttrBackend)

def vendorObjAttrName : ObjAttrVendor → Option (List BfdByte)
  | .proc => bed.objAttrsVendor
  | .gnu => some gnuVendor

def elfObjAttrsArgType : ObjAttrVendor → BitVec 32 → AttrType
  | .proc => bed.objAttrsArgType
  | .gnu => gnuObjAttrsArgType

variable (attrs : ObjAttrs)

def vendorObjAttrSize (vendor : ObjAttrVendor) : Option Nat :=
  match vendorObjAttrName bed vendor with
  | none => some 0
  | some name => do
    let known ← knownTags.mapM fun i => objAttrSize (.ofNat 32 i) (attrs.known vendor i)
    let other ← (attrs.other vendor).mapM fun p => objAttrSize p.1 p.2
    let size := known.sum + other.sum
    some (if size ≠ 0 ∨ vendor = .proc then size + 10 + name.length else 0)

def bfdElfObjAttrSize : Option Nat := do
  let size := (← vendorObjAttrSize bed attrs .proc) + (← vendorObjAttrSize bed attrs .gnu)
  some (if size ≠ 0 then size + 1 else 0)

/-- The tag that is written in the place of the `i`-th. -/
def orderedTag (i : Nat) : Nat := (bed.objAttrsOrder.getD id) i

def vendorSetObjAttrContents (size : Nat) (vendor : ObjAttrVendor) : Option (List BfdByte) := do
  let name ← vendorObjAttrName bed vendor
  let known ← knownTags.mapM fun i =>
    writeObjAttribute (.ofNat 32 (orderedTag bed i)) (attrs.known vendor (orderedTag bed i))
  let other ← (attrs.other vendor).mapM fun p => writeObjAttribute p.1 p.2
  some (Endian.put big 4 size ++ name ++ [0] ++ [1] ++
    Endian.put big 4 (size - 4 - (name.length + 1)) ++ known.flatten ++ other.flatten)

/-- One round of the loop over the vendors: the buffer, `p` and `my_size`. -/
def setVendorContents (st : List BfdByte × Nat × Nat) (vendor : ObjAttrVendor) :
    Option (List BfdByte × Nat × Nat) := do
  let (buf, p, mySize) := st
  let vendorSize ← vendorObjAttrSize bed attrs vendor
  let buf ← if vendorSize ≠ 0 then
      (vendorSetObjAttrContents big bed attrs vendorSize vendor).map (putBytes buf p)
    else some buf
  some (buf, p + vendorSize, mySize + vendorSize)

/-- `bfd_elf_set_obj_attr_contents` on a buffer, or nothing for its `abort`. -/
def bfdElfSetObjAttrContents (buf : List BfdByte) (size : Nat) : Option (List BfdByte) := do
  let (buf, _, mySize) ← [ObjAttrVendor.proc, .gnu].foldlM (setVendorContents big bed attrs)
    (putBytes buf 0 [0x41], 1, 1)
  if size ≠ mySize then none else some buf

end

/-! Reading. -/

/-- `_bfd_elf_attr_strdup`. A length beyond `int` is no length. -/
def elfAttrStrdup (text : List BfdByte) : Option AttrString :=
  if h : 0 ∉ text ∧ text.length + 1 < 2 ^ 31 then some ⟨text, h⟩ else none

/-- The search of `elf_new_obj_attr` for the place of a new tag. -/
def insertObjAttr (tag : BitVec 32) (attr : ObjAttribute) :
    List (BitVec 32 × ObjAttribute) → List (BitVec 32 × ObjAttribute)
  | [] => [(tag, attr)]
  | p :: l => if tag < p.1 then (tag, attr) :: p :: l else p :: insertObjAttr tag attr l

/-- The attribute of `elf_new_obj_attr`, with what is stored in it. -/
def ObjAttrs.store (attrs : ObjAttrs) (vendor : ObjAttrVendor) (tag : BitVec 32)
    (f : ObjAttribute → ObjAttribute) : ObjAttrs :=
  if tag.toNat < numKnownObjAttributes then
    let known := Function.update (attrs.known vendor) tag.toNat (f (attrs.known vendor tag.toNat))
    { attrs with known := Function.update attrs.known vendor known }
  else
    let other := insertObjAttr tag (f .zero) (attrs.other vendor)
    { attrs with other := Function.update attrs.other vendor other }

section

variable (big : Bool) (bed : AttrBackend) (attrs : ObjAttrs) (vendor : ObjAttrVendor)
  (tag : BitVec 32)

def bfdElfAddObjAttrInt (i : BitVec 32) : ObjAttrs :=
  attrs.store vendor tag fun attr => { attr with type := elfObjAttrsArgType bed vendor tag, i }

def bfdElfAddObjAttrString (s : AttrString) : ObjAttrs :=
  attrs.store vendor tag fun attr =>
    { attr with type := elfObjAttrsArgType bed vendor tag, s := some s }

def bfdElfAddObjAttrIntString (i : BitVec 32) (s : AttrString) : ObjAttrs :=
  attrs.store vendor tag fun _ => ⟨elfObjAttrsArgType bed vendor tag, i, some s⟩

/-- `_bfd_safe_read_leb128` at `p`, stored in an `unsigned int`, and how many bytes it took. -/
def readTag (contents : List BfdByte) (p last : Nat) : BitVec 32 × Nat :=
  let data := (contents.take last).drop p
  let r := Leb128.read 64 false data
  (.ofNat 32 r.1, data.length - r.2.length)

/-- The string at `p`. A NUL stands behind the contents. -/
def stringAt (contents : List BfdByte) (p : Nat) : List BfdByte :=
  (contents.drop p).takeWhile (· ≠ 0)

def get32At (contents : List BfdByte) (p : Nat) : Nat :=
  Endian.get big ((contents.drop p).take 4)

/-- The loop of a `Tag_File` subsection, and where it ends. Each round takes a byte at least. -/
def parseFileAttrs (contents : List BfdByte) (last : Nat) :
    Nat → Nat → ObjAttrs → Option (Nat × ObjAttrs)
  | fuel + 1, p, attrs =>
    if p < last then
      let (tag, n) := readTag contents p last
      let p := p + n
      match (elfObjAttrsArgType bed vendor tag).intVal,
        (elfObjAttrsArgType bed vendor tag).strVal with
      | true, true => do
        let (val, n) := readTag contents p last
        let p := p + n
        let s ← elfAttrStrdup (stringAt contents p)
        parseFileAttrs contents last fuel (p + (stringAt contents p).length + 1)
          (bfdElfAddObjAttrIntString bed attrs vendor tag val s)
      | false, true => do
        let s ← elfAttrStrdup (stringAt contents p)
        parseFileAttrs contents last fuel (p + (stringAt contents p).length + 1)
          (bfdElfAddObjAttrString bed attrs vendor tag s)
      | true, false =>
        let (val, n) := readTag contents p last
        parseFileAttrs contents last fuel (p + n) (bfdElfAddObjAttrInt bed attrs vendor tag val)
      | false, false => none
    else some (p, attrs)
  | 0, p, attrs => some (p, attrs)

/-- The loop over the subsections of a vendor. Lengths and pointers have 64 bits. -/
def parseSubsections (contents : List BfdByte) :
    Nat → Nat → Nat → ObjAttrs → Option (Nat × ObjAttrs)
  | fuel + 1, sectionLen, p, attrs =>
    if 0 < sectionLen ∧ p < contents.length then
      let (tag, n) := readTag contents p contents.length
      let p := p + n
      let len := if p + 4 < contents.length then get32At big contents p else 0
      let p := p + 4
      if len = 0 then some (p, attrs)
      else
        let len := min len sectionLen
        let sectionLen := sectionLen - len
        let len := (2 ^ 64 + len - (n + 4)) % 2 ^ 64
        let last := min ((p + len) % 2 ^ 64) contents.length
        if tag = 1 then do
          let (p, attrs) ← parseFileAttrs bed vendor contents last (contents.length + 1) p attrs
          parseSubsections contents fuel sectionLen p attrs
        else parseSubsections contents fuel sectionLen ((p + len) % 2 ^ 64) attrs
    else some (p, attrs)
  | 0, _, p, attrs => some (p, attrs)

/-- Whose section it is. -/
def vendorOf (name : List BfdByte) : Option ObjAttrVendor :=
  if bed.objAttrsVendor = some name then some .proc
  else if name = gnuVendor then some .gnu
  else none

/-- The loop over the vendors. -/
def parseVendors (contents : List BfdByte) : Nat → Nat → Nat → ObjAttrs → Option ObjAttrs
  | fuel + 1, len, p, attrs =>
    if 0 < len ∧ p + 4 < contents.length then
      let sectionLen := get32At big contents p
      let p := p + 4
      if sectionLen = 0 then some attrs
      else
        let sectionLen := min sectionLen len
        let len := len - sectionLen
        -- the length is too small, which is reported
        if sectionLen ≤ 4 then some attrs
        else
          let sectionLen := sectionLen - 4
          let namelen := (min (stringAt contents p).length sectionLen + 1) % 2 ^ 32
          if namelen = 0 ∨ sectionLen ≤ namelen then some attrs
          else
            let sectionLen := sectionLen - namelen
            match vendorOf bed (stringAt contents p) with
            | none => parseVendors contents fuel len (p + namelen + sectionLen) attrs
            | some vendor => do
              let (p, attrs) ← parseSubsections big bed vendor contents (contents.length + 1)
                sectionLen (p + namelen) attrs
              parseVendors contents fuel len p attrs
    else some attrs
  | 0, _, _, attrs => some attrs

/-- `_bfd_elf_parse_attributes` on the contents of the section. -/
def elfParseAttributes (contents : List BfdByte) : Option ObjAttrs :=
  if contents.length = 0 then some attrs
  else if contents.head? = some 0x41 then
    parseVendors big bed contents (contents.length + 1) (contents.length - 1) 1 attrs
  else some attrs

end

/-! What is to survive. -/

/-- The value of an attribute: nothing where it is the default, and what its type has. -/
def ObjAttribute.kept (attr : ObjAttribute) : ObjAttribute :=
  if attr.isDefaultAttr then .zero
  else ⟨attr.type, if attr.type.intVal then attr.i else 0,
    if attr.type.strVal then attr.s else none⟩

/-- The attribute is of the type its tag has, and holds the string that goes with it. -/
def ObjAttribute.Typed (bed : AttrBackend) (vendor : ObjAttrVendor) (tag : BitVec 32)
    (attr : ObjAttribute) : Prop :=
  attr.type = elfObjAttrsArgType bed vendor tag ∧ (attr.type.strVal = true → attr.s.isSome = true)

instance (bed : AttrBackend) (vendor : ObjAttrVendor) (tag : BitVec 32) (attr : ObjAttribute) :
    Decidable (attr.Typed bed vendor tag) := inferInstanceAs (Decidable (_ ∧ _))

/-- The attributes as they are stored: those that are not missing are typed, and the others are in
order. A target without a name of its own has none of its own. -/
structure ObjAttrs.WellFormed (bed : AttrBackend) (attrs : ObjAttrs) : Prop where
  known : ∀ vendor, ∀ tag ∈ knownTags, (attrs.known vendor tag).isDefaultAttr = false →
    (attrs.known vendor tag).Typed bed vendor (.ofNat 32 tag)
  other : ∀ vendor, ∀ p ∈ attrs.other vendor, numKnownObjAttributes ≤ p.1.toNat ∧
    (p.2.isDefaultAttr = false → p.2.Typed bed vendor p.1)
  sorted : ∀ vendor, (attrs.other vendor).Pairwise fun p q => p.1 ≤ q.1
  proc : bed.objAttrsVendor = none →
    (∀ tag ∈ knownTags, (attrs.known .proc tag).isDefaultAttr = true) ∧
      ∀ p ∈ attrs.other .proc, p.2.isDefaultAttr = true

/-- Every tag of every vendor has the value it had, if that was not the default. -/
def ObjAttrs.Survives (attrs read : ObjAttrs) : Prop :=
  (∀ vendor, ∀ tag ∈ knownTags, read.known vendor tag = (attrs.known vendor tag).kept) ∧
    ∀ vendor, read.other vendor = ((attrs.other vendor).filter fun p => !p.2.isDefaultAttr).map
      fun p => (p.1, p.2.kept)

/-- The section has the size that was announced, every byte of it is written, and what is read
from it are the attributes. Without a size there is no section. -/
def ObjAttrs.RoundTrips (big : Bool) (bed : AttrBackend) (attrs : ObjAttrs) : Prop :=
  ∃ size contents read, bfdElfObjAttrSize bed attrs = some size ∧ contents.length = size ∧
    (size ≠ 0 → ∀ buf : List BfdByte, buf.length = size →
      bfdElfSetObjAttrContents big bed attrs buf size = some contents) ∧
    elfParseAttributes big bed .empty contents = some read ∧ attrs.Survives read

/-- Attributes of any size survive. -/
def AttributesSurvive : Prop :=
  ∀ (big : Bool) (bed : AttrBackend) (attrs : ObjAttrs), attrs.WellFormed bed →
    attrs.RoundTrips big bed

end FusionBinutils.Bfd
