import FusionBinutils.Bfd.Bytes

/-! Generic relocation of section contents (reloc.c). A C `abort` is `none`. -/
namespace FusionBinutils.Bfd

/-- `bfd_reloc_status_type`, in the order of the enumeration. -/
inductive RelocStatus where
  | ok | overflow | outofrange | continued | notsupported | other | undefined | dangerous
  deriving DecidableEq, Repr

/-- The number C gives the enumerator; `fusion_elf_relocate_section` returns one as a boolean. -/
def RelocStatus.toInt : RelocStatus → Int
  | .ok => 0
  | .overflow => 1
  | .outofrange => 2
  | .continued => 3
  | .notsupported => 4
  | .other => 5
  | .undefined => 6
  | .dangerous => 7

/-- `enum complain_overflow`. -/
inductive ComplainOverflow where
  | dont | bitfield | signed | unsigned
  deriving DecidableEq, Repr

/-- `reloc_howto_type`, without the `special_function` that no routine here calls. -/
structure RelocHowto where
  type : Nat
  rightshift : Nat
  size : Int
  bitsize : Nat
  pcRelative : Bool
  bitpos : Nat
  complainOnOverflow : ComplainOverflow
  name : String
  partialInplace : Bool
  srcMask : Vma
  dstMask : Vma
  pcrelOffset : Bool
  deriving DecidableEq, Repr

/-- The output section of an input section: the absolute section is where discarded input
sections are sent. -/
inductive OutputSection where
  | abs
  | mapped (vma : Vma)
  deriving DecidableEq, Repr

def OutputSection.vma : OutputSection → Vma
  | .abs => 0
  | .mapped vma => vma

/-- The kinds of `sec_info_type` that `discarded_section` tells apart. -/
inductive SecInfoType where
  | none | merge | justSyms | other
  deriving DecidableEq, Repr

/-- The fields of `asection` that relocation reads. ELF32 section headers hold 32-bit sizes. -/
structure Asection where
  name : String
  isAbs : Bool
  merge : Bool
  debugging : Bool
  secInfoType : SecInfoType
  outputSection : Option OutputSection
  outputOffset : Vma
  size : Vma
  rawsize : Vma
  size_lt : size.toNat < 2 ^ 32
  rawsize_lt : rawsize.toNat < 2 ^ 32
  deriving DecidableEq

def Asection.outputVma (sec : Asection) : Vma := (sec.outputSection.map OutputSection.vma).getD 0

/-- `sec_addr`. -/
def Asection.secAddr (sec : Asection) : Vma := sec.outputVma + sec.outputOffset

def Asection.discarded (sec : Asection) : Bool :=
  !sec.isAbs && sec.outputSection == some .abs && sec.secInfoType != .merge &&
    sec.secInfoType != .justSyms

/-- `bfd_get_section_limit_octets` of a BFD open for reading. -/
def Asection.limitOctets (sec : Asection) : Vma := if sec.rawsize ≠ 0 then sec.rawsize else sec.size

theorem Asection.limitOctets_lt (sec : Asection) : sec.limitOctets.toNat < 2 ^ 32 := by
  unfold Asection.limitOctets
  split
  · exact sec.rawsize_lt
  · exact sec.size_lt

def bfdGetRelocSize (howto : RelocHowto) : Option Nat :=
  match howto.size with
  | 0 => some 1
  | 1 => some 2
  | 2 => some 4
  | 3 => some 0
  | 4 => some 8
  | 8 => some 16
  | -1 => some 2
  | -2 => some 4
  | _ => none

/-- `N_ONES`. -/
def nOnes (n : Nat) : Vma := (((1#64 <<< (n - 1)) - 1) <<< 1) ||| 1

/-- `reloc_offset_in_range` for a field of the given number of octets. -/
def relocOffsetInRange (relocSize : Nat) (sec : Asection) (octet : Vma) : Bool :=
  decide (octet ≤ sec.limitOctets ∧ octet + BitVec.ofNat 64 relocSize ≤ sec.limitOctets)

/-- The overflow part of `_bfd_relocate_contents`: `x` is the field as found. -/
def relocateContentsOverflow (bitsPerAddress : Nat) (howto : RelocHowto) (relocation x : Vma) :
    RelocStatus :=
  let fieldmask := nOnes howto.bitsize
  let addrmask := nOnes bitsPerAddress ||| (fieldmask <<< howto.rightshift)
  let a := (relocation &&& addrmask) >>> howto.rightshift
  let b := (x &&& howto.srcMask &&& addrmask) >>> howto.bitpos
  let addrmask := addrmask >>> howto.rightshift
  let signedCheck (signmask : Vma) : RelocStatus :=
    let ss := a &&& signmask
    let s := ((~~~howto.srcMask >>> 1) &&& howto.srcMask) >>> howto.bitpos
    let b := (b ^^^ s) - s
    let sum := a + b
    if ss ≠ 0 ∧ ss ≠ (addrmask &&& signmask) then .overflow
    else if (~~~(a ^^^ b) &&& (a ^^^ sum) &&& signmask &&& addrmask) ≠ 0 then .overflow
    else .ok
  match howto.complainOnOverflow with
  | .dont => .ok
  | .signed => signedCheck (~~~(fieldmask >>> 1))
  | .bitfield => signedCheck (~~~fieldmask)
  | .unsigned =>
    let sum := (a + b) &&& addrmask
    if ((a ||| b ||| sum) &&& ~~~fieldmask) ≠ 0 then .overflow else .ok

/-- The field of `x` after the relocation has been added under the masks. -/
def relocateContentsField (howto : RelocHowto) (relocation x : Vma) : Vma :=
  let relocation := (relocation >>> howto.rightshift) <<< howto.bitpos
  (x &&& ~~~howto.dstMask) ||| (((x &&& howto.srcMask) + relocation) &&& howto.dstMask)

/-- Addresses of the fusion architecture have 32 bits (cpu-fusion.c). -/
def bfdArchBitsPerAddress : Nat := 32

/-- `_bfd_relocate_contents`. -/
def bfdRelocateContents (howto : RelocHowto) (relocation : Vma) (c : Contents) (location : Vma) :
    Option (RelocStatus × Contents) :=
  let relocation := if howto.size < 0 then -relocation else relocation
  let go (get : Contents → Vma → Vma) (put : Vma → Contents → Vma → Contents) :=
    let x := get c location
    some (relocateContentsOverflow bfdArchBitsPerAddress howto relocation x,
      put (relocateContentsField howto relocation x) c location)
  match bfdGetRelocSize howto with
  | some 0 => some (.ok, c)
  | some 1 => go bfdGet8 bfdPut8
  | some 2 => go bfdGetb16 bfdPutb16
  | some 4 => go bfdGetb32 bfdPutb32
  | some 8 => go bfdGetb64 bfdPutb64
  | _ => none

/-- `_bfd_final_link_relocate`; fusion addresses count octets. -/
def bfdFinalLinkRelocate (howto : RelocHowto) (sec : Asection) (c : Contents)
    (address value addend : Vma) : Option (RelocStatus × Contents) := do
  let size ← bfdGetRelocSize howto
  if relocOffsetInRange size sec address then
    let relocation := value + addend
    let relocation :=
      if howto.pcRelative then
        let relocation := relocation - sec.secAddr
        if howto.pcrelOffset then relocation - address else relocation
      else relocation
    bfdRelocateContents howto relocation c address
  else
    some (.outofrange, c)

/-- `_bfd_clear_contents`. -/
def bfdClearContents (howto : RelocHowto) (sec : Asection) (c : Contents) (location : Vma) :
    Option Contents :=
  let go (get : Contents → Vma → Vma) (put : Vma → Contents → Vma → Contents) :=
    let x := get c location &&& ~~~howto.dstMask
    -- a zero would end a range list, so its placeholder is 1
    let x := if sec.name = ".debug_ranges" ∧ howto.dstMask &&& 1 ≠ 0 then x ||| 1 else x
    some (put x c location)
  match bfdGetRelocSize howto with
  | some 0 => some c
  | some 1 => go bfdGet8 bfdPut8
  | some 2 => go bfdGetb16 bfdPutb16
  | some 4 => go bfdGetb32 bfdPutb32
  | some 8 => go bfdGetb64 bfdPutb64
  | _ => none

end FusionBinutils.Bfd
