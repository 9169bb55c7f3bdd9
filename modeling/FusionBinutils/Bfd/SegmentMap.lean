import FusionBinutils.Lib.BitField
import FusionBinutils.Lib.Ranges
import FusionBinutils.Opcode.Encoding

/-! The sections of the loadable segments: `_bfd_elf_map_sections_to_segments` (bfd/elf.c). The
program headers of other kinds are left out. -/
namespace FusionBinutils.Bfd.SegmentMap
open FusionBinutils.Bfd Ranges

/-- `asection` -/
structure Section where
  name : String
  alloc : Bool
  load : Bool
  readonly : Bool
  threadLocal : Bool
  code : Bool
  exclude : Bool
  vma : Vma
  lma : Vma
  size : Vma
  targetIndex : Int
  deriving DecidableEq

namespace Section

def isTbss (s : Section) : Bool := s.threadLocal && !s.load

/-- .tbss sections effectively have zero size. -/
def loadSize (s : Section) : Vma := if s.isTbss then 0 else s.size

/-- The addresses a section is loaded at, counted on past the end of the address space. -/
def loadRange (s : Section) : Range := ⟨s.lma.toNat, s.loadSize.toNat⟩

/-- `TOEND` -/
def toEnd (s : Section) : Bool := !s.load && !s.threadLocal

end Section

/-- `elf_sort_sections` -/
def elfSortSections (sec1 sec2 : Section) : Int :=
  if sec1.lma < sec2.lma then -1
  else if sec1.lma > sec2.lma then 1
  else if sec1.vma < sec2.vma then -1
  else if sec1.vma > sec2.vma then 1
  else if sec1.toEnd ∧ ¬ sec2.toEnd then 1
  else if ¬ sec1.toEnd ∧ sec2.toEnd then -1
  else if sec1.toEnd ∧ sec2.toEnd ∧ sec1.targetIndex - sec2.targetIndex ≠ 0 then
    sec1.targetIndex - sec2.targetIndex
  else
    let size1 := if sec1.load then sec1.size else 0
    let size2 := if sec2.load then sec2.size else 0
    if size1 < size2 then -1
    else if size1 > size2 then 1
    else sec1.targetIndex - sec2.targetIndex

/-- What the mapping asks of the output file and its backend. -/
structure Target where
  /-- `D_PAGED` -/
  dPaged : Bool
  bedMaxpagesize : Vma

def Target.maxpagesize (t : Target) : Vma := if t.bedMaxpagesize = 0 then 1 else t.bedMaxpagesize

/-- `BFD_ALIGN` -/
def bfdAlign (this boundary : Vma) : Vma :=
  if this + boundary - 1 ≥ this then (this + (boundary - 1)) &&& ~~~(boundary - 1) else ~~~0

/-- The page of an address, by its first one. -/
def Target.page (t : Target) (x : Vma) : Vma := x &&& -t.maxpagesize

/-- Whether the section and the last one do not fit in the same segment. -/
def newSegment (t : Target) (lastHdr : Section) (lastSize : Vma) (writable : Bool)
    (hdr : Section) : Bool :=
  if lastHdr.lma - lastHdr.vma ≠ hdr.lma - hdr.vma then true
  else if hdr.lma < lastHdr.lma + lastSize ∨ lastHdr.lma + lastSize < lastHdr.lma then true
  else if bfdAlign (lastHdr.lma + lastSize) t.maxpagesize + t.maxpagesize > lastHdr.lma ∧
      bfdAlign (lastHdr.lma + lastSize) t.maxpagesize + t.maxpagesize ≤ hdr.lma then true
  else if lastHdr.toEnd ∧ ¬ hdr.toEnd ∧
      (¬ t.dPaged ∨ t.page (lastHdr.lma + lastSize - 1) ≠ t.page hdr.lma) then true
  else if ¬ t.dPaged then false
  else if ¬ writable ∧ ¬ hdr.readonly ∧
      t.page (lastHdr.lma + lastSize - 1) ≠ t.page hdr.lma then true
  else false

/-- The linker: `config.separate_code` and the region of the output section statement of a
name, if there is such a statement. -/
structure Lang (ρ : Type) where
  separateCode : Bool
  region : String → Option ρ

variable {ρ : Type} [DecidableEq ρ]

/-- `ldlang_override_segment_assignment` (ld/ldlang.c) -/
def ldlangOverrideSegmentAssignment (lang : Lang ρ) (currentSection previousSection : Section)
    (newSegment : Bool) : Bool :=
  if newSegment then true
  else if lang.separateCode ∧ currentSection.code ≠ previousSection.code then true
  else
    match lang.region currentSection.name, lang.region previousSection.name with
    | some cur, some prev => cur ≠ prev
    | _, _ => newSegment

/-- The callback, where there is a link and it has one. -/
def overridden (info : Option (Lang ρ)) (hdr lastHdr : Section) (newSegment : Bool) : Bool :=
  match info with
  | none => newSegment
  | some lang => ldlangOverrideSegmentAssignment lang hdr lastHdr newSegment

/-- A `PT_LOAD` of `struct elf_segment_map` -/
structure Segment where
  sections : List Section
  includesPhdrs : Bool
  deriving DecidableEq

/-- The variables of the loop. -/
structure Walk where
  lastHdr : Option Section
  lastSize : Vma
  writable : Bool
  /-- the sections from `phdr_index` on -/
  current : List Section
  made : List Segment
  phdrInSegment : Bool

/-- `make_mapping` -/
def Walk.makeMapping (w : Walk) : Segment := ⟨w.current, w.made.isEmpty && w.phdrInSegment⟩

def Walk.start (phdrInSegment : Bool) : Walk := ⟨none, 0, false, [], [], phdrInSegment⟩

/-- The loop body. -/
def Walk.step (t : Target) (info : Option (Lang ρ)) (w : Walk) (hdr : Section) : Walk :=
  let new :=
    match w.lastHdr with
    | none => false
    | some lastHdr =>
      overridden info hdr lastHdr (newSegment t lastHdr w.lastSize w.writable hdr)
  if !new then
    { w with
      writable := w.writable || !hdr.readonly
      lastHdr := some hdr
      lastSize := hdr.loadSize
      current := w.current ++ [hdr] }
  else {
    lastHdr := some hdr
    lastSize := hdr.loadSize
    writable := !hdr.readonly
    current := [hdr]
    made := w.made ++ [w.makeMapping]
    phdrInSegment := false }

/-- A final segment, but not if it is just for .tbss. -/
def Walk.finish (w : Walk) : List Segment :=
  match w.lastHdr with
  | none => w.made
  | some lastHdr =>
    if w.current.length ≠ 1 ∨ ¬ lastHdr.isTbss then w.made ++ [w.makeMapping] else w.made

/-- The `PT_LOAD` segments of `_bfd_elf_map_sections_to_segments`, from the sections as they are
sorted and whether the program headers go into the first segment. -/
def mapSectionsToSegments (t : Target) (info : Option (Lang ρ)) (phdrInSegment : Bool)
    (sections : List Section) : List Segment :=
  (sections.foldl (Walk.step t info) (.start phdrInSegment)).finish

/-- What `elf_modify_segment_map` does to a `PT_LOAD`, for a backend without a hook. -/
def elfModifySegmentMap (removeEmptyLoad : Bool) (l : List Segment) : List Segment :=
  l.filterMap fun m =>
    let sections := m.sections.filter fun s => !s.exclude && s.alloc
    if removeEmptyLoad ∧ sections = [] ∧ ¬ m.includesPhdrs then none
    else some { m with sections }

end FusionBinutils.Bfd.SegmentMap
