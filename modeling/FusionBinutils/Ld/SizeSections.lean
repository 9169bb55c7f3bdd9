import FusionBinutils.Ld.Ldexp
import Mathlib.Logic.Function.Basic

/-! A pass that sets the sizes and the addresses of the output sections (ld/ldlang.c). Relaxation
(which changes the sizes of the input sections beforehand) and the list of the padding statements
are left out. -/
namespace FusionBinutils.Ld.Layout

def SEC_ALLOC : BitVec 32 := 0x001
def SEC_LOAD : BitVec 32 := 0x002
def SEC_READONLY : BitVec 32 := 0x008
def SEC_CODE : BitVec 32 := 0x010
def SEC_DATA : BitVec 32 := 0x020
def SEC_THREAD_LOCAL : BitVec 32 := 0x400
def SEC_COFF_SHARED_LIBRARY : BitVec 32 := 0x4000000

def DEFAULT_MEMORY_REGION : String := "*default*"

def Asection.alloc (s : Asection) : Bool := s.flags &&& SEC_ALLOC ≠ 0

def Asection.load (s : Asection) : Bool := s.flags &&& SEC_LOAD ≠ 0

/-- `IS_TBSS`. -/
def Asection.isTbss (s : Asection) : Bool :=
  s.flags &&& (SEC_LOAD ||| SEC_THREAD_LOCAL) = SEC_THREAD_LOCAL

/-- `IGNORE_SECTION`. -/
def Asection.ignore (s : Asection) : Bool := !s.alloc || s.isTbss

/-- `enum section_type`. -/
inductive SectionType
  | normal | overlay | noload | noalloc
  deriving DecidableEq

/-- What `size_input_section` reads of an input section. -/
structure InputSection where
  vma : Vma
  size : Vma
  alignmentPower : Nat
  exclude : Bool
  justSyms : Bool

/-- The data statements. -/
inductive DataType
  | byte | short | long | quad | squad

def DataType.size : DataType → Vma
  | .byte => 1
  | .short => 2
  | .long => 4
  | .quad | .squad => 8

inductive AssignClass
  | assign | provide | provided
  deriving DecidableEq

/-- An expression that is an assignment, or an assertion. -/
inductive Assignment
  | dot (src : Etree)
  | symbol (nodeClass : AssignClass) (dst : String) (src : Etree)
  | assert (child : Etree)

/-- A statement of an output section. -/
inductive Child
  | constructors (children : List Child)
  | wild (children : List Child)
  | group (children : List Child)
  | data (type : DataType) (exp : Etree)
  | reloc (size : Vma)
  | inputSection (i : InputSection)
  | assignment (a : Assignment)
  | other

/-- `lang_output_section_statement_type`. -/
structure OutputSection where
  id : Nat
  name : String
  hasBfdSection : Bool
  isAbs : Bool
  addrTree : Option Etree
  loadBase : Option Etree
  updateDotTree : Option Etree
  lmaRegion : Option String
  blockValue : BitVec 32
  subsectionAlignment : Option Nat
  sectionAlignment : Int
  constraint : Int
  sectype : SectionType
  ignored : Bool
  alignLmaWithInput : Bool

/-- A statement outside of the output sections. -/
inductive Statement
  | outputSection (os : OutputSection) (children : List Child)
  | assignment (a : Assignment)
  | other

def State.setSection (st : State) (os : Nat) (f : Asection → Asection) : State :=
  { st with sections := Function.update st.sections os (f (st.sections os)) }

def State.setRegion (st : State) (r : String) (f : MemoryRegion → MemoryRegion) : State :=
  { st with regions := Function.update st.regions r (f (st.regions r)) }

def State.report (st : State) (r : Report) : State := { st with reports := st.reports ++ [r] }

def OutputSection.sect (os : OutputSection) : Section' := if os.isAbs then .abs else .out os.id

/-- The value of an expression as an address: a plain number is relative to the section `base`. -/
def EtreeValue.address (st : State) (base : Section') (v : EtreeValue) : Vma :=
  v.value + st.vma (v.sect.getD base)

/-- The assignment to the location counter, in `exp_fold_tree_1`. -/
def assignDot (cfg : Config) (phase : LangPhase) (sect : Section') (dot : Vma) (src : Etree)
    (st : State) : Option (Vma × State) :=
  if phase = .first then some (dot, st)
  else
    (foldTree cfg st ⟨phase, sect, dot, true⟩ src ⟨st.dataseg, none⟩).bind fun p =>
      let st := { st with dataseg := p.2.dataseg }
      p.1.elim (if phase = .mark then some (dot, st) else none) fun v =>
        if phase ≠ .final || sect = .abs then
          let nextdot := v.address st sect
          if nextdot < dot && sect ≠ .abs then none else some (nextdot, st)
        else some (dot, st)

/-- PROVIDE defines a symbol that is referred to and has no definition but the linker's. -/
def State.provides (st : State) (dst : String) : Bool :=
  (st.symbols dst).elim (st.referenced dst) fun v => v.linkerDef || v.provided

/-- The assignment to a symbol, in `exp_fold_tree_1`. -/
def assignSymbol (cfg : Config) (phase : LangPhase) (sect : Section') (dot : Vma)
    (nodeClass : AssignClass) (dst : String) (src : Etree) (st : State) : Option State :=
  if nodeClass = .provide && !st.provides dst then some st
  else
    (foldTree cfg st ⟨phase, sect, dot, false⟩ src ⟨st.dataseg, some dst⟩).map fun p =>
      let st := { st with dataseg := p.2.dataseg }
      p.1.elim st fun v =>
        if phase = .final || p.2.assignName.isSome then
          { st with
            symbols := Function.update st.symbols dst (some {
              value := v.value
              sect := v.sect.getD sect
              iteration := some st.iteration
              linkerDef := false
              provided := nodeClass ≠ .assign }) }
        else st

/-- `exp_fold_tree` of an assignment. -/
def foldAssignment (cfg : Config) (phase : LangPhase) (sect : Section') (dot : Vma)
    (a : Assignment) (st : State) : Option (Vma × State) :=
  match a with
  | .dot src => assignDot cfg phase sect dot src st
  | .symbol nodeClass dst src =>
    (assignSymbol cfg phase sect dot nodeClass dst src st).map fun st => (dot, st)
  | .assert child => (expFoldTree cfg phase st sect dot child).map fun p => (dot, p.2)

/-- The size of the section is set so that it ends at `dot`. -/
def State.endsAt (cfg : Config) (os : OutputSection) (dot : Vma) (st : State) : State :=
  st.setSection os.id fun o => { o with size := cfg.toSize (dot - o.vma) }

/-- `insert_pad`, of so many addresses. -/
def insertPad (cfg : Config) (os : OutputSection) (dot addresses : Vma) (st : State) : State :=
  st.endsAt cfg os (dot + cfg.toAddr (cfg.toSize addresses))

/-- `size_input_section`. -/
def sizeInputSection (cfg : Config) (os : OutputSection) (i : InputSection) (dot : Vma)
    (st : State) : Vma × State :=
  if i.justSyms || i.exclude || os.ignored then (dot, st)
  else
    let alignmentPower := os.subsectionAlignment.getD i.alignmentPower
    let st := st.setSection os.id fun o =>
      { o with alignmentPower := max o.alignmentPower alignmentPower }
    let alignmentNeeded := alignPower dot alignmentPower - dot
    let st := if alignmentNeeded ≠ 0 then insertPad cfg os dot alignmentNeeded st else st
    let dot := dot + alignmentNeeded + cfg.toAddr i.size
    (dot, st.endsAt cfg os dot)

/-- The assignment statement in an output section: a dot that moves leaves a pad. -/
def sizeAssignment (cfg : Config) (phase : LangPhase) (os : OutputSection) (a : Assignment)
    (dot : Vma) (st : State) : Option (Vma × State) :=
  (foldAssignment cfg phase os.sect dot a st).map fun p =>
    let newdot := p.1
    let st := p.2
    if os.ignored then (dot, st)
    else if newdot ≠ dot then
      let st := insertPad cfg os dot (newdot - dot) st
      if os.sectype ≠ .noalloc && (os.sectype ≠ .noload || cfg.elf) then
        (newdot, st.setSection os.id fun o => { o with flags := o.flags ||| SEC_ALLOC })
      else (newdot, st)
    else (newdot, st)

mutual
/-- `lang_size_sections_1`, of a statement of an output section. -/
def sizeChild (cfg : Config) (phase : LangPhase) (os : OutputSection) :
    Child → Vma → State → Option (Vma × State)
  | .constructors children, dot, st => sizeChildren cfg phase os children dot st
  | .wild children, dot, st => sizeChildren cfg phase os children dot st
  | .group children, dot, st => sizeChildren cfg phase os children dot st
  | .data type exp, dot, st =>
    (expFoldTree cfg phase st .abs dot exp).map fun p =>
      let size := if type.size < cfg.toSize 1 then cfg.toSize 1 else type.size
      let dot := dot + cfg.toAddr size
      (dot, p.2.endsAt cfg os dot)
  | .reloc size, dot, st =>
    let dot := dot + cfg.toAddr size
    some (dot, st.endsAt cfg os dot)
  | .inputSection i, dot, st => some (sizeInputSection cfg os i dot st)
  | .assignment a, dot, st => sizeAssignment cfg phase os a dot st
  | .other, dot, st => some (dot, st)

def sizeChildren (cfg : Config) (phase : LangPhase) (os : OutputSection) :
    List Child → Vma → State → Option (Vma × State)
  | [], dot, st => some (dot, st)
  | c :: rest, dot, st =>
    (sizeChild cfg phase os c dot st).bind fun p => sizeChildren cfg phase os rest p.1 p.2
end

/-- `lang_memory_region_lookup (DEFAULT_MEMORY_REGION, FALSE)`. -/
def State.lookupDefault (st : State) : State :=
  if DEFAULT_MEMORY_REGION ∈ st.regionList then st
  else { st with regionList := st.regionList ++ [DEFAULT_MEMORY_REGION] }

/-- `lang_memory_default`. -/
def memoryDefault (secFlags : BitVec 32) (st : State) : String × State :=
  let secFlags :=
    if secFlags &&& (SEC_ALLOC ||| SEC_READONLY ||| SEC_CODE) = SEC_ALLOC then secFlags ||| SEC_DATA
    else secFlags
  (st.regionList.find? fun r =>
      (st.regions r).flags &&& secFlags ≠ 0 && (st.regions r).notFlags &&& secFlags = 0).elim
    (DEFAULT_MEMORY_REGION, st.lookupDefault) fun r => (r, st)

/-- The address expression of the section, as the pass takes it. -/
def OutputSection.address (cfg : Config) (os : OutputSection) : Option Etree :=
  if os.addrTree.isNone && cfg.relocatable && cfg.coff then some (.value 0) else os.addrTree

/-- The dot that the address of the section gives. -/
def explicitAddress (cfg : Config) (phase : LangPhase) (os : OutputSection) (dot : Vma)
    (st : State) : Option (Vma × State) :=
  (os.address cfg).elim (some (dot, st)) fun tree =>
    let st := st.setSection os.id fun o => { o with processedVma := false }
    (expFoldTree cfg phase st .abs dot tree).bind fun p =>
      p.1.elim (if phase = .mark then some (dot, p.2) else none) fun v =>
        some (v.address p.2 .abs, p.2)

/-- The region of a section without an address. -/
def chooseRegion (os : OutputSection) (st : State) : String × State :=
  let s := st.sections os.id
  let default := memoryDefault s.flags st
  (st.osRegion os.id).elim default fun r =>
    if s.flags &&& (SEC_ALLOC ||| SEC_LOAD) ≠ 0 && r = DEFAULT_MEMORY_REGION then default
    else (r, st)

/-- A loadable section goes into the default region although there are others. -/
def lacksRegion (cfg : Config) (phase : LangPhase) (checkRegions : Bool) (os : OutputSection)
    (r : String) (st : State) : Bool :=
  !os.ignored && !(st.sections os.id).ignore && !cfg.relocatable && checkRegions
    && r = DEFAULT_MEMORY_REGION
    && st.regionList ≠ [] && st.regionList ≠ [DEFAULT_MEMORY_REGION]
    && phase ≠ .mark

/-- Where the section goes before it is aligned, and its alignment. -/
def unalignedStart (cfg : Config) (phase : LangPhase) (checkRegions : Bool) (os : OutputSection)
    (dot : Vma) (st : State) : Option (Vma × Int × State) :=
  if (os.address cfg).isNone then
    let (r, st) := chooseRegion os st
    let st := { st with osRegion := Function.update st.osRegion os.id (some r) }
    let start := ((st.regions r).current, ((st.sections os.id).alignmentPower : Int))
    if lacksRegion cfg phase checkRegions os r st then
      if cfg.checkSectionAddresses then none else some (start.1, start.2, st.report (.noRegion os.name))
    else some (start.1, start.2, st)
  else some (dot, os.sectionAlignment, st)

/-- What the section is placed by: its address, how far the alignment moved it, and the
alignment. -/
structure Start where
  newdot : Vma
  dotdelta : Vma
  sectionAlignment : Int

def alignTo (addr : Vma) (sectionAlignment : Int) : Vma :=
  if 0 < sectionAlignment then alignPower addr sectionAlignment.toNat else addr

/-- The address of the section, which is set. -/
def placeSection (cfg : Config) (phase : LangPhase) (checkRegions : Bool) (os : OutputSection)
    (dot : Vma) (st : State) : Option (Start × State) :=
  if os.isAbs then
    if (st.sections os.id).vma = 0 then some (⟨dot, 0, 0⟩, st) else none
  else
    (unalignedStart cfg phase checkRegions os dot st).map fun p =>
      let newdot := alignTo p.1 p.2.1
      let dotdelta := newdot - p.1
      let st := if dotdelta ≠ 0 && (cfg.warnSectionAlign || (os.address cfg).isSome)
          && phase ≠ .mark then
        p.2.2.report (.changingStart os.name dotdelta) else p.2.2
      (⟨newdot, dotdelta, p.2.1⟩, st.setSection os.id fun o => { o with vma := newdot })

/-- The size is rounded up to the block size. -/
def roundSize (cfg : Config) (os : OutputSection) (st : State) : State :=
  st.setSection os.id fun o =>
    let block := os.blockValue.setWidth 64
    let after := (o.vma + cfg.toAddr o.size + block - 1) &&& -block
    { o with size := cfg.toSize (after - o.vma) }

/-- `exp_get_abs_int (os->load_base, 0, "load base")`. -/
def loadBaseValue (cfg : Config) (phase : LangPhase) (tree : Etree) (st : State) :
    Option (Vma × State) :=
  (expFoldTree cfg phase st .abs 0 tree).bind fun p =>
    p.1.elim (if phase = .mark then some (0, p.2) else none) fun v =>
      some (v.address p.2 .abs, p.2)

def State.setLma (os : OutputSection) (lma : Vma) (st : State) : State :=
  st.setSection os.id fun o => { o with lma := lma }

/-- The LMA after the last section of the region `r`. -/
def lmaAfter (cfg : Config) (os : OutputSection) (dot : Vma) (start : Start) (last : Asection)
    (st : State) : State :=
  let size := (st.sections os.id).size
  if dot < last.vma && size ≠ 0 && dot + cfg.toAddr size ≤ last.vma then
    if last.vma ≠ last.lma then st.report (.movedBackwards os.name) else st
  else
    let lma :=
      if os.sectype = .overlay then last.lma + cfg.toAddr last.size
      else dot + last.lma - last.vma
    st.setLma os (alignTo lma start.sectionAlignment)

/-- The LMA in the region for LMAs. -/
def lmaInRegion (os : OutputSection) (lmaRegion : String) (start : Start) (st : State) : Vma :=
  let lma := (st.regions lmaRegion).current
  if os.alignLmaWithInput then lma + start.dotdelta
  else
    let sectionAlignment :=
      if st.osRegion os.id ≠ some lmaRegion then os.sectionAlignment else start.sectionAlignment
    alignTo lma sectionAlignment

/-- The LMA of the section. -/
def setSectionLma (cfg : Config) (phase : LangPhase) (os : OutputSection) (r : String) (dot : Vma)
    (start : Start) (st : State) : Option State :=
  match os.loadBase, os.lmaRegion, (st.regions r).lastOs with
  | some tree, _, _ => (loadBaseValue cfg phase tree st).map fun p => p.2.setLma os p.1
  | none, some lmaRegion, _ => some (st.setLma os (lmaInRegion os lmaRegion start st))
  | none, none, some last =>
    if (st.sections os.id).alloc then some (lmaAfter cfg os dot start (st.sections last) st)
    else some st
  | none, none, none => some st

/-- `last_os` of the region follows the sections that use its default LMA. -/
def trackLastOs (cfg : Config) (os : OutputSection) (r : String) (dot : Vma) (st : State) : State :=
  let s := st.sections os.id
  if !s.ignore
      && (s.size ≠ 0
        || (st.regions r).lastOs.elim (s.vma ≠ s.lma) fun last => (st.sections last).vma ≤ dot)
      && os.lmaRegion.isNone && !cfg.relocatable then
    st.setRegion r fun m => { m with lastOs := some os.id }
  else st

/-- The region is left, below its origin or past its end. -/
def MemoryRegion.left (m : MemoryRegion) (rbase : Vma) : Bool :=
  (m.current < m.origin || m.current - m.origin > m.length)
    && (m.current ≠ m.origin + m.length || rbase = 0)

/-- `os_region_check`. -/
def osRegionCheck (os : OutputSection) (r : String) (tree : Option Etree) (rbase : Vma) (st : State) :
    State :=
  let m := st.regions r
  if m.left rbase then
    if tree.isSome then st.report (.notWithin os.name r m.current)
    else if !m.hadFullMessage then
      (st.setRegion r fun m => { m with hadFullMessage := true }).report (.willNotFit os.name r)
    else st
  else st

/-- The section ends at `dot` in the region, which is checked. -/
def leaveRegion (checkRegions : Bool) (os : OutputSection) (r : String) (dot : Vma)
    (tree : Option Etree) (rbase : Vma) (st : State) : State :=
  let st := st.setRegion r fun m => { m with current := dot }
  if checkRegions then osRegionCheck os r tree rbase st else st

/-- The regions follow a section that is allocated. -/
def updateRegions (cfg : Config) (checkRegions : Bool) (os : OutputSection) (dot dotdelta : Vma)
    (st : State) : State :=
  let s := st.sections os.id
  match st.osRegion os.id with
  | none => st
  | some r =>
    if s.flags &&& (SEC_ALLOC ||| SEC_LOAD) ≠ 0 then
      let st := leaveRegion checkRegions os r dot (os.address cfg) s.vma st
      match os.lmaRegion with
      | none => st
      | some l =>
        if l ≠ r && (s.load || os.alignLmaWithInput) then
          leaveRegion checkRegions os l (s.lma + dotdelta) none s.lma st
        else st
    else st

/-- A COFF shared library section takes the size and the address of its input section. -/
def coffSharedLibrary (os : OutputSection) (children : List Child) (st : State) : Option State :=
  match children with
  | [.inputSection i] =>
    some (st.setSection os.id fun o => { o with vma := i.vma, size := i.size })
  | _ => none

/-- The region that `last_os` is taken from. -/
def lmaTracking (os : OutputSection) (st : State) : String × State :=
  (st.osRegion os.id).elim (DEFAULT_MEMORY_REGION, st.lookupDefault) fun r => (r, st)

/-- How far the section moves the dot: .tbss sections effectively have zero size. -/
def Asection.dotdelta (cfg : Config) (s : Asection) : Vma :=
  if !s.isTbss || cfg.relocatable then cfg.toAddr s.size else 0

/-- The dot that the section leaves, from its end on. -/
def updateDot (cfg : Config) (phase : LangPhase) (os : OutputSection) (dot : Vma) (st : State) :
    Option (Vma × State) :=
  os.updateDotTree.elim (some (dot, st)) fun tree => assignDot cfg phase .abs dot tree st

/-- What comes after the contents of the section are sized: its LMA, and the regions. -/
def closeSection (cfg : Config) (phase : LangPhase) (checkRegions : Bool) (os : OutputSection)
    (start : Start) (dot : Vma) (st : State) : Option (Vma × State) :=
  let r := (lmaTracking os st).1
  (setSectionLma cfg phase os r dot start (lmaTracking os st).2).bind fun st =>
    let st := trackLastOs cfg os r dot st
    if os.isAbs || os.ignored then some (dot, st)
    else
      let dotdelta := (st.sections os.id).dotdelta cfg
      (updateDot cfg phase os (dot + dotdelta) st).map fun p =>
        (p.1, updateRegions cfg checkRegions os p.1 dotdelta p.2)

/-- An output section that is placed, with its contents sized. -/
structure Placed where
  start : Start
  dot : Vma
  state : State

/-- The section is placed, and its contents are sized. -/
def placeAndSize (cfg : Config) (phase : LangPhase) (checkRegions : Bool) (os : OutputSection)
    (children : List Child) (dot : Vma) (st : State) : Option Placed :=
  (placeSection cfg phase checkRegions os dot st).bind fun p =>
    (sizeChildren cfg phase os children p.1.newdot p.2).bind fun q =>
      let st := q.2.setSection os.id fun o => { o with processedVma := true }
      if os.isAbs || os.ignored then
        if (st.sections os.id).size = 0 then some ⟨p.1, dot, st⟩ else none
      else some ⟨p.1, (st.sections os.id).vma, roundSize cfg os st⟩

/-- `lang_size_sections_1`, of an output section. -/
def sizeOutputSection (cfg : Config) (phase : LangPhase) (checkRegions : Bool)
    (os : OutputSection) (children : List Child) (dot : Vma) (st : State) :
    Option (Vma × State) :=
  if os.constraint = -1 then some (dot, st)
  else
    (explicitAddress cfg phase os dot st).bind fun p =>
      if !os.hasBfdSection then some p
      else if cfg.coff && (p.2.sections os.id).flags &&& SEC_COFF_SHARED_LIBRARY ≠ 0 then
        (coffSharedLibrary os children p.2).map fun st => (p.1, st)
      else
        (placeAndSize cfg phase checkRegions os children p.1 p.2).bind fun q =>
          closeSection cfg phase checkRegions os q.start q.dot q.state

/-- The assignment statement outside of the output sections: the default region follows the dot. -/
def sizeAbsAssignment (cfg : Config) (phase : LangPhase) (a : Assignment) (dot : Vma) (st : State) :
    Option (Vma × State) :=
  (foldAssignment cfg phase .abs dot a st).map fun p =>
    (p.1, p.2.lookupDefault.setRegion DEFAULT_MEMORY_REGION fun m => { m with current := p.1 })

/-- `lang_size_sections_1`, of a statement outside of the output sections. -/
def sizeStatement (cfg : Config) (phase : LangPhase) (checkRegions : Bool) :
    Statement → Vma → State → Option (Vma × State)
  | .outputSection os children, dot, st =>
    sizeOutputSection cfg phase checkRegions os children dot st
  | .assignment a, dot, st => sizeAbsAssignment cfg phase a dot st
  | .other, dot, st => some (dot, st)

/-- `lang_size_sections_1`. -/
def langSizeSections1 (cfg : Config) (phase : LangPhase) (checkRegions : Bool) :
    List Statement → Vma → State → Option (Vma × State)
  | [], dot, st => some (dot, st)
  | s :: rest, dot, st =>
    (sizeStatement cfg phase checkRegions s dot st).bind fun p =>
      langSizeSections1 cfg phase checkRegions rest p.1 p.2

theorem langSizeSections1_append {cfg : Config} {phase : LangPhase} {checkRegions : Bool} :
    ∀ (l l' : List Statement) (dot : Vma) (st : State),
    langSizeSections1 cfg phase checkRegions (l ++ l') dot st =
      (langSizeSections1 cfg phase checkRegions l dot st).bind fun p =>
        langSizeSections1 cfg phase checkRegions l' p.1 p.2
  | [], _, _, _ => rfl
  | s :: rest, l', dot, st => by
    rw [List.cons_append, langSizeSections1, langSizeSections1, Option.bind_assoc]
    congr 1
    funext p
    exact langSizeSections1_append rest l' p.1 p.2

end FusionBinutils.Ld.Layout
