import Mathlib.Data.BitVec

/-! The expressions of a linker script and their values (ld/ldexp.c), over the output sections, the
memory regions and the symbols of the link. The operators LOADADDR, DEFINED and SEGMENT_START are
left out. -/
namespace FusionBinutils.Ld.Layout

abbrev Vma := BitVec 64

/-- `lang_phase_type`. -/
inductive LangPhase
  | first | mark | allocating | final
  deriving DecidableEq

/-- `enum phase_enum`. -/
inductive DatasegPhase
  | none | alignSeen | relroSeen | endSeen | relroAdjust | adjust | done
  deriving DecidableEq

/-- `expld.dataseg`. -/
structure Dataseg where
  phase : DatasegPhase
  base : Vma
  relroOffset : Vma
  relroEnd : Vma
  endAt : Vma
  pagesize : Vma
  maxpagesize : Vma

/-- The `asection` of an output section, with what its statement notes about it. -/
structure Asection where
  vma : Vma
  lma : Vma
  size : Vma
  alignmentPower : Nat
  flags : BitVec 32
  processedVma : Bool

/-- `lang_memory_region_type`, without its name. The output section that `last_os` points at is
given by its number. -/
structure MemoryRegion where
  origin : Vma
  length : Vma
  current : Vma
  lastOs : Option Nat
  flags : BitVec 32
  notFlags : BitVec 32
  hadFullMessage : Bool

/-- A section that a value is relative to: `bfd_abs_section_ptr`, or an output section. -/
inductive Section'
  | abs
  | out (os : Nat)
  deriving DecidableEq

/-- `etree_value_type`. A plain number has no section. -/
structure EtreeValue where
  value : Vma
  sect : Option Section'

/-- A symbol that is defined: its value, relative to an output section, the low bit of the pass that
a script defined it in, and whether the linker itself or a PROVIDE did. -/
structure Symbol where
  value : Vma
  sect : Section'
  iteration : Option Bool
  linkerDef : Bool
  provided : Bool

/-- What `einfo` reports without stopping the link. -/
inductive Report
  | notWithin (sect region : String) (address : Vma)
  | willNotFit (sect region : String)
  | noRegion (sect : String)
  | changingStart (sect : String) (by' : Vma)
  | movedBackwards (sect : String)

/-- What the passes of the linker read and change. The output sections are numbered, the regions go
by their names; a region that is not in the list yet has the values of a new one. The symbols are
those defined, and those that something refers to. -/
structure State where
  sections : Nat → Asection
  osRegion : Nat → Option String
  regions : String → MemoryRegion
  regionList : List String
  symbols : String → Option Symbol
  referenced : String → Bool
  iteration : Bool
  dataseg : Dataseg
  reports : List Report

def State.vma (st : State) : Section' → Vma
  | .abs => 0
  | .out os => (st.sections os).vma

/-- The settings of the link. -/
structure Config where
  opbShift : Nat
  saneExpr : Bool
  maxpagesize : Vma
  commonpagesize : Vma
  relocatable : Bool
  coff : Bool
  elf : Bool
  checkSectionAddresses : Bool
  warnSectionAlign : Bool
  relro : Bool

/-- `TO_ADDR`. -/
def Config.toAddr (cfg : Config) (x : Vma) : Vma := x >>> cfg.opbShift

/-- `TO_SIZE`. -/
def Config.toSize (cfg : Config) (x : Vma) : Vma := x <<< cfg.opbShift

inductive UnaryOp
  | align | absolute | complement | not | neg | next | dataSegmentEnd
  deriving DecidableEq

inductive BinaryOp
  | add | mul | sub | lshift | rshift | and | xor | or
  | eq | ne | lt | gt | le | ge | andand | oror
  | rem | div | max | min | align | dataSegmentAlign | dataSegmentRelroEnd
  deriving DecidableEq

/-- The names of `fold_name`. An output section is given by its number, if there is one of the
name. -/
inductive Name
  | symbol (name : String)
  | addr (os : Option Nat)
  | sizeof (os : Option Nat)
  | alignof (os : Option Nat)
  | origin (region : String)
  | length (region : String)
  | maxpagesize
  | commonpagesize

/-- `etree_type`, without the assignments. -/
inductive Etree
  | value (v : Vma)
  | dot
  | name (n : Name)
  | unary (op : UnaryOp) (child : Etree)
  | binary (op : BinaryOp) (lhs rhs : Etree)
  | trinary (cond lhs rhs : Etree)

/-- The part of `expld` that stays as it is within one expression. -/
structure Expld where
  phase : LangPhase
  sect : Section'
  dot : Vma
  assigningToDot : Bool

/-- The part that an expression changes: the data segment, and whether `assign_name` is still the
name of the symbol assigned to. -/
structure Folding where
  dataseg : Dataseg
  assignName : Option String

/-- `align_n`. -/
def alignN (value align : Vma) : Vma :=
  if align ≤ 1 then value else (value + align - 1) / align * align

/-- `align_power`. -/
def alignPower (addr : Vma) (align : Nat) : Vma :=
  (addr + ((1 : Vma) <<< align) - 1) &&& -((1 : Vma) <<< align)

/-- `make_abs`. -/
def makeAbs (st : State) (v : EtreeValue) : EtreeValue :=
  ⟨v.value + (v.sect.elim 0 st.vma), some .abs⟩

/-- `new_rel_from_abs`. -/
def newRelFromAbs (st : State) (e : Expld) (value : Vma) : EtreeValue :=
  ⟨value - st.vma e.sect, some e.sect⟩

/-- `fold_name`. A value that is not valid is `none` inside; outside, it is an error that stops the
link. -/
def foldName (cfg : Config) (st : State) (e : Expld) (n : Name) (f : Folding) :
    Option (Option EtreeValue × Folding) :=
  match n with
  | .symbol s =>
    let selfAllowed := (st.symbols s).any fun v =>
      v.sect = .abs && v.iteration = some st.iteration
    let f := if f.assignName = some s && !selfAllowed then { f with assignName := none } else f
    if e.phase = .first then some (none, f)
    else match st.symbols s with
      | some v =>
        if v.sect = .abs && (e.sect ≠ .abs || cfg.saneExpr) then
          some (some ⟨v.value, none⟩, f)
        else some (some ⟨v.value, some v.sect⟩, f)
      | none =>
        if e.phase = .final || (e.phase ≠ .mark && e.assigningToDot) then none
        else some (none, f)
  | .addr os =>
    if e.phase = .first then some (none, f)
    else match os with
      | none => if e.phase = .final then none else some (none, f)
      | some os =>
        if (st.sections os).processedVma then some (some ⟨0, some (.out os)⟩, f)
        else some (none, f)
  | .sizeof os =>
    if e.phase = .first then some (none, f)
    else match os with
      | none => if e.phase = .final then none else some (some ⟨0, none⟩, f)
      | some os => some (some ⟨cfg.toAddr (st.sections os).size, none⟩, f)
  | .alignof os =>
    if e.phase = .first then some (none, f)
    else match os with
      | none => if e.phase = .final then none else some (some ⟨0, none⟩, f)
      | some os => some (some ⟨(1 : Vma) <<< (st.sections os).alignmentPower, none⟩, f)
  | .origin region =>
    if e.phase = .first then some (none, f)
    else some (some (newRelFromAbs st e (st.regions region).origin), f)
  | .length region =>
    if e.phase = .first then some (none, f)
    else some (some ⟨(st.regions region).length, none⟩, f)
  | .maxpagesize => some (some ⟨cfg.maxpagesize, none⟩, f)
  | .commonpagesize => some (some ⟨cfg.commonpagesize, none⟩, f)

/-- DATA_SEGMENT_END, with the value of its operand. -/
def foldDataSegmentEnd (e : Expld) (v : EtreeValue) (f : Folding) : Option EtreeValue × Folding :=
  if e.phase = .first || e.sect ≠ .abs then (none, f)
  else match f.dataseg.phase with
    | .alignSeen | .relroSeen =>
      (some v, { f with dataseg := { f.dataseg with phase := .endSeen, endAt := v.value } })
    | .done | .adjust | .relroAdjust => (some v, f)
    | _ => (none, f)

/-- `fold_unary`, with the value of the operand. -/
def foldUnary (st : State) (e : Expld) (op : UnaryOp) (v : EtreeValue) (f : Folding) :
    Option EtreeValue × Folding :=
  match op with
  | .align =>
    if e.phase = .first then (none, f) else (some (newRelFromAbs st e (alignN e.dot v.value)), f)
  | .absolute => (some (makeAbs st v), f)
  | .complement => (some { v with value := ~~~v.value }, f)
  | .not => (some { v with value := if v.value = 0 then 1 else 0 }, f)
  | .neg => (some { v with value := -v.value }, f)
  | .next =>
    if e.phase = .first then (none, f)
    else (some { makeAbs st v with value := alignN e.dot (makeAbs st v).value }, f)
  | .dataSegmentEnd => foldDataSegmentEnd e v f

/-- The operands of a binary operator, when they are relative to different sections. -/
def unify (st : State) (lhs rhs : EtreeValue) : EtreeValue × EtreeValue :=
  if lhs.sect = rhs.sect then (lhs, rhs)
  else if rhs.sect ≠ none && lhs.sect ≠ none then (makeAbs st lhs, makeAbs st rhs)
  else if rhs.sect = none then
    ({ lhs with sect := none }, { rhs with sect := lhs.sect })
  else (lhs, rhs)

/-- `BOP`, with `arith_result_section`. -/
def bop (cfg : Config) (e : Expld) (lhs rhs : EtreeValue) (value : Vma) : EtreeValue :=
  if rhs.sect = lhs.sect then
    ⟨value, if e.sect = .abs && !cfg.saneExpr then some .abs else none⟩
  else ⟨value, rhs.sect⟩

/-- `BOPN`. -/
def bopn (test : Bool) : EtreeValue := ⟨if test then 1 else 0, none⟩

/-- DATA_SEGMENT_ALIGN, with the values of its operands. -/
def foldDataSegmentAlign (e : Expld) (lhs rhs : EtreeValue) (f : Folding) :
    Option EtreeValue × Folding :=
  if e.phase = .first || e.sect ≠ .abs then (none, f)
  else
    let maxpage := lhs.value
    let commonpage := rhs.value
    let aligned := alignN e.dot maxpage
    match f.dataseg.phase with
    | .relroAdjust => (some { rhs with value := f.dataseg.base }, f)
    | .adjust =>
      if commonpage < maxpage then
        (some { rhs with
          value := aligned + ((e.dot + commonpage - 1) &&& (maxpage - commonpage)) }, f)
      else (some { rhs with value := aligned }, f)
    | .done => (some { rhs with value := aligned + (e.dot &&& (maxpage - 1)) }, f)
    | .none =>
      let base := aligned + (e.dot &&& (maxpage - 1))
      (some { rhs with value := base },
        { f with
          dataseg := {
            f.dataseg with
            phase := .alignSeen
            base := base
            pagesize := commonpage
            maxpagesize := maxpage
            relroEnd := 0 } })
    | _ => (none, f)

/-- DATA_SEGMENT_RELRO_END: the offset is the right operand. -/
def foldDataSegmentRelroEnd (e : Expld) (lhs rhs : EtreeValue) (f : Folding) :
    Option EtreeValue × Folding :=
  let d := { f.dataseg with relroOffset := rhs.value }
  if e.phase = .first || e.sect ≠ .abs then (none, { f with dataseg := d })
  else match d.phase with
    | .alignSeen =>
      (some { rhs with value := lhs.value },
        { f with dataseg :=
          { d with phase := .relroSeen, relroEnd := lhs.value + rhs.value } })
    | .relroAdjust =>
      let relroEnd := lhs.value + rhs.value
      if relroEnd &&& (d.pagesize - 1) ≠ 0 then
        let relroEnd := (relroEnd + (d.pagesize - 1)) &&& ~~~(d.pagesize - 1)
        (some { rhs with value := relroEnd - rhs.value }, { f with dataseg := { d with relroEnd := relroEnd } })
      else (some { rhs with value := lhs.value }, { f with dataseg := { d with relroEnd := relroEnd } })
    | .adjust | .done => (some { rhs with value := lhs.value }, { f with dataseg := d })
    | _ => (none, { f with dataseg := d })

/-- `fold_binary`, with the values of the operands. -/
def foldBinary (cfg : Config) (st : State) (e : Expld) (op : BinaryOp) (l r : EtreeValue)
    (f : Folding) : Option (Option EtreeValue × Folding) :=
  let (lhs, rhs) := unify st l r
  let x := lhs.value
  let y := rhs.value
  match op with
  | .add => some (some (bop cfg e lhs rhs (x + y)), f)
  | .mul => some (some (bop cfg e lhs rhs (x * y)), f)
  | .sub => some (some (bop cfg e lhs rhs (x - y)), f)
  | .lshift => some (some (bop cfg e lhs rhs (x <<< y)), f)
  | .rshift => some (some (bop cfg e lhs rhs (x >>> y)), f)
  | .and => some (some (bop cfg e lhs rhs (x &&& y)), f)
  | .xor => some (some (bop cfg e lhs rhs (x ^^^ y)), f)
  | .or => some (some (bop cfg e lhs rhs (x ||| y)), f)
  | .eq => some (some (bopn (x = y)), f)
  | .ne => some (some (bopn (x ≠ y)), f)
  | .lt => some (some (bopn (x < y)), f)
  | .gt => some (some (bopn (x > y)), f)
  | .le => some (some (bopn (x ≤ y)), f)
  | .ge => some (some (bopn (x ≥ y)), f)
  | .andand => some (some (bopn (x ≠ 0 && y ≠ 0)), f)
  | .oror => some (some (bopn (x ≠ 0 || y ≠ 0)), f)
  | .rem =>
    if y ≠ 0 then some (some (bop cfg e lhs rhs (x.srem y)), f)
    else if e.phase ≠ .mark then none
    else some (some (bop cfg e lhs rhs y), f)
  | .div =>
    if y ≠ 0 then some (some (bop cfg e lhs rhs (x.sdiv y)), f)
    else if e.phase ≠ .mark then none
    else some (some (bop cfg e lhs rhs y), f)
  | .max => some (some { rhs with value := if x > y then x else y }, f)
  | .min => some (some { rhs with value := if x < y then x else y }, f)
  | .align => some (some { rhs with value := alignN x y }, f)
  | .dataSegmentAlign => some (foldDataSegmentAlign e lhs rhs f)
  | .dataSegmentRelroEnd => some (foldDataSegmentRelroEnd e lhs rhs f)

/-- `exp_fold_tree_1`. -/
def foldTree (cfg : Config) (st : State) (e : Expld) :
    Etree → Folding → Option (Option EtreeValue × Folding)
  | .value v, f =>
    some (some ⟨v, if e.sect = .abs && !cfg.saneExpr then some .abs else none⟩, f)
  | .dot, f => some (if e.phase = .first then none else some (newRelFromAbs st e e.dot), f)
  | .name n, f => foldName cfg st e n f
  | .unary op child, f =>
    (foldTree cfg st e child f).map fun p =>
      p.1.elim (none, p.2) fun v => foldUnary st e op v p.2
  | .binary op lhs rhs, f =>
    (foldTree cfg st e lhs f).bind fun p => (foldTree cfg st e rhs p.2).bind fun q =>
      p.1.elim (some (none, q.2)) fun l => q.1.elim (some (none, q.2)) fun r =>
        foldBinary cfg st e op l r q.2
  | .trinary cond lhs rhs, f =>
    (foldTree cfg st e cond f).bind fun p =>
      p.1.elim (some (none, p.2)) fun v =>
        if v.value ≠ 0 then foldTree cfg st e lhs p.2 else foldTree cfg st e rhs p.2

/-- `exp_fold_tree` of an expression that is not an assignment. -/
def expFoldTree (cfg : Config) (phase : LangPhase) (st : State) (sect : Section') (dot : Vma)
    (tree : Etree) : Option (Option EtreeValue × State) :=
  (foldTree cfg st ⟨phase, sect, dot, false⟩ tree ⟨st.dataseg, none⟩).map fun p =>
    (p.1, { st with dataseg := p.2.dataseg })

end FusionBinutils.Ld.Layout
