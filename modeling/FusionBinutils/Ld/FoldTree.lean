import FusionBinutils.Ld.Ldexp

/-! `exp_fold_tree_1` (ld/ldexp.c) as it runs over the variables of the linker. The divisions and
the shifts of the evaluator are noted, and what `fold_binary` has before it comes to them. -/
namespace FusionBinutils.Ld.FoldTree
open Layout (Vma DatasegPhase Dataseg UnaryOp BinaryOp)

/-- `lang_phase_type`, in its order. -/
inductive Phase
  | first | mark | allocating | assigning | final
  deriving DecidableEq

/-- Up to `lang_allocating_phase_enum`. -/
def Phase.sizes : Phase → Bool
  | .first | .mark | .allocating => true
  | .assigning | .final => false

/-- A pointer to a section: one of the two that BFD has, or one of the link. -/
inductive SectionPtr
  | abs
  | und
  | sec (i : Nat)
  deriving DecidableEq

/-- `asection`. -/
structure Asection where
  vma : Vma
  lma : Vma
  size : Vma
  alignmentPower : Nat
  outputSection : Option SectionPtr
  outputOffset : Vma
  keep : Bool

inductive HashType
  | new | undefined | undefweak | defined | defweak | common
  deriving DecidableEq

/-- `struct bfd_link_hash_entry`; `value` and `section` are read of a defined symbol. -/
structure LinkHash where
  type : HashType
  value : Vma
  sect : SectionPtr
  linkerDef : Bool
  ldscriptDef : Bool

/-- `struct definedness_hash_entry`. -/
structure Definedness where
  byObject : Bool
  byScript : Bool
  iteration : Bool
  finalSec : SectionPtr

/-- `segment_type`. -/
structure Segment where
  name : String
  value : Vma
  used : Bool

inductive UnaryCode
  | op (o : UnaryOp)
  | log2ceil

inductive BinaryCode
  | op (o : BinaryOp)
  | segmentStart

inductive NameCode
  | sizeofHeaders | defined | name | addr | loadaddr | sizeof | alignof | length | origin | constant

/-- The classes of assignments. A fold that defines the symbol of a PROVIDE makes its node
`provided`, for the folds to come. -/
inductive AssignClass
  | assign (defsym : Bool)
  | provide
  | provided

/-- `etree_type`. -/
inductive Etree
  | value (v : Vma) (str : Option String)
  | rel (sect : SectionPtr) (v : Vma)
  | assert (child : Etree) (message : String)
  | unary (code : UnaryCode) (child : Etree)
  | binary (code : BinaryCode) (lhs rhs : Etree)
  | trinary (cond lhs rhs : Etree)
  | assign (cls : AssignClass) (dst : String) (lineno : Nat) (src : Etree)
  | name (code : NameCode) (name : String)

/-- `lang_output_section_statement_type`, as far as an expression can ask. -/
structure OutputSection where
  bfdSection : Option Nat
  processedVma : Bool
  processedLma : Bool
  loadBase : Option Etree

/-- `etree_value_type`. A plain number has no section. -/
structure EtreeValue where
  valid : Bool
  value : Vma
  str : Option String
  sect : Option SectionPtr

def EtreeValue.none : EtreeValue := ⟨false, 0, .none, .none⟩

inductive Relro
  | none | start | end'

/-- `expld`; `dotp` is what the pointer leads to. -/
structure Expld where
  phase : Phase
  assigningToDot : Bool
  relFromAbs : Bool
  assignName : Option String
  result : EtreeValue
  dot : Vma
  dotp : Option Vma
  sect : SectionPtr
  dataseg : Dataseg
  relro : Relro

/-- What is computed with `/`, `%`, `<<` and `>>`, on `bfd_signed_vma` or on `bfd_vma`. -/
inductive Operation
  | div (x y : Vma)
  | rem (x y : Vma)
  | udiv (x y : Vma)
  | umod (x y : Vma)
  | shl (x y : Vma)
  | shr (x y : Vma)

/-- What `fold_binary` has at hand: the operator and its operands, or the segment it has found. -/
inductive Site
  | binary (op : BinaryOp) (lhs rhs : Vma)
  | segment (seg : Segment)

/-- What `einfo` reports without stopping the link. -/
inductive Report
  | unresolvable (name : String)
  | assertion (message : String)
  | notMultiple (segment : String)

/-- Where `einfo` stops the link; `null` is a read through a null pointer, `depth` a load address
that needs more load addresses than the model follows. -/
inductive Stop
  | undefinedSymbol (name : String)
  | undefinedSection (name : String)
  | undefinedRegion (name : String)
  | unknownConstant (name : String)
  | remByZero
  | divByZero
  | providedDot
  | invalidDot
  | dotOutside
  | dotBackwards (dot nextdot : Vma)
  | null
  | depth

/-- What an expression reads and changes. -/
structure World where
  expld : Expld
  sections : Nat → Asection
  symbols : String → Option LinkHash
  definedness : String → Option Definedness
  segments : List Segment
  undefs : List String
  reports : List Report
  operations : List Operation
  sites : List Site

/-- What stays as it is: the settings, the names of the script and of the symbols, and the value
that an operation has where C gives it none. -/
structure Env where
  maxpagesize : Vma
  commonpagesize : Vma
  magicDemandPaged : Bool
  saneExpr : Bool
  octetsPerByte : Vma
  sizeofHeaders : Vma
  iteration : Bool
  sectionForDot : SectionPtr
  outputs : String → Option OutputSection
  regions : String → Option (Vma × Vma)
  /-- the entry that `bfd_wrapped_link_hash_lookup` comes to -/
  wrapped : String → String
  /-- the entry that `bfd_link_hash_lookup` comes to -/
  followed : String → String
  undefined : Operation → Vma

/-- A C operation has a value: the divisor is not zero and the quotient fits in `bfd_signed_vma`,
or the shift is by less than the width. -/
def Operation.Defined : Operation → Prop
  | .div x y | .rem x y =>
    y ≠ 0 ∧ -2 ^ 63 ≤ x.toInt.tdiv y.toInt ∧ x.toInt.tdiv y.toInt < 2 ^ 63
  | .udiv x y | .umod x y => y ≠ 0 ∧ x.toNat / y.toNat < 2 ^ 63
  | .shl _ y | .shr _ y => y.toNat < 64

instance : DecidablePred Operation.Defined
  | .div x y | .rem x y =>
    inferInstanceAs
      (Decidable (y ≠ 0 ∧ -2 ^ 63 ≤ x.toInt.tdiv y.toInt ∧ x.toInt.tdiv y.toInt < 2 ^ 63))
  | .udiv x y | .umod x y => inferInstanceAs (Decidable (y ≠ 0 ∧ x.toNat / y.toNat < 2 ^ 63))
  | .shl _ y | .shr _ y => inferInstanceAs (Decidable (y.toNat < 64))

/-- What a defined operation gives. -/
def Operation.value : Operation → Vma
  | .div x y => x.sdiv y
  | .rem x y => x.srem y
  | .udiv x y => x / y
  | .umod x y => x % y
  | .shl x y => x <<< y
  | .shr x y => x >>> y

abbrev Fold := EStateM Stop World

section
variable (env : Env)

/-- One operation is carried out. -/
def perform (op : Operation) : Fold Vma := do
  modify fun w => { w with operations := w.operations ++ [op] }
  return if op.Defined then op.value else env.undefined op

/-- A place of `fold_binary` is reached. -/
def reach (site : Site) : Fold Unit := modify fun w => { w with sites := w.sites ++ [site] }

def report (r : Report) : Fold Unit := modify fun w => { w with reports := w.reports ++ [r] }

/-! The working results. -/

def World.vma (w : World) : SectionPtr → Vma
  | .sec i => (w.sections i).vma
  | .abs | .und => 0

def setExpld (f : Expld → Expld) : Fold Unit := modify fun w => { w with expld := f w.expld }

def setResult (r : EtreeValue) : Fold Unit := setExpld fun e => { e with result := r }

def setValue (v : Vma) : Fold Unit :=
  setExpld fun e => { e with result := { e.result with value := v } }

/-- `expld.result.valid_p = FALSE`. -/
def invalidate : Fold Unit :=
  setExpld fun e => { e with result := { e.result with valid := false } }

def setSection (s : Option SectionPtr) : Fold Unit :=
  setExpld fun e => { e with result := { e.result with sect := s } }

def setDataseg (f : Dataseg → Dataseg) : Fold Unit :=
  setExpld fun e => { e with dataseg := f e.dataseg }

def newNumber (v : Vma) : Fold Unit := setResult ⟨true, v, none, none⟩

def newAbs (v : Vma) : Fold Unit := setResult ⟨true, v, none, some .abs⟩

def newRel (v : Vma) (s : Option SectionPtr) : Fold Unit := setResult ⟨true, v, none, s⟩

def newRelFromAbs (v : Vma) : Fold Unit := modify fun w =>
  { w with expld :=
    { w.expld with
      relFromAbs := true
      result := ⟨true, v - w.vma w.expld.sect, none, some w.expld.sect⟩ } }

def makeAbs : Fold Unit := modify fun w =>
  { w with expld :=
    { w.expld with
      relFromAbs := false
      result := { w.expld.result with
        value := w.expld.result.value + w.expld.result.sect.elim 0 w.vma
        sect := some .abs } } }

/-- The loop of `make_log2ceil`: a value has 64 bits at most. -/
def log2Loop : Nat → Vma → Vma → Bool → Vma
  | 0, _, result, up => if up then result + 1 else result
  | n + 1, value, result, up =>
    let up := up || (value > 1 && value &&& 1 ≠ 0)
    if value >>> 1 = 0 then (if up then result + 1 + 1 else result + 1)
    else log2Loop n (value >>> 1) (result + 1) up

def makeLog2ceil : Fold Unit := do
  let w ← get
  setSection none
  setValue (log2Loop 64 w.expld.result.value (-1) false)

def alignN (value align : Vma) : Fold Vma :=
  if align ≤ 1 then pure value
  else do
    let q ← perform env (.udiv (value + align - 1) align)
    return q * align

/-! `fold_unary`. -/

/-- DATA_SEGMENT_END. -/
def dataSegmentEnd : Fold Unit := do
  let w ← get
  if w.expld.phase = .first || w.expld.sect ≠ .abs then invalidate
  else match w.expld.dataseg.phase with
    | .alignSeen | .relroSeen =>
      setDataseg fun d => { d with phase := .endSeen, endAt := w.expld.result.value }
    | .done | .adjust | .relroAdjust => pure ()
    | _ => invalidate

/-- The switch of `fold_unary`. -/
def unarySwitch (code : UnaryCode) : Fold Unit := do
  let w ← get
  match code with
  | .op .align =>
    if w.expld.phase ≠ .first then alignN env w.expld.dot w.expld.result.value >>= newRelFromAbs
    else invalidate
  | .op .absolute => makeAbs
  | .log2ceil => makeLog2ceil
  | .op .complement => setValue (~~~w.expld.result.value)
  | .op .not => setValue (if w.expld.result.value = 0 then 1 else 0)
  | .op .neg => setValue (-w.expld.result.value)
  | .op .next =>
    if w.expld.phase ≠ .first then do
      makeAbs
      let w ← get
      alignN env w.expld.dot w.expld.result.value >>= setValue
    else invalidate
  | .op .dataSegmentEnd => dataSegmentEnd

def ifValid (m : Fold Unit) : Fold Unit := do
  let w ← get
  if w.expld.result.valid then m else pure ()

def foldUnary (code : UnaryCode) (foldChild : Fold Unit) : Fold Unit := do
  foldChild
  ifValid (unarySwitch env code)

/-! `fold_binary`. -/

def markUsed (name : String) : List Segment → List Segment
  | [] => []
  | s :: rest => if s.name = name then { s with used := true } :: rest else s :: markUsed name rest

/-- The warning about the address of a segment, which is given once. -/
def checkSegment (seg : Segment) : Fold Unit :=
  if !seg.used && env.magicDemandPaged then do
    let r ← perform env (.umod seg.value env.maxpagesize)
    if r ≠ 0 then report (.notMultiple seg.name) else pure ()
  else pure ()

def useSegment (seg : Segment) : Fold Unit := do
  modify fun w => { w with segments := markUsed seg.name w.segments }
  newRelFromAbs seg.value

/-- SEGMENT_START where the user has set the address of the segment. -/
def takeSegment (seg : Segment) : Fold Unit := do
  reach (.segment seg)
  checkSegment env seg
  useSegment seg

/-- SEGMENT_START, with the value of its second operand. -/
def segmentStart (segmentName : String) : Fold Unit := do
  let w ← get
  match w.segments.find? (·.name = segmentName) with
  | some seg => takeSegment env seg
  | none => pure ()

/-- The operands, when they are from different sections. -/
def unify (lhs : EtreeValue) : Fold EtreeValue := do
  let w ← get
  if lhs.sect = w.expld.result.sect then return lhs
  else match lhs.sect, w.expld.result.sect with
    | some s, some _ => do
      makeAbs
      return { lhs with value := lhs.value + w.vma s, sect := some .abs }
    | s, none => do
      setSection s
      return { lhs with sect := none }
    | none, some _ => return lhs

/-- `arith_result_section`. -/
def arithResultSection (lhs : EtreeValue) : Fold Unit := do
  let w ← get
  if w.expld.result.sect = lhs.sect then
    setSection (if w.expld.sect = .abs && !env.saneExpr then some .abs else none)
  else pure ()

/-- `BOP`, with its value. -/
def bop (lhs : EtreeValue) (v : Vma) : Fold Unit := do
  setValue v
  arithResultSection env lhs

/-- `BOPN`. -/
def bopn (test : Bool) : Fold Unit := do
  setValue (if test then 1 else 0)
  setSection none

/-- `%` and `/`, with the operation on a divisor that is not zero. -/
def division (lhs : EtreeValue) (op : Vma → Vma → Operation) (byZero : Stop) : Fold Unit := do
  let w ← get
  if w.expld.result.value ≠ 0 then perform env (op lhs.value w.expld.result.value) >>= bop env lhs
  else if w.expld.phase ≠ .mark then throw byZero
  else arithResultSection env lhs

/-- DATA_SEGMENT_ALIGN. -/
def dataSegmentAlign (maxpage : Vma) : Fold Unit := do
  setExpld fun e => { e with relro := .start }
  let w ← get
  if w.expld.phase = .first || w.expld.sect ≠ .abs then invalidate
  else do
    let commonpage := w.expld.result.value
    let aligned ← alignN env w.expld.dot maxpage
    match w.expld.dataseg.phase with
    | .relroAdjust => setValue w.expld.dataseg.base
    | .adjust =>
      if commonpage < maxpage then
        setValue (aligned + ((w.expld.dot + commonpage - 1) &&& (maxpage - commonpage)))
      else setValue aligned
    | .done => setValue (aligned + (w.expld.dot &&& (maxpage - 1)))
    | .none => do
      let base := aligned + (w.expld.dot &&& (maxpage - 1))
      setValue base
      setDataseg fun d =>
        { d with
          phase := .alignSeen
          base := base
          pagesize := commonpage
          maxpagesize := maxpage
          relroEnd := 0 }
    | _ => do
      setValue (aligned + (w.expld.dot &&& (maxpage - 1)))
      invalidate

/-- DATA_SEGMENT_RELRO_END, with its second operand `v`; the offset is in `expld.result`. -/
def dataSegmentRelroEnd (v : Vma) : Fold Unit := do
  let w ← get
  let offset := w.expld.result.value
  setExpld fun e => { e with relro := .end', dataseg := { e.dataseg with relroOffset := offset } }
  if w.expld.phase = .first || w.expld.sect ≠ .abs then invalidate
  else match w.expld.dataseg.phase with
    | .alignSeen => do
      setDataseg fun d => { d with phase := .relroSeen, relroEnd := v + offset }
      setValue v
    | .relroAdjust =>
      let mask := w.expld.dataseg.pagesize - 1
      if (v + offset) &&& mask ≠ 0 then do
        setDataseg fun d => { d with relroEnd := (v + offset + mask) &&& ~~~mask }
        setValue (((v + offset + mask) &&& ~~~mask) - offset)
      else do
        setDataseg fun d => { d with relroEnd := v + offset }
        setValue v
    | .adjust | .done => setValue v
    | _ => invalidate

/-- The switch of `fold_binary`, with the left operand; the right one is in `expld.result`. -/
def binarySwitch (op : BinaryOp) (lhs : EtreeValue) : Fold Unit := do
  let w ← get
  let x := lhs.value
  let y := w.expld.result.value
  reach (.binary op x y)
  match op with
  | .add => bop env lhs (x + y)
  | .mul => bop env lhs (x * y)
  | .sub => bop env lhs (x - y)
  | .lshift => perform env (.shl x y) >>= bop env lhs
  | .rshift => perform env (.shr x y) >>= bop env lhs
  | .and => bop env lhs (x &&& y)
  | .xor => bop env lhs (x ^^^ y)
  | .or => bop env lhs (x ||| y)
  | .eq => bopn (x = y)
  | .ne => bopn (x ≠ y)
  | .lt => bopn (x < y)
  | .gt => bopn (x > y)
  | .le => bopn (x ≤ y)
  | .ge => bopn (x ≥ y)
  | .andand => bopn (x ≠ 0 && y ≠ 0)
  | .oror => bopn (x ≠ 0 || y ≠ 0)
  | .rem => division env lhs .rem .remByZero
  | .div => division env lhs .div .divByZero
  | .max => if x > y then setValue x else pure ()
  | .min => if x < y then setValue x else pure ()
  | .align => alignN env x y >>= setValue
  | .dataSegmentAlign => dataSegmentAlign env x
  | .dataSegmentRelroEnd => dataSegmentRelroEnd x

/-- `tree->name.name`. -/
def Etree.segmentName : Etree → String
  | .name _ n => n
  | _ => ""

/-- Both operands have been folded; `lhs` is the left one. -/
def foldOperands (code : BinaryCode) (lhs : EtreeValue) : Fold Unit := do
  setExpld fun e => { e with result := { e.result with valid := e.result.valid && lhs.valid } }
  ifValid do
    let lhs ← unify lhs
    match code with
    | .op o => binarySwitch env o lhs
    | .segmentStart => pure ()

def foldBinary (code : BinaryCode) (rhs : Etree) (foldLhs foldRhs : Fold Unit) : Fold Unit := do
  foldLhs
  let w ← get
  match code, w.expld.result.valid with
  | .segmentStart, true => segmentStart env rhs.segmentName
  | _, _ => do
    foldRhs
    foldOperands env code w.expld.result

/-! `fold_name`. -/

/-- Behind the first phase; before, a name has no value. -/
def afterFirst (m : Fold Unit) : Fold Unit := do
  let w ← get
  if w.expld.phase ≠ .first then m else pure ()

def HashType.isDefined : HashType → Bool
  | .defined | .defweak => true
  | _ => false

/-- DEFINED. -/
def isDefined (w : World) (name : String) : Bool :=
  (w.symbols (env.wrapped name)).any fun h =>
    (h.type.isDefined || h.type = .common) &&
      (w.definedness name).all fun d => d.byObject || d.iteration = env.iteration

/-- Self-assignment is only allowed for absolute symbols defined in a linker script. -/
def selfAllowed (w : World) (name : String) : Bool :=
  (w.symbols (env.wrapped name)).any fun h =>
    h.type.isDefined && h.sect = .abs &&
      (w.definedness name).any fun d => d.iteration = env.iteration

def noteSelf (name : String) : Fold Unit := do
  let w ← get
  if w.expld.assignName = some name && !selfAllowed env w name then
    setExpld fun e => { e with assignName := none }
  else pure ()

def World.outputSection (w : World) : SectionPtr → Option SectionPtr
  | .sec i => (w.sections i).outputSection
  | s => some s

def World.outputOffset (w : World) : SectionPtr → Vma
  | .sec i => (w.sections i).outputOffset
  | .abs | .und => 0

def definedSymbol (name : String) (h : LinkHash) : Fold Unit := do
  let w ← get
  match w.outputSection h.sect with
  | none =>
    if w.expld.phase = .mark then newRel h.value (some h.sect)
    else report (.unresolvable name)
  | some os =>
    if os = .abs && (w.expld.sect ≠ .abs || env.saneExpr) then
      newNumber (h.value + w.outputOffset h.sect)
    else newRel (h.value + w.outputOffset h.sect) (some os)

def LinkHash.new : LinkHash := ⟨.new, 0, .und, false, false⟩

def setSymbol (entry : String) (h : LinkHash) : Fold Unit := modify fun w =>
  { w with symbols := fun n => if n = entry then some h else w.symbols n }

/-- A symbol that an expression refers to; it gets an entry where it has none. -/
def foldSymbol (name : String) : Fold Unit := do
  let w ← get
  let entry := env.wrapped name
  let h := (w.symbols entry).getD .new
  if h.type.isDefined then definedSymbol env name h
  else if w.expld.phase = .final || (w.expld.phase ≠ .mark && w.expld.assigningToDot) then
    throw (.undefinedSymbol name)
  else if h.type = .new then do
    setSymbol entry { h with type := .undefined }
    modify fun w =>
      { w with undefs := if entry ∈ w.undefs then w.undefs else w.undefs ++ [entry] }
  else pure ()

/-- A section that the script names. -/
def withOutput (name : String) (absent : Fold Unit) (present : OutputSection → Fold Unit) :
    Fold Unit := do
  let w ← get
  match env.outputs name with
  | none => if w.expld.phase = .final then throw (.undefinedSection name) else absent
  | some os => present os

/-- LOADADDR; `foldBase` folds the expression of the load address. -/
def loadAddr (foldBase : Etree → Fold Unit) (os : OutputSection) : Fold Unit := do
  let w ← get
  if os.processedLma then
    match os.loadBase, os.bfdSection with
    | some base, _ => do
      foldBase base
      ifValid makeAbs
    | none, some i => newAbs (w.sections i).lma
    | none, none => throw .null
  else pure ()

/-- SIZEOF and ALIGNOF. -/
def sectionNumber (f : Asection → Vma) (os : OutputSection) : Fold Unit := do
  let w ← get
  match os.bfdSection with
  | some i => newNumber (f (w.sections i))
  | none => newNumber 0

def withRegion (name : String) (m : Vma × Vma → Fold Unit) : Fold Unit :=
  match env.regions name with
  | some region => m region
  | none => throw (.undefinedRegion name)

def foldName (foldBase : Etree → Fold Unit) (code : NameCode) (name : String) : Fold Unit := do
  setResult .none
  let w ← get
  match code with
  | .sizeofHeaders =>
    afterFirst (newNumber (if w.expld.phase ≠ .mark then env.sizeofHeaders else 0))
  | .defined => afterFirst (newNumber (if isDefined env w name then 1 else 0))
  | .name => do
    noteSelf env name
    afterFirst (if name = "." then newRelFromAbs w.expld.dot else foldSymbol env name)
  | .addr =>
    afterFirst (withOutput env name (pure ()) fun os =>
      if os.processedVma then newRel 0 (os.bfdSection.map .sec) else pure ())
  | .loadaddr => afterFirst (withOutput env name (pure ()) (loadAddr foldBase))
  | .sizeof =>
    afterFirst (withOutput env name (newNumber 0)
      (sectionNumber fun s => s.size / env.octetsPerByte))
  | .alignof =>
    afterFirst (withOutput env name (newNumber 0)
      (sectionNumber fun s => (1 : Vma) <<< s.alignmentPower))
  | .length => afterFirst (withRegion env name fun r => newNumber r.2)
  | .origin => afterFirst (withRegion env name fun r => newRelFromAbs r.1)
  | .constant =>
    if name = "MAXPAGESIZE" then newNumber env.maxpagesize
    else if name = "COMMONPAGESIZE" then newNumber env.commonpagesize
    else throw (.unknownConstant name)

/-! Assignments. -/

def Etree.isDot : Etree → Bool
  | .name .name n => n = "."
  | _ => false

def Etree.isValue (v : Vma) : Etree → Bool
  | .value x _ => x = v
  | _ => false

/-- `is_sym_value`. -/
def isSymValue (w : World) (v : Vma) : Etree → Bool
  | .name .name n =>
    (w.definedness n).any (fun d => d.byScript && d.iteration = env.iteration) &&
      (w.symbols (env.wrapped n)).any fun h =>
        h.type = .defined && h.sect = .abs && h.value = v
  | _ => false

def Etree.isDotNe0 : Etree → Bool
  | .binary (.op .ne) lhs rhs => lhs.isDot && rhs.isValue 0
  | _ => false

/-- `is_dot_plus_0`. -/
def isDotPlus0 (w : World) : Etree → Bool
  | .binary (.op .add) lhs rhs => lhs.isDot && (rhs.isValue 0 || isSymValue env w 0 rhs)
  | _ => false

def Etree.isAlignConditional : Etree → Bool
  | .unary (.op .align) (.trinary cond _ rhs) => cond.isDotNe0 && rhs.isValue 1
  | _ => false

/-- `SEC_KEEP` for a section that an assignment to dot makes larger. -/
def keepSection (src : Etree) : Fold Unit := do
  let w ← get
  let zero := w.expld.result.valid && w.expld.result.value = 0 &&
    (src.isValue 0 || isSymValue env w 0 src || isDotPlus0 env w src || src.isAlignConditional)
  match w.expld.sect with
  | .sec i =>
    if w.expld.phase = .mark && !zero then
      modify fun w =>
        { w with sections := fun j =>
            if j = i then { w.sections j with keep := true } else w.sections j }
    else pure ()
  | _ => pure ()

/-- The location counter moves. -/
def moveDot : Fold Unit := do
  let w ← get
  if !w.expld.result.valid || w.expld.sect = .und then
    if w.expld.phase ≠ .mark then throw .invalidDot else pure ()
  else if w.expld.dotp = none then throw .dotOutside
  else if w.expld.phase.sizes || w.expld.sect = .abs then
    let nextdot := w.expld.result.value + w.vma (w.expld.result.sect.getD w.expld.sect)
    if nextdot < w.expld.dot && w.expld.sect ≠ .abs then
      throw (.dotBackwards w.expld.dot nextdot)
    else setExpld fun e => { e with dot := nextdot, dotp := some nextdot }
  else pure ()

/-- An assignment to dot. -/
def assignDot (cls : AssignClass) (src : Etree) (foldSrc : Fold Unit) : Fold Unit := do
  let w ← get
  match cls with
  | .provide | .provided => throw .providedDot
  | .assign _ =>
    if w.expld.phase ≠ .first then do
      setExpld fun e => { e with assigningToDot := true }
      foldSrc
      setExpld fun e => { e with assigningToDot := false }
      keepSection env src
      moveDot
    else setResult .none

/-- A PROVIDE defines nothing: no one refers to the symbol, or an object has it. -/
def unwanted (w : World) (dst : String) : Bool :=
  (w.symbols (env.followed dst)).all fun h =>
    !(h.type = .new || h.type = .undefined || h.type = .undefweak || h.linkerDef)

/-- `update_definedness`. -/
def updateDefinedness (dst : String) (h : LinkHash) : Fold Unit := modify fun w =>
  let old := (w.definedness dst).getD ⟨false, false, false, .abs⟩
  let byObject := old.byObject || (!old.byScript && (h.type.isDefined || h.type = .common))
  let toDot := w.expld.phase = .final && w.expld.relFromAbs && w.expld.result.sect = some .abs
  let new := ⟨byObject, true, env.iteration, if toDot then env.sectionForDot else .abs⟩
  { w with definedness := fun n => if n = dst then some new else w.definedness n }

def isAssign : AssignClass → Bool
  | .assign _ => true
  | _ => false

def isDefsym : AssignClass → Bool
  | .assign defsym => defsym
  | _ => false

/-- The symbol gets the value; `foldCond` folds the condition of a conditional source again, to see
which name the type of the symbol comes from. -/
def defineSymbol (dst : String) (lineno : Nat) (foldCond : Fold Unit) : Fold Unit := do
  let w ← get
  let h := (w.symbols (env.followed dst)).getD .new
  let sect := w.expld.result.sect.getD w.expld.sect
  setSection (some sect)
  updateDefinedness env dst h
  setSymbol (env.followed dst) ⟨.defined, w.expld.result.value, sect, lineno = 0, true⟩
  foldCond

/-- The final phase without a value. -/
def forgetSymbol (dst : String) : Fold Unit := do
  let w ← get
  match w.symbols (env.followed dst) with
  | some h =>
    if h.type = .new then setSymbol (env.followed dst) { h with type := .undefined } else pure ()
  | none => pure ()

/-- The source has been folded. -/
def assignValue (cls : AssignClass) (dst : String) (lineno : Nat) (foldCond : Fold Unit) :
    Fold Unit := do
  let w ← get
  if (w.expld.result.valid && (w.expld.phase = .final || w.expld.assignName ≠ none)) ||
      ((w.expld.phase = .first || w.expld.phase = .mark) && isDefsym cls) then
    defineSymbol env dst lineno foldCond
  else if w.expld.phase = .final then forgetSymbol env dst
  else pure ()

/-- An assignment to a symbol. -/
def assignSymbol (cls : AssignClass) (dst : String) (lineno : Nat) (foldSrc foldCond : Fold Unit) :
    Fold Unit := do
  let w ← get
  match cls, unwanted env w dst with
  | .provide, true => pure ()
  | _, _ => do
    setExpld fun e => { e with assignName := some dst }
    foldSrc
    assignValue env cls dst lineno foldCond
    setExpld fun e => { e with assignName := none }

/-! The tree. -/

/-- `fold_trinary`. -/
def foldTrinary (foldCond foldLhs foldRhs : Fold Unit) : Fold Unit := do
  foldCond
  let w ← get
  if w.expld.result.valid then
    if w.expld.result.value ≠ 0 then foldLhs else foldRhs
  else pure ()

def foldRel (sect : SectionPtr) (v : Vma) : Fold Unit := do
  let w ← get
  if w.expld.phase ≠ .first then newRel (v + w.outputOffset sect) (w.outputSection sect)
  else setResult .none

def foldAssert (message : String) (foldChild : Fold Unit) : Fold Unit := do
  foldChild
  let w ← get
  if w.expld.phase = .final && w.expld.result.value = 0 then report (.assertion message)
  else pure ()

/-- A number of the script is an address outside of the output sections. -/
def newValue (v : Vma) : Fold Unit := do
  let w ← get
  if w.expld.sect = .abs && !env.saneExpr then newAbs v else newNumber v

def foldValue (v : Vma) (str : Option String) : Fold Unit := do
  newValue env v
  setExpld fun e => { e with result := { e.result with str := str } }

/-- `exp_fold_tree_1`; `foldBase` folds a load address that the tree asks for. -/
def foldTreeWith (foldBase : Etree → Fold Unit) : Etree → Fold Unit
  | .value v str => foldValue env v str
  | .rel sect v => foldRel sect v
  | .assert child message => foldAssert message (foldTreeWith foldBase child)
  | .unary code child => foldUnary env code (foldTreeWith foldBase child)
  | .binary code lhs rhs =>
    foldBinary env code rhs (foldTreeWith foldBase lhs) (foldTreeWith foldBase rhs)
  | .trinary cond lhs rhs =>
    foldTrinary (foldTreeWith foldBase cond) (foldTreeWith foldBase lhs) (foldTreeWith foldBase rhs)
  | .assign cls dst lineno src =>
    if dst = "." then assignDot env cls src (foldTreeWith foldBase src)
    else assignSymbol env cls dst lineno (foldTreeWith foldBase src)
      (match src with
        | .trinary cond _ _ => foldTreeWith foldBase cond
        | _ => pure ())
  | .name code name => foldName env foldBase code name

/-- With load addresses that lead to others `depth` times. -/
def foldTree : Nat → Etree → Fold Unit
  | 0 => foldTreeWith env fun _ => throw .depth
  | depth + 1 => foldTreeWith env (foldTree depth)

/-- `exp_fold_tree_1`, which may get a null pointer. -/
def expFoldTree1 (depth : Nat) : Option Etree → Fold Unit
  | none => setResult .none
  | some tree => foldTree env depth tree

end

end FusionBinutils.Ld.FoldTree
