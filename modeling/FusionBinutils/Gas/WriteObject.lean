import FusionBinutils.Gas.Frags

/-! From relaxed frags to the bytes of a section: `write_object_file`, `size_seg` and
`write_contents` (gas/write.c). -/
namespace FusionBinutils.Gas

variable {σ : Type}

/-- A section with its frags. -/
structure Seg (σ : Type) where
  chain : List (Frag σ)
  bss : Bool
  /-- `SEC_HAS_CONTENTS` -/
  hasContents : Bool
  size : Vma

/-- The address of a frag of any section. -/
def lookupSegs (segs : List (Seg σ)) (id : Nat) : Option Vma :=
  segs.findSome? fun s => lookupAddr s.chain id

def layoutOf (segs : List (Seg σ)) : Layout := fun id => (lookupSegs segs id).getD 0

/-- The layout with the addresses of one section given, between those before and after it. -/
def layoutAround (before after : List (Seg σ)) (here : Nat → Option Vma) : Layout := fun id =>
  (((lookupSegs before id).or (here id)).or (lookupSegs after id)).getD 0

/-- One round of `relax_seg` over the sections, and whether one of them changed. -/
def relaxSegs (env : SymEnv σ) (pass : Nat) :
    List (Seg σ) → List (Seg σ) → Option (List (Seg σ) × Bool × List Msg)
  | _, [] => some ([], false, [])
  | before, s :: after => do
    let (chain, ret, msgs) ← relaxSegment env (layoutAround before after) pass s.chain
    let s := { s with chain := chain }
    let (rest, ret', msgs') ← relaxSegs env pass (before ++ [s]) after
    return (s :: rest, ret || ret', msgs ++ msgs')

/-- The rounds of `write_object_file`, until nothing changes. -/
def relaxRounds (env : SymEnv σ) : Nat → Nat → List (Seg σ) → Option (List (Seg σ) × List Msg)
  | 0, _, _ => none
  | fuel + 1, pass, segs => do
    let (segs, changed, msgs) ← relaxSegs env pass [] segs
    if changed then
      let (segs, msgs') ← relaxRounds env fuel (pass + 1) segs
      return (segs, msgs ++ msgs')
    else return (segs, msgs)

/-- Alignments, `.org` and `.space` are filled up to the next frag. The quotient is unsigned. -/
def fillToNext (f : Frag σ) (next : Option (Frag σ)) : Option (Frag σ × List Msg) := do
  let next ← next
  if f.frVar = 0 then none
  else
    let offset := (next.frAddress - f.frAddress - f.frFix) / f.frVar
    if offset.toInt < 0 then
      some ({ f with frType := .fill, frOffset := 0 },
        [.bad ("attempt to .org/.space backwards? (" ++ toString offset.toInt ++ ")")])
    else some ({ f with frType := .fill, frOffset := offset }, [])

/-- `cvt_frag_to_fill`. -/
def cvtFragToFill (env : SymEnv σ) (lay : Layout) (f : Frag σ) (next : Option (Frag σ)) :
    Option (Frag σ × List Msg) :=
  match f.frType with
  | .align | .alignCode | .alignTest | .org | .space => fillToNext f next
  | .fill => some (f, [])
  | .leb128 => do
    let s ← f.frSymbol
    let bytes := outputLeb128 (env.value s lay) (f.frSubtype ≠ 0)
    let fix := f.frFix.toNat
    some ({ f with
      frType := .fill
      frFix := f.frFix + BitVec.ofNat 64 bytes.length
      frVar := 0
      frOffset := 0
      frSymbol := none
      frLiteral := fun i =>
        if fix ≤ i then bytes.getD (i - fix) (f.frLiteral i) else f.frLiteral i }, [])

def cvtChain (env : SymEnv σ) (lay : Layout) :
    List (Frag σ) → Option (List (Frag σ) × List Msg)
  | [] => some ([], [])
  | f :: rest => do
    let (f, msgs) ← cvtFragToFill env lay f rest.head?
    let (rest, msgs') ← cvtChain env lay rest
    return (f :: rest, msgs ++ msgs')

/-- `size_seg`, with the size that it sets: `md_section_align` adds nothing in this port, and a
section that BFD has filled already is left alone. -/
def sizeSeg (env : SymEnv σ) (lay : Layout) (s : Seg σ) :
    Option (Seg σ × Option Vma × List Msg) := do
  let (chain, msgs) ← cvtChain env lay s.chain
  let last ← chain.getLast?
  let size := last.frAddress + last.frFix
  if size = 0 ∧ s.size ≠ 0 ∧ s.hasContents then return ({ s with chain := chain }, none, msgs)
  else
    let hasContents := s.hasContents || (size != 0 && !s.bss)
    return ({ s with chain := chain, hasContents := hasContents, size := size }, some size, msgs)

/-- A call of `bfd_set_section_contents`. -/
structure Write where
  offset : Vma
  bytes : List BfdByte

/-- The copies of a fill literal that is longer than the buffer. -/
def fillOneByOne (literal : List BfdByte) (size : Vma) : Nat → Vma → List Write × Vma
  | 0, offset => ([], offset)
  | count + 1, offset =>
    let (writes, stop) := fillOneByOne literal size count (offset + size)
    (⟨offset, literal⟩ :: writes, stop)

/-- The copies of a fill literal, as many at a time as the buffer holds. -/
def fillByBuffer (literal : List BfdByte) (size : Vma) (nPerBuf count : Nat) (offset : Vma) :
    List Write × Vma :=
  if _h : count = 0 ∨ nPerBuf = 0 then ([], offset)
  else
    let n := min nPerBuf count
    let (writes, stop) := fillByBuffer literal size n (count - n) (offset + BitVec.ofNat 64 n * size)
    (⟨offset, (List.replicate n literal).flatten⟩ :: writes, stop)
termination_by count
decreasing_by omega

def writeFixed (f : Frag σ) (offset : Vma) : List Write :=
  if f.frFix ≠ 0 then [⟨offset, (List.range f.frFix.toNat).map f.frLiteral⟩] else []

/-- The copies of the fill literal, which stands behind the fixed part. -/
def writeFill (f : Frag σ) (offset : Vma) : List Write × Vma :=
  let literal := (List.range f.frVar.toNat).map fun i => f.frLiteral (f.frFix.toNat + i)
  if f.frVar ≠ 0 ∧ f.frOffset ≠ 0 then
    if 256 < f.frVar then fillOneByOne literal f.frVar f.frOffset.toNat offset
    else fillByBuffer literal f.frVar (256 / f.frVar.toNat) f.frOffset.toNat offset
  else ([], offset)

/-- The bytes of one frag, and the offset behind them. -/
def writeFrag (f : Frag σ) (offset : Vma) : Option (List Write × Vma) :=
  if f.frType ≠ .fill ∨ f.frOffset.toInt < 0 then none
  else
    let (writes, stop) := writeFill f (offset + f.frFix)
    some (writeFixed f offset ++ writes, stop)

/-- The writes of a frag and the offset at which they begin. -/
structure Emitted where
  start : Vma
  writes : List Write

/-- `write_contents` for a section that has contents: what is written for each frag, and the
offset at the end. -/
def writeContents : Vma → List (Frag σ) → Option (List Emitted × Vma)
  | offset, [] => some ([], offset)
  | offset, f :: rest => do
    let (writes, stop) ← writeFrag f offset
    let (out, total) ← writeContents stop rest
    return (⟨offset, writes⟩ :: out, total)

end FusionBinutils.Gas
