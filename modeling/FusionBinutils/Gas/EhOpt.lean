import FusionBinutils.Lib.BitField
import FusionBinutils.Lib.Endian
import FusionBinutils.Opcode.Encoding

/-! The assembler makes advances in frame sections shorter (gas/ehopt.c). -/
namespace FusionBinutils.Gas.EhOpt

def dwCfaAdvanceLoc : BfdByte := 0x40
def dwCfaAdvanceLoc1 : BfdByte := 0x02
def dwCfaAdvanceLoc2 : BfdByte := 0x03
def dwCfaAdvanceLoc4 : BfdByte := 0x04

/-- `X_op`, as far as the file tells the operators apart. -/
inductive XOp where
  | constant | symbol | subtract | divide | rightShift | other
  deriving DecidableEq, Repr

/-- `symbolS`: whether it has a `bsym`, and the expression that is its value. -/
structure SymbolS where
  id : Nat
  bsym : Bool
  valueOp : XOp
  valueNumber : Vma

structure ExpressionS where
  op : XOp
  addNumber : Vma
  addSymbol : SymbolS
  opSymbol : SymbolS

/-- A frag that waits for its advance (`rs_cfa`): `fr_subtype` holds the code alignment above three
bits for the length, `fr_opcode` and `fr_offset` the place of the opcode. -/
structure Cfa where
  frSubtype : BitVec 32
  loc4Frag : Nat
  loc4Fix : Nat

/-- A closed frag: its fixed part, and its variable part if it has one. -/
structure FragS where
  frLiteral : List BfdByte
  cfa : Option Cfa

/-- The frags of a section, which are known by their position, and the bytes of `frag_now`. -/
structure Section where
  frags : List FragS
  now : List BfdByte

/-- The bytes of the fixed parts. -/
def Section.bytes (s : Section) : List BfdByte := s.frags.flatMap FragS.frLiteral ++ s.now

def Section.fragNew (s : Section) : Section := ⟨s.frags ++ [⟨s.now, none⟩], []⟩

/-- `frag_grow`, when the room asks for so many new frags. -/
def Section.fragGrow (s : Section) : Nat → Section
  | 0 => s
  | k + 1 => s.fragNew.fragGrow k

/-- `frag_more`, and what is written there. -/
def Section.emit (s : Section) (grow : Nat) (bytes : List BfdByte) : Section :=
  let s := s.fragGrow grow
  { s with now := s.now ++ bytes }

/-- `frag_var (rs_cfa, 4, 0, ..)`. -/
def Section.fragVar (s : Section) (grow : Nat) (cfa : Cfa) : Section :=
  let s := s.fragGrow grow
  ⟨s.frags ++ [⟨s.now, some cfa⟩], []⟩

/-- `frag->fr_literal[fix] = op`. -/
def Section.patch (s : Section) (frag fix : Nat) (op : BfdByte) : Section :=
  if frag = s.frags.length then { s with now := s.now.set fix op }
  else { s with frags := s.frags.modify frag fun f => { f with frLiteral := f.frLiteral.set fix op } }

def Section.patchIf (s : Section) (frag fix : Nat) : Option BfdByte → Section
  | none => s
  | some op => s.patch frag fix op

/-- `struct cie_info`. -/
structure CieInfo where
  codeAlignment : Nat
  zAugmentation : Bool
  /-- an alignment of more than one byte is forgotten -/
  small : codeAlignment < 128

/-- The place `offset` in the frags of a section, each with its number. -/
def seek : List (List BfdByte × Nat) → Nat → Option (List (List BfdByte × Nat) × Nat)
  | [], _ => none
  | f :: fs, offset => if f.1.length ≤ offset then seek fs (offset - f.1.length) else some (f :: fs, offset)

/-- The augmentation up to its NUL, as far as there is room for it, and the place of the NUL. -/
def scanAugmentation : List (List BfdByte × Nat) → Nat → List BfdByte →
    Option (List BfdByte × List (List BfdByte × Nat) × Nat)
  | [], _, _ => none
  | f :: fs, offset, aug =>
    let run := (f.1.drop offset).takeWhile (· ≠ 0)
    if offset + run.length < f.1.length then
      some ((aug ++ run).take 9, f :: fs, offset + run.length)
    else scanAugmentation fs (offset + run.length - f.1.length) (aug ++ run)

/-- A fixup of the section: its frag, its place there and its size. -/
structure FixAt where
  frag : Nat
  pos : Nat
  size : Nat

/-- `get_cie_info`. The fixed part of `frag_now` is not known yet. -/
def getCieInfo (debugFrame : Bool) (s : Section) (fixes : List FixAt) : Option CieInfo := do
  let cieId : BfdByte := if debugFrame then 0xff else 0
  let frags := (s.frags.map FragS.frLiteral ++ [[]]).zipIdx
  let (fs, offset) ← seek frags 4
  let id := ((fs.head?.map Prod.fst).getD []).drop offset
  if id.take 4 ≠ [cieId, cieId, cieId, cieId] then none
  else do
    let (fs, offset) ← seek fs (offset + 4)
    if ((fs.head?.map Prod.fst).getD [])[offset]? ≠ some 1 then none
    else do
      let (aug, fs, offset) ← scanAugmentation fs (offset + 1) []
      let (fs, offset) ← seek fs (offset + 1)
      let (fs, offset) ←
        if aug = [] then some (fs, offset)
        else if aug = [0x65, 0x68] then
          -- a pointer, of a size that only its fixup knows
          let here := fixes.find? fun x => x.frag = (fs.head?.map Prod.snd).getD 0 ∧ x.pos = offset
          seek fs (offset + (here.map FixAt.size).getD 4)
        else if aug.head? ≠ some 0x7a then none
        else some (fs, offset)
      let code ← ((fs.head?.map Prod.fst).getD [])[offset]?
      some
        { codeAlignment := if code.toNat < 128 then code.toNat else 0
          zAugmentation := aug.head? = some 0x7a
          small := by split <;> omega }

/-- `enum frame_state`. -/
inductive FrameState where
  | idle | sawSize | sawCieOffset | sawPcBegin | seeingAugSize | skippingAug | waitLoc4 | sawLoc4
  | error
  deriving DecidableEq, Repr

/-- `struct frame_data`. -/
structure FrameData where
  state : FrameState
  cieInfoOk : Bool
  cieInfo : CieInfo
  sizeEndSym : Nat
  loc4Frag : Nat
  loc4Fix : Nat
  augSize : BitVec 32
  augShift : Nat

/-- The section by its name. `plain` is every section under `flag_traditional_format`. -/
inductive SectionKind where
  | plain | ehFrame | debugFrame
  deriving DecidableEq, Repr

/-- What a call of `check_eh_frame` sees beside the expression. -/
structure Env where
  /-- `S_IS_DEFINED` -/
  defined : Nat → Bool
  fixes : List FixAt
  /-- the new frags that the room for the bytes asks for -/
  grow : Nat

/-- What a call of `check_eh_frame` leaves: its static data, the frags, `*pnbytes`, whether it
made room for the bytes, whether it handled the expression, and the number of the frag that it set
up. -/
structure Checked where
  data : FrameData
  sect : Section
  nbytes : BitVec 32
  grown : Bool
  handled : Bool
  made : Option Nat

/-- `state_idle`. -/
def sawIdle (env : Env) (d : FrameData) (exp : ExpressionS) (nbytes : BitVec 32) : FrameData :=
  if nbytes = 4 ∧ (exp.op = .symbol ∨ exp.op = .subtract) ∧ ¬ env.defined exp.addSymbol.id then
    { d with state := .sawSize, sizeEndSym := exp.addSymbol.id }
  else d

/-- `state_saw_pc_begin`. -/
def sawPcBegin (kind : SectionKind) (env : Env) (d : FrameData) (s : Section) : FrameData :=
  let found := if d.cieInfoOk then some d.cieInfo
    else getCieInfo (kind = .debugFrame) s env.fixes
  match found with
  | none => { d with cieInfoOk := false, state := .error }
  | some info =>
    let d := { d with cieInfoOk := true, cieInfo := info }
    if info.zAugmentation then { d with state := .seeingAugSize, augSize := 0, augShift := 0 }
    else { d with state := .waitLoc4 }

/-- `state_seeing_aug_size`; -1 bytes are a number of a leb128 directive. -/
def seeAugSize (d : FrameData) (exp : ExpressionS) (nbytes : BitVec 32) : FrameData :=
  let d :=
    if nbytes = -1 ∧ exp.op = .constant then
      { d with augSize := exp.addNumber.setWidth 32, state := .skippingAug }
    else if nbytes = 1 ∧ exp.op = .constant then
      let byte := exp.addNumber.setWidth 8
      let d := { d with
        augSize := d.augSize ||| ((byte &&& 0x7f).setWidth 32 <<< d.augShift)
        augShift := d.augShift + 7 }
      if byte &&& 0x80 = 0 then { d with state := .skippingAug } else d
    else { d with state := .error }
  if d.state = .skippingAug ∧ d.augSize = 0 then { d with state := .waitLoc4 } else d

/-- `state_skipping_aug`. -/
def skipAug (d : FrameData) (nbytes : BitVec 32) : FrameData :=
  if nbytes.toInt < 0 then { d with state := .error }
  else
    let left := d.augSize - nbytes
    let d := { d with augSize := left }
    if left = 0 then { d with state := .waitLoc4 }
    else if left.toInt < 0 then { d with state := .error }
    else d

/-- `state_wait_loc4`. The place of the opcode is kept, to change it later. -/
def waitLoc4 (env : Env) (d : FrameData) (s : Section) (exp : ExpressionS) (nbytes : BitVec 32) :
    Checked :=
  if nbytes = 1 ∧ exp.op = .constant ∧ exp.addNumber = dwCfaAdvanceLoc4.setWidth 64 then
    let s := s.fragGrow env.grow
    ⟨{ d with state := .sawLoc4, loc4Frag := s.frags.length, loc4Fix := s.now.length }, s, nbytes,
      true, false, none⟩
  else ⟨d, s, nbytes, false, false, none⟩

/-- The constant case of `state_saw_loc4`. -/
def sawConstant (d : FrameData) (s : Section) (v : Vma) (nbytes : BitVec 32) : Checked :=
  let patched (op : BfdByte) := s.patch d.loc4Frag d.loc4Fix op
  if v.toInt < 0x40 then
    -- no more bytes needed
    ⟨d, patched ((dwCfaAdvanceLoc.setWidth 64 ||| v).setWidth 8), nbytes, false, true, none⟩
  else if v.toInt < 0x100 then ⟨d, patched dwCfaAdvanceLoc1, 1, false, false, none⟩
  else if v.toInt < 0x10000 then ⟨d, patched dwCfaAdvanceLoc2, 2, false, false, none⟩
  else ⟨d, s, nbytes, false, false, none⟩

/-- A difference over the code alignment. -/
def dividesByAlignment (d : FrameData) (exp : ExpressionS) : Bool :=
  (exp.op = .divide ∨ exp.op = .rightShift) ∧ 1 < d.cieInfo.codeAlignment ∧
    exp.addSymbol.bsym ∧ exp.opSymbol.bsym ∧ exp.addSymbol.valueOp = .subtract ∧
    exp.opSymbol.valueOp = .constant ∧
    (if exp.op = .divide then exp.opSymbol.valueNumber
      else 1#64 <<< exp.opSymbol.valueNumber.toNat) = .ofNat 64 d.cieInfo.codeAlignment

/-- `state_saw_loc4`. -/
def sawLoc4 (env : Env) (d : FrameData) (s : Section) (exp : ExpressionS) (nbytes : BitVec 32) :
    Checked :=
  let d := { d with state := .waitLoc4 }
  let var (subtype : BitVec 32) : Checked :=
    let s := s.fragVar env.grow ⟨subtype, d.loc4Frag, d.loc4Fix⟩
    ⟨d, s, nbytes, true, true, some (s.frags.length - 1)⟩
  if nbytes ≠ 4 then ⟨d, s, nbytes, false, false, none⟩
  else if exp.op = .constant then sawConstant d s exp.addNumber nbytes
  else if exp.op = .subtract ∧ d.cieInfo.codeAlignment = 1 then var (1#32 <<< 3)
  else if dividesByAlignment d exp then var (BitVec.ofNat 32 d.cieInfo.codeAlignment <<< 3)
  else ⟨d, s, nbytes, false, false, none⟩

/-- The end of the CIE or FDE. -/
def endOfSize (env : Env) (d : FrameData) : FrameData :=
  if d.state ≠ .idle ∧ env.defined d.sizeEndSym then { d with state := .idle } else d

/-- `check_eh_frame`. -/
def checkEhFrame (kind : SectionKind) (env : Env) (d : FrameData) (s : Section) (exp : ExpressionS)
    (nbytes : BitVec 32) : Checked :=
  let keep (d : FrameData) : Checked := ⟨d, s, nbytes, false, false, none⟩
  if kind = .plain then keep d
  else
    let d := endOfSize env d
    match d.state with
    | .idle => keep (sawIdle env d exp nbytes)
    -- assume whatever form it appears in, it appears atomically
    | .sawSize => keep { d with state := .sawCieOffset }
    | .sawCieOffset => keep { d with state := .sawPcBegin }
    | .sawPcBegin => keep (sawPcBegin kind env d s)
    | .seeingAugSize => keep (seeAugSize d exp nbytes)
    | .skippingAug => keep (skipAug d nbytes)
    | .waitLoc4 => waitLoc4 env d s exp nbytes
    | .sawLoc4 => sawLoc4 env d s exp nbytes
    | .error => keep d

/-- `emit_expr` for the kinds of operands here. A constant is stored; another expression leaves
cleared bytes and a fixup. -/
def emitExpr (kind : SectionKind) (env : Env) (d : FrameData) (s : Section) (exp : ExpressionS)
    (nbytes : BitVec 32) : Checked :=
  let c := checkEhFrame kind env d s exp nbytes
  if c.handled then c
  else
    let v := if exp.op = .constant then exp.addNumber.toNat else 0
    { c with
      sect := c.sect.emit (if c.grown then 0 else env.grow) (Endian.put true c.nbytes.toNat v) }

/-! Relaxation. -/

/-- `diff /= ca`, unless the assertion fails. -/
def scaled (frSubtype : BitVec 32) (diff : Vma) : Option Vma :=
  let ca := frSubtype >>> 3
  if ca = 0 then none else some (diff.sdiv (ca.setWidth 64))

def lengthFor (diff : Vma) : Nat :=
  if diff.toInt < 0x40 then 0
  else if diff.toInt < 0x100 then 1
  else if diff.toInt < 0x10000 then 2
  else 4

/-- `eh_frame_estimate_size_before_relax`: the subtype afterwards, and the estimate. -/
def estimateSizeBeforeRelax (frSubtype : BitVec 32) (diff : Vma) : Option (BitVec 32 × Nat) :=
  (scaled frSubtype diff).map fun diff =>
    ((frSubtype &&& ~~~7) ||| .ofNat 32 (lengthFor diff), lengthFor diff)

/-- `eh_frame_relax_frag`: the subtype afterwards, and the growth. -/
def relaxFrag (frSubtype : BitVec 32) (diff : Vma) : Option (BitVec 32 × Int) :=
  (estimateSizeBeforeRelax frSubtype diff).map fun (subtype, newsize) =>
    (subtype, (newsize : Int) - (frSubtype &&& 7).toNat)

/-- A look that relaxation takes at the frag, with the difference of the symbols at that time. -/
inductive Pass where
  | estimate (diff : Vma)
  | relax (diff : Vma)

def Pass.diff : Pass → Vma
  | .estimate diff | .relax diff => diff

/-- One pass over the subtype and the length that relaxation counts with. -/
def runPass (x : BitVec 32 × Int) : Pass → Option (BitVec 32 × Int)
  | .estimate diff =>
    (estimateSizeBeforeRelax x.1 diff).map fun (subtype, size) => (subtype, (size : Int))
  | .relax diff => (relaxFrag x.1 diff).map fun (subtype, growth) => (subtype, x.2 + growth)

/-- Relaxation starts with an estimate. -/
def relaxation (frSubtype : BitVec 32) (first : Vma) (rest : List Pass) : Option (BitVec 32 × Int) :=
  (.estimate first :: rest).foldlM runPass (frSubtype, 0)

/-- The difference at the last pass, which the end of relaxation leaves as it is. -/
def lastDiff (first : Vma) (rest : List Pass) : Vma := (rest.getLast?.map Pass.diff).getD first

/-- The opcode, unless it stays as it is, and the operand that `eh_frame_convert_frag` writes;
`none` is a failed assertion. -/
def convertAdvance (frSubtype : BitVec 32) (diff : Vma) : Option (Option BfdByte × List BfdByte) := do
  let diff ← scaled frSubtype diff
  match (frSubtype &&& 7).toNat with
  | 0 =>
    if diff.toInt < 0x40 then some (some ((dwCfaAdvanceLoc.setWidth 64 ||| diff).setWidth 8), [])
    else none
  | 1 => if diff.toInt < 0x100 then some (some dwCfaAdvanceLoc1, [diff.setWidth 8]) else none
  | 2 =>
    if diff.toInt < 0x10000 then some (some dwCfaAdvanceLoc2, Endian.put true 2 diff.toNat)
    else none
  | _ => some (none, Endian.put true 4 diff.toNat)

/-- Relaxation of the frag with the number `i`: the section afterwards, and the length of the
variable part that it counts with. -/
def relaxCfa (s : Section) (i : Nat) (first : Vma) (rest : List Pass) : Option (Section × Int) := do
  let frag ← s.frags[i]?
  let cfa ← frag.cfa
  let (subtype, size) ← relaxation cfa.frSubtype first rest
  let frag := { frag with cfa := some { cfa with frSubtype := subtype } }
  some ({ s with frags := s.frags.set i frag }, size)

/-- `eh_frame_convert_frag`. -/
def convertFrag (s : Section) (i : Nat) (diff : Vma) : Option Section := do
  let frag ← s.frags[i]?
  let cfa ← frag.cfa
  let (op, operand) ← convertAdvance cfa.frSubtype diff
  let s := s.patchIf cfa.loc4Frag cfa.loc4Fix op
  some { s with frags := s.frags.modify i fun f => ⟨f.frLiteral ++ operand, none⟩ }

end FusionBinutils.Gas.EhOpt
