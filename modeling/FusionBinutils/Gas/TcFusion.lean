import FusionBinutils.Opcode.Table
import FusionBinutils.Bfd.ElfFusion
import FusionBinutils.Gas.Symbols

/-! The fusion port of the assembler (gas/config/tc-fusion.c). Operands are taken as parsed:
registers by number in the order of the text, and the expression. -/
namespace FusionBinutils.Gas

open Opcode Bfd

/-- `fusion_reloc_type_lookup`. -/
def fusionRelocTypeLookup : RelocCode → Option RFusion
  | .none => some .none
  | .r32 => some .r32
  | .r16 => some .li
  | .fusionHi16 => some .lui
  | .r16Pcrel => some .liPcrel
  | .hi16Pcrel => some .luiPcrel
  | .r8 => some .sys
  | .fusion12 => some .i
  | .fusionStore => some .store
  | .fusionLoad => some .load
  | .fusion14Pcrel => some .branch
  | .fusion21Pcrel => some .jump
  | .fusion21 => some .jumpO
  | .unused => Option.none

/-- `fusion_apply_const_reloc`; `none` is its `abort`. -/
def fusionApplyConstReloc (code : RelocCode) (value : Vma) : Option InsnT :=
  match code with
  | .r32 => some (value.setWidth 32)
  | .r16Pcrel | .r16 => some ((getImmLi value).setWidth 32)
  | .hi16Pcrel | .fusionHi16 => some ((getImmLi (value >>> 16)).setWidth 32)
  | .r8 => some ((genSysImm value).setWidth 32)
  | .fusionStore => some ((genSImm value).setWidth 32)
  | .fusionLoad => some ((genLImm value).setWidth 32)
  | .fusion12 => some ((genIImm value).setWidth 32)
  | .fusion21 => some ((genJImm value).setWidth 32)
  | _ => Option.none

/-- The jump cases of `return_reloc`; `none` is its `as_fatal`. -/
def returnRelocJump (insn : FusionOpcInfo) : Option RelocCode :=
  if insn.cpid = .macroInsn then some .fusion21
  else
    match insn.index.toNat with
    | 0 => some .fusion21Pcrel
    | 1 => some .fusion21
    | _ => Option.none

/-- `return_reloc`. Its comments name the upper loads as 3 to 5 and 11 to 13; the table has them
at 4 to 6 and 12 to 14. -/
def returnReloc (insn : FusionOpcInfo) : Option RelocCode :=
  if insn.opc = opcInt then some .unused
  else if insn.opc = opcImm then some .fusion12
  else if insn.opc = opcLd then some .fusionLoad
  else if insn.opc = opcSt then some .fusionStore
  else if insn.opc = opcLi then
    match insn.index.toNat with
    | 3 | 4 | 5 | 11 | 12 | 13 => some .fusionHi16
    | _ => some .r16
  else if insn.opc = opcJmp then returnRelocJump insn
  else if insn.opc = opcJlnk then returnRelocJump insn
  else if insn.opc = opcBranch then some .fusion14Pcrel
  else if insn.opc = opcSys then
    if insn.immMask = maskNoImm then some .unused else some .r8
  else some .unused

/-- The operand text: what `parse_register_operand` returns for each register in turn, and the
expression. -/
structure OperandText where
  regs : List InsnT
  expr : ExpressionS

/-- The `n`-th register of the text; -1 is the answer for what is no register. -/
def OperandText.reg (txt : OperandText) (n : Nat) : InsnT := txt.regs.getD n (-1)

/-- The locals `Rd`, `RSa`, `RSb` and `imm` of `assemble_insn_bin`, and `imm_expr`. -/
structure Operands where
  rd : InsnT
  rsa : InsnT
  rsb : InsnT
  imm : InsnT
  expr : ExpressionS
  deriving DecidableEq

def Operands.init : Operands := ⟨0, 0, 0, 0, ⟨.absent, 0⟩⟩

/-- `parse_imm`; an unused relocation makes it `abort`. -/
def parseImm (txt : OperandText) (reloc : RelocCode) (o : Operands) : Option Operands :=
  match reloc with
  | .unused => Option.none
  | _ => some { o with imm := txt.expr.addNumber.setWidth 32, expr := txt.expr }

/-- The operand switch for instructions without an immediate. -/
def parseRegs (args : UseOp) (txt : OperandText) : Operands :=
  match args with
  | .rdab => { Operands.init with rd := txt.reg 0, rsa := txt.reg 1, rsb := txt.reg 2 }
  | .rda => { Operands.init with rd := txt.reg 0, rsa := txt.reg 1 }
  | .rab => { Operands.init with rsa := txt.reg 0, rsb := txt.reg 1 }
  | _ => .init

/-- The operand switch for instructions with an immediate. It has no case for `USE_RDA`. -/
def parseWithImm (insn : FusionOpcInfo) (txt : OperandText) (reloc : RelocCode) :
    Option Operands :=
  match insn.args with
  | .rdai => parseImm txt reloc { Operands.init with rd := txt.reg 0, rsa := txt.reg 1 }
  | .rdi => parseImm txt reloc { Operands.init with rd := txt.reg 0 }
  | .rai => parseImm txt reloc { Operands.init with rsa := txt.reg 0 }
  | .rabi => parseImm txt reloc { Operands.init with rsa := txt.reg 0, rsb := txt.reg 1 }
  | .rdaiO => parseImm txt reloc { Operands.init with rd := txt.reg 0, rsa := txt.reg 1 }
  | .raiO =>
    let rsa := if insn.cpid = .macroInsn then 0 else txt.reg 0
    parseImm txt reloc { Operands.init with rsa := rsa }
  -- a store names its source before the address register
  | .rabiO => parseImm txt reloc { Operands.init with rsb := txt.reg 0, rsa := txt.reg 1 }
  | .i => parseImm txt reloc .init
  | _ => some .init

def isZext32BitNum (x : Vma) : Bool :=
  (x &&& ~~~0xffffffff#64) == 0 || (x &&& ~~~0x7fffffff#64) == ~~~0xffffffff#64

def normalizeConstantExpr (ex : ExpressionS) : ExpressionS :=
  let fixed : ExpressionS :=
    { ex with addNumber := ((ex.addNumber &&& 0xffffffff#64) ^^^ 0x80000000#64) - 0x80000000#64 }
  match ex.op with
  | .constant | .symbol _ => if isZext32BitNum ex.addNumber then fixed else ex
  | _ => ex

def checkAbsoluteExpr (insn : FusionOpcInfo) (ex : ExpressionS) : ExpressionS × List String :=
  let msgs :=
    match ex.op with
    | .big => ["unsupported large constand; dat num too numb"]
    | .constant => []
    | _ => ["instruction " ++ insn.name ++ " requires absolute expression; get that outa here"]
  (normalizeConstantExpr ex, msgs)

/-- What `assemble_insn_bin` leaves in `ip->insn_word`, `imm_expr` and `imm_reloc`. -/
structure Assembled where
  word : InsnT
  expr : ExpressionS
  reloc : RelocCode
  msgs : List String
  deriving DecidableEq

/-- The switch over the opcode. -/
def encodeOperands (insn : FusionOpcInfo) (o : Operands) (reloc : RelocCode) : Assembled :=
  let jumpReloc := if o.rsa ≠ 0 then RelocCode.fusion21 else reloc
  if insn.opc = opcInt then ⟨makeRType o.rd o.rsa o.rsb 0 insn.index, o.expr, reloc, []⟩
  else if insn.opc = opcImm then
    let (expr, msgs) := checkAbsoluteExpr insn o.expr
    ⟨makeIType o.rd o.rsa o.imm insn.index, expr, reloc, msgs⟩
  else if insn.opc = opcLd then ⟨makeLType o.rd o.rsa insn.index o.imm, o.expr, reloc, []⟩
  else if insn.opc = opcSt then ⟨makeSType insn.index o.rsa o.rsb o.imm, o.expr, reloc, []⟩
  else if insn.opc = opcLi then ⟨makeLiType o.rd insn.index o.imm, o.expr, reloc, []⟩
  else if insn.opc = opcJmp then ⟨makeJType o.rsa o.imm, o.expr, jumpReloc, []⟩
  else if insn.opc = opcJlnk then ⟨makeJlType o.rsa o.imm, o.expr, jumpReloc, []⟩
  else if insn.opc = opcBranch then
    ⟨makeBType o.rsa o.rsb o.imm insn.index, o.expr, reloc, []⟩
  else if insn.opc = opcSys then ⟨makeSysType o.rd o.rsa insn.index o.imm, o.expr, reloc, []⟩
  else if insn.opc = 0 then ⟨0, o.expr, reloc, []⟩
  else ⟨0, o.expr, reloc, ["Unknown opcode"]⟩

/-- `assemble_insn_bin`: `none` when it aborts or returns `FALSE`. -/
def assembleInsnBin (insn : FusionOpcInfo) (txt : OperandText) : Option Assembled := do
  let reloc ← returnReloc insn
  if insn.immMask = maskNoImm then
    let o := parseRegs insn.args txt
    if o.rd = -1 ∨ o.rsa = -1 ∨ o.rsb = -1 then Option.none
    else return encodeOperands insn o reloc
  else
    let o ← parseWithImm insn txt reloc
    return encodeOperands insn o reloc

/-- `append_insn`: the fixup of an instruction, if it needs one. The word itself goes to the same
place (`move_insn`, `install_insn`). -/
def appendInsn (a : Assembled) (frag : FragRef) (pos : Vma) : Option (NewFix × List String) := do
  let t ← fusionRelocTypeLookup a.reloc
  let howto ← fusionElfHowtoTable[t.number]?
  let size ← bfdGetRelocSize howto
  return fixNewExp frag pos size a.expr false a.reloc

/-- `md_pcrel_from`. -/
def mdPcrelFrom (fix : FixS) : Vma := fix.fxWhere + fix.fxFrag.frAddress

/-- `(signed int) delta` lies outside the bounds. -/
def outsideInt (lo hi : Int) (delta : Vma) : Bool :=
  decide ((delta.setWidth 32).toInt < lo ∨ hi < (delta.setWidth 32).toInt)

/-- The result of `md_apply_fix`: the fixup, the literal of its frag, the messages. -/
structure Applied where
  fix : FixS
  buf : Contents
  msgs : List String

/-- Or a value onto the word at the fixup. -/
def orAtFix (fix : FixS) (v : Vma) (buf : Contents) : Contents :=
  bfdPutb32 (v ||| bfdGetb32 buf fix.fxWhere) buf fix.fxWhere

/-- The cases for pc-relative codes: nothing happens for a zero value or without a symbol. -/
def applyPcrel (fix : FixS) (val : Vma) (buf : Contents) (lo hi : Int) (msg : String)
    (gen : Vma → Vma) : Applied :=
  match fix.fxAddsy with
  | Option.none => ⟨fix, buf, []⟩
  | some sym =>
    if val = 0 then ⟨fix, buf, []⟩
    else
      let delta := sym.value + val - mdPcrelFrom fix
      ⟨fix, orAtFix fix (gen delta) buf, if outsideInt lo hi delta then [msg] else []⟩

/-- `md_apply_fix`; `none` is its `as_fatal`. -/
def mdApplyFix (fix : FixS) (val : Vma) (buf : Contents) : Option Applied :=
  let fix := { fix with fxAddnumber := val }
  let done := { fix with fxDone := fix.fxDone || fix.fxAddsy.isNone }
  match fix.fxRType with
  | .r32 | .r8 | .fusionHi16 | .r16 | .fusionStore | .fusionLoad | .fusion12 => do
    let c ← fusionApplyConstReloc fix.fxRType val
    return ⟨done, orAtFix fix (c.setWidth 64) buf, []⟩
  | .fusion14Pcrel =>
    some (applyPcrel fix val buf (-8192) 8191 "too large pc relative branch" genBImm)
  | .fusion21Pcrel =>
    some (applyPcrel fix val buf (-1048576) 1048576 "too large pc relative jump" genJImm)
  | .r16Pcrel | .hi16Pcrel =>
    some (applyPcrel fix val buf (-32768) 32767
      "too large pc relative load. No loading in a white zone" genLiImm)
  | .fusion21 =>
    if val = 0 then some ⟨fix, buf, []⟩
    else
      match fix.fxAddsy with
      | some sym =>
        let target := sym.value + val
        some ⟨fix, orAtFix fix (genJImm target) buf,
          if 0x001fffff#64 < target then ["too large jump offset"] else []⟩
      | Option.none => do
        let c ← fusionApplyConstReloc fix.fxRType val
        return ⟨{ fix with fxDone := true }, orAtFix fix (c.setWidth 64) buf, []⟩
  | .unused | .none => Option.none

/-- `arelent`. An address or addend that `tc_gen_reloc` leaves unset is `none`. -/
structure Arelent where
  sym : PlainSym
  address : Option Vma
  addend : Option Vma
  howto : RFusion

/-- `tc_gen_reloc`, with its messages. -/
def tcGenReloc (fix : FixS) (addsy : PlainSym) : Option Arelent × List String :=
  let address := fix.fxFrag.frAddress + fix.fxWhere
  let delta := fix.fxFrag.frAddress + fix.fxAddnumber
  let make (address addend : Option Vma) (msgs : List String) : Option Arelent × List String :=
    match fusionRelocTypeLookup fix.fxRType with
    | some t => (some ⟨addsy, address, addend, t⟩, msgs)
    | Option.none => (Option.none, msgs ++ ["Cannot represent relocation type"])
  match fix.fxRType with
  | .fusion21Pcrel =>
    if outsideInt (-1048576) 1048575 delta then
      make Option.none Option.none ["too large pc relative jump"]
    else make (some address) (some (genJImm delta)) []
  | .fusion14Pcrel =>
    if outsideInt (-8192) 8191 delta then
      make Option.none Option.none ["too large pc relative branch"]
    else make (some address) (some delta) []
  | .fusion21 => make (some address) (some (genJImm fix.fxAddnumber)) []
  | _ => make (some address) (some fix.fxAddnumber) []

end FusionBinutils.Gas
