import FusionBinutils.Opcode.Table
import FusionBinutils.Bfd.Bytes

/-! The disassembler (opcodes/fusion-dis.c). -/
namespace FusionBinutils.Opcode

open Bfd

/-- One operand of a printed line. -/
inductive PrintOp where
  /-- a name of `fusion_gpreg_name` -/
  | gpr (n : InsnT)
  /-- a name of `fusion_gpreg_name` in parentheses -/
  | base (n : InsnT)
  /-- a name of `fusion_spreg_name` -/
  | spr (n : InsnT)
  /-- `%d` -/
  | dec (v : InsnT)
  /-- `0x%0nx` with the given number of digits -/
  | hex (digits : Nat) (v : InsnT)
  deriving DecidableEq, Repr

inductive Printed where
  | insn (name : String) (ops : List PrintOp)
  /-- the four bytes of a word taken for data -/
  | ascii (b3 b2 b1 b0 : BfdByte)
  /-- the arm of the switch that prints no text -/
  | nothing
  deriving DecidableEq, Repr

/-- The I-type arm: the index decides between a signed and an unsigned immediate. -/
def printI (insn : FusionOpcInfo) (w : InsnT) : Printed :=
  match insn.index.toNat with
  | 0 | 1 | 8 | 9 | 10 | 11 | 12 =>
    .insn insn.name [.gpr (getRd w), .gpr (getRsa w), .dec (sext12b (getImmI w))]
  | 2 | 3 | 5 | 6 | 7 => .insn insn.name [.gpr (getRd w), .gpr (getRsa w), .hex 3 (getImmI w)]
  | 4 => .insn insn.name [.gpr (getRd w), .hex 3 (getImmI w)]
  | _ => .insn "nri" [.gpr (getRd w), .gpr (getRsa w), .hex 3 (getImmI w)]

/-- The jump arm: a jump with `RSa` 0 is printed as one without a register. -/
def printJ (w : InsnT) : Printed :=
  if getRsa w = 0x00 then
    if getOpc w = opcJlnk then .insn "jal" [.dec (sext21b (getImmJ w))]
    else if getOpc w = opcJmp then .insn "j" [.dec (sext21b (getImmJ w))]
    else .insn "nri" []
  else
    if getOpc w = opcJlnk then .insn "jrl" [.hex 6 (getImmJ w), .base (getRsa w)]
    else if getOpc w = opcJmp then .insn "jr" [.hex 6 (getImmJ w), .base (getRsa w)]
    else .insn "nri" []

def printSys (insn : FusionOpcInfo) (w : InsnT) : Printed :=
  match insn.args with
  | .none => .insn insn.name []
  | .i => .insn insn.name [.hex 2 (getImmSys w)]
  | .rai => .insn insn.name [.gpr (getRsa w), .hex 2 (getImmSys w)]
  | .rda =>
    if getFunctSys w = 0x02 then .insn insn.name [.spr (getRd w), .gpr (getRsa w)]
    else if getFunctSys w = 0x03 then .insn insn.name [.gpr (getRd w), .spr (getRsa w)]
    else .nothing
  | .rdi => .insn insn.name [.gpr (getRd w), .hex 2 (getImmSys w)]
  | .rdai => .insn insn.name [.gpr (getRd w), .gpr (getRsa w), .hex 2 (getImmSys w)]
  | _ => .insn "nri_sys" []

/-- What is printed for a word; `none` would be a read past the end of a table. -/
def printWord (w : InsnT) : Option Printed :=
  let opc := getOpc w
  if opc = opcInt then do
    let insn ← fusionInsnR[(getAluop w).toNat]?
    return .insn insn.name [.gpr (getRd w), .gpr (getRsa w), .gpr (getRsb w)]
  else if opc = opcImm then do
    let insn ← fusionInsnI[(getAluop w).toNat]?
    return printI insn w
  else if opc = opcLd then do
    let insn ← fusionInsnL[(getFunctL w).toNat]?
    return .insn insn.name [.gpr (getRd w), .hex 3 (getImmL w), .base (getRsa w)]
  else if opc = opcLi then do
    let insn ← fusionInsnLI[(getDselLi w).toNat]?
    return .insn insn.name [.gpr (getRd w), .hex 4 (getImmLi w)]
  else if opc = opcSt then do
    let insn ← fusionInsnS[(getFunctS w).toNat]?
    return .insn insn.name [.gpr (getRsb w), .hex 3 (getImmS w), .base (getRsa w)]
  else if opc = opcJmp ∨ opc = opcJlnk then some (printJ w)
  else if opc = opcBranch then do
    let insn ← fusionInsnB[(getFunctB w).toNat]?
    return .insn insn.name [.gpr (getRsa w), .gpr (getRsb w), .dec (sext14b (getImmB w))]
  else if opc = opcSys then do
    let insn ← fusionInsnSYS[(getFunctSys w).toNat]?
    return printSys insn w
  -- `IS_CP_INSN` compares the six bits of the opcode with 0x11000000
  else if opc = 0x11000000 then some (.insn "cpinsn?" [])
  else if w = 0x00000000 then some (.insn "nop" [])
  else some (.insn "nri_unk" [])

/-- `print_insn_fusion`, given what `read_memory_func` answers. -/
def printInsnFusion (addr : Vma) (buf : Except Int Contents) : Except Int (Option Printed) := do
  let buf ← buf
  if addr > 0x2000000 then return some (.ascii (buf 3) (buf 2) (buf 1) (buf 0))
  else return printWord (wordAt buf 0)

end FusionBinutils.Opcode
