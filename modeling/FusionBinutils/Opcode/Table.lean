import FusionBinutils.Opcode.Encoding

/-! The instruction tables (opcodes/fusion-opc.c). -/
namespace FusionBinutils.Opcode

/-- The `USE_` constants: which operands an instruction takes. -/
inductive UseOp where
  | none | rdab | rdai | rdi | rabi | rai | i | rda | rab | rabiO | rdaiO | raiO
  deriving DecidableEq, Repr

/-- The `FRMT_` constants. -/
inductive Frmt where
  | r | i | l | li | s | j | b | sys
  deriving DecidableEq, Repr

/-- The `CPID_` constants. -/
inductive Cpid where
  | main | macroInsn
  deriving DecidableEq, Repr

/-! Macro ids. -/

def mLa : InsnT := 0
def mCall : InsnT := 1
def mRet : InsnT := 2

/-- `fusion_opc_info_t`. -/
structure FusionOpcInfo where
  name : String
  index : InsnT
  args : UseOp
  frmt : Frmt
  cpid : Cpid
  immMask : InsnT
  opc : InsnT
  deriving DecidableEq, Repr

def fusionInsnR : List FusionOpcInfo :=
  [⟨"add", 0x00, .rdab, .r, .main, maskNoImm, opcInt⟩,
   ⟨"sub", 0x01, .rdab, .r, .main, maskNoImm, opcInt⟩,
   ⟨"addu", 0x02, .rdab, .r, .main, maskNoImm, opcInt⟩,
   ⟨"subu", 0x03, .rdab, .r, .main, maskNoImm, opcInt⟩,
   ⟨"not", 0x04, .rdab, .r, .main, maskNoImm, opcInt⟩,
   ⟨"and", 0x05, .rdab, .r, .main, maskNoImm, opcInt⟩,
   ⟨"or", 0x06, .rdab, .r, .main, maskNoImm, opcInt⟩,
   ⟨"xor", 0x07, .rdab, .r, .main, maskNoImm, opcInt⟩,
   ⟨"sal", 0x08, .rdab, .r, .main, maskNoImm, opcInt⟩,
   ⟨"sar", 0x09, .rdab, .r, .main, maskNoImm, opcInt⟩,
   ⟨"sll", 0x0a, .rdab, .r, .main, maskNoImm, opcInt⟩,
   ⟨"slr", 0x0b, .rdab, .r, .main, maskNoImm, opcInt⟩,
   ⟨"comp", 0x0c, .rdab, .r, .main, maskNoImm, opcInt⟩,
   ⟨"nri", 0x0d, .none, .r, .main, maskNoImm, opcInt⟩,
   ⟨"nri", 0x0e, .none, .r, .main, maskNoImm, opcInt⟩,
   ⟨"nri", 0x0f, .none, .r, .main, maskNoImm, opcInt⟩,
   ⟨"nop", 0x10, .none, .r, .main, maskNoImm, opcInt⟩]

def fusionInsnI : List FusionOpcInfo :=
  [⟨"addi", 0x00, .rdai, .i, .main, maskImmI, opcImm⟩,
   ⟨"subi", 0x01, .rdai, .i, .main, maskImmI, opcImm⟩,
   ⟨"addui", 0x02, .rdai, .i, .main, maskImmI, opcImm⟩,
   ⟨"subui", 0x03, .rdai, .i, .main, maskImmI, opcImm⟩,
   ⟨"noti", 0x04, .rdi, .i, .main, maskImmI, opcImm⟩,
   ⟨"andi", 0x05, .rdai, .i, .main, maskImmI, opcImm⟩,
   ⟨"ori", 0x06, .rdai, .i, .main, maskImmI, opcImm⟩,
   ⟨"xori", 0x07, .rdai, .i, .main, maskImmI, opcImm⟩,
   ⟨"sali", 0x08, .rdai, .i, .main, maskImmI, opcImm⟩,
   ⟨"sari", 0x09, .rdai, .i, .main, maskImmI, opcImm⟩,
   ⟨"slli", 0x0a, .rdai, .i, .main, maskImmI, opcImm⟩,
   ⟨"slri", 0x0b, .rdai, .i, .main, maskImmI, opcImm⟩,
   ⟨"compi", 0x0c, .rdai, .i, .main, maskImmI, opcImm⟩,
   ⟨"nri", 0x0d, .none, .i, .main, maskNoImm, opcImm⟩,
   ⟨"nri", 0x0e, .none, .i, .main, maskNoImm, opcImm⟩,
   ⟨"nri", 0x0f, .none, .i, .main, maskNoImm, opcImm⟩]

def fusionInsnL : List FusionOpcInfo :=
  [⟨"lw", 0x00, .rdai, .l, .main, maskImmL, opcLd⟩,
   ⟨"lh", 0x01, .rdai, .l, .main, maskImmL, opcLd⟩,
   ⟨"lth", 0x02, .rdai, .l, .main, maskImmL, opcLd⟩,
   ⟨"lb", 0x03, .rdai, .l, .main, maskImmL, opcLd⟩]

def fusionInsnLI : List FusionOpcInfo :=
  [⟨"li", 0x00, .rdi, .li, .main, maskImmLi, opcLi⟩,
   ⟨"lsi", 0x01, .rdi, .li, .main, maskImmLi, opcLi⟩,
   ⟨"lgi", 0x02, .rdi, .li, .main, maskImmLi, opcLi⟩,
   ⟨"nri", 0x03, .none, .li, .main, maskNoImm, opcLi⟩,
   ⟨"lui", 0x04, .rdi, .li, .main, maskImmLi, opcLi⟩,
   ⟨"lusi", 0x05, .rdi, .li, .main, maskImmLi, opcLi⟩,
   ⟨"lugi", 0x06, .rdi, .li, .main, maskImmLi, opcLi⟩,
   ⟨"nri", 0x07, .none, .li, .main, maskNoImm, opcLi⟩,
   ⟨"lni", 0x08, .rdi, .li, .main, maskImmLi, opcLi⟩,
   ⟨"lnsi", 0x09, .rdi, .li, .main, maskImmLi, opcLi⟩,
   ⟨"lngi", 0x0a, .rdi, .li, .main, maskImmLi, opcLi⟩,
   ⟨"nri", 0x0b, .none, .li, .main, maskNoImm, opcLi⟩,
   ⟨"luni", 0x0c, .rdi, .li, .main, maskImmLi, opcLi⟩,
   ⟨"lunsi", 0x0d, .rdi, .li, .main, maskImmLi, opcLi⟩,
   ⟨"lungi", 0x0e, .rdi, .li, .main, maskImmLi, opcLi⟩,
   ⟨"nri", 0x0f, .none, .li, .main, maskNoImm, opcLi⟩]

def fusionInsnS : List FusionOpcInfo :=
  [⟨"sw", 0x00, .rabi, .s, .main, maskImmS, opcSt⟩,
   ⟨"sh", 0x01, .rabi, .s, .main, maskImmS, opcSt⟩,
   ⟨"sth", 0x02, .rabi, .s, .main, maskImmS, opcSt⟩,
   ⟨"sb", 0x03, .rabi, .s, .main, maskImmS, opcSt⟩]

def fusionInsnB : List FusionOpcInfo :=
  [⟨"beq", 0x00, .rabi, .b, .main, maskImmB, opcBranch⟩,
   ⟨"bne", 0x01, .rabi, .b, .main, maskImmB, opcBranch⟩,
   ⟨"bgt", 0x02, .rabi, .b, .main, maskImmB, opcBranch⟩,
   ⟨"blt", 0x03, .rabi, .b, .main, maskImmB, opcBranch⟩]

/-- From 0x07 on every entry is a `nri`. -/
def fusionInsnSYS : List FusionOpcInfo :=
  [⟨"syscall", 0x00, .rdai, .sys, .main, maskImmSys, opcSys⟩,
   ⟨"sysret", 0x01, .rdai, .sys, .main, maskImmSys, opcSys⟩,
   ⟨"stspr", 0x02, .rda, .sys, .main, maskImmSys, opcSys⟩,
   ⟨"ldspr", 0x03, .rda, .sys, .main, maskImmSys, opcSys⟩,
   ⟨"sync", 0x04, .none, .sys, .main, maskNoImm, opcSys⟩,
   ⟨"pmir", 0x05, .i, .sys, .main, maskImmSys, opcSys⟩,
   ⟨"pmd", 0x06, .i, .sys, .main, maskImmSys, opcSys⟩] ++
  (List.range 249).map fun k =>
    ⟨"nri", BitVec.ofNat 32 (7 + k), .none, .sys, .main, maskNoImm, 0x08⟩

/-- The table of the assembler, up to its null entry. -/
def fusionInsnAll : List FusionOpcInfo :=
  [⟨"nop", 0x00, .none, .r, .main, maskNoImm, 0x00⟩,
   ⟨"add", 0x00, .rdab, .r, .main, maskNoImm, opcInt⟩,
   ⟨"sub", 0x01, .rdab, .r, .main, maskNoImm, opcInt⟩,
   ⟨"addu", 0x02, .rdab, .r, .main, maskNoImm, opcInt⟩,
   ⟨"subu", 0x03, .rdab, .r, .main, maskNoImm, opcInt⟩,
   ⟨"not", 0x04, .rdab, .r, .main, maskNoImm, opcInt⟩,
   ⟨"and", 0x05, .rdab, .r, .main, maskNoImm, opcInt⟩,
   ⟨"or", 0x06, .rdab, .r, .main, maskNoImm, opcInt⟩,
   ⟨"xor", 0x07, .rdab, .r, .main, maskNoImm, opcInt⟩,
   ⟨"sal", 0x08, .rdab, .r, .main, maskNoImm, opcInt⟩,
   ⟨"sar", 0x09, .rdab, .r, .main, maskNoImm, opcInt⟩,
   ⟨"sll", 0x0a, .rdab, .r, .main, maskNoImm, opcInt⟩,
   ⟨"slr", 0x0b, .rdab, .r, .main, maskNoImm, opcInt⟩,
   ⟨"comp", 0x0c, .rdab, .r, .main, maskNoImm, opcInt⟩,
   ⟨"nri", 0x0d, .none, .r, .main, maskNoImm, opcInt⟩,
   ⟨"addi", 0x00, .rdai, .i, .main, maskImmI, opcImm⟩,
   ⟨"subi", 0x01, .rdai, .i, .main, maskImmI, opcImm⟩,
   ⟨"addui", 0x02, .rdai, .i, .main, maskImmI, opcImm⟩,
   ⟨"subui", 0x03, .rdai, .i, .main, maskImmI, opcImm⟩,
   ⟨"noti", 0x04, .rdi, .i, .main, maskImmI, opcImm⟩,
   ⟨"andi", 0x05, .rdai, .i, .main, maskImmI, opcImm⟩,
   ⟨"ori", 0x06, .rdai, .i, .main, maskImmI, opcImm⟩,
   ⟨"xori", 0x07, .rdai, .i, .main, maskImmI, opcImm⟩,
   ⟨"sali", 0x08, .rdai, .i, .main, maskImmI, opcImm⟩,
   ⟨"sari", 0x09, .rdai, .i, .main, maskImmI, opcImm⟩,
   ⟨"slli", 0x0a, .rdai, .i, .main, maskImmI, opcImm⟩,
   ⟨"slri", 0x0b, .rdai, .i, .main, maskImmI, opcImm⟩,
   ⟨"compi", 0x0c, .rdai, .i, .main, maskImmI, opcImm⟩,
   ⟨"lw", 0x00, .rdaiO, .l, .main, maskImmL, opcLd⟩,
   ⟨"lh", 0x01, .rdaiO, .l, .main, maskImmL, opcLd⟩,
   ⟨"lth", 0x02, .rdaiO, .l, .main, maskImmL, opcLd⟩,
   ⟨"lb", 0x03, .rdaiO, .l, .main, maskImmL, opcLd⟩,
   ⟨"li", 0x00, .rdi, .li, .main, maskImmLi, opcLi⟩,
   ⟨"lsi", 0x01, .rdi, .li, .main, maskImmLi, opcLi⟩,
   ⟨"lgi", 0x02, .rdi, .li, .main, maskImmLi, opcLi⟩,
   ⟨"lui", 0x04, .rdi, .li, .main, maskImmLi, opcLi⟩,
   ⟨"lusi", 0x05, .rdi, .li, .main, maskImmLi, opcLi⟩,
   ⟨"lugi", 0x06, .rdi, .li, .main, maskImmLi, opcLi⟩,
   ⟨"lni", 0x08, .rdi, .li, .main, maskImmLi, opcLi⟩,
   ⟨"lnsi", 0x09, .rdi, .li, .main, maskImmLi, opcLi⟩,
   ⟨"lngi", 0x0a, .rdi, .li, .main, maskImmLi, opcLi⟩,
   ⟨"luni", 0x0c, .rdi, .li, .main, maskImmLi, opcLi⟩,
   ⟨"lunsi", 0x0d, .rdi, .li, .main, maskImmLi, opcLi⟩,
   ⟨"lungi", 0x0e, .rdi, .li, .main, maskImmLi, opcLi⟩,
   ⟨"sw", 0x00, .rabiO, .s, .main, maskImmS, opcSt⟩,
   ⟨"sh", 0x01, .rabiO, .s, .main, maskImmS, opcSt⟩,
   ⟨"sth", 0x02, .rabiO, .s, .main, maskImmS, opcSt⟩,
   ⟨"sb", 0x03, .rabiO, .s, .main, maskImmS, opcSt⟩,
   ⟨"j", 0x00, .i, .j, .main, maskImmJ, opcJmp⟩,
   ⟨"jr", 0x01, .raiO, .j, .main, maskImmJ, opcJmp⟩,
   ⟨"jal", 0x00, .i, .j, .main, maskImmJ, opcJlnk⟩,
   ⟨"jrl", 0x01, .raiO, .j, .main, maskImmJ, opcJlnk⟩,
   ⟨"beq", 0x00, .rabi, .b, .main, maskImmB, opcBranch⟩,
   ⟨"bne", 0x01, .rabi, .b, .main, maskImmB, opcBranch⟩,
   ⟨"bgt", 0x02, .rabi, .b, .main, maskImmB, opcBranch⟩,
   ⟨"blt", 0x03, .rabi, .b, .main, maskImmB, opcBranch⟩,
   ⟨"syscall", 0x00, .rdai, .sys, .main, maskImmSys, opcSys⟩,
   ⟨"sysret", 0x01, .rdai, .sys, .main, maskImmSys, opcSys⟩,
   ⟨"stspr", 0x02, .rda, .sys, .main, maskImmSys, opcSys⟩,
   ⟨"ldspr", 0x03, .rda, .sys, .main, maskImmSys, opcSys⟩,
   ⟨"sync", 0x04, .none, .sys, .main, maskNoImm, opcSys⟩,
   ⟨"pmir", 0x05, .i, .sys, .main, maskImmSys, opcSys⟩,
   ⟨"pmd", 0x06, .i, .sys, .main, maskImmSys, opcSys⟩,
   ⟨"call", mCall, .raiO, .j, .macroInsn, maskImmJ, opcJlnk⟩,
   ⟨"la", mLa, .rdi, .li, .macroInsn, maskImmLi, opcLi⟩,
   ⟨"ret", mRet, .raiO, .j, .macroInsn, maskImmJ, opcJmp⟩]

end FusionBinutils.Opcode
