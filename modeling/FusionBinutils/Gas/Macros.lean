import FusionBinutils.Gas.Fixups

/-! The macro instructions of the port: `la`, `call` and `ret` (gas/config/tc-fusion.c). -/
namespace FusionBinutils.Gas

open Opcode Bfd

def genRsb (rsb : InsnT) : InsnT := (rsb <<< 11) &&& maskRsb

def isSext32BitNum (x : Vma) : Bool :=
  (x &&& ~~~0x7fffffff#64) == 0 || (x &&& ~~~0x7fffffff#64) == ~~~0x7fffffff#64

/-- An argument of `macro_build` after its format. -/
inductive MacroArg where
  | reg (n : InsnT)
  | reloc (code : RelocCode)
  deriving DecidableEq

/-- The loop of `macro_build` over its format, with the word and the relocation so far. A letter
that it does not know is its `as_fatal`, and so is an argument of the wrong kind here. -/
def insertOperands : List Char → List MacroArg → InsnT → RelocCode → Option (InsnT × RelocCode)
  | [], _, word, r => some (word, r)
  | 'd' :: fmt, .reg n :: args, word, r => insertOperands fmt args (word ||| genRd n) r
  | 'a' :: fmt, .reg n :: args, word, r => insertOperands fmt args (word ||| genRsa n) r
  | 'b' :: fmt, .reg n :: args, word, r => insertOperands fmt args (word ||| genRsb n) r
  | 's' :: fmt, .reloc code :: args, word, _ => insertOperands fmt args word code
  | 'i' :: fmt, .reloc code :: args, word, _ => insertOperands fmt args word code
  | 'u' :: fmt, .reloc code :: args, word, _ => insertOperands fmt args word code
  | 'j' :: fmt, .reloc code :: args, word, _ => insertOperands fmt args word code
  | ',' :: fmt, args, word, r => insertOperands fmt args word r
  | _, _, _, _ => none

/-- The selector that `macro_build` puts into the word, by the opcode. -/
def genIndex (mo : FusionOpcInfo) : InsnT :=
  if mo.opc = opcLi then genDselLi mo.index
  else if mo.opc = opcImm then genAluop mo.index
  else if mo.opc = opcLd then genFunctL mo.index
  else if mo.opc = opcSt then genFunctS mo.index
  else 0

/-- `macro_build`: what it hands to `append_insn`. The immediate field is left to the fixup. -/
def macroBuild (ep : ExpressionS) (name : String) (fmt : List Char) (args : List MacroArg) :
    Option Assembled := do
  let mo ← fusionInsnAll.find? (·.name == name)
  let (word, r) ← insertOperands fmt args (genOpc mo.opc ||| genIndex mo) .unused
  if r = .unused then none
  else return ⟨word, ep, r, []⟩

/-- The instructions of an expanded macro and the messages; `none` is an `as_fatal` on the way. -/
abbrev Expanded := Option (List Assembled × List String)

/-- The part of a number that `fusion_call` and `load_const` give to the second instruction. -/
def lowerPart (x : Vma) : Vma := ((x.setWidth 32) &&& 0x0000ffff#32).setWidth 64

/-- `fusion_call`. -/
def fusionCall (tmp : InsnT) (ep : ExpressionS) : Expanded := do
  let lower := lowerPart ep.addNumber
  let upper := ep.addNumber - lower
  let hi ← macroBuild { ep with addNumber := upper } "lui" ['d', ',', 'i']
    [.reg tmp, .reloc .fusionHi16]
  let lo ← macroBuild { ep with addNumber := lower } "jrl" ['a', ',', 'j']
    [.reg tmp, .reloc .fusion21]
  return ([hi, lo], [])

/-- `fusion_return`. -/
def fusionReturn (ep : ExpressionS) : Expanded := do
  let jump ← macroBuild { ep with addNumber := 0x0 } "jr" ['a', ',', 'j']
    [.reg 4, .reloc .fusion21]
  return ([jump], [])

/-- `load_const`. Its formats have a blank after the comma. -/
def loadConst (reg : InsnT) (ep : ExpressionS) : Expanded :=
  let lower := lowerPart ep.addNumber
  let upper := ep.addNumber - lower
  if ep.op ≠ .constant then some ([], ["unsupported large constant"])
  else do
    let hi ← if upper ≠ 0 then
        (macroBuild ep "lui" ['d', ',', ' ', 'u'] [.reg reg, .reloc .fusionHi16]).map ([·])
      else some []
    let hiReg := if upper ≠ 0 then reg else 0
    let lo ← if lower ≠ 0 ∨ hiReg = 0 then
        (macroBuild ep "li" ['d', ',', ' ', 'u'] [.reg reg, .reloc .r16]).map ([·])
      else some []
    return (hi ++ lo, [])

/-- `load_address`. -/
def loadAddress (reg : InsnT) (ep : ExpressionS) : Expanded :=
  match ep.op with
  | .constant => loadConst reg ep
  | .symbol _ =>
    if isSext32BitNum ep.addNumber then do
      let hi ← macroBuild ep "lui" ['d', ',', 'i'] [.reg reg, .reloc .fusionHi16]
      let lo ← macroBuild ep "lni" ['d', ',', 'i'] [.reg reg, .reloc .r16]
      return ([hi, lo], [])
    else some ([], [])
  | _ =>
    (loadConst reg { ep with op := .constant }).map fun (insns, msgs) =>
      (insns, ("expression should be constant or symbol. can't knock on a door without " ++
        "an address. \n No loading in a red zone.") :: msgs)

/-- The function `macro`. -/
def macroInsns (insn : FusionOpcInfo) (word : InsnT) (imm : ExpressionS) : Expanded :=
  let rd := getRd word
  if insn.cpid ≠ .macroInsn then some ([], ["Not a macro, broken assembler"])
  else if insn.index = mLa then loadAddress rd imm
  else if insn.index = mCall then fusionCall 22 imm
  else if insn.index = mRet then fusionReturn imm
  else some ([], ["Macro " ++ insn.name ++ " not implemented"])

/-- `md_assemble` on a line with a macro. -/
def mdAssembleMacro (insn : FusionOpcInfo) (txt : OperandText) : Expanded := do
  let as ← assembleInsnBin insn txt
  macroInsns insn as.word as.expr

def laRow : FusionOpcInfo := ⟨"la", mLa, .rdi, .li, .macroInsn, maskImmLi, opcLi⟩

def callRow : FusionOpcInfo := ⟨"call", mCall, .raiO, .j, .macroInsn, maskImmJ, opcJlnk⟩

/-- The blank in the format is no letter of `macro_build`. -/
theorem macroBuild_blank (ep : ExpressionS) (name : String) (reg : InsnT) (args : List MacroArg) :
    macroBuild ep name ['d', ',', ' ', 'u'] (.reg reg :: args) = none := by
  cases hmo : fusionInsnAll.find? (·.name == name) with
  | none => simp [macroBuild, hmo]
  | some mo => simp [macroBuild, hmo, insertOperands]

/-- No constant gets through `load_const`. -/
theorem loadConst_constant (reg : InsnT) (c : Vma) : loadConst reg ⟨.constant, c⟩ = none := by
  unfold loadConst
  dsimp only
  rw [if_neg (by simp)]
  by_cases hupper : c - lowerPart c = 0#64
  · -- without an upper part the second instruction is always built
    simp [hupper, macroBuild_blank]
  · simp [hupper, macroBuild_blank]

end FusionBinutils.Gas
