import FusionBinutils.Opcode.Encoding

/-! Symbols, expressions and fixups of the assembler (gas/symbols.c, gas/write.c), as they stand
once `finalize_syms` is set. -/
namespace FusionBinutils.Gas

/-- The flags of an output section that decide whether its symbols can be reduced. -/
structure SegFlags where
  /-- `SEC_LINK_ONCE`, or a name that starts with `.gnu.linkonce` -/
  linkOnce : Bool
  merge : Bool
  threadLocal : Bool
  deriving DecidableEq, Repr

/-- `segT`. -/
inductive Segment where
  | undefined | common | absolute | reg | expr
  | normal (name : String) (flags : SegFlags)
  deriving DecidableEq, Repr

/-- `SEG_NORMAL`. -/
def Segment.segNormal : Segment → Bool
  | .absolute | .undefined | .reg | .expr => false
  | .common | .normal _ _ => true

/-- A symbol with a value of its own. A section symbol stands for the start of its section. -/
structure PlainSym where
  name : String
  seg : Segment
  value : Vma
  weak : Bool
  global : Bool
  indirectFunction : Bool
  sectionSym : Bool
  /-- `S_IS_LOCAL` -/
  isLocal : Bool
  sectionSym_value : sectionSym = true → value = 0
  deriving DecidableEq

/-- `symbolS` after `resolve_symbol_value`. -/
inductive Symbol where
  | plain (s : PlainSym)
  /-- `symbol_equated_reloc_p` or `S_IS_WEAKREFR` holds; the expression is `target + n` -/
  | equated (target : Symbol) (n : Vma)
  /-- `symbol_mri_common_p` holds -/
  | mriCommon (value : Vma) (base : PlainSym)
  deriving DecidableEq

/-- `section_symbol`. -/
def sectionSymbol (seg : Segment) : PlainSym where
  name := ""
  seg := seg
  value := 0
  weak := false
  global := false
  indirectFunction := false
  sectionSym := true
  isLocal := false
  sectionSym_value := fun _ => rfl

/-- The expression symbol that takes the place of a bignum. -/
def zeroSymbol : PlainSym :=
  { sectionSymbol .absolute with sectionSym := false, sectionSym_value := fun _ => rfl }

/-- `S_FORCE_RELOC`. -/
def sForceReloc (s : PlainSym) (strict : Bool) : Bool :=
  (strict && (s.weak || s.global)) || s.indirectFunction ||
    s.seg == .undefined || s.seg == .common

/-- The `X_op` of an `expressionS`, with the symbols it comes with. -/
inductive XOp where
  | absent | constant | register | big
  | symbol (add : Symbol)
  | subtract (add : Symbol) (sub : PlainSym)
  | uminus (sub : PlainSym)
  /-- anything else, with the symbol that `make_expr_symbol` makes for it -/
  | other (exprSymbol : Symbol)
  deriving DecidableEq

structure ExpressionS where
  op : XOp
  addNumber : Vma
  deriving DecidableEq

/-- A frag as a fixup sees it. -/
structure FragRef where
  id : Nat
  frAddress : Vma
  deriving DecidableEq, Repr

/-- `bfd_reloc_code_real_type`, as far as the fusion port uses it. -/
inductive RelocCode where
  | unused | none | r32 | r16 | r8 | fusionHi16 | r16Pcrel | hi16Pcrel
  | fusion12 | fusionLoad | fusionStore | fusion14Pcrel | fusion21 | fusion21Pcrel
  deriving DecidableEq, Repr

/-- The fields that `fix_new_internal` sets from its arguments. -/
structure NewFix where
  frag : FragRef
  pos : Vma
  size : Nat
  addsy : Option Symbol
  subsy : Option PlainSym
  offset : Vma
  pcrel : Bool
  rType : RelocCode
  deriving DecidableEq

/-- `fixS` from `adjust_reloc_syms` on. -/
structure FixS where
  fxFrag : FragRef
  fxWhere : Vma
  fxSize : Nat
  fxAddsy : Option PlainSym
  fxSubsy : Option PlainSym
  fxOffset : Vma
  fxAddnumber : Vma
  fxDone : Bool
  fxPcrel : Bool
  fxRType : RelocCode
  deriving DecidableEq

/-- `fix_new_exp`, with the messages of `as_bad`. -/
def fixNewExp (frag : FragRef) (pos : Vma) (size : Nat) (exp : ExpressionS) (pcrel : Bool)
    (rType : RelocCode) : NewFix × List String :=
  let fix (add : Option Symbol) (sub : Option PlainSym) (off : Vma) : NewFix :=
    ⟨frag, pos, size, add, sub, off, pcrel, rType⟩
  match exp.op with
  | .absent => (fix none none 0, [])
  | .register => (fix none none 0, ["register value used as expression"])
  | .uminus sub => (fix none (some sub) exp.addNumber, [])
  | .subtract add sub => (fix (some add) (some sub) exp.addNumber, [])
  | .symbol add => (fix (some add) none exp.addNumber, [])
  | .constant => (fix none none exp.addNumber, [])
  | .big =>
    let msg :=
      if 0 < exp.addNumber.toInt then "bignum invalid" else "floating point number invalid"
    (fix (some (.plain zeroSymbol)) none 0, [msg])
  | .other exprSymbol => (fix (some exprSymbol) none 0, [])

end FusionBinutils.Gas
