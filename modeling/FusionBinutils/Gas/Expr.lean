import FusionBinutils.Gas.Symbols
import FusionBinutils.Gas.Frags

/-! Expressions and the three places that evaluate them: `expr` while a line is parsed,
`resolve_expression` on demand and `resolve_symbol_value` in the end (gas/expr.c, gas/symbols.c).
`none` stands for a run that has no result: `abort`, a failed assertion, a trap, or a chain of
symbols longer than the fuel. -/
namespace FusionBinutils.Gas.Expr

/-- The operators that combine two symbols. -/
inductive BinOp where
  | multiply | divide | modulus | leftShift | rightShift
  | bitInclusiveOr | bitOrNot | bitExclusiveOr | bitAnd | add | subtract
  | eq | ne | lt | le | ge | gt | logicalAnd | logicalOr
  deriving DecidableEq, Repr

/-- `operatorT`, without the machine dependent operators. -/
inductive OperatorT where
  | illegal | absent | constant | symbol | symbolRva | register | big
  | uminus | bitNot | logicalNot
  | bin (op : BinOp)
  | index
  deriving DecidableEq, Repr

/-- `op_rank`, outside MRI mode. -/
def opRank : OperatorT → Nat
  | .illegal | .absent | .constant | .symbol | .symbolRva | .register | .big => 0
  | .uminus | .bitNot | .logicalNot => 9
  | .bin op =>
    match op with
    | .multiply | .divide | .modulus | .leftShift | .rightShift => 8
    | .bitInclusiveOr | .bitOrNot | .bitExclusiveOr | .bitAnd => 7
    | .add | .subtract => 5
    | .eq | .ne | .lt | .le | .ge | .gt => 4
    | .logicalAnd => 3
    | .logicalOr => 2
  | .index => 1

/-- The spelling of an operator in `report_op_error`. -/
def BinOp.opname : BinOp → String
  | .multiply => "*" | .divide => "/" | .modulus => "%"
  | .leftShift => "<<" | .rightShift => ">>"
  | .bitInclusiveOr => "|" | .bitOrNot => "|~" | .bitExclusiveOr => "^" | .bitAnd => "&"
  | .add => "+" | .subtract => "-"
  | .eq => "==" | .ne => "!=" | .lt => "<" | .le => "<=" | .ge => ">=" | .gt => ">"
  | .logicalAnd => "&&" | .logicalOr => "||"

/-- `expressionS`. Symbols are numbers into the symbol memory. -/
structure ExprS where
  op : OperatorT
  addSymbol : Option Nat
  opSymbol : Option Nat
  addNumber : Vma
  unsigned : Bool
  extrabit : Bool
  deriving DecidableEq, Repr

/-- `symbolS`. A local symbol is one that `LOCAL_SYMBOL_CHECK` finds not converted yet; its
`lsy_value` is the number of `value`. A frag of `none` is `zero_address_frag`. -/
structure SymbolS where
  name : String
  value : ExprS
  seg : Segment
  frag : Option Nat
  isLocal : Bool
  resolved : Bool
  resolving : Bool
  mriCommon : Bool
  weakrefr : Bool
  /-- `symbol_shadow_p` -/
  shadow : Bool
  indirectFunction : Bool
  sectionSym : Bool
  /-- `make_expr_symbol` made it, so `expr_symbol_where` finds it -/
  exprSymbol : Bool
  deriving DecidableEq

/-- What `frag_offset_fixed_p` reads of a frag. -/
structure FragS where
  frType : RsType
  frAddress : Vma
  frFix : Vma
  frOffset : Vma
  frVar : Vma
  frNext : Option Nat
  deriving DecidableEq

def zeroAddressFrag : FragS := ⟨.fill, 0, 0, 0, 0, none⟩

/-- The memory of the assembler: frags, symbols and the messages so far. -/
structure Mem where
  frags : List FragS
  syms : List SymbolS
  msgs : List Msg
  deriving DecidableEq

def Mem.sym (m : Mem) (i : Nat) : Option SymbolS := m.syms[i]?

def Mem.setSym (m : Mem) (i : Nat) (s : SymbolS) : Mem := { m with syms := m.syms.set i s }

def Mem.say (m : Mem) (msg : Msg) : Mem := { m with msgs := m.msgs ++ [msg] }

/-- Messages that are given only once symbol values are final. -/
def Mem.sayIf (m : Mem) (c : Bool) (msg : Msg) : Mem := if c then m.say msg else m

def Mem.frag (m : Mem) : Option Nat → Option FragS
  | none => some zeroAddressFrag
  | some i => m.frags[i]?

def segName : Segment → String
  | .undefined => "*UND*"
  | .common => "*COM*"
  | .absolute => "*ABS*"
  | .reg => "*GAS `reg' section*"
  | .expr => "*GAS `expr' section*"
  | .normal name _ => name

/-! The operators of C on `offsetT` and `valueT`. -/

/-- A signed division traps on zero and on the one quotient that does not fit. -/
def divTraps (left right : Vma) : Bool :=
  right == 0 || (left == BitVec.intMin 64 && right == BitVec.allOnes 64)

def offsetDiv (left right : Vma) : Option Vma :=
  if divTraps left right then none else some (left.sdiv right)

def offsetMod (left right : Vma) : Option Vma :=
  if divTraps left right then none else some (left.srem right)

/-- A shift by the width of the word or more has no meaning in C. -/
def shiftBy (f : Vma → Nat → Vma) (left right : Vma) : Option Vma :=
  if right.toNat < 64 then some (f left right.toNat) else none

/-- `~ (valueT) 0 : 0`. -/
def allOnesIf (b : Bool) : Vma := if b then BitVec.allOnes 64 else 0

/-- The value of `&&` and `||`. -/
def oneIf (b : Bool) : Vma := if b then 1 else 0

/-! Numbers of a word and one bit. -/

def addToResult (res : ExprS) (amount : Vma) (rhsHighbit : Bool) : ExprS :=
  { res with
    addNumber := res.addNumber + amount
    extrabit := (res.extrabit ^^ rhsHighbit) ^^
      decide ((res.addNumber + amount).toNat < res.addNumber.toNat) }

def subtractFromResult (res : ExprS) (amount : Vma) (rhsHighbit : Bool) : ExprS :=
  { res with
    addNumber := res.addNumber - amount
    extrabit := (res.extrabit ^^ rhsHighbit) ^^
      decide (res.addNumber.toNat < amount.toNat) }

/-! Predicates on symbols and frags. -/

/-- `S_IS_DEFINED`. -/
def SymbolS.isDefined (s : SymbolS) : Bool := s.seg != .undefined

/-- `S_IS_COMMON`. -/
def SymbolS.isCommon (s : SymbolS) : Bool := !s.isLocal && s.seg == .common

/-- `S_IS_WEAKREFR`. -/
def SymbolS.isWeakrefr (s : SymbolS) : Bool := !s.isLocal && s.weakrefr

/-- `S_FORCE_RELOC` with `strict` 0. -/
def SymbolS.forceReloc (s : SymbolS) : Bool :=
  (!s.isLocal && s.indirectFunction) || s.seg == .undefined || s.seg == .common

/-- One of the two walks of `frag_offset_fixed_p`: the bytes from a frag to a later one. -/
def bytesBetween (m : Mem) (target : Option Nat) : Nat → FragS → Vma → Option Vma
  | 0, _, _ => none
  | n + 1, frag, off =>
    if frag.frType = .fill then
      match frag.frNext with
      | none => none
      | some i =>
        let off := off + (frag.frFix + frag.frOffset * frag.frVar)
        if target = some i then some off
        else
          match m.frags[i]? with
          | none => none
          | some next => bytesBetween m target n next off
    else none

/-- `frag_offset_fixed_p`: the offset when it is known. -/
def fragOffsetFixedP (m : Mem) (frag1 frag2 : Option Nat) : Option (Option Vma) := do
  let f1 ← m.frag frag1
  let f2 ← m.frag frag2
  let off := f1.frAddress - f2.frAddress
  if frag1 = frag2 then some (some off)
  else
    match bytesBetween m frag2 (m.frags.length + 1) f1 0 with
    | some d => some (some (off + d))
    | none =>
      match bytesBetween m frag1 (m.frags.length + 1) f2 0 with
      | some d => some (some (off - d))
      | none => some none

/-! `resolve_symbol_value`. -/

/-- The flag `sy_resolving`. -/
def SymbolS.markResolving (s : SymbolS) (b : Bool) : SymbolS := { s with resolving := b }

/-- `S_SET_VALUE`. -/
def SymbolS.setValue (s : SymbolS) (val : Vma) : SymbolS :=
  { s with
    value := { s.value with op := .constant, addNumber := val, unsigned := false }
    weakrefr := false }

/-- `S_SET_SEGMENT`: a section symbol stays in its section. -/
def SymbolS.setSegment (s : SymbolS) (seg : Segment) : Option SymbolS :=
  if s.sectionSym then (if s.seg = seg then some s else none) else some { s with seg := seg }

/-- `report_op_error`; `left` is the section of the first of two operands. -/
def reportOpError (m : Mem) (s : SymbolS) (left : Option Segment) (opname : String)
    (right : Segment) : Mem :=
  let what :=
    match left with
    | some left => "invalid operands (" ++ segName left ++ " and " ++ segName right ++
        " sections) for `" ++ opname ++ "'"
    | none => "invalid operand (" ++ segName right ++ " section) for `" ++ opname ++ "'"
  m.say (.bad (if s.exprSymbol then what else what ++ " when setting `" ++ s.name ++ "'"))

/-- The label `exit_dont_set_value`. -/
def exitDontSetValue (finalizeSyms : Bool) (m : Mem) (symp : Nat) (finalVal : Vma)
    (finalSeg : Segment) (resolved : Bool) : Option (Vma × Mem) := do
  let s ← m.sym symp
  let s ← s.setSegment finalSeg
  if finalizeSyms then
    if resolved then some (finalVal, m.setSym symp { s with resolved := true })
    else if s.seg ≠ .expr then
      let m := m.say (.bad ("can't resolve value for symbol `" ++ s.name ++ "'"))
      some (finalVal, m.setSym symp { s with resolved := true })
    else some (finalVal, m.setSym symp s)
  else some (finalVal, m.setSym symp s)

/-- The value is set before the exit, when it is final. -/
def setValueAndExit (finalizeSyms : Bool) (m : Mem) (symp : Nat) (finalVal : Vma)
    (finalSeg : Segment) (resolved : Bool) : Option (Vma × Mem) := do
  let s ← m.sym symp
  let m := if finalizeSyms then m.setSym symp (s.setValue finalVal) else m
  exitDontSetValue finalizeSyms m symp finalVal finalSeg resolved

/-- The end of the switch: the symbol is not being resolved any more. -/
def endResolving (finalizeSyms : Bool) (m : Mem) (symp : Nat) (finalVal : Vma)
    (finalSeg : Segment) (resolved : Bool) : Option (Vma × Mem) := do
  let s ← m.sym symp
  setValueAndExit finalizeSyms (m.setSym symp (s.markResolving false)) symp finalVal
    finalSeg resolved

/-- The symbol stays equated to `addSymbol + n`; `X_op_symbol` is used as a flag. -/
def SymbolS.equate (s : SymbolS) (addSymbol : Nat) (n : Vma) : SymbolS :=
  { s with value := { s.value with
      op := .symbol, addSymbol := some addSymbol, addNumber := n, opSymbol := some addSymbol } }

/-- A weak reference to a weak reference refers to what that one refers to. -/
def skipWeakref (m : Mem) (symp addSymbol : Nat) (finalVal : Vma) : Option (Mem × Nat) := do
  let s ← m.sym symp
  let a ← m.sym addSymbol
  if s.weakrefr then
    if finalVal ≠ 0 then none
    else if a.isWeakrefr then
      if a.value.op = .symbol ∧ a.value.addNumber = 0 then
        let target ← a.value.addSymbol
        let t ← m.sym target
        if t.isWeakrefr then none
        else
          let s := { s with value := { s.value with addSymbol := some target } }
          some (m.setSym symp s, target)
      else none
    else some (m, addSymbol)
  else some (m, addSymbol)

/-- `copy_symbol_attributes`, after `local_symbol_convert`. -/
def copySymbolAttributes (m : Mem) (symp addSymbol : Nat) : Option Mem := do
  let a ← m.sym addSymbol
  let m := m.setSym addSymbol { a with isLocal := false }
  let s ← m.sym symp
  some (m.setSym symp { s with indirectFunction := s.indirectFunction || a.indirectFunction })

/-- Attributes are copied once the symbol is final and equal to the other one. -/
def copyIfEqual (finalizeSyms : Bool) (m : Mem) (symp addSymbol : Nat) (finalVal : Vma) :
    Option Mem :=
  if finalizeSyms && finalVal == 0 then copySymbolAttributes m symp addSymbol else some m

/-- The label `do_symbol`: the value of the symbol is `left + final_val`. -/
def doSymbol (finalizeSyms : Bool) (m : Mem) (symp addSymbol : Nat) (left : Vma)
    (segLeft : Segment) (finalVal : Vma) (finalSeg : Segment) : Option (Vma × Mem) := do
  let (m, addSymbol) ← skipWeakref m symp addSymbol finalVal
  let s ← m.sym symp
  let a ← m.sym addSymbol
  if s.mriCommon then endResolving finalizeSyms m symp finalVal finalSeg a.resolved
  else
    let m ← copyIfEqual finalizeSyms m symp addSymbol finalVal
    let s ← m.sym symp
    let a ← m.sym addSymbol
    let frag ← m.frag s.frag
    let done := s.markResolving false
    if !a.isDefined || a.isCommon then
      -- the relocation will be against the symbol that this one is equated to
      let s' := if finalizeSyms then done.equate addSymbol finalVal else done
      exitDontSetValue finalizeSyms (m.setSym symp s') symp 0 segLeft a.resolved
    else if finalizeSyms && ((finalSeg == .expr && segLeft != .expr) || s.shadow) then
      exitDontSetValue finalizeSyms (m.setSym symp (done.equate addSymbol finalVal)) symp
        (finalVal + (frag.frAddress + left)) segLeft a.resolved
    else
      let finalVal := finalVal + (frag.frAddress + left)
      let finalSeg := if finalSeg = .expr ∨ finalSeg = .undefined then segLeft else finalSeg
      if s.weakrefr then
        exitDontSetValue finalizeSyms (m.setSym symp done) symp finalVal finalSeg a.resolved
      else endResolving finalizeSyms m symp finalVal finalSeg a.resolved

/-- The switch of `resolve_symbol_value`; `same` compares the sections and, in the undefined one,
the symbols. -/
def offsetOp (op : BinOp) (left right : Vma) (same : Bool) : Option Vma :=
  match op with
  | .multiply => some (left * right)
  | .divide => offsetDiv left right
  | .modulus => offsetMod left right
  | .leftShift => shiftBy (· <<< ·) left right
  | .rightShift => shiftBy BitVec.sshiftRight left right
  | .bitInclusiveOr => some (left ||| right)
  | .bitOrNot => some (left ||| ~~~right)
  | .bitExclusiveOr => some (left ^^^ right)
  | .bitAnd => some (left &&& right)
  | .add => some (left + right)
  | .subtract => some (left - right)
  | .eq => some (allOnesIf (left == right && same))
  | .ne => some (~~~ allOnesIf (left == right && same))
  | .lt => some (allOnesIf (left.slt right))
  | .le => some (allOnesIf (left.sle right))
  | .ge => some (allOnesIf (right.sle left))
  | .gt => some (allOnesIf (right.slt left))
  | .logicalAnd => some (oneIf (left != 0 && right != 0))
  | .logicalOr => some (oneIf (left != 0 || right != 0))

/-- The comparisons of order and the difference need operands of one section only. -/
def BinOp.withinSection : BinOp → Bool
  | .subtract | .lt | .le | .ge | .gt => true
  | _ => false

/-- Operands that `resolve_symbol_value` accepts. -/
def operandsOk (op : BinOp) (segLeft segRight : Segment) (addSymbol opSymbol : Nat) : Bool :=
  (segLeft == .absolute && segRight == .absolute) || op == .eq || op == .ne ||
    (op.withinSection && segLeft == segRight && (segLeft != .undefined || addSymbol == opSymbol))

/-- A binary operator of `resolve_symbol_value` that is no addition or subtraction of a
constant. -/
def resolveBinarySymbol (finalizeSyms : Bool) (m : Mem) (symp addSymbol opSymbol : Nat)
    (op : BinOp) (left right finalVal : Vma) (finalSeg : Segment) : Option (Vma × Mem) := do
  let s ← m.sym symp
  let a ← m.sym addSymbol
  let o ← m.sym opSymbol
  let ok := operandsOk op a.seg o.seg addSymbol opSymbol
  let m := if !ok && finalizeSyms then reportOpError m s (some a.seg) op.opname o.seg else m
  let finalSeg :=
    if (ok || finalizeSyms) && (finalSeg == .expr || finalSeg == .undefined) then .absolute
    else finalSeg
  let byZero := (op == .divide || op == .modulus) && right == 0
  let zeroText := if s.exprSymbol then "division by zero"
    else "division by zero when setting `" ++ s.name ++ "'"
  let m := m.sayIf (byZero && o.seg == .absolute && finalizeSyms) (.bad zeroText)
  let right := if byZero then 1 else right
  match s.value.op with
  | .bin op' =>
    let same := a.seg == o.seg && (a.seg != .undefined || addSymbol == opSymbol)
    let left ← offsetOp op' left right same
    let frag ← m.frag s.frag
    let finalSeg :=
      if finalSeg = .expr ∨ finalSeg = .undefined then
        if a.seg = .undefined ∨ o.seg = .undefined then .undefined
        else if a.seg = .absolute then o.seg else a.seg
      else finalSeg
    endResolving finalizeSyms m symp (finalVal + (frag.frAddress + left)) finalSeg
      (a.resolved && o.resolved)
  | .illegal | .absent | .constant =>
    -- a definition loop has set the value meanwhile
    exitDontSetValue finalizeSyms (m.say (.bad "Invalid operation on symbol")) symp finalVal
      finalSeg false
  | _ => none

/-- `resolve_symbol_value`. -/
def resolveSymbolValue (finalizeSyms : Bool) : Nat → Mem → Nat → Option (Vma × Mem)
  | 0, _, _ => none
  | n + 1, m, symp => do
    let s ← m.sym symp
    if s.isLocal then
      if s.resolved then some (s.value.addNumber, m)
      else
        let frag ← m.frag s.frag
        let finalVal := s.value.addNumber + frag.frAddress
        if finalizeSyms then
          let s := { s with value := { s.value with addNumber := finalVal }, resolved := true }
          some (finalVal, m.setSym symp s)
        else some (finalVal, m)
    else if s.resolved then
      some (if s.value.op = .constant then s.value.addNumber else 0, m)
    else if s.resolving then
      let text := "symbol definition loop encountered at `" ++ s.name ++ "'"
      setValueAndExit finalizeSyms (m.sayIf finalizeSyms (.bad text)) symp 0 s.seg true
    else
      let m := m.setSym symp (s.markResolving true)
      let finalVal := s.value.addNumber
      match s.value.op with
      | .absent =>
        let frag ← m.frag s.frag
        let finalSeg := if s.seg = .expr then .absolute else s.seg
        endResolving finalizeSyms m symp frag.frAddress finalSeg true
      | .constant =>
        let frag ← m.frag s.frag
        let finalSeg := if s.seg = .expr then .absolute else s.seg
        endResolving finalizeSyms m symp (finalVal + frag.frAddress) finalSeg true
      | .register => endResolving finalizeSyms m symp finalVal s.seg true
      | .symbol | .symbolRva =>
        let addSymbol ← s.value.addSymbol
        let (left, m) ← resolveSymbolValue finalizeSyms n m addSymbol
        let a ← m.sym addSymbol
        let s' ← m.sym symp
        let m := if finalizeSyms then
            m.setSym symp { s' with value := { s'.value with opSymbol := none } }
          else m
        doSymbol finalizeSyms m symp addSymbol left a.seg finalVal s.seg
      | .uminus | .bitNot | .logicalNot =>
        let addSymbol ← s.value.addSymbol
        let (left, m) ← resolveSymbolValue finalizeSyms n m addSymbol
        let a ← m.sym addSymbol
        let s' ← m.sym symp
        let opname := if s.value.op = .uminus then "-" else "~"
        let m :=
          if s.value.op ≠ .logicalNot ∧ a.seg ≠ .absolute ∧ finalizeSyms then
            reportOpError m s' none opname a.seg
          else m
        let finalSeg := if s.seg = .expr ∨ s.seg = .undefined then .absolute else s.seg
        let left :=
          if s.value.op = .uminus then -left
          else if s.value.op = .logicalNot then oneIf (left == 0) else ~~~left
        let frag ← m.frag s'.frag
        endResolving finalizeSyms m symp (finalVal + (left + frag.frAddress)) finalSeg a.resolved
      | .bin op =>
        let addSymbol ← s.value.addSymbol
        let opSymbol ← s.value.opSymbol
        let (left, m) ← resolveSymbolValue finalizeSyms n m addSymbol
        let (right, m) ← resolveSymbolValue finalizeSyms n m opSymbol
        let a ← m.sym addSymbol
        let o ← m.sym opSymbol
        if op = .add ∧ o.seg = .absolute then
          doSymbol finalizeSyms m symp addSymbol left a.seg (finalVal + right) s.seg
        else if op = .add ∧ a.seg = .absolute then
          doSymbol finalizeSyms m symp opSymbol right o.seg (finalVal + left) s.seg
        else if op = .subtract ∧ o.seg = .absolute then
          doSymbol finalizeSyms m symp addSymbol left a.seg (finalVal - right) s.seg
        else
          resolveBinarySymbol finalizeSyms m symp addSymbol opSymbol op left right finalVal s.seg
      | .big | .illegal => endResolving finalizeSyms m symp finalVal s.seg false
      | .index => none

/-! `resolve_expression`. It changes no symbol; the answer `none` inside is its return value 0. -/

/-- What `snapshot_symbol` stores through its arguments. -/
structure Snapshot where
  sym : Nat
  value : Vma
  seg : Segment
  frag : Option Nat
  deriving DecidableEq

/-- `snapshot_symbol`, given `resolve_expression`. -/
def snapshotSymbol (resolve : Mem → ExprS → Option (Option ExprS)) (m : Mem) (i : Nat) :
    Option (Option Snapshot) := do
  let s ← m.sym i
  if s.isLocal then some (some ⟨i, s.value.addNumber, s.seg, s.frag⟩)
  else
    -- the value of the expression, and the symbol that takes this one's place
    let found : Option (ExprS × Nat) ←
      if s.resolved || s.value.op == .illegal then some (some (s.value, i))
      else if s.resolving then some none
      else
        match ← resolve (m.setSym i (s.markResolving true)) s.value with
        | none => some none
        | some exp =>
          match exp.op with
          | .constant | .register =>
            if s.value.op = .symbol then (exp.addSymbol).map fun j => some (exp, j)
            else some (some (exp, i))
          | .symbol | .symbolRva => (exp.addSymbol).map fun j => some (exp, j)
          | _ => some none
    match found with
    | none => some none
    | some (exp, j) =>
      let t ← m.sym j
      let value := if t.isLocal then t.value.addNumber else exp.addNumber
      let seg :=
        if t.seg = .expr then
          match exp.op with
          | .constant => .absolute
          | .register => .reg
          | _ => t.seg
        else t.seg
      some (some ⟨j, value, seg, t.frag⟩)

/-- The end of `resolve_expression` with `op` set to `O_symbol`. -/
def finishSymbol (exp : ExprS) (left : Snapshot) (origAddSymbol : Nat) (finalVal : Vma) : ExprS :=
  let exp := { exp with addSymbol := some left.sym }
  if left.seg = .absolute then { exp with op := .constant, addNumber := finalVal + left.value }
  else if left.seg = .reg ∧ finalVal = 0 then
    { exp with op := .register, addNumber := finalVal + left.value }
  else if left.sym ≠ origAddSymbol then
    { exp with op := .symbol, addNumber := finalVal + left.value }
  else { exp with op := .symbol, addNumber := finalVal }

/-- The end of `resolve_expression` with `op` set to `O_constant`. -/
def finishConstant (exp : ExprS) (left : Vma) : ExprS :=
  { exp with op := .constant, addNumber := exp.addNumber + left }

/-- The switch of `resolve_expression` on `valueT`; a division by zero is not resolved. -/
def valueOp (op : BinOp) (left right : Vma) (same : Bool) : Option (Option Vma) :=
  match op with
  | .add => some (some (left + right))
  | .subtract => some (some (left - right))
  | .multiply => some (some (left * right))
  | .divide => if right = 0 then some none else (offsetDiv left right).map some
  | .modulus => if right = 0 then some none else (offsetMod left right).map some
  | .leftShift => (shiftBy (· <<< ·) left right).map some
  | .rightShift => (shiftBy (· >>> ·) left right).map some
  | .bitInclusiveOr => some (some (left ||| right))
  | .bitOrNot => some (some (left ||| ~~~right))
  | .bitExclusiveOr => some (some (left ^^^ right))
  | .bitAnd => some (some (left &&& right))
  | .eq => some (some (allOnesIf (left == right && same)))
  | .ne => some (some (~~~ allOnesIf (left == right && same)))
  | .lt => some (some (allOnesIf (left.slt right)))
  | .le => some (some (allOnesIf (left.sle right)))
  | .ge => some (some (allOnesIf (right.sle left)))
  | .gt => some (some (allOnesIf (right.slt left)))
  | .logicalAnd => some (some (oneIf (left != 0 && right != 0)))
  | .logicalOr => some (some (oneIf (left != 0 || right != 0)))

/-- Operands on which the operator is evaluated, with the distance of their frags. -/
def comparable (finalizeSyms : Bool) (m : Mem) (op : BinOp) (l r : Snapshot) :
    Option (Option Vma) :=
  if (l.seg = .absolute ∧ r.seg = .absolute) ∨ op = .eq ∨ op = .ne then some (some 0)
  else if op.withinSection ∧ l.seg = r.seg then do
    let off ← if finalizeSyms then some (some 0) else fragOffsetFixedP m l.frag r.frag
    if (l.seg ≠ .reg ∨ l.value = r.value) ∧ (l.seg ≠ .undefined ∨ l.sym = r.sym) then some off
    else some none
  else some none

/-- What becomes of operands that are not both absolute: an operand takes the place of the
expression, the operator is evaluated all the same, or nothing is known. -/
inductive Mixed where
  | operand (s : Snapshot) (orig : Nat)
  | evaluate
  | unknown

def mixedOperands (op : BinOp) (addSymbol opSymbol : Nat) (l r : Snapshot) : Mixed :=
  let zero (s : Snapshot) : Bool := s.seg == .absolute && s.value == 0
  let one (s : Snapshot) : Bool := s.seg == .absolute && s.value == 1
  if zero l || zero r then
    match op with
    | .bitExclusiveOr | .bitInclusiveOr =>
      if zero r then .operand l addSymbol else .operand r opSymbol
    | .leftShift | .rightShift => if zero l then .evaluate else .operand l addSymbol
    | .multiply | .bitOrNot | .bitAnd => .evaluate
    | _ => .unknown
  else if op == .multiply && one l then .operand r opSymbol
  else if (op == .multiply || op == .divide) && one r then .operand l addSymbol
  else if !(l.value == r.value && ((l.seg == .reg && r.seg == .reg) ||
      (l.seg == .undefined && r.seg == .undefined && l.sym == r.sym))) then .unknown
  else
    match op with
    | .bitAnd | .bitInclusiveOr => .operand l addSymbol
    | .bitExclusiveOr | .bitOrNot => .evaluate
    | _ => .unknown

/-- The binary operators of `resolve_expression`. -/
def resolveBinary (finalizeSyms : Bool) (m : Mem) (exp : ExprS) (op : BinOp)
    (addSymbol opSymbol : Nat) (l r : Snapshot) : Option (Option ExprS) := do
  if op = .add ∧ r.seg = .absolute then
    some (some (finishSymbol exp l addSymbol (exp.addNumber + r.value)))
  else if op = .add ∧ l.seg = .absolute then
    some (some (finishSymbol exp r opSymbol (exp.addNumber + l.value)))
  else if op = .subtract ∧ r.seg = .absolute then
    some (some (finishSymbol exp l addSymbol (exp.addNumber - r.value)))
  else
    let same := l.seg == r.seg && (finalizeSyms || l.frag == r.frag) &&
      (l.seg != .undefined || l.sym == r.sym)
    match ← comparable finalizeSyms m op l r with
    | some off =>
      (valueOp op l.value (r.value + off) same).map (Option.map (finishConstant exp))
    | none =>
      match mixedOperands op addSymbol opSymbol l r with
      | .operand s orig => some (some (finishSymbol exp s orig exp.addNumber))
      | .evaluate => (valueOp op l.value r.value same).map (Option.map (finishConstant exp))
      | .unknown => some none

/-- `resolve_expression`. -/
def resolveExpression (finalizeSyms : Bool) : Nat → Mem → ExprS → Option (Option ExprS)
  | 0, _, _ => none
  | n + 1, m, exp => do
    match exp.op with
    | .constant | .register => some (some exp)
    | .symbol =>
      let addSymbol ← exp.addSymbol
      match ← snapshotSymbol (resolveExpression finalizeSyms n) m addSymbol with
      | none => some none
      | some l => some (some (finishSymbol exp l addSymbol exp.addNumber))
    | .symbolRva =>
      let addSymbol ← exp.addSymbol
      match ← snapshotSymbol (resolveExpression finalizeSyms n) m addSymbol with
      | none => some none
      | some _ => some (some exp)
    | .uminus | .bitNot | .logicalNot =>
      let addSymbol ← exp.addSymbol
      match ← snapshotSymbol (resolveExpression finalizeSyms n) m addSymbol with
      | none => some none
      | some l =>
        if l.seg ≠ .absolute then some none
        else
          let left :=
            if exp.op = .logicalNot then oneIf (l.value == 0)
            else if exp.op = .uminus then -l.value else ~~~l.value
          some (some (finishConstant exp left))
    | .bin op =>
      let addSymbol ← exp.addSymbol
      let opSymbol ← exp.opSymbol
      match ← snapshotSymbol (resolveExpression finalizeSyms n) m addSymbol with
      | none => some none
      | some l =>
        match ← snapshotSymbol (resolveExpression finalizeSyms n) m opSymbol with
        | none => some none
        | some r => resolveBinary finalizeSyms m exp op addSymbol opSymbol l r
    | .illegal | .absent | .big | .index => some none

/-! `expr`, on a line that `operand` and `operatorf` have split into tokens. -/

/-- What stands on the line: an operand as `operand` delivers it, with its segment, an operator,
or the bracket that closes an index. -/
inductive Token where
  | operand (e : ExprS) (seg : Segment)
  | operator (op : OperatorT)
  | closeBracket
  deriving DecidableEq

/-- `operatorf`. -/
def operatorf : List Token → OperatorT
  | .operator op :: _ => op
  | _ => .illegal

/-- `resultP` and `retval`, the rest of the line and the memory. -/
structure Parsed where
  result : ExprS
  seg : Segment
  rest : List Token
  mem : Mem
  deriving DecidableEq

/-- `operand`; where there is none the expression is absent. -/
def operand (tokens : List Token) (m : Mem) : Parsed :=
  match tokens with
  | .operand e seg :: rest => ⟨e, seg, rest, m⟩
  | _ => ⟨⟨.absent, none, none, 0, false, false⟩, .absolute, tokens, m⟩

/-- `S_GET_VALUE`. -/
def sGetValue (finalizeSyms : Bool) : Nat → Mem → Nat → Option (Vma × Mem)
  | 0, _, _ => none
  | n + 1, m, i => do
    let s ← m.sym i
    if s.isLocal then resolveSymbolValue finalizeSyms n m i
    else
      let (val, m) ← if s.resolved then some (0, m) else resolveSymbolValue finalizeSyms n m i
      if !s.resolved && !finalizeSyms then some (val, m)
      else
        let s ← m.sym i
        if s.weakrefr then
          let j ← s.value.addSymbol
          sGetValue finalizeSyms n m j
        else
          let bad := s.value.op ≠ .constant ∧
            (!s.resolved ∨ s.value.op ≠ .symbol ∨ (s.isDefined ∧ !s.isCommon))
          let text := "attempt to get value of unresolved symbol `" ++ s.name ++ "'"
          some (s.value.addNumber, m.sayIf bad (.bad text))

/-- `make_expr_symbol`. -/
def makeExprSymbol (finalizeSyms : Bool) (fuel : Nat) (m : Mem) (e : ExprS) :
    Option (Nat × Mem) := do
  if e.op = .symbol ∧ e.addNumber = 0 then
    let i ← e.addSymbol
    some (i, m)
  else
    let text := if 0 < e.addNumber.toInt then "bignum invalid" else "floating point number invalid"
    let m := m.sayIf (e.op = .big) (.bad text)
    let e := if e.op = .big then ⟨.constant, none, none, 0, false, false⟩ else e
    let seg : Segment :=
      if e.op = .constant then .absolute else if e.op = .register then .reg else .expr
    let s : SymbolS :=
      { name := "L0\x01", value := e, seg := seg, frag := none, isLocal := false,
        resolved := false, resolving := false, mriCommon := false, weakrefr := false,
        shadow := false, indirectFunction := false, sectionSym := false, exprSymbol := true }
    let i := m.syms.length
    let m := { m with syms := m.syms ++ [s] }
    if e.op = .constant then
      let (_, m) ← resolveSymbolValue finalizeSyms fuel m i
      some (i, m)
    else some (i, m)

/-- A zero in place of an operand that cannot be computed with. -/
def ExprS.assumeZero (e : ExprS) : ExprS :=
  { e with op := .constant, addNumber := 0, addSymbol := none, opSymbol := none }

/-- An operand that is no number of one word counts as zero. -/
def noBignum (m : Mem) (side : String) (e : ExprS) : Mem × ExprS :=
  if e.op = .big then
    let kind := if 0 < e.addNumber.toInt then "bignum" else "float"
    (m.say (.warn (side ++ " operand is a " ++ kind ++ "; integer 0 assumed")), e.assumeZero)
  else (m, e)

/-- Sixteen hexadecimal digits. -/
def hexVma (v : Vma) : String :=
  let digits := Nat.toDigits 16 v.toNat
  String.ofList (List.replicate (16 - digits.length) '0' ++ digits)

/-- The message of `as_warn_value_out_of_range` about a shift count. -/
def shiftCountText (v : Vma) : String :=
  if -1024 < v.toInt ∧ v.toInt < 1024 then
    "shift count out of range (" ++ toString v.toInt ++ " is not between 0 and 63)"
  else
    "shift count out of range (0x" ++ hexVma v ++ " is not between 0x" ++ hexVma 0 ++
      " and 0x" ++ hexVma 63 ++ ")"

/-- The switch of `expr` over two constants; the answer `none` inside is `goto general`. -/
def constantOp (res : ExprS) (op : OperatorT) (v : Vma) : Option (Option ExprS) :=
  let left := res.addNumber
  let set (n : Vma) : Option ExprS := some { res with addNumber := n }
  match op with
  | .bin .multiply => some (set (left * v))
  | .bin .divide => (offsetDiv left v).map set
  | .bin .modulus => (offsetMod left v).map set
  | .bin .leftShift => (shiftBy (· <<< ·) left v).map set
  | .bin .rightShift => (shiftBy (· >>> ·) left v).map set
  | .bin .bitInclusiveOr => some (set (left ||| v))
  | .bin .bitOrNot => some (set (left ||| ~~~v))
  | .bin .bitExclusiveOr => some (set (left ^^^ v))
  | .bin .bitAnd => some (set (left &&& v))
  | .bin .subtract => some (some (subtractFromResult res v false))
  | .bin .eq => some (set (allOnesIf (left == v)))
  | .bin .ne => some (set (allOnesIf (left != v)))
  | .bin .lt => some (set (allOnesIf (left.slt v)))
  | .bin .le => some (set (allOnesIf (left.sle v)))
  | .bin .ge => some (set (allOnesIf (v.sle left)))
  | .bin .gt => some (set (allOnesIf (v.slt left)))
  | .bin .logicalAnd => some (set (oneIf (left != 0 && v != 0)))
  | .bin .logicalOr => some (set (oneIf (left != 0 || v != 0)))
  | _ => some none

/-- The general case: both operands become symbols. -/
def generalCase (finalizeSyms : Bool) (fuel : Nat) (m : Mem) (res : ExprS) (op : OperatorT)
    (right : ExprS) : Option (ExprS × Mem) := do
  let (l, m) ← makeExprSymbol finalizeSyms fuel m res
  let (r, m) ← makeExprSymbol finalizeSyms fuel m right
  let res := { res with
    op := op, addSymbol := some l, opSymbol := some r, addNumber := 0,
    unsigned := true, extrabit := false }
  some (res, m)

/-- "Constant OP constant", with the checks before the switch. -/
def foldConstants (finalizeSyms : Bool) (fuel : Nat) (m : Mem) (res : ExprS) (op : OperatorT)
    (right : ExprS) : Option (ExprS × Mem) := do
  let v := right.addNumber
  let byZero := v == 0 && (op == .bin .divide || op == .bin .modulus)
  let m := m.sayIf byZero (.warn "division by zero")
  let v := if byZero then 1 else v
  let tooFar := decide (64 ≤ v.toNat) && (op == .bin .leftShift || op == .bin .rightShift)
  let m := m.sayIf tooFar (.warn (shiftCountText v))
  let res := if tooFar then { res with addNumber := 0 } else res
  let v := if tooFar then 0 else v
  match ← constantOp res op v with
  | some res => some (res, m)
  | none => generalCase finalizeSyms fuel m res op right

/-- The difference of two symbols whose distance is known, if it is. -/
def symbolDistance (m : Mem) (res : ExprS) (retval : Segment) (op : OperatorT) (right : ExprS)
    (rightseg : Segment) : Option (Option (Nat × Nat × Vma)) := do
  if op = .bin .subtract ∧ right.op = .symbol ∧ res.op = .symbol ∧ retval = rightseg then
    let i ← res.addSymbol
    let j ← right.addSymbol
    let s ← m.sym i
    let t ← m.sym j
    if (rightseg.segNormal ∧ !s.forceReloc ∧ !t.forceReloc) ∨ j = i then
      let off ← fragOffsetFixedP m s.frag t.frag
      some (off.map fun off => (i, j, off))
    else some none
  else some none

/-- "Symbol OP symbol"; the difference of two symbols of one section is absolute. -/
def symbolOpSymbol (m : Mem) (res : ExprS) (retval : Segment) (op : OperatorT) (right : ExprS)
    (rightseg : Segment) : Option (ExprS × Segment × Segment) := do
  let res' := { res with op := op, opSymbol := right.addSymbol }
  if op = .bin .add then
    some (addToResult res' right.addNumber right.extrabit, retval, rightseg)
  else if op = .bin .subtract then
    let res' := subtractFromResult res' right.addNumber right.extrabit
    let s ← res.addSymbol >>= m.sym
    let t ← right.addSymbol >>= m.sym
    if retval = rightseg ∧ retval.segNormal ∧ !s.forceReloc ∧ !t.forceReloc then
      some (res', .absolute, .absolute)
    else some (res', retval, rightseg)
  else some (res', retval, rightseg)

/-- The segment of the result, from those of the operands. -/
def joinSegments (m : Mem) (retval rightseg : Segment) : Mem × Segment :=
  if retval = rightseg ∨ retval = .undefined then (m, retval)
  else if rightseg = .undefined then (m, rightseg)
  else if retval = .expr then (m, retval)
  else if rightseg = .expr then (m, rightseg)
  else if retval = .reg then (m, retval)
  else if rightseg = .reg then (m, rightseg)
  else if rightseg = .absolute then (m, retval)
  else if retval = .absolute then (m, rightseg)
  else (m.say (.bad "operation combines symbols in different segments"), retval)

/-- The cases of the loop of `expr`, once both operands are there. -/
def combine (finalizeSyms : Bool) (fuel : Nat) (m : Mem) (res : ExprS) (retval : Segment)
    (op : OperatorT) (right : ExprS) (rightseg : Segment) : Option (ExprS × Segment × Mem) := do
  let join (res : ExprS) (m : Mem) (retval rightseg : Segment) : ExprS × Segment × Mem :=
    (res, (joinSegments m retval rightseg).2, (joinSegments m retval rightseg).1)
  if op = .bin .add ∧ right.op = .constant then
    some (join (addToResult res right.addNumber right.extrabit) m retval rightseg)
  else
    match ← symbolDistance m res retval op right rightseg with
    | some (i, j, fragOff) =>
      let (x, m) ← sGetValue finalizeSyms fuel m i
      let (y, m) ← sGetValue finalizeSyms fuel m j
      let res := subtractFromResult res right.addNumber right.extrabit
      let res := subtractFromResult res fragOff false
      let res := addToResult res (x - y) (x - y).msb
      some (join { res with op := .constant, addSymbol := none } m retval rightseg)
    | none =>
      if op = .bin .subtract ∧ right.op = .constant then
        some (join (subtractFromResult res right.addNumber right.extrabit) m retval rightseg)
      else if op = .bin .add ∧ res.op = .constant then
        let res := { res with
          op := right.op, addSymbol := right.addSymbol, opSymbol := right.opSymbol }
        some (join (addToResult res right.addNumber right.extrabit) m rightseg rightseg)
      else if res.op = .constant ∧ right.op = .constant then
        let (res, m) ← foldConstants finalizeSyms fuel m res op right
        some (join res m retval rightseg)
      else if res.op = .symbol ∧ right.op = .symbol ∧
          (op = .bin .add ∨ op = .bin .subtract ∨ (res.addNumber = 0 ∧ right.addNumber = 0)) then
        let (res, retval, rightseg) ← symbolOpSymbol m res retval op right rightseg
        some (join res m retval rightseg)
      else
        let (res, m) ← generalCase finalizeSyms fuel m res op right
        some (join res m retval rightseg)

/-- The closing bracket of an index. -/
def closeIndex (op : OperatorT) (tokens : List Token) (m : Mem) : List Token × Mem :=
  if op = .index then
    match tokens with
    | .closeBracket :: rest => (rest, m)
    | _ => (tokens, m.say (.bad "missing right bracket"))
  else (tokens, m)

/-- The loop of `expr`: operators of a higher rank take the next operand. -/
def exprLoop (finalizeSyms : Bool) (fuel : Nat) (parse : Nat → List Token → Mem → Option Parsed)
    (rank : Nat) : Nat → Parsed → Option Parsed
  | 0, _ => none
  | n + 1, p => do
    let opLeft := operatorf p.rest
    if opLeft ≠ .illegal ∧ rank < opRank opLeft then
      let q ← parse (opRank opLeft) p.rest.tail p.mem
      let m := q.mem.sayIf (q.result.op = .absent) (.warn "missing operand; zero assumed")
      let right := if q.result.op = .absent then q.result.assumeZero else q.result
      let (rest, m) := closeIndex opLeft q.rest m
      let (m, res) := noBignum m "left" p.result
      let (m, right) := noBignum m "right" right
      let (res, seg, m) ← combine finalizeSyms fuel m res p.seg opLeft right q.seg
      exprLoop finalizeSyms fuel parse rank n ⟨res, seg, rest, m⟩
    else some p

/-- `enum expr_mode`. -/
inductive ExprMode where
  | evaluate | normal | defer
  deriving DecidableEq, Repr

/-- `expr`. -/
def expr (finalizeSyms : Bool) (mode : ExprMode) :
    Nat → Nat → List Token → Mem → Option Parsed
  | 0, _, _, _ => none
  | n + 1, rank, tokens, m => do
    let p ← exprLoop finalizeSyms n (expr finalizeSyms mode n) rank (tokens.length + 1)
      (operand tokens m)
    let result ←
      if rank = 0 ∧ mode = .evaluate then
        (resolveExpression finalizeSyms n p.mem p.result).map (·.getD p.result)
      else some p.result
    some { p with
      result := result
      seg := if result.op = .constant then .absolute else p.seg }

end FusionBinutils.Gas.Expr
