import FusionBinutils.Gas.FragOffset

/-! What an expression over symbols is worth once every section has a base address: the meaning
that `resolve_expression` (gas/expr.c) has to keep when it says that an expression is a constant. -/
namespace FusionBinutils.Gas.Expr

/-- The six comparisons. -/
def BinOp.compares : BinOp → Bool
  | .eq | .ne | .lt | .le | .ge | .gt => true
  | _ => false

/-- What an operator gives for two words. A shift by the width of the word or more shifts everything
out, as in the arithmetic without bound; a comparison has no value here. -/
def BinOp.result (op : BinOp) (left right : Vma) : Option Vma :=
  match op with
  | .multiply => some (left * right)
  | .divide => if right = 0 then none else some (left.sdiv right)
  | .modulus => if right = 0 then none else some (left.srem right)
  | .leftShift => some (left <<< right.toNat)
  | .rightShift => some (left >>> right.toNat)
  | .bitInclusiveOr => some (left ||| right)
  | .bitOrNot => some (left ||| ~~~right)
  | .bitExclusiveOr => some (left ^^^ right)
  | .bitAnd => some (left &&& right)
  | .add => some (left + right)
  | .subtract => some (left - right)
  | .logicalAnd => some (oneIf (left != 0 && right != 0))
  | .logicalOr => some (oneIf (left != 0 || right != 0))
  | .eq | .ne | .lt | .le | .ge | .gt => none

theorem offsetDiv_eq {left right v : Vma} (h : offsetDiv left right = some v) :
    v = left.sdiv right := by
  rw [offsetDiv] at h
  split at h
  case isTrue => cases h
  case isFalse => exact (Option.some.inj h).symm

theorem offsetMod_eq {left right v : Vma} (h : offsetMod left right = some v) :
    v = left.srem right := by
  rw [offsetMod] at h
  split at h
  case isTrue => cases h
  case isFalse => exact (Option.some.inj h).symm

theorem shiftBy_eq {f : Vma → Nat → Vma} {left right v : Vma} (h : shiftBy f left right = some v) :
    v = f left right.toNat := by
  rw [shiftBy] at h
  split at h
  case isTrue => exact (Option.some.inj h).symm
  case isFalse => cases h

/-- Where `resolve_expression` applies an operator, it applies this one. -/
theorem valueOp_result {op : BinOp} {left right v : Vma} {same : Bool} (hop : op.compares = false)
    (h : valueOp op left right same = some (some v)) : op.result left right = some v := by
  cases op
  case divide =>
    rw [valueOp] at h
    split at h
    case isTrue => cases h
    case isFalse hne =>
      obtain ⟨w, hw, hv⟩ := Option.map_eq_some_iff.mp h
      cases hv
      rw [BinOp.result, if_neg hne, offsetDiv_eq hw]
  case modulus =>
    rw [valueOp] at h
    split at h
    case isTrue => cases h
    case isFalse hne =>
      obtain ⟨w, hw, hv⟩ := Option.map_eq_some_iff.mp h
      cases hv
      rw [BinOp.result, if_neg hne, offsetMod_eq hw]
  case leftShift =>
    obtain ⟨w, hw, hv⟩ := Option.map_eq_some_iff.mp h
    cases hv
    rw [BinOp.result, shiftBy_eq hw]
  case rightShift =>
    obtain ⟨w, hw, hv⟩ := Option.map_eq_some_iff.mp h
    cases hv
    rw [BinOp.result, shiftBy_eq hw]
  all_goals first
    | exact Option.some.inj h
    | cases hop

/-! Base addresses. -/

/-- A base address for every section; the absolute section starts at zero. -/
structure Bases where
  base : Segment → Vma
  absolute : base .absolute = 0

attribute [simp] Bases.absolute

/-- One section at `v`, the others at zero. -/
def Bases.only (seg : Segment) (v : Vma) (h : seg ≠ .absolute) : Bases where
  base := fun seg' => if seg' = seg then v else 0
  absolute := if_neg h.symm

/-- Two places that coincide whatever the bases are lie in one section, at one offset. -/
theorem Bases.place_eq {seg seg' : Segment} {off off' : Vma}
    (h : ∀ b : Bases, b.base seg + off = b.base seg' + off') : seg = seg' ∧ off = off' := by
  have hoff : off = off' := by simpa using h ⟨fun _ => 0, rfl⟩
  subst hoff
  refine ⟨?_, rfl⟩
  by_contra hne
  by_cases habs : seg = .absolute
  · have hone := h (Bases.only seg' 1 (fun h' => hne (habs.trans h'.symm)))
    simp [Bases.only, hne] at hone
  · have hone := h (Bases.only seg 1 habs)
    simp [Bases.only, Ne.symm hne] at hone

/-! The value of symbols and expressions. -/

/-- Where a frag stands in its section in the end; `zero_address_frag` stands at zero. -/
def place (addr : Nat → Vma) : Option Nat → Vma
  | none => 0
  | some i => addr i

/-- A symbol whose value is a number and no further expression. -/
def SymbolS.isNumber (s : SymbolS) : Bool :=
  s.isLocal || s.value.op == .constant || s.value.op == .register || s.value.op == .illegal

/-- The section that the number of a symbol counts from. `make_expr_symbol` puts constants and
registers into sections of their own, but the expression section may hold them as well. -/
def SymbolS.home (s : SymbolS) : Segment :=
  if s.isLocal || s.seg != .expr then s.seg
  else match s.value.op with
    | .constant => .absolute
    | .register => .reg
    | _ => .expr

/-- The offset of a symbol in its section. The number of a resolved symbol includes its frag. -/
def SymbolS.offset (addr : Nat → Vma) (s : SymbolS) : Vma :=
  s.value.addNumber + if s.resolved then 0 else place addr s.frag

/-- The value of an expression, given those of its symbols. -/
def ExprS.valueWith (b : Bases) (value : Nat → Option Vma) (e : ExprS) : Option Vma :=
  match e.op with
  | .constant => some e.addNumber
  | .register => some (b.base .reg + e.addNumber)
  | .symbol => do
    let v ← e.addSymbol.bind value
    some (e.addNumber + v)
  | .uminus => do
    let v ← e.addSymbol.bind value
    some (e.addNumber + -v)
  | .bitNot => do
    let v ← e.addSymbol.bind value
    some (e.addNumber + ~~~v)
  | .logicalNot => do
    let v ← e.addSymbol.bind value
    some (e.addNumber + oneIf (v == 0))
  | .bin op => do
    let v ← e.addSymbol.bind value
    let w ← e.opSymbol.bind value
    let r ← op.result v w
    some (e.addNumber + r)
  | .illegal | .absent | .symbolRva | .big | .index => none

/-- The value of a symbol: its place in its section, or what its expression is worth. -/
def symbolValue (b : Bases) (addr : Nat → Vma) (value : ExprS → Option Vma) (m : Mem) (i : Nat) :
    Option Vma := do
  let s ← m.sym i
  if s.isNumber then some (b.base s.home + s.offset addr) else value s.value

/-- The value of an expression; `none` also where the chain of symbols is longer than the fuel. -/
def exprValue (b : Bases) (addr : Nat → Vma) : Nat → Mem → ExprS → Option Vma
  | 0, _, _ => none
  | n + 1, m, e => e.valueWith b (symbolValue b addr (exprValue b addr n m) m)

variable {b : Bases} {addr : Nat → Vma} {m : Mem} {i j k n : Nat} {s t : SymbolS} {e : ExprS}
  {seg seg' : Segment} {off off' v : Vma}

/-! More fuel does no harm. -/

theorem valueWith_mono {f g : Nat → Option Vma} (hfg : ∀ i v, f i = some v → g i = some v)
    (h : e.valueWith b f = some v) : e.valueWith b g = some v := by
  have hbind : ∀ (x : Option Nat) w, x.bind f = some w → x.bind g = some w := by
    intro x w hw
    obtain ⟨i, rfl, hi⟩ := Option.bind_eq_some_iff.mp hw
    exact hfg i w hi
  unfold ExprS.valueWith at h ⊢
  cases hop : e.op with
  | bin op =>
    simp only [hop] at h ⊢
    obtain ⟨x, hx, h⟩ := Option.bind_eq_some_iff.mp h
    obtain ⟨y, hy, h⟩ := Option.bind_eq_some_iff.mp h
    refine Option.bind_eq_some_iff.mpr ⟨x, hbind _ _ hx, ?_⟩
    exact Option.bind_eq_some_iff.mpr ⟨y, hbind _ _ hy, h⟩
  | symbol | uminus | bitNot | logicalNot =>
    simp only [hop] at h ⊢
    obtain ⟨x, hx, h⟩ := Option.bind_eq_some_iff.mp h
    exact Option.bind_eq_some_iff.mpr ⟨x, hbind _ _ hx, h⟩
  | constant | register => simpa [hop] using h
  | illegal | absent | symbolRva | big | index => simp [hop] at h

theorem symbolValue_mono {f g : ExprS → Option Vma} (hfg : ∀ e v, f e = some v → g e = some v)
    (h : symbolValue b addr f m i = some v) : symbolValue b addr g m i = some v := by
  obtain ⟨s, hs, h⟩ := Option.bind_eq_some_iff.mp h
  refine Option.bind_eq_some_iff.mpr ⟨s, hs, ?_⟩
  by_cases hnum : s.isNumber = true
  · rwa [if_pos hnum] at h ⊢
  · rw [if_neg hnum] at h ⊢
    exact hfg s.value v h

theorem exprValue_succ (h : exprValue b addr n m e = some v) :
    exprValue b addr (n + 1) m e = some v := by
  induction n generalizing e v with
  | zero => cases h
  | succ n ih =>
    have hsym : ∀ i w, symbolValue b addr (exprValue b addr n m) m i = some w →
        symbolValue b addr (exprValue b addr (n + 1) m) m i = some w :=
      fun i w => symbolValue_mono fun e v => ih
    exact valueWith_mono hsym h

theorem exprValue_mono {n' : Nat} (hn : n ≤ n') (h : exprValue b addr n m e = some v) :
    exprValue b addr n' m e = some v := by
  induction n', hn using Nat.le_induction with
  | base => exact h
  | succ n' hn ih => exact exprValue_succ ih

/-! The place of a symbol. -/

/-- With every choice of bases symbol `i` is worth the base of `seg` and `off`. -/
def Mem.At (m : Mem) (addr : Nat → Vma) (i : Nat) (seg : Segment) (off : Vma) : Prop :=
  ∃ n, ∀ b, symbolValue b addr (exprValue b addr n m) m i = some (b.base seg + off)

/-- With every choice of bases the expression is worth the base of `seg` and `off`. -/
def Mem.Worth (m : Mem) (addr : Nat → Vma) (e : ExprS) (seg : Segment) (off : Vma) : Prop :=
  ∃ n, ∀ b, exprValue b addr n m e = some (b.base seg + off)

/-- Symbol `i` is worth one number, whatever the bases are. -/
def Mem.Constant (m : Mem) (addr : Nat → Vma) (i : Nat) : Prop := ∃ v, m.At addr i .absolute v

/-- A symbol is in one place only. -/
theorem Mem.At.unique (h : m.At addr i seg off) (h' : m.At addr i seg' off') :
    seg = seg' ∧ off = off' := by
  obtain ⟨n, h⟩ := h
  obtain ⟨n', h'⟩ := h'
  refine Bases.place_eq fun b => ?_
  have hl := symbolValue_mono (fun e v => exprValue_mono (Nat.le_max_left n n')) (h b)
  have hr := symbolValue_mono (fun e v => exprValue_mono (Nat.le_max_right n n')) (h' b)
  rw [hl] at hr
  exact Option.some.inj hr

theorem Mem.At.congr (h : m.At addr i seg off) (hoff : off = off') : m.At addr i seg off' :=
  hoff ▸ h

theorem at_number (hs : m.sym i = some s) (hnum : s.isNumber = true) :
    m.At addr i s.home (s.offset addr) :=
  ⟨0, fun b => by simp [symbolValue, hs, hnum]⟩

theorem at_expression (hs : m.sym i = some s) (hnum : s.isNumber = false)
    (h : m.Worth addr s.value seg off) : m.At addr i seg off := by
  obtain ⟨n, h⟩ := h
  exact ⟨n, fun b => by simp [symbolValue, hs, hnum, h b]⟩

/-- A symbol and a number. -/
theorem worth_symbol (hop : e.op = .symbol) (hi : e.addSymbol = some i)
    (h : m.At addr i seg off) : m.Worth addr e seg (off + e.addNumber) := by
  obtain ⟨n, h⟩ := h
  refine ⟨n + 1, fun b => ?_⟩
  simp only [exprValue, ExprS.valueWith, hop, hi, Option.bind_some, h b, Option.bind_eq_bind]
  congr 1
  ring

/-- A unary operator on a number. -/
theorem worth_unary {f : Vma → Vma} (h : m.At addr i .absolute v)
    (hf : ∀ (b : Bases) value x, value i = some x →
      e.valueWith b value = some (e.addNumber + f x)) :
    m.Worth addr e .absolute (f v + e.addNumber) := by
  obtain ⟨n, h⟩ := h
  refine ⟨n + 1, fun b => ?_⟩
  rw [exprValue, hf b _ _ (h b), b.absolute, zero_add, zero_add, add_comm]

/-- Two operands, from the places of both. -/
theorem worth_binary {op : BinOp} {k : Nat} {seg'' : Segment} {v : Vma} (hop : e.op = .bin op)
    (hi : e.addSymbol = some i) (hk : e.opSymbol = some k) (hl : m.At addr i seg off)
    (hr : m.At addr k seg' off')
    (h : ∀ b : Bases, op.result (b.base seg + off) (b.base seg' + off') = some (b.base seg'' + v)) :
    m.Worth addr e seg'' (v + e.addNumber) := by
  obtain ⟨n, hl⟩ := hl
  obtain ⟨n', hr⟩ := hr
  refine ⟨max n n' + 1, fun b => ?_⟩
  have hl := symbolValue_mono (fun e v => exprValue_mono (Nat.le_max_left n n')) (hl b)
  have hr := symbolValue_mono (fun e v => exprValue_mono (Nat.le_max_right n n')) (hr b)
  simp only [exprValue, ExprS.valueWith, hop, hi, hk, Option.bind_some, hl, hr, h b,
    Option.bind_eq_bind]
  congr 1
  ring

/-! The parts of an expression. -/

/-- Symbol `i` is an operand of `e`. -/
def ExprS.Operand (e : ExprS) (i : Nat) : Prop :=
  match e.op with
  | .symbol | .symbolRva | .uminus | .bitNot | .logicalNot => e.addSymbol = some i
  | .bin _ => e.addSymbol = some i ∨ e.opSymbol = some i
  | _ => False

/-- The expressions that make up the tree of `e`: itself and those behind its symbols. -/
inductive Mem.Within (m : Mem) (root : ExprS) : ExprS → Prop
  | root : Within m root root
  | operand {e : ExprS} {i : Nat} {s : SymbolS} : Within m root e → e.Operand i →
      m.sym i = some s → s.isNumber = false → Within m root s.value

/-- `snapshot_symbol` takes symbol `j` for symbol `i`. An expression is followed to the operand that
it differs from by a number, unless it is a number itself or, as it stands, a register. -/
inductive Mem.TakenFor (m : Mem) (addr : Nat → Vma) : Nat → Nat → Prop
  | number {i : Nat} {s : SymbolS} : m.sym i = some s → s.isNumber = true → TakenFor m addr i i
  | final {i : Nat} {s : SymbolS} : m.sym i = some s → s.resolved = true → TakenFor m addr i i
  | constant {i : Nat} {s : SymbolS} : m.sym i = some s → s.value.op ≠ .symbol →
      m.Constant addr i → TakenFor m addr i i
  | register {i k : Nat} {s : SymbolS} {off : Vma} : m.sym i = some s → s.value.op ≠ .symbol →
      s.value.Operand k → m.At addr k .reg off → m.At addr i .reg off → TakenFor m addr i i
  | operand {i j k : Nat} {s : SymbolS} {seg : Segment} {off n : Vma} : m.sym i = some s →
      s.isNumber = false → s.resolved = false → s.value.Operand k →
      (s.value.op = .symbol ∨ seg ≠ .absolute ∧ ¬ (seg = .reg ∧ n = 0)) →
      m.At addr k seg off → m.At addr i seg (off + n) → TakenFor m addr k j → TakenFor m addr i j

end FusionBinutils.Gas.Expr
