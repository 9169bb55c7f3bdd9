import FusionBinutils.Gas.Evaluators

/-! Where constant folding leaves the arithmetic of C: the quotient that does not fit and the shift
by the width of the word, in each of the three evaluators. -/
namespace FusionBinutils.Gas.Expr

variable {m : Mem} {i : Nat} {s : SymbolS} {a b : Vma} {op : BinOp} (fin : Bool)

/-- A shift by 64 bits or more. -/
def ShiftsTooFar (op : BinOp) (b : Vma) : Prop :=
  (op = .leftShift ∨ op = .rightShift) ∧ 64 ≤ b.toNat

theorem divTraps_one (a : Vma) : divTraps a 1#64 = false := by
  simp [divTraps]

theorem offsetDiv_isSome (hb : b ≠ 0) :
    (offsetDiv a b).isSome ↔ ¬ (a = BitVec.intMin 64 ∧ b = BitVec.allOnes 64) := by
  rw [← divTraps_iff hb, offsetDiv]
  split <;> simp_all

theorem offsetMod_isSome (hb : b ≠ 0) :
    (offsetMod a b).isSome ↔ ¬ (a = BitVec.intMin 64 ∧ b = BitVec.allOnes 64) := by
  rw [← divTraps_iff hb, offsetMod]
  split <;> simp_all

theorem shiftBy_isSome (f : Vma → Nat → Vma) : (shiftBy f a b).isSome ↔ b.toNat < 64 := by
  rw [shiftBy]
  split <;> simp_all

/-! The switches. -/

/-- The switch of `resolve_expression`; a zero divisor is not divided by. -/
theorem valueOp_isSome_iff :
    (valueOp op a b true).isSome ↔ ¬ DivOverflows op a b ∧ ¬ ShiftsTooFar op b := by
  cases op with
  | divide =>
    by_cases hb : b = 0#64
    · subst hb
      simp [valueOp, DivOverflows, ShiftsTooFar]
    · simpa [valueOp, hb, DivOverflows, ShiftsTooFar] using offsetDiv_isSome hb
  | modulus =>
    by_cases hb : b = 0#64
    · subst hb
      simp [valueOp, DivOverflows, ShiftsTooFar]
    · simpa [valueOp, hb, DivOverflows, ShiftsTooFar] using offsetMod_isSome hb
  | leftShift => simpa [valueOp, DivOverflows, ShiftsTooFar] using shiftBy_isSome (· <<< ·)
  | rightShift => simpa [valueOp, DivOverflows, ShiftsTooFar] using shiftBy_isSome (· >>> ·)
  | _ => simp [valueOp, DivOverflows, ShiftsTooFar]

/-- The switch of `resolve_symbol_value`, behind the check of the divisor. -/
theorem offsetOp_isSome_iff :
    (offsetOp op a (divisor op b) true).isSome ↔ ¬ DivOverflows op a b ∧ ¬ ShiftsTooFar op b := by
  cases op with
  | divide =>
    by_cases hb : b = 0#64
    · subst hb
      simp [offsetOp, divisor, offsetDiv, divTraps_one, DivOverflows, ShiftsTooFar]
    · simpa [offsetOp, divisor, hb, DivOverflows, ShiftsTooFar] using offsetDiv_isSome hb
  | modulus =>
    by_cases hb : b = 0#64
    · subst hb
      simp [offsetOp, divisor, offsetMod, divTraps_one, DivOverflows, ShiftsTooFar]
    · simpa [offsetOp, divisor, hb, DivOverflows, ShiftsTooFar] using offsetMod_isSome hb
  | leftShift =>
    simpa [offsetOp, divisor, DivOverflows, ShiftsTooFar] using shiftBy_isSome (· <<< ·)
  | rightShift =>
    simpa [offsetOp, divisor, DivOverflows, ShiftsTooFar] using shiftBy_isSome BitVec.sshiftRight
  | _ => simp [offsetOp, DivOverflows, ShiftsTooFar]

theorem not_shiftsTooFar_folded : ¬ ShiftsTooFar op (foldedOperands op a b).2 := by
  rintro ⟨hop, hfar⟩
  rw [foldedOperands] at hfar
  split at hfar
  case isTrue => simp at hfar
  case isFalse h =>
    have : shiftTooFar op (divisor op b) = true := by
      rcases hop with rfl | rfl <;> simpa [shiftTooFar] using hfar
    exact h this

theorem divOverflows_folded :
    DivOverflows op (foldedOperands op a b).1 (foldedOperands op a b).2 ↔ DivOverflows op a b := by
  by_cases hop : op = .divide ∨ op = .modulus
  · have hfar : shiftTooFar op (divisor op b) = false := by
      rcases hop with rfl | rfl <;> simp [shiftTooFar]
    rw [foldedOperands, if_neg (by rw [hfar]; decide)]
    by_cases hb : b = 0#64
    · rcases hop with rfl | rfl <;> simp [DivOverflows, divisor, hb]
    · rw [divisor_eq fun _ => hb]
  · simp [DivOverflows, hop]

/-- `expr` on a line of two constants. -/
theorem expr_isSome_iff (mode : ExprMode) (n : Nat) (u e u' e' : Bool) :
    (expr fin mode (n + 3) 0 (binaryLine op (constExpr a u e) (constExpr b u' e')) m).isSome ↔
      ¬ DivOverflows op a b := by
  have hfold : (expr fin mode (n + 3) 0 (binaryLine op (constExpr a u e) (constExpr b u' e')) m).map
      (fun p => p.result.constant?) =
      valueOp op (foldedOperands op a b).1 (foldedOperands op a b).2 true :=
    expr_binary fin mode n
  have h := congrArg Option.isSome hfold
  rw [Option.isSome_map] at h
  rw [h, valueOp_isSome_iff, divOverflows_folded]
  exact and_iff_left not_shiftsTooFar_folded

/-- `resolve_expression` on two constant symbols. -/
theorem resolveExpression_isSome_iff {x y : Nat} (n : Nat) (hx : m.HasConst x a)
    (hy : m.HasConst y b) (u e : Bool) :
    (resolveExpression fin (n + 2) m ⟨.bin op, some x, some y, 0, u, e⟩).isSome ↔
      ¬ DivOverflows op a b ∧ ¬ ShiftsTooFar op b := by
  have h := congrArg Option.isSome (resolveExpression_binary fin op n hx hy u e)
  rw [Option.isSome_map] at h
  rw [h, valueOp_isSome_iff]

/-- `resolve_symbol_value` on an expression symbol over two constants. -/
theorem resolveSymbolValue_isSome_iff {x y : Nat} (n : Nat) (hi : m.sym i = some s)
    (hs : ExprSym s op x y) (hx : m.HasConst x a) (hy : m.HasConst y b) :
    (resolveSymbolValue fin (n + 2) m i).isSome ↔
      ¬ DivOverflows op a b ∧ ¬ ShiftsTooFar op b := by
  have h := congrArg Option.isSome (resolveSymbolValue_binary fin n hi hs hx hy)
  rw [Option.isSome_map] at h
  rw [h, offsetOp_isSome_iff]

/-- None of the evaluators leaves the arithmetic of C on `a op b`: `expr` on the line,
`resolve_expression` on the symbols `x` and `y`, and `resolve_symbol_value` on the expression
symbol `i`. -/
structure EvaluatorsRun (fin fin' fin'' : Bool) (mode : ExprMode) (n : Nat) (m : Mem)
    (line : List Token) (exp : ExprS) (i : Nat) : Prop where
  parsed : (expr fin mode (n + 3) 0 line m).isSome
  demand : (resolveExpression fin' (n + 2) m exp).isSome
  final : (resolveSymbolValue fin'' (n + 2) m i).isSome

/-- Constant folding stays within C but for the quotient that does not fit, and for a shift count of
64 or more, which only `expr` looks at. -/
theorem evaluatorsRun_iff (fin fin' fin'' : Bool) (mode : ExprMode) (n : Nat) (m : Mem)
    (op : BinOp) (a b : Vma) (u e u' e' u'' e'' : Bool) (x y i : Nat) (s : SymbolS)
    (hx : m.HasConst x a) (hy : m.HasConst y b) (hi : m.sym i = some s) (hs : ExprSym s op x y) :
    EvaluatorsRun fin fin' fin'' mode n m (binaryLine op (constExpr a u e) (constExpr b u' e'))
        ⟨.bin op, some x, some y, 0, u'', e''⟩ i ↔
      ¬ DivOverflows op a b ∧ ¬ ShiftsTooFar op b := by
  constructor
  · intro h
    exact (resolveExpression_isSome_iff fin' n hx hy u'' e'').mp h.demand
  · rintro ⟨hdiv, hshift⟩
    refine ⟨(expr_isSome_iff fin mode n u e u' e').mpr hdiv, ?_, ?_⟩
    · exact (resolveExpression_isSome_iff fin' n hx hy u'' e'').mpr ⟨hdiv, hshift⟩
    · exact (resolveSymbolValue_isSome_iff fin'' n hi hs hx hy).mpr ⟨hdiv, hshift⟩

/-- `1 / 0` is none of the traps. -/
theorem evaluatorsRun_divide_zero :
    EvaluatorsRun false false true .normal 0 (pairMem .divide 1 0)
      (binaryLine .divide (constExpr 1 true false) (constExpr 0 true false))
      ⟨.bin .divide, some 0, some 1, 0, true, false⟩ 2 := by
  obtain ⟨s, hi, hs⟩ := pairMem_z .divide 1 0
  refine (evaluatorsRun_iff false false true .normal 0 _ .divide 1 0 true false true false true
    false 0 1 2 s (pairMem_x _ _ _) (pairMem_y _ _ _) hi hs).mpr ⟨?_, ?_⟩
  · rintro ⟨-, -, h⟩
    exact absurd h (by decide)
  · rintro ⟨h, -⟩
    simp at h

/-- `-0x8000000000000000 / -1` traps. -/
theorem smallest_by_minus_one_traps :
    ¬ EvaluatorsRun false false true .normal 0 (pairMem .divide (BitVec.intMin 64) (-1))
      (binaryLine .divide (constExpr (BitVec.intMin 64) false false) (constExpr (-1) false true))
      ⟨.bin .divide, some 0, some 1, 0, true, false⟩ 2 := by
  rintro ⟨hline, -, -⟩
  rw [expr_isSome_iff] at hline
  exact hline ⟨.inl rfl, rfl, by decide⟩

end FusionBinutils.Gas.Expr
