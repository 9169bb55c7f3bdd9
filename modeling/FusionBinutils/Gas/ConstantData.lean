import FusionBinutils.Gas.Evaluators
import FusionBinutils.Gas.EmitExpr

/-! Constant expressions of literals, unary operators, sums and differences, from `operand` and
`expr` (gas/expr.c) to the bytes of a data directive. -/
namespace FusionBinutils.Gas.ConstantData

open Gas.Expr

/-! What stands in the source. -/

/-- The unary operators on numbers. -/
inductive Unary where
  | minus | complement | plus
  deriving DecidableEq

mutual
/-- An operand. A literal has a number of one word, as any other is out of the range of constants. -/
inductive Operand where
  | literal (n : Vma)
  | unary (c : Unary) (x : Operand)
  | paren (e : Sum)

/-- Operands with `+` and `-` between them. -/
inductive Sum where
  | operand (x : Operand)
  | add (l : Sum) (r : Operand)
  | subtract (l : Sum) (r : Operand)
end

def Unary.exact (c : Unary) (v : Int) : Int :=
  match c with
  | .minus => -v
  | .complement => -v - 1
  | .plus => v

mutual
/-- The mathematical value. -/
def Operand.exact : Operand → Int
  | .literal n => n.toNat
  | .unary c x => c.exact x.exact
  | .paren e => e.exact

def Sum.exact : Sum → Int
  | .operand x => x.exact
  | .add l r => l.exact + r.exact
  | .subtract l r => l.exact - r.exact
end

/-- The range of `X_extrabit:X_add_number`. -/
def Fits (v : Int) : Prop := -2 ^ 64 ≤ v ∧ v < 2 ^ 64

mutual
/-- Every intermediate result is in the range. -/
def Operand.InRange : Operand → Prop
  | .literal _ => True
  | .unary c x => x.InRange ∧ Fits (c.exact x.exact)
  | .paren e => e.InRange

def Sum.InRange : Sum → Prop
  | .operand x => x.InRange
  | .add l r => l.InRange ∧ r.InRange ∧ Fits (l.exact + r.exact)
  | .subtract l r => l.InRange ∧ r.InRange ∧ Fits (l.exact - r.exact)
end

mutual
/-- A `-` is applied to the first operand, or to a part of it that comes first. -/
def Operand.negated : Operand → Bool
  | .literal _ => false
  | .unary c x => c == .minus || x.negated
  | .paren e => e.negated

def Sum.negated : Sum → Bool
  | .operand x => x.negated
  | .add l _ => l.negated
  | .subtract l _ => l.negated
end

/-! How it is read. -/

/-- The unary operators of `operand`, on a constant. -/
def Unary.apply (c : Unary) (e : ExprS) : ExprS :=
  match c with
  | .minus =>
    { e with
      addNumber := -e.addNumber
      unsigned := false
      extrabit := if -e.addNumber ≠ 0 then !e.extrabit else e.extrabit }
  | .complement => { e with addNumber := ~~~e.addNumber }
  | .plus => e

variable (fin : Bool) (mode : ExprMode) (fuel : Nat) (m : Mem)

mutual
/-- `operand`; no operand here is anything but a constant. -/
def readOperand : Operand → Option ExprS
  | .literal n => some (constExpr n true false)
  | .unary c x => do
    let e ← readOperand x
    if e.op = .constant then some (c.apply e) else none
  | .paren e => do
    let tokens ← readSum e
    let p ← expr fin mode fuel 0 tokens m
    some p.result

/-- The operands and operators that `expr` meets. -/
def readSum : Sum → Option (List Token)
  | .operand x => do
    let e ← readOperand x
    some [.operand e .absolute]
  | .add l r => do
    let tokens ← readSum l
    let e ← readOperand r
    some (tokens ++ [.operator (.bin .add), .operand e .absolute])
  | .subtract l r => do
    let tokens ← readSum l
    let e ← readOperand r
    some (tokens ++ [.operator (.bin .subtract), .operand e .absolute])
end

/-- `expression`. -/
def readExpression (e : Sum) : Option ExprS := readOperand fin mode fuel m (.paren e)

/-! What it is read as. -/

/-- The step of `expr` for one more operand. -/
def applyPair (acc : ExprS) (p : BinOp × ExprS) : ExprS :=
  if p.1 = .add then addToResult acc p.2.addNumber p.2.extrabit
  else subtractFromResult acc p.2.addNumber p.2.extrabit

mutual
/-- The constant with its two flags. -/
def Operand.result : Operand → ExprS
  | .literal n => constExpr n true false
  | .unary c x => c.apply x.result
  | .paren e => e.result

def Sum.result : Sum → ExprS
  | .operand x => x.result
  | .add l r => applyPair l.result (.add, r.result)
  | .subtract l r => applyPair l.result (.subtract, r.result)
end

theorem ofInt_sub (v v' : Int) :
    BitVec.ofInt 64 (v - v') = BitVec.ofInt 64 v - BitVec.ofInt 64 v' := by
  rw [sub_eq_add_neg, BitVec.ofInt_add, BitVec.ofInt_neg, BitVec.sub_eq_add_neg]

/-- The number of the value, and the flag that only a `-` on the left takes away. -/
structure Reads (e : ExprS) (v : Int) (negated : Bool) : Prop where
  op : e.op = .constant
  number : e.addNumber = BitVec.ofInt 64 v
  unsigned : e.unsigned = !negated

theorem reads_apply {e : ExprS} {v : Int} {b : Bool} (c : Unary) (h : Reads e v b) :
    Reads (c.apply e) (c.exact v) (c == .minus || b) := by
  cases c with
  | minus =>
    refine ⟨h.op, ?_, rfl⟩
    rw [Unary.apply, h.number, Unary.exact, BitVec.ofInt_neg]
  | complement =>
    refine ⟨h.op, ?_, h.unsigned⟩
    rw [Unary.apply, h.number, Unary.exact, BitVec.not_eq_neg_add, ofInt_sub, BitVec.ofInt_neg]
    rfl
  | plus => exact h

theorem reads_applyPair {e e' : ExprS} {v v' : Int} {b b' : Bool} {op : BinOp}
    (h : Reads e v b) (h' : Reads e' v' b') :
    Reads (applyPair e (op, e')) (if op = .add then v + v' else v - v') b := by
  rw [applyPair]
  split
  · refine ⟨h.op, ?_, h.unsigned⟩
    rw [addToResult, h.number, h'.number, BitVec.ofInt_add]
  · refine ⟨h.op, ?_, h.unsigned⟩
    rw [subtractFromResult, h.number, h'.number, ofInt_sub]

mutual
theorem Operand.reads_result : (x : Operand) → Reads x.result x.exact x.negated
  | .literal n => ⟨rfl, by simp [Operand.result, Operand.exact, constExpr], rfl⟩
  | .unary c x => reads_apply c x.reads_result
  | .paren e => e.reads_result

theorem Sum.reads_result : (e : Sum) → Reads e.result e.exact e.negated
  | .operand x => x.reads_result
  | .add l r => reads_applyPair l.reads_result r.reads_result
  | .subtract l r => reads_applyPair l.reads_result r.reads_result
end

/-! `expr` on a sum. -/

/-- Operators and operands behind the first operand. -/
def pairTokens (ps : List (BinOp × ExprS)) : List Token :=
  ps.flatMap fun p => [.operator (.bin p.1), .operand p.2 .absolute]

/-- Constants with `+` and `-` in front of them. -/
def Terms (ps : List (BinOp × ExprS)) : Prop :=
  ∀ p ∈ ps, (p.1 = .add ∨ p.1 = .subtract) ∧ p.2.op = .constant

theorem combine_pair {acc : ExprS} {p : BinOp × ExprS} (hp : p.1 = .add ∨ p.1 = .subtract)
    (hconst : p.2.op = .constant) :
    combine fin fuel m acc .absolute (.bin p.1) p.2 .absolute = some (applyPair acc p, .absolute, m) := by
  rcases hp with hp | hp <;>
    simp [combine, symbolDistance, applyPair, hp, hconst, joinSegments_self]

theorem opRank_pair {op : BinOp} (h : op = .add ∨ op = .subtract) : opRank (.bin op) = 5 := by
  rcases h with rfl | rfl <;> rfl

/-- A sum ends an operand of its own rank. -/
theorem expr_term {e : ExprS} {ps : List (BinOp × ExprS)} (he : e.op = .constant) (hps : Terms ps)
    (n : Nat) :
    expr fin mode (n + 1) 5 (.operand e .absolute :: pairTokens ps) m =
      some ⟨e, .absolute, pairTokens ps, m⟩ := by
  have hstop : ¬ (operatorf (pairTokens ps) ≠ .illegal ∧ 5 < opRank (operatorf (pairTokens ps))) := by
    cases ps with
    | nil => simp [pairTokens, operatorf]
    | cons p ps =>
      rintro ⟨-, hlt⟩
      have hop : operatorf (pairTokens (p :: ps)) = .bin p.1 := rfl
      rw [hop, opRank_pair (hps p List.mem_cons_self).1] at hlt
      exact absurd hlt (by decide)
  have hloop (k : Nat) : exprLoop fin n (expr fin mode n) 5 (k + 1)
      ⟨e, .absolute, pairTokens ps, m⟩ = some ⟨e, .absolute, pairTokens ps, m⟩ := by
    rw [exprLoop]
    exact if_neg hstop
  rw [expr, operand, hloop]
  simp [he]

/-- The loop of `expr` takes the operands one by one. -/
theorem exprLoop_terms {acc : ExprS} {ps : List (BinOp × ExprS)} (hacc : acc.op = .constant)
    (hps : Terms ps) (n : Nat) {k : Nat} (hk : ps.length < k) :
    exprLoop fin fuel (expr fin mode (n + 1)) 0 k ⟨acc, .absolute, pairTokens ps, m⟩ =
      some ⟨ps.foldl applyPair acc, .absolute, [], m⟩ := by
  induction ps generalizing acc k with
  | nil =>
    obtain ⟨k, rfl⟩ : ∃ j, k = j + 1 := ⟨k - 1, by simp at hk; omega⟩
    simp [exprLoop, pairTokens, operatorf]
  | cons p ps ih =>
    obtain ⟨k, rfl⟩ : ∃ j, k = j + 1 := ⟨k - 1, by simp at hk; omega⟩
    obtain ⟨⟨hop, hconst⟩, hps⟩ := List.forall_mem_cons.mp hps
    have hrank := opRank_pair hop
    have htail : pairTokens (p :: ps) =
        .operator (.bin p.1) :: .operand p.2 .absolute :: pairTokens ps := rfl
    have hterm := expr_term fin mode m hconst hps n
    have hcombine : combine fin fuel m acc .absolute (.bin p.1) p.2 .absolute =
        some (applyPair acc p, .absolute, m) := combine_pair fin fuel m hop hconst
    have hnext : (applyPair acc p).op = .constant := by
      rw [applyPair]
      split
      · exact hacc
      · exact hacc
    rw [exprLoop, htail]
    simp only [operatorf, hrank, List.tail_cons, hterm, hconst, hacc, Mem.sayIf, noBignum,
      closeIndex, hcombine, reduceCtorEq, ne_eq, not_false_eq_true, decide_false,
      Bool.false_eq_true, if_false, if_true, and_self, Option.bind_eq_bind, Option.bind_some,
      Nat.reduceLT]
    exact ih hnext hps (by simp at hk; omega)

theorem expr_terms {e : ExprS} {ps : List (BinOp × ExprS)} (he : e.op = .constant) (hps : Terms ps)
    (hfold : (ps.foldl applyPair e).op = .constant) (n : Nat) :
    expr fin mode (n + 3) 0 (.operand e .absolute :: pairTokens ps) m =
      some ⟨ps.foldl applyPair e, .absolute, [], m⟩ := by
  have hlen : ps.length < (Token.operand e .absolute :: pairTokens ps).length + 1 := by
    simp [pairTokens]
    omega
  have hloop := exprLoop_terms fin mode (n + 2) m he hps (n + 1) hlen
  rw [expr, operand, hloop]
  simp [hfold, resolveExpression]

/-! The whole expression. -/

/-- The operands behind the first one, each with its operator. -/
def Sum.pairs : Sum → List (BinOp × ExprS)
  | .operand _ => []
  | .add l r => l.pairs ++ [(.add, r.result)]
  | .subtract l r => l.pairs ++ [(.subtract, r.result)]

def Sum.first : Sum → Operand
  | .operand x => x
  | .add l _ => l.first
  | .subtract l _ => l.first

theorem Sum.foldl_pairs : (e : Sum) → e.pairs.foldl applyPair e.first.result = e.result
  | .operand _ => rfl
  | .add l r => by
    rw [Sum.pairs, List.foldl_append, Sum.first, l.foldl_pairs]
    rfl
  | .subtract l r => by
    rw [Sum.pairs, List.foldl_append, Sum.first, l.foldl_pairs]
    rfl

theorem Sum.terms_pairs : (e : Sum) → Terms e.pairs
  | .operand _ => by
    intro p hp
    cases hp
  | .add l r => by
    intro p hp
    rcases List.mem_append.mp hp with hp | hp
    · exact l.terms_pairs p hp
    · rw [List.mem_singleton.mp hp]
      exact ⟨.inl rfl, r.reads_result.op⟩
  | .subtract l r => by
    intro p hp
    rcases List.mem_append.mp hp with hp | hp
    · exact l.terms_pairs p hp
    · rw [List.mem_singleton.mp hp]
      exact ⟨.inr rfl, r.reads_result.op⟩

theorem pairTokens_append (ps ps' : List (BinOp × ExprS)) :
    pairTokens (ps ++ ps') = pairTokens ps ++ pairTokens ps' := List.flatMap_append

theorem Sum.expr_result (e : Sum) (n : Nat) :
    expr fin mode (n + 3) 0 (.operand e.first.result .absolute :: pairTokens e.pairs) m =
      some ⟨e.result, .absolute, [], m⟩ := by
  have hfold : (e.pairs.foldl applyPair e.first.result).op = .constant :=
    e.foldl_pairs ▸ e.reads_result.op
  rw [expr_terms fin mode m e.first.reads_result.op e.terms_pairs hfold, e.foldl_pairs]

mutual
/-- Reading never fails, and ends with the constant that the operators give. -/
theorem Operand.read (n : Nat) : (x : Operand) → readOperand fin mode (n + 3) m x = some x.result
  | .literal k => by rw [readOperand, Operand.result]
  | .unary c x => by
    rw [readOperand, x.read n]
    exact if_pos x.reads_result.op
  | .paren e => by
    rw [readOperand, e.read n]
    simp only [Option.bind_eq_bind, Option.bind_some, e.expr_result fin mode m n]
    rfl

theorem Sum.read (n : Nat) : (e : Sum) → readSum fin mode (n + 3) m e =
    some (.operand e.first.result .absolute :: pairTokens e.pairs)
  | .operand x => by
    rw [readSum, x.read n]
    rfl
  | .add l r => by
    rw [readSum, l.read n, r.read n, Sum.pairs, pairTokens_append]
    rfl
  | .subtract l r => by
    rw [readSum, l.read n, r.read n, Sum.pairs, pairTokens_append]
    rfl
end

/-! The bytes. -/

/-- The directive stores the value of the expression in the byte order of the target. -/
def Stores (d : Emit.Directive) (e : Sum) (n : Nat) : Prop :=
  ∃ exp, readExpression fin mode fuel m e = some exp ∧
    (Emit.emitExprWithReloc d m exp [] n).1 =
      .bytes (Endian.put d.bigEndian n (e.exact % 2 ^ (8 * n)).toNat)

theorem Operand.fits : (x : Operand) → x.InRange → Fits x.exact
  | .literal n, _ => by
    have hn := n.isLt
    rw [Operand.exact, Fits]
    omega
  | .unary _ _, h => h.2
  | .paren (.operand x), h => x.fits h
  | .paren (.add _ _), h => h.2.2
  | .paren (.subtract _ _), h => h.2.2

/-- A word and its sign make the value just when the flag is the sign of the value. -/
theorem extended_iff {v : Int} (h : Fits v) (negated : Bool) :
    ((BitVec.ofInt 64 v).toNat + if !negated then 0 else 2 ^ 128 - 2 ^ 64) % 256 ^ 16 =
        (v % 2 ^ (8 * 16)).toNat % 256 ^ 16 ↔ (negated = true ↔ v < 0) := by
  obtain ⟨hlo, hhi⟩ := h
  rw [BitVec.toNat_ofInt]
  cases negated with
  | false =>
    simp only [Bool.not_false, if_true, Bool.false_eq_true, false_iff]
    omega
  | true =>
    simp only [Bool.not_true, Bool.false_eq_true, if_false, true_iff]
    omega

theorem word_bytes (v : Int) {n : Nat} (hn : n ∈ [1, 2, 4, 8]) :
    (BitVec.ofInt 64 v).toNat % 256 ^ n = (v % 2 ^ (8 * n)).toNat % 256 ^ n := by
  rw [BitVec.toNat_ofInt]
  simp only [List.mem_cons, List.not_mem_nil, or_false] at hn
  rcases hn with rfl | rfl | rfl | rfl <;> omega

theorem stores_iff_store {d : Emit.Directive} (hpass : d.needPass2 = false)
    (hseg : d.seg.absolute = false) (e : Sum) (n : Nat) :
    Stores fin mode (fuel + 3) m d e n ↔ (Emit.store d e.result [] 0 n).1 =
      .bytes (Endian.put d.bigEndian n (e.exact % 2 ^ (8 * n)).toNat) := by
  have hread : readExpression fin mode (fuel + 3) m e = some e.result :=
    Operand.read fin mode m fuel (.paren e)
  have hemit : (Emit.emitExprWithReloc d m e.result [] n).1 = (Emit.store d e.result [] 0 n).1 :=
    Emit.emitExprWithReloc_constant hpass hseg e.reads_result.op
  simp only [Stores, hread, Option.some.injEq, exists_eq_left', hemit]

/-- Up to eight bytes the value is always stored. Sixteen bytes are right just when a `-` on the
left is the sign of the value, for that is all that is known of the sign. -/
theorem stores_iff {d : Emit.Directive} (hpass : d.needPass2 = false)
    (hseg : d.seg.absolute = false) (hreloc : d.reloc = false) {e : Sum} (he : e.InRange) {n : Nat}
    (hn : n ∈ [1, 2, 4, 8, 16]) :
    Stores fin mode (fuel + 3) m d e n ↔ n ≤ 8 ∨ (e.negated = true ↔ e.exact < 0) := by
  have hres := e.reads_result
  have hfits : Fits e.exact := Operand.fits (.paren e) he
  have hcases : n ∈ [1, 2, 4, 8] ∨ n = 16 := by
    simp only [List.mem_cons, List.not_mem_nil, or_false] at hn ⊢
    omega
  rw [stores_iff_store fin mode fuel m hpass hseg]
  rcases hcases with hn | rfl
  · have hle : n ≤ 8 := by
      simp only [List.mem_cons, List.not_mem_nil, or_false] at hn
      omega
    rw [Emit.store_constant hreloc hres.op [] 0 hle, Emit.Emission.bytes.injEq,
      Endian.put_eq_put_iff, hres.number]
    exact iff_of_true (word_bytes e.exact hn) (.inl hle)
  · rw [Emit.store_constant_16 hreloc hres.op, Emit.Emission.bytes.injEq, Endian.put_eq_put_iff,
      hres.number, hres.unsigned, extended_iff hfits e.negated]
    exact (or_iff_right (by decide)).symm

/-- A directive in the data section of a big endian target. -/
def dataDirective : Emit.Directive := ⟨false, ⟨false, false, ".data"⟩, false, true⟩

/-- `2 - 3 + 4` -/
def someSum : Sum := .add (.subtract (.operand (.literal 2)) (.literal 3)) (.literal 4)

theorem someSum_stored : Stores false .normal 3 ⟨[], [], []⟩ dataDirective someSum 16 := by
  have hrange : someSum.InRange := by
    simp [someSum, Sum.InRange, Operand.InRange, Sum.exact, Operand.exact, Fits]
  exact (stores_iff false .normal 0 ⟨[], [], []⟩ rfl rfl rfl hrange (by decide)).mpr (.inr (by decide))

/-- The sixteen bytes of `1 - 2` are those of 2 ^ 64 - 1. -/
theorem difference_without_sign :
    ∃ e : Sum, e.InRange ∧ -2 ^ 127 ≤ e.exact ∧ e.exact < 2 ^ 128 ∧
      ¬ Stores false .normal 3 ⟨[], [], []⟩ dataDirective e 16 := by
  let e : Sum := .subtract (.operand (.literal 1)) (.literal 2)
  have hexact : e.exact = -1 := rfl
  refine ⟨e, ?_, ?_, ?_, ?_⟩
  · simp [e, Sum.InRange, Operand.InRange, Sum.exact, Operand.exact, Fits]
  · rw [hexact]
    decide
  · rw [hexact]
    decide
  · rw [stores_iff_store false .normal 0 _ rfl rfl, Emit.store_constant_16 rfl rfl,
      Emit.Emission.bytes.injEq, Endian.put_eq_put_iff, hexact]
    decide

end FusionBinutils.Gas.ConstantData
