import FusionBinutils.Gas.Expr

/-! When the three evaluators give a binary operation on constants the same value. -/
namespace FusionBinutils.Gas.Expr

variable {m : Mem} {i j : Nat} {s t : SymbolS} {c : Vma} (fin : Bool)

/-! The symbol memory. -/

theorem sym_setSym_self (h : m.sym i = some s) : (m.setSym i t).sym i = some t := by
  unfold Mem.sym Mem.setSym at *
  simp only [List.getElem?_set, if_true]
  obtain ⟨hi, -⟩ := List.getElem?_eq_some_iff.mp h
  simp [hi]

theorem sym_setSym_ne (h : j ≠ i) : (m.setSym i t).sym j = m.sym j := by
  simp [Mem.sym, Mem.setSym, h.symm]

@[simp] theorem setSym_setSym : (m.setSym i s).setSym i t = m.setSym i t := by
  simp [Mem.setSym]

@[simp] theorem frag_setSym (f : Option Nat) : (m.setSym i s).frag f = m.frag f := by
  cases f <;> rfl

@[simp] theorem frag_none : m.frag none = some zeroAddressFrag := rfl

@[simp] theorem frAddress_zeroAddressFrag_add (v : Vma) :
    zeroAddressFrag.frAddress + v = v := by
  simp [zeroAddressFrag]

@[simp] theorem add_frAddress_zeroAddressFrag (v : Vma) :
    v + zeroAddressFrag.frAddress = v := by
  simp [zeroAddressFrag]

/-- A symbol set to a number: absolute, at the frag of address zero. -/
structure ConstSym (s : SymbolS) (c : Vma) : Prop where
  op : s.value.op = .constant
  number : s.value.addNumber = c
  seg : s.seg = .absolute
  frag : s.frag = none
  isLocal : s.isLocal = false
  resolving : s.resolving = false

/-- A symbol that stands for the expression `x op y`. -/
structure ExprSym (s : SymbolS) (op : BinOp) (x y : Nat) : Prop where
  op : s.value.op = .bin op
  addSymbol : s.value.addSymbol = some x
  opSymbol : s.value.opSymbol = some y
  number : s.value.addNumber = 0
  seg : s.seg = .expr
  frag : s.frag = none
  isLocal : s.isLocal = false
  resolved : s.resolved = false
  resolving : s.resolving = false
  mriCommon : s.mriCommon = false
  weakrefr : s.weakrefr = false
  sectionSym : s.sectionSym = false

theorem setSegment_self (h : s.seg = .absolute) : s.setSegment .absolute = some s := by
  unfold SymbolS.setSegment
  split
  · rfl
  · rw [← h]

theorem endResolving_const (h : m.sym i = some s) (hc : ConstSym (s.markResolving false) c) :
    ∃ m' s', endResolving fin m i c .absolute true = some (c, m') ∧ m'.sym i = some s' ∧
      ConstSym s' c ∧ ∀ j ≠ i, m'.sym j = m.sym j := by
  have hseg : s.seg = .absolute := hc.seg
  cases fin with
  | false =>
    refine ⟨m.setSym i (s.markResolving false), _, ?_, sym_setSym_self h, hc,
      fun j hj => sym_setSym_ne hj⟩
    simp [endResolving, setValueAndExit, exitDontSetValue, h, sym_setSym_self h,
      setSegment_self hc.seg]
  | true =>
    let s' : SymbolS :=
      { (s.markResolving false).setValue c with resolved := true }
    refine ⟨m.setSym i s', s', ?_, sym_setSym_self h, ?_, fun j hj => sym_setSym_ne hj⟩
    · have hset : ((s.markResolving false).setValue c).seg = .absolute := hseg
      simp [endResolving, setValueAndExit, exitDontSetValue, h, sym_setSym_self h,
        setSegment_self hset, s']
    · exact ⟨rfl, rfl, hseg, hc.frag, hc.isLocal, rfl⟩

/-- Symbol `i` is the constant `c`. -/
def Mem.HasConst (m : Mem) (i : Nat) (c : Vma) : Prop :=
  ∃ s, m.sym i = some s ∧ ConstSym s c

theorem Mem.HasConst.unique {d : Vma} (h : m.HasConst i c) (h' : m.HasConst i d) : c = d := by
  obtain ⟨s, hs, hc⟩ := h
  obtain ⟨t, ht, hd⟩ := h'
  rw [hs, Option.some.injEq] at ht
  rw [← hc.number, ← hd.number, ht]

/-- A constant symbol resolves to its number and stays constant; no other symbol changes. -/
theorem resolveSymbolValue_const (n : Nat) (h : m.HasConst i c) :
    ∃ m', resolveSymbolValue fin (n + 1) m i = some (c, m') ∧ m'.HasConst i c ∧
      ∀ j ≠ i, m'.sym j = m.sym j := by
  obtain ⟨s, h, hc⟩ := h
  by_cases hr : s.resolved
  · refine ⟨m, ?_, ⟨s, h, hc⟩, fun _ _ => rfl⟩
    simp [resolveSymbolValue, h, hc.isLocal, hr, hc.op, hc.number]
  · have h1 : (m.setSym i (s.markResolving true)).sym i
        = some (s.markResolving true) := sym_setSym_self h
    have hc1 : ConstSym (s.markResolving false) c :=
      ⟨hc.op, hc.number, hc.seg, hc.frag, hc.isLocal, rfl⟩
    obtain ⟨m', s', he, hs', hc', hm'⟩ := endResolving_const fin h1 hc1
    refine ⟨m', ?_, ⟨s', hs', hc'⟩, fun j hj => (hm' j hj).trans (sym_setSym_ne hj)⟩
    rw [← he]
    simp [resolveSymbolValue, h, hc.isLocal, hr, hc.op, hc.number, hc.seg, hc.frag, hc.resolving]

theorem hasConst_frame {m' : Mem} {d : Vma} (hi : m.HasConst i c) (hi' : m'.HasConst i c)
    (hm : ∀ j ≠ i, m'.sym j = m.sym j) (hj : m.HasConst j d) : m'.HasConst j d := by
  by_cases h : j = i
  · subst h
    rwa [hj.unique hi]
  · obtain ⟨s, hs, hd⟩ := hj
    exact ⟨s, (hm j h).trans hs, hd⟩

/-! The exits of `resolve_symbol_value` return the value they are given. -/

theorem exitDontSetValue_val (h : m.sym i = some s) (hs : s.sectionSym = false) (v : Vma)
    (seg : Segment) (r : Bool) : ∃ m', exitDontSetValue fin m i v seg r = some (v, m') := by
  have hset : s.setSegment seg = some { s with seg := seg } := by simp [SymbolS.setSegment, hs]
  simp only [exitDontSetValue, h, hset, Option.bind_eq_bind, Option.bind_some]
  split
  · split
    · exact ⟨_, rfl⟩
    · split
      · exact ⟨_, rfl⟩
      · exact ⟨_, rfl⟩
  · exact ⟨_, rfl⟩

theorem endResolving_val (h : m.sym i = some s) (hs : s.sectionSym = false) (v : Vma)
    (seg : Segment) (r : Bool) : ∃ m', endResolving fin m i v seg r = some (v, m') := by
  simp only [endResolving, setValueAndExit, h, sym_setSym_self h, Option.bind_eq_bind,
    Option.bind_some]
  cases fin with
  | false =>
    apply exitDontSetValue_val false (sym_setSym_self h)
    exact hs
  | true =>
    rw [if_pos rfl, setSym_setSym]
    apply exitDontSetValue_val true (sym_setSym_self h)
    exact hs

/-- The attributes copied to the expression symbol change nothing that the value depends on. -/
theorem copySymbolAttributes_frame (h : m.sym i = some s) (hj : m.HasConst j c) (hne : i ≠ j) :
    ∃ m' b, copySymbolAttributes m i j = some m' ∧
      m'.sym i = some { s with indirectFunction := b } ∧ m'.HasConst j c := by
  obtain ⟨t, ht, hc⟩ := hj
  have h1 : (m.setSym j { t with isLocal := false }).sym i = some s :=
    (sym_setSym_ne hne).trans h
  refine ⟨_, s.indirectFunction || t.indirectFunction, ?_, sym_setSym_self h1, ?_⟩
  · simp [copySymbolAttributes, ht, h1]
  · refine ⟨{ t with isLocal := false }, ?_, hc.op, hc.number, hc.seg, hc.frag, rfl, hc.resolving⟩
    rw [sym_setSym_ne hne.symm, sym_setSym_self ht]

/-- What `doSymbol` and `resolveBinarySymbol` need of the symbol they work for. -/
structure InResolution (s : SymbolS) : Prop where
  frag : s.frag = none
  mriCommon : s.mriCommon = false
  weakrefr : s.weakrefr = false
  sectionSym : s.sectionSym = false

theorem doSymbol_val (h : m.sym i = some s) (hs : InResolution s) (hj : m.HasConst j c)
    (hne : i ≠ j) (left v : Vma) (seg : Segment) :
    ∃ m', doSymbol fin m i j left .absolute v seg = some (v + left, m') := by
  have hw : skipWeakref m i j v = some (m, j) := by
    obtain ⟨t, ht, -⟩ := hj
    simp [skipWeakref, h, ht, hs.weakrefr]
  -- the copied attributes leave a memory of the same shape
  obtain ⟨m1, b, hm1, h1, hj1⟩ : ∃ m1 b,
      copyIfEqual fin m i j v = some m1 ∧
        m1.sym i = some { s with indirectFunction := b } ∧ m1.HasConst j c := by
    unfold copyIfEqual
    split
    · exact copySymbolAttributes_frame h hj hne
    · exact ⟨m, s.indirectFunction, rfl, h, hj⟩
  obtain ⟨t, ht, -⟩ := hj
  obtain ⟨t1, ht1, hc1⟩ := hj1
  have hdef : t1.isDefined = true := by simp [SymbolS.isDefined, hc1.seg]
  have hcom : t1.isCommon = false := by simp [SymbolS.isCommon, hc1.seg]
  simp only [doSymbol, hw, h, ht, hs.mriCommon, hm1, h1, ht1, hs.frag, hdef, hcom, hs.weakrefr,
    frag_none, frAddress_zeroAddressFrag_add, Option.bind_eq_bind, Option.bind_some,
    Bool.not_true, Bool.or_false, if_false, Bool.false_eq_true]
  split
  · apply exitDontSetValue_val fin (sym_setSym_self h1)
    exact hs.sectionSym
  · apply endResolving_val fin h1
    exact hs.sectionSym

/-- A zero divisor counts as one. -/
def divisor (op : BinOp) (b : Vma) : Vma :=
  if (op == .divide || op == .modulus) && b == 0 then 1 else b

theorem divisor_eq {op : BinOp} {b : Vma} (hdiv : op = .divide ∨ op = .modulus → b ≠ 0) :
    divisor op b = b := by
  rw [divisor, if_neg]
  intro hcon
  simp only [Bool.and_eq_true, Bool.or_eq_true, beq_iff_eq] at hcon
  exact hdiv hcon.1 hcon.2

theorem sym_sayIf (b : Bool) (msg : Msg) : (m.sayIf b msg).sym i = m.sym i := by
  cases b <;> rfl

theorem frag_sayIf (b : Bool) (msg : Msg) (f : Option Nat) : (m.sayIf b msg).frag f = m.frag f := by
  cases b <;> cases f <;> rfl

theorem resolveBinarySymbol_val {x y : Nat} {a b : Vma} {op : BinOp}
    (h : m.sym i = some s) (hs : InResolution s) (hop : s.value.op = .bin op)
    (hx : m.HasConst x a) (hy : m.HasConst y b) (left : Vma) :
    (resolveBinarySymbol fin m i x y op left b 0 .expr).map Prod.fst
      = offsetOp op left (divisor op b) true := by
  obtain ⟨t, ht, hc⟩ := hx
  obtain ⟨r, hr, hd⟩ := hy
  have hok : operandsOk op .absolute .absolute x y = true := by simp [operandsOk]
  have hsame : (Segment.absolute == .absolute &&
      (Segment.absolute != .undefined || x == y)) = true := by simp
  simp only [resolveBinarySymbol, h, ht, hr, hc.seg, hd.seg, hok, hop, hs.frag, frag_sayIf,
    hsame, Bool.not_true, Bool.false_and, Bool.false_eq_true, if_false, frag_none,
    frAddress_zeroAddressFrag_add, Option.bind_eq_bind, Option.bind_some]
  rw [← divisor]
  cases hv : offsetOp op left (divisor op b) true with
  | none => rfl
  | some v =>
    rw [Option.bind_some]
    have hend (c : Bool) (msg : Msg) : ∃ m', endResolving fin (m.sayIf c msg) i v .absolute
        (t.resolved && r.resolved) = some (v, m') :=
      endResolving_val fin ((sym_sayIf c msg).trans h) hs.sectionSym v .absolute _
    simp [hend]

/-- `resolve_symbol_value` on an expression symbol over two constants. -/
theorem resolveSymbolValue_binary {x y : Nat} {a b : Vma} {op : BinOp} (n : Nat)
    (h : m.sym i = some s) (hs : ExprSym s op x y) (hx : m.HasConst x a)
    (hy : m.HasConst y b) :
    (resolveSymbolValue fin (n + 2) m i).map Prod.fst = offsetOp op a (divisor op b) true := by
  -- the expression symbol is neither of its operands
  have hne : ∀ {z : Nat} {d : Vma}, m.HasConst z d → i ≠ z := by
    rintro z d ⟨t, ht, hd⟩ rfl
    rw [h, Option.some.injEq] at ht
    have hop := hd.op
    rw [← ht, hs.op] at hop
    cases hop
  have hset : ∀ {z : Nat} {d : Vma}, m.HasConst z d →
      (m.setSym i (s.markResolving true)).HasConst z d := by
    rintro z d ⟨t, ht, hd⟩
    exact ⟨t, (sym_setSym_ne (hne ⟨t, ht, hd⟩).symm).trans ht, hd⟩
  obtain ⟨m1, hm1, hx1, hf1⟩ := resolveSymbolValue_const fin n (hset hx)
  obtain ⟨m2, hm2, hy2, hf2⟩ :=
    resolveSymbolValue_const fin n (hasConst_frame (hset hx) hx1 hf1 (hset hy))
  have hx2 : m2.HasConst x a :=
    hasConst_frame (hasConst_frame (hset hx) hx1 hf1 (hset hy)) hy2 hf2 hx1
  have hi2 : m2.sym i = some (s.markResolving true) := by
    rw [hf2 i (hne hy), hf1 i (hne hx), sym_setSym_self h]
  have hres : InResolution (s.markResolving true) :=
    ⟨hs.frag, hs.mriCommon, hs.weakrefr, hs.sectionSym⟩
  obtain ⟨tx, htx, hcx⟩ := hx2
  obtain ⟨ty, hty, hcy⟩ := hy2
  have hx2 : m2.HasConst x a := ⟨tx, htx, hcx⟩
  have hy2 : m2.HasConst y b := ⟨ty, hty, hcy⟩
  rw [resolveSymbolValue]
  simp only [h, hs.isLocal, hs.resolved, hs.resolving, hs.op, hs.addSymbol,
    hs.opSymbol, hm1, hm2, htx, hty, hcx.seg, hcy.seg, hs.number, hs.seg, Option.bind_eq_bind,
    Option.bind_some, Bool.false_eq_true, if_false, and_true]
  by_cases hadd : op = .add
  · subst hadd
    rw [if_pos rfl]
    obtain ⟨m3, hm3⟩ := doSymbol_val fin hi2 hres hx2 (hne hx) a (0 + b) .expr
    rw [hm3]
    simp [offsetOp, divisor, BitVec.add_comm]
  by_cases hsub : op = .subtract
  · subst hsub
    rw [if_neg (by decide), if_neg (by decide), if_pos rfl]
    obtain ⟨m3, hm3⟩ := doSymbol_val fin hi2 hres hx2 (hne hx) a (0 - b) .expr
    rw [hm3]
    simp [offsetOp, divisor, BitVec.sub_eq_add_neg, BitVec.add_comm]
  · rw [if_neg hadd, if_neg hadd, if_neg hsub]
    exact resolveBinarySymbol_val fin hi2 hres hs.op hx2 hy2 a

/-! `resolve_expression` on constants. -/

theorem snapshotSymbol_const (n : Nat) (h : m.HasConst i c) :
    snapshotSymbol (resolveExpression fin (n + 1)) m i
      = some (some ⟨i, c, .absolute, none⟩) := by
  obtain ⟨s, hs, hc⟩ := h
  by_cases hr : s.resolved
  · simp [snapshotSymbol, hs, hc.isLocal, hr, hc.seg, hc.frag, hc.number]
  · simp [snapshotSymbol, hs, hc.isLocal, hr, hc.seg, hc.frag, hc.number, hc.op, hc.resolving,
      resolveExpression]

/-- The value of an expression that is a constant. -/
def ExprS.constant? (e : ExprS) : Option Vma :=
  if e.op = .constant then some e.addNumber else none

theorem resolveExpression_binary {x y : Nat} {a b : Vma} (op : BinOp) (n : Nat)
    (hx : m.HasConst x a) (hy : m.HasConst y b) (u e : Bool) :
    (resolveExpression fin (n + 2) m ⟨.bin op, some x, some y, 0, u, e⟩).map
        (·.bind ExprS.constant?) = valueOp op a b true := by
  rw [resolveExpression]
  simp only [snapshotSymbol_const fin n hx, snapshotSymbol_const fin n hy,
    Option.bind_eq_bind, Option.bind_some]
  by_cases hadd : op = .add
  · subst hadd
    simp [resolveBinary, finishSymbol, ExprS.constant?, valueOp, BitVec.add_comm]
  by_cases hsub : op = .subtract
  · subst hsub
    simp [resolveBinary, finishSymbol, ExprS.constant?, valueOp, BitVec.sub_eq_add_neg,
      BitVec.add_comm]
  · have hsame : (Segment.absolute == .absolute && (fin || (none : Option Nat) == none) &&
        (Segment.absolute != .undefined || x == y)) = true := by simp
    simp only [resolveBinary, comparable, hadd, hsub, hsame]
    rcases hv : valueOp op a b true with _ | v
    · simp [hv]
    · cases v <;> simp [hv, finishConstant, ExprS.constant?]

/-! `expr` on two constants and an operator. -/

theorem allOnesIf_not (p : Bool) : allOnesIf (!p) = ~~~ allOnesIf p := by
  cases p <;> simp [allOnesIf]

/-- The two switches agree: the one of `expr` on constants and the one of
`resolve_expression`. -/
theorem constantOp_eq_valueOp {e : ExprS} {op : BinOp} {v : Vma} (he : e.op = .constant)
    (hadd : op ≠ .add) (hdiv : op = .divide ∨ op = .modulus → v ≠ 0) :
    (constantOp e (.bin op) v).map (·.bind ExprS.constant?) = valueOp op e.addNumber v true := by
  cases op with
  | add => exact absurd rfl hadd
  | divide =>
    have hv : v ≠ 0 := hdiv (.inl rfl)
    simp only [constantOp, valueOp, if_neg hv, Option.map_map]
    cases offsetDiv e.addNumber v <;> simp [ExprS.constant?, he]
  | modulus =>
    have hv : v ≠ 0 := hdiv (.inr rfl)
    simp only [constantOp, valueOp, if_neg hv, Option.map_map]
    cases offsetMod e.addNumber v <;> simp [ExprS.constant?, he]
  | leftShift =>
    simp only [constantOp, valueOp, shiftBy]
    split <;> simp [ExprS.constant?, he]
  | rightShift =>
    simp only [constantOp, valueOp, shiftBy]
    split <;> simp [ExprS.constant?, he]
  | ne =>
    have hne : (e.addNumber != v) = !(e.addNumber == v) := rfl
    simp [constantOp, valueOp, ExprS.constant?, he, hne, allOnesIf_not]
  | _ => simp [constantOp, valueOp, ExprS.constant?, subtractFromResult, he]

/-- A number as `operand` delivers it. -/
def constExpr (c : Vma) (u e : Bool) : ExprS := ⟨.constant, none, none, c, u, e⟩

theorem constantOp_ne_general {e : ExprS} {op : BinOp} {v : Vma} (hadd : op ≠ .add) :
    constantOp e (.bin op) v ≠ some none := by
  cases op with
  | add => exact absurd rfl hadd
  | _ => simp [constantOp]

/-- A shift count that `expr` does not accept. -/
def shiftTooFar (op : BinOp) (v : Vma) : Bool :=
  decide (64 ≤ v.toNat) && (op == .leftShift || op == .rightShift)

/-- The operands that `expr` computes with: zero is shifted by zero where the count is too big. -/
def foldedOperands (op : BinOp) (a b : Vma) : Vma × Vma :=
  if shiftTooFar op (divisor op b) then (0, 0) else (a, divisor op b)

theorem foldedOperands_eq {op : BinOp} {a b : Vma} (hdiv : op = .divide ∨ op = .modulus → b ≠ 0)
    (hshift : op = .leftShift ∨ op = .rightShift → b.toNat < 64) :
    foldedOperands op a b = (a, b) := by
  rw [foldedOperands, divisor_eq hdiv, if_neg]
  intro hcon
  simp only [shiftTooFar, Bool.and_eq_true, Bool.or_eq_true, beq_iff_eq, decide_eq_true_eq] at hcon
  have := hshift hcon.2
  omega

theorem foldedOperands_ne_zero {op : BinOp} (a b : Vma) (hop : op = .divide ∨ op = .modulus) :
    (foldedOperands op a b).2 ≠ 0 := by
  rcases hop with rfl | rfl
  · simp only [foldedOperands, shiftTooFar, divisor]
    by_cases hb : b = 0#64 <;> simp [hb]
  · simp only [foldedOperands, shiftTooFar, divisor]
    by_cases hb : b = 0#64 <;> simp [hb]

theorem foldConstants_val {op : BinOp} {a b : Vma} {u e u' e' : Bool} (fuel : Nat)
    (hadd : op ≠ .add) :
    (foldConstants fin fuel m (constExpr a u e) (.bin op) (constExpr b u' e')).map
        (fun r => r.1.constant?) =
      valueOp op (foldedOperands op a b).1 (foldedOperands op a b).2 true := by
  have hb : (constExpr b u' e').addNumber = b := rfl
  have hbin (op' : BinOp) : (OperatorT.bin op == .bin op') = (op == op') := by
    rw [Bool.eq_iff_iff, beq_iff_eq, beq_iff_eq, OperatorT.bin.injEq]
  have hz : (b == 0 && (OperatorT.bin op == .bin .divide || OperatorT.bin op == .bin .modulus)) =
      ((op == .divide || op == .modulus) && b == 0) := by
    rw [hbin, hbin, Bool.and_comm]
  have hfar (v : Vma) : (decide (64 ≤ v.toNat) &&
      (OperatorT.bin op == .bin .leftShift || OperatorT.bin op == .bin .rightShift)) =
      shiftTooFar op v := by
    rw [hbin, hbin, shiftTooFar]
  have hleft (c : Bool) : (if c then { constExpr a u e with addNumber := 0 }
      else constExpr a u e) = constExpr (if c then 0 else a) u e := by
    cases c <;> rfl
  simp only [foldConstants, hb, hz, hfar, hleft]
  rw [← divisor]
  have hval : (constantOp (constExpr (foldedOperands op a b).1 u e) (.bin op)
      (foldedOperands op a b).2).map (·.bind ExprS.constant?) =
        valueOp op (foldedOperands op a b).1 (foldedOperands op a b).2 true :=
    constantOp_eq_valueOp rfl hadd (foldedOperands_ne_zero a b)
  have hfst : (if shiftTooFar op (divisor op b) then 0 else a) = (foldedOperands op a b).1 := by
    rw [foldedOperands]
    split <;> rfl
  have hsnd : (if shiftTooFar op (divisor op b) then 0 else divisor op b) =
      (foldedOperands op a b).2 := by
    rw [foldedOperands]
    split <;> rfl
  rw [hfst, hsnd, ← hval]
  rcases hv : constantOp (constExpr (foldedOperands op a b).1 u e) (.bin op)
      (foldedOperands op a b).2 with _ | _ | r
  · rfl
  · exact absurd hv (constantOp_ne_general hadd)
  · rfl

theorem valueOp_ne_none {op : BinOp} {a b : Vma}
    (hdiv : op = .divide ∨ op = .modulus → b ≠ 0) : valueOp op a b true ≠ some none := by
  cases op with
  | divide => simpa [valueOp] using hdiv (.inl rfl)
  | modulus => simpa [valueOp] using hdiv (.inr rfl)
  | _ => simp [valueOp]

/-- The line `a op b`. -/
def binaryLine (op : BinOp) (a b : ExprS) : List Token :=
  [.operand a .absolute, .operator (.bin op), .operand b .absolute]

theorem joinSegments_self (seg : Segment) : joinSegments m seg seg = (m, seg) := by
  simp [joinSegments]

theorem combine_constants {op : BinOp} {a b : Vma} {u e u' e' : Bool} (fuel : Nat) :
    (combine fin fuel m (constExpr a u e) .absolute (.bin op) (constExpr b u' e') .absolute).map
        (fun r => r.1.constant?) =
      valueOp op (foldedOperands op a b).1 (foldedOperands op a b).2 true := by
  have hb : (constExpr b u' e').op = .constant := rfl
  have ha : (constExpr a u e).op = .constant := rfl
  by_cases hadd : op = .add
  · subst hadd
    simp [combine, addToResult, constExpr, ExprS.constant?, valueOp, foldedOperands, shiftTooFar,
      divisor]
  by_cases hsub : op = .subtract
  · subst hsub
    simp [combine, symbolDistance, subtractFromResult, constExpr, ExprS.constant?, valueOp,
      foldedOperands, shiftTooFar, divisor]
  · rw [← foldConstants_val fin fuel hadd]
    simp [combine, symbolDistance, hb, ha, hadd, hsub]
    cases foldConstants fin fuel m (constExpr a u e) (.bin op) (constExpr b u' e') with
    | none => rfl
    | some r => rfl

theorem expr_constant (mode : ExprMode) (n : Nat) {rank : Nat} (hr : rank ≠ 0) (b : ExprS)
    (hb : b.op = .constant) :
    expr fin mode (n + 1) rank [.operand b .absolute] m = some ⟨b, .absolute, [], m⟩ := by
  simp [expr, exprLoop, operand, operatorf, hr, hb]

/-- `expr` folds `a op b` to the value that `resolve_expression` gives for the operands it
accepts. -/
theorem expr_binary {op : BinOp} {a b : Vma} {u e u' e' : Bool} (mode : ExprMode) (n : Nat) :
    (expr fin mode (n + 3) 0 (binaryLine op (constExpr a u e) (constExpr b u' e')) m).map
        (fun p => p.result.constant?) =
      valueOp op (foldedOperands op a b).1 (foldedOperands op a b).2 true := by
  have hrank : 0 < opRank (.bin op) := by cases op <;> decide
  have hb : (constExpr b u' e').op = .constant := rfl
  have ha : (constExpr a u e).op = .constant := rfl
  have hloop : exprLoop fin (n + 2) (expr fin mode (n + 2)) 0 4
      (operand (binaryLine op (constExpr a u e) (constExpr b u' e')) m)
      = (combine fin (n + 2) m (constExpr a u e) .absolute (.bin op) (constExpr b u' e')
          .absolute).map fun r => ⟨r.1, r.2.1, [], r.2.2⟩ := by
    rw [exprLoop]
    simp only [operand, binaryLine, operatorf, List.tail_cons, hrank,
      expr_constant fin mode (n + 1) (Nat.ne_of_gt hrank) _ hb, hb, ha, Mem.sayIf, noBignum,
      closeIndex, reduceCtorEq, ne_eq, not_false_eq_true, decide_false, Bool.false_eq_true,
      if_false, if_true, and_self, Option.bind_eq_bind, Option.bind_some]
    cases combine fin (n + 2) m (constExpr a u e) .absolute (.bin op) (constExpr b u' e')
        .absolute with
    | none => rfl
    | some r => simp [exprLoop, operatorf]
  have hval : (combine fin (n + 2) m (constExpr a u e) .absolute (.bin op) (constExpr b u' e')
      .absolute).map (fun r => r.1.constant?) =
        valueOp op (foldedOperands op a b).1 (foldedOperands op a b).2 true :=
    combine_constants fin (n + 2)
  rw [expr]
  simp only [binaryLine, List.length_cons, List.length_nil] at hloop ⊢
  rw [hloop, ← hval]
  cases hc : combine fin (n + 2) m (constExpr a u e) .absolute (.bin op) (constExpr b u' e')
      .absolute with
  | none => rfl
  | some r =>
    rw [hc, Option.map_some] at hval
    have hr : r.1.op = .constant := by
      by_contra hne
      rw [ExprS.constant?, if_neg hne] at hval
      exact valueOp_ne_none (foldedOperands_ne_zero a b) hval.symm
    simp [resolveExpression, hr]

/-! The three evaluators. -/

/-- Only the sign tells the two right shifts apart. -/
theorem ushiftRight_eq_sshiftRight_iff {a : Vma} {k : Nat} (hk : k < 64) :
    a >>> k = a.sshiftRight k ↔ ¬ (a.msb = true ∧ k ≠ 0) := by
  cases hm : a.msb with
  | false => simp [BitVec.sshiftRight_eq_of_msb_false hm]
  | true =>
    by_cases h0 : k = 0
    · subst h0
      simp
    · have hu : (a >>> k).msb = false := by
        rw [BitVec.msb_ushiftRight]
        simp [h0]
      have hs : (a.sshiftRight k).msb = true := by
        rw [BitVec.msb_sshiftRight, hm]
      constructor
      · intro heq
        rw [heq, hs] at hu
        cases hu
      · intro hcon
        exact absurd ⟨rfl, h0⟩ hcon

theorem divTraps_iff {a b : Vma} (hb : b ≠ 0) :
    divTraps a b = true ↔ a = BitVec.intMin 64 ∧ b = BitVec.allOnes 64 := by
  simp only [divTraps, Bool.or_eq_true, Bool.and_eq_true, beq_iff_eq]
  constructor
  · rintro (h | h)
    · exact absurd h hb
    · exact h
  · exact .inr

/-- A division whose quotient does not fit into a word. -/
def DivOverflows (op : BinOp) (a b : Vma) : Prop :=
  (op = .divide ∨ op = .modulus) ∧ a = BitVec.intMin 64 ∧ b = BitVec.allOnes 64

/-- A right shift that moves the sign. -/
def ShiftsSign (op : BinOp) (a b : Vma) : Prop :=
  op = .rightShift ∧ a.msb = true ∧ b ≠ 0

theorem valueOp_agrees_offsetOp_iff {op : BinOp} {a b : Vma}
    (hdiv : op = .divide ∨ op = .modulus → b ≠ 0)
    (hshift : op = .leftShift ∨ op = .rightShift → b.toNat < 64) :
    (∃ v, valueOp op a b true = some (some v) ∧ offsetOp op a b true = some v) ↔
      ¬ ShiftsSign op a b ∧ ¬ DivOverflows op a b := by
  cases op with
  | divide =>
    have hb := hdiv (.inl rfl)
    simp only [valueOp, offsetOp, if_neg hb, offsetDiv, ShiftsSign, DivOverflows,
      ← divTraps_iff hb]
    split <;> simp_all
  | modulus =>
    have hb := hdiv (.inr rfl)
    simp only [valueOp, offsetOp, if_neg hb, offsetMod, ShiftsSign, DivOverflows,
      ← divTraps_iff hb]
    split <;> simp_all
  | leftShift =>
    have hk := hshift (.inl rfl)
    simp [valueOp, offsetOp, shiftBy, hk, ShiftsSign, DivOverflows]
  | rightShift =>
    have hk := hshift (.inr rfl)
    have hz : b ≠ 0 ↔ b.toNat ≠ 0 := by
      simp [BitVec.toNat_eq]
    have hiff := ushiftRight_eq_sshiftRight_iff (a := a) hk
    rw [← hz] at hiff
    simp only [valueOp, offsetOp, shiftBy, if_pos hk, ShiftsSign, DivOverflows, true_and,
      Option.map_some, Option.some.injEq, reduceCtorEq, or_self, false_and, not_false_eq_true,
      and_true, ← hiff]
    constructor
    · rintro ⟨v, hv, hv'⟩
      exact hv.trans hv'.symm
    · intro h
      exact ⟨_, rfl, h.symm⟩
  | _ => simp [valueOp, offsetOp, ShiftsSign, DivOverflows]

/-- All three evaluators give `a op b` the value `v`: `expr` on the line, `resolve_expression` on
the symbols `x` and `y`, and `resolve_symbol_value` on the expression symbol `i`. -/
def EvaluatorsGive (fin fin' fin'' : Bool) (mode : ExprMode) (n : Nat) (m : Mem)
    (line : List Token) (exp : ExprS) (i : Nat) (v : Vma) : Prop :=
  (expr fin mode (n + 3) 0 line m).map (fun p => p.result.constant?) = some (some v) ∧
  (resolveExpression fin' (n + 2) m exp).map (·.bind ExprS.constant?) = some (some v) ∧
  (resolveSymbolValue fin'' (n + 2) m i).map Prod.fst = some v

/-- The evaluators agree except where the sign is shifted right and where the division traps. -/
theorem evaluators_agree_iff (fin fin' fin'' : Bool) (mode : ExprMode) (n : Nat) (m : Mem)
    (op : BinOp) (a b : Vma) (u e u' e' u'' e'' : Bool) (x y i : Nat) (s : SymbolS)
    (hx : m.HasConst x a) (hy : m.HasConst y b) (hi : m.sym i = some s) (hs : ExprSym s op x y)
    (hdiv : op = .divide ∨ op = .modulus → b ≠ 0)
    (hshift : op = .leftShift ∨ op = .rightShift → b.toNat < 64) :
    (∃ v, EvaluatorsGive fin fin' fin'' mode n m
        (binaryLine op (constExpr a u e) (constExpr b u' e'))
        ⟨.bin op, some x, some y, 0, u'', e''⟩ i v) ↔
      ¬ ShiftsSign op a b ∧ ¬ DivOverflows op a b := by
  rw [← valueOp_agrees_offsetOp_iff hdiv hshift]
  simp only [EvaluatorsGive, expr_binary fin mode n, foldedOperands_eq hdiv hshift,
    resolveExpression_binary fin' op n hx hy, resolveSymbolValue_binary fin'' n hi hs hx hy, divisor_eq hdiv]
  constructor
  · rintro ⟨v, h1, -, h3⟩
    exact ⟨v, h1, h3⟩
  · rintro ⟨v, h1, h3⟩
    exact ⟨v, h1, h1, h3⟩

/-- `.set name, c`. -/
def setSymbol (name : String) (value : ExprS) (seg : Segment) : SymbolS :=
  { name := name, value := value, seg := seg, frag := none, isLocal := false, resolved := false,
    resolving := false, mriCommon := false, weakrefr := false, shadow := false,
    indirectFunction := false, sectionSym := false, exprSymbol := false }

/-- Two constants `x` and `y`, and `z` set to `x op y`. -/
def pairMem (op : BinOp) (a b : Vma) : Mem where
  frags := []
  syms := [setSymbol "x" (constExpr a false false) .absolute,
    setSymbol "y" (constExpr b false false) .absolute,
    setSymbol "z" ⟨.bin op, some 0, some 1, 0, false, false⟩ .expr]
  msgs := []

theorem pairMem_x (op : BinOp) (a b : Vma) : (pairMem op a b).HasConst 0 a :=
  ⟨_, rfl, rfl, rfl, rfl, rfl, rfl, rfl⟩

theorem pairMem_y (op : BinOp) (a b : Vma) : (pairMem op a b).HasConst 1 b :=
  ⟨_, rfl, rfl, rfl, rfl, rfl, rfl, rfl⟩

theorem pairMem_z (op : BinOp) (a b : Vma) :
    ∃ s, (pairMem op a b).sym 2 = some s ∧ ExprSym s op 0 1 :=
  ⟨_, rfl, rfl, rfl, rfl, rfl, rfl, rfl, rfl, rfl, rfl, rfl, rfl, rfl⟩

/-- `-7 / 2` is `-3` for all of them. -/
theorem evaluators_agree_divide :
    ∃ v, EvaluatorsGive false true true .evaluate 0 (pairMem .divide (-7) 2)
      (binaryLine .divide (constExpr (-7) false true) (constExpr 2 true false))
      ⟨.bin .divide, some 0, some 1, 0, false, false⟩ 2 v := by
  obtain ⟨s, hi, hs⟩ := pairMem_z .divide (-7) 2
  refine (evaluators_agree_iff false true true .evaluate 0 _ .divide (-7) 2 false true true false
    false false 0 1 2 s (pairMem_x _ _ _) (pairMem_y _ _ _) hi hs ?_ ?_).mpr ⟨?_, ?_⟩
  · decide
  · decide
  · unfold ShiftsSign
    decide
  · unfold DivOverflows
    decide

/-- `-1 >> 1` is the largest positive number while a line is parsed, and `-1` in the end. -/
theorem rightShift_of_negative_disagrees :
    ¬ ∃ v, EvaluatorsGive false false true .normal 0 (pairMem .rightShift (-1) 1)
      (binaryLine .rightShift (constExpr (-1) false true) (constExpr 1 true false))
      ⟨.bin .rightShift, some 0, some 1, 0, false, false⟩ 2 v := by
  obtain ⟨s, hi, hs⟩ := pairMem_z .rightShift (-1) 1
  rintro ⟨v, hexpr, -, hsym⟩
  rw [expr_binary false .normal 0, foldedOperands_eq (by decide) (by decide)] at hexpr
  rw [resolveSymbolValue_binary true 0 hi hs (pairMem_x _ _ _) (pairMem_y _ _ _),
    divisor_eq (by decide)] at hsym
  have hne : valueOp .rightShift (-1) 1 true ≠ (offsetOp .rightShift (-1) 1 true).map some := by
    decide
  rw [hexpr, hsym] at hne
  exact hne rfl

end FusionBinutils.Gas.Expr
