import FusionBinutils.Ld.FoldTree
import FusionBinutils.Lib.Effects

/-! The divisions and shifts of `exp_fold_tree_1` (ld/ldexp.c), and when all of them have a
value. -/
namespace FusionBinutils.Ld.FoldTree
open Layout (Vma UnaryOp BinaryOp)
open Effects

variable {env : Env} {w w' : World} {m : Fold Unit} {x y : Vma} {op : Operation}

/-- All that has been computed has a value in C. -/
def World.AllDefined (w : World) : Prop := ∀ op ∈ w.operations, op.Defined

/-- The quotient of the operands fits and the shift is not too far; a segment that is used for the
first time meets a page size of the link. -/
def Site.Calm (env : Env) : Site → Prop
  | .binary op lhs rhs =>
    ¬ ((op = .div ∨ op = .rem) ∧ lhs = BitVec.intMin 64 ∧ rhs = -1#64) ∧
      ¬ ((op = .lshift ∨ op = .rshift) ∧ 64 ≤ rhs.toNat)
  | .segment seg =>
    seg.used = false ∧ env.magicDemandPaged = true →
      env.maxpagesize ≠ 0 ∧ (env.maxpagesize = 1 → seg.value.toNat < 2 ^ 63)

/-- `fold_binary` has come to calm places only. -/
def World.AllCalm (env : Env) (w : World) : Prop := ∀ site ∈ w.sites, site.Calm env

/-! The operations. -/

/-- The quotient of two signed numbers fits but in one case. -/
theorem quotient_fits_iff (hy : y ≠ 0) :
    (-2 ^ 63 ≤ x.toInt.tdiv y.toInt ∧ x.toInt.tdiv y.toInt < 2 ^ 63) ↔
      ¬ (x = BitVec.intMin 64 ∧ y = -1#64) := by
  constructor
  · rintro ⟨-, hlt⟩ ⟨rfl, rfl⟩
    exact absurd hlt (by decide)
  · intro h
    rw [← BitVec.toInt_sdiv_of_ne_or_ne x y (not_and_or.mp h)]
    exact ⟨BitVec.le_toInt _, BitVec.toInt_lt⟩

theorem udiv_defined (hy : 1 < y.toNat) : (Operation.udiv x y).Defined := by
  have hhalf : x.toNat / y.toNat ≤ x.toNat / 2 := Nat.div_le_div_left hy Nat.two_pos
  have hx : x.toNat < 2 ^ 64 := x.isLt
  refine ⟨?_, by omega⟩
  rintro rfl
  exact absurd hy (by decide)

theorem umod_defined_iff :
    (Operation.umod x y).Defined ↔ y ≠ 0 ∧ (y = 1 → x.toNat < 2 ^ 63) := by
  have hone : y = 1 → x.toNat / y.toNat = x.toNat := by
    rintro rfl
    exact Nat.div_one x.toNat
  constructor
  · rintro ⟨hy, hlt⟩
    refine ⟨hy, fun h => ?_⟩
    rwa [hone h] at hlt
  · rintro ⟨hy, hlt⟩
    refine ⟨hy, ?_⟩
    by_cases h : y = 1
    · rw [hone h]
      exact hlt h
    · have hpos : y.toNat ≠ 0 := fun h0 => hy (BitVec.eq_of_toNat_eq h0)
      have hne : y.toNat ≠ 1 := fun h1 => h (BitVec.eq_of_toNat_eq h1)
      exact (udiv_defined (by omega)).2

/-! What leaves both notes as they are. -/

/-- No operation without a value and no place in between. -/
structure Quiet (env : Env) (w w' : World) : Prop where
  defined : w'.AllDefined ↔ w.AllDefined
  calm : w'.AllCalm env ↔ w.AllCalm env

instance : Std.Refl (Quiet env) := ⟨fun _ => ⟨.rfl, .rfl⟩⟩

instance : IsTrans World (Quiet env) :=
  ⟨fun _ _ _ h h' => ⟨h'.defined.trans h.defined, h'.calm.trans h.calm⟩⟩

theorem allDefined_perform (op : Operation) :
    World.AllDefined { w with operations := w.operations ++ [op] } ↔ w.AllDefined ∧ op.Defined := by
  simp only [World.AllDefined, List.forall_mem_append, List.forall_mem_singleton]

theorem allCalm_reach (site : Site) :
    World.AllCalm env { w with sites := w.sites ++ [site] } ↔ w.AllCalm env ∧ site.Calm env := by
  simp only [World.AllCalm, List.forall_mem_append, List.forall_mem_singleton]

theorem quiet_perform (h : op.Defined) : Moves (Quiet env) (perform env op) := by
  refine Moves.bind (moves_modify fun w => ⟨?_, .rfl⟩) fun _ => moves_pure _
  rw [allDefined_perform]
  exact and_iff_left h

theorem quiet_setExpld (f : Expld → Expld) : Moves (Quiet env) (setExpld f) :=
  moves_modify fun _ => ⟨.rfl, .rfl⟩

theorem quiet_setResult (r : EtreeValue) : Moves (Quiet env) (setResult r) := quiet_setExpld _

theorem quiet_alignN (value align : Vma) : Moves (Quiet env) (alignN env value align) := by
  apply moves_ite
  · intro _
    exact moves_pure value
  · intro h
    have hlt : 1 < align.toNat := BitVec.not_le.mp h
    exact (quiet_perform (udiv_defined hlt)).bind fun q => moves_pure _

theorem quiet_newRelFromAbs (v : Vma) : Moves (Quiet env) (newRelFromAbs v) :=
  moves_modify fun _ => ⟨.rfl, .rfl⟩

theorem quiet_makeAbs : Moves (Quiet env) makeAbs := moves_modify fun _ => ⟨.rfl, .rfl⟩

theorem quiet_report (r : Report) : Moves (Quiet env) (report r) :=
  moves_modify fun _ => ⟨.rfl, .rfl⟩

theorem quiet_setSymbol (entry : String) (h : LinkHash) : Moves (Quiet env) (setSymbol entry h) :=
  moves_modify fun _ => ⟨.rfl, .rfl⟩

/-! `fold_unary`. -/

theorem quiet_dataSegmentEnd : Moves (Quiet env) dataSegmentEnd := by
  refine moves_get.bind fun w => moves_ite (fun _ => quiet_setExpld _) fun _ => ?_
  split
  · exact quiet_setExpld _
  · exact quiet_setExpld _
  · exact moves_pure _
  · exact moves_pure _
  · exact moves_pure _
  · exact quiet_setExpld _

theorem quiet_makeLog2ceil : Moves (Quiet env) makeLog2ceil :=
  moves_get.bind fun _ => (quiet_setExpld _).bind fun _ => quiet_setExpld _

theorem quiet_unarySwitch (code : UnaryCode) : Moves (Quiet env) (unarySwitch env code) := by
  refine moves_get.bind fun w => ?_
  cases code with
  | log2ceil => exact quiet_makeLog2ceil
  | op o =>
    cases o with
    | align =>
      refine moves_ite (fun _ => ?_) fun _ => quiet_setExpld _
      exact (quiet_alignN _ _).bind quiet_newRelFromAbs
    | absolute => exact quiet_makeAbs
    | complement => exact quiet_setExpld _
    | not => exact quiet_setExpld _
    | neg => exact quiet_setExpld _
    | next =>
      refine moves_ite (fun _ => quiet_makeAbs.bind fun _ => moves_get.bind fun w => ?_)
        fun _ => quiet_setExpld _
      exact (quiet_alignN _ _).bind fun v => quiet_setExpld _
    | dataSegmentEnd => exact quiet_dataSegmentEnd

/-! `fold_binary`, apart from the places it is noted at. -/

theorem quiet_unify (lhs : EtreeValue) : Moves (Quiet env) (unify lhs) := by
  refine moves_get.bind fun w => moves_ite (fun _ => moves_pure lhs) fun _ => ?_
  split
  · exact quiet_makeAbs.bind fun _ => moves_pure _
  · exact (quiet_setExpld _).bind fun _ => moves_pure _
  · exact moves_pure lhs

theorem quiet_arithResultSection (lhs : EtreeValue) :
    Moves (Quiet env) (arithResultSection env lhs) :=
  moves_get.bind fun _ => moves_ite (fun _ => quiet_setExpld _) fun _ => moves_pure _

theorem quiet_bop (lhs : EtreeValue) (v : Vma) : Moves (Quiet env) (bop env lhs v) :=
  (quiet_setExpld _).bind fun _ => quiet_arithResultSection lhs

theorem quiet_bopn (test : Bool) : Moves (Quiet env) (bopn test) :=
  (quiet_setExpld _).bind fun _ => quiet_setExpld _

theorem quiet_dataSegmentAlign (maxpage : Vma) :
    Moves (Quiet env) (dataSegmentAlign env maxpage) := by
  refine (quiet_setExpld _).bind fun _ => moves_get.bind fun w => ?_
  refine moves_ite (fun _ => quiet_setExpld _) fun _ => (quiet_alignN _ _).bind fun aligned => ?_
  split
  · exact quiet_setExpld _
  · exact moves_ite (fun _ => quiet_setExpld _) fun _ => quiet_setExpld _
  · exact quiet_setExpld _
  · exact (quiet_setExpld _).bind fun _ => quiet_setExpld _
  · exact (quiet_setExpld _).bind fun _ => quiet_setExpld _

theorem quiet_dataSegmentRelroEnd (v : Vma) : Moves (Quiet env) (dataSegmentRelroEnd v) := by
  refine moves_get.bind fun w => (quiet_setExpld _).bind fun _ => ?_
  refine moves_ite (fun _ => quiet_setExpld _) fun _ => ?_
  split
  · exact (quiet_setExpld _).bind fun _ => quiet_setExpld _
  · refine moves_ite (fun _ => ?_) fun _ => ?_
    · exact (quiet_setExpld _).bind fun _ => quiet_setExpld _
    · exact (quiet_setExpld _).bind fun _ => quiet_setExpld _
  · exact quiet_setExpld _
  · exact quiet_setExpld _
  · exact quiet_setExpld _

/-! The places. -/

/-- If all was well exactly where the places were calm, it still is. -/
def Agrees (env : Env) (w w' : World) : Prop :=
  (w.AllDefined ↔ w.AllCalm env) → (w'.AllDefined ↔ w'.AllCalm env)

instance : Std.Refl (Agrees env) := ⟨fun _ h => h⟩

instance : IsTrans World (Agrees env) := ⟨fun _ _ _ h h' hw => h' (h hw)⟩

theorem Quiet.agrees (h : Quiet env w w') : Agrees env w w' :=
  fun hw => h.defined.trans (hw.trans h.calm.symm)

theorem agrees_of_quiet {α : Type} {m : Fold α} (h : Moves (Quiet env) m) : Moves (Agrees env) m :=
  h.mono fun _ _ => Quiet.agrees

/-- The operations of a computation have values exactly where `P` holds; it comes to no place. -/
structure Computes (env : Env) (P : Prop) (w w' : World) : Prop where
  defined : w'.AllDefined ↔ w.AllDefined ∧ P
  calm : w'.AllCalm env ↔ w.AllCalm env

theorem Quiet.computes {P : Prop} (h : Quiet env w w') (hP : P) : Computes env P w w' :=
  ⟨h.defined.trans (and_iff_left hP).symm, h.calm⟩

/-- One operation and what follows it without another. -/
theorem computes_perform {f : Vma → Fold Unit} (op : Operation)
    (hf : ∀ v, Moves (Quiet env) (f v)) :
    Moves (Computes env op.Defined) (perform env op >>= f) := by
  intro w
  have hquiet := hf (if op.Defined then op.value else env.undefined op)
    { w with operations := w.operations ++ [op] }
  refine ⟨?_, hquiet.calm⟩
  rw [← allDefined_perform]
  exact hquiet.defined

/-- The operations behind a place have values where it is calm. -/
theorem agrees_reach {site : Site} {P : Prop} (hP : P ↔ site.Calm env)
    (h : Computes env P { w with sites := w.sites ++ [site] }
      (after m { w with sites := w.sites ++ [site] })) :
    Agrees env w (after (reach site >>= fun _ => m) w) := by
  intro hw
  have hdef : (after (reach site >>= fun _ => m) w).AllDefined ↔ w.AllDefined ∧ P := h.defined
  have hcalm : (after (reach site >>= fun _ => m) w).AllCalm env ↔ w.AllCalm env ∧ site.Calm env :=
    h.calm.trans (allCalm_reach site)
  rw [hdef, hcalm, hw, hP]

theorem computes_division {op : Vma → Vma → Operation} {byZero : Stop} {lhs : EtreeValue}
    (hop : ∀ x y, y ≠ 0 → ((op x y).Defined ↔ ¬ (x = BitVec.intMin 64 ∧ y = -1#64))) (w : World) :
    Computes env (¬ (lhs.value = BitVec.intMin 64 ∧ w.expld.result.value = -1#64)) w
      (after (division env lhs op byZero) w) := by
  rw [division, after_get_bind]
  by_cases hzero : w.expld.result.value = 0
  · rw [if_neg (not_not.mpr hzero)]
    have hquiet : Moves (Quiet env) (if w.expld.phase ≠ .mark then throw byZero
        else arithResultSection env lhs) :=
      moves_ite (fun _ => moves_throw byZero) fun _ => quiet_arithResultSection lhs
    refine (hquiet w).computes ?_
    rintro ⟨-, hone⟩
    exact absurd (hzero.symm.trans hone) (by decide)
  · rw [if_pos hzero, ← hop _ _ hzero]
    exact computes_perform _ (quiet_bop lhs) w

/-- The other operators compute nothing that could be without a value. -/
theorem agrees_plain {op : BinaryOp}
    (hop : ¬ (op = .div ∨ op = .rem) ∧ ¬ (op = .lshift ∨ op = .rshift))
    (h : Moves (Quiet env) m) (w : World) :
    Agrees env w (after (reach (.binary op x y) >>= fun _ => m) w) := by
  have hcalm : (Site.binary op x y).Calm env :=
    ⟨fun hdiv => hop.1 hdiv.1, fun hshift => hop.2 hshift.1⟩
  exact agrees_reach (iff_of_true trivial hcalm) ((h _).computes trivial)

theorem div_defined_iff (x y : Vma) (hy : y ≠ 0) :
    (Operation.div x y).Defined ↔ ¬ (x = BitVec.intMin 64 ∧ y = -1#64) :=
  (and_iff_right hy).trans (quotient_fits_iff hy)

theorem rem_defined_iff (x y : Vma) (hy : y ≠ 0) :
    (Operation.rem x y).Defined ↔ ¬ (x = BitVec.intMin 64 ∧ y = -1#64) :=
  (and_iff_right hy).trans (quotient_fits_iff hy)

/-- The switch of `fold_binary`, one operator after the other. -/
theorem agrees_binarySwitch (op : BinaryOp) (lhs : EtreeValue) :
    Moves (Agrees env) (binarySwitch env op lhs) := by
  intro w
  rw [binarySwitch, after_get_bind]
  cases op with
  | div =>
    refine agrees_reach ?_ (computes_division div_defined_iff _)
    simp [Site.Calm]
  | rem =>
    refine agrees_reach ?_ (computes_division rem_defined_iff _)
    simp [Site.Calm]
  | lshift =>
    refine agrees_reach ?_ (computes_perform _ (quiet_bop lhs) _)
    simp [Site.Calm, Operation.Defined]
  | rshift =>
    refine agrees_reach ?_ (computes_perform _ (quiet_bop lhs) _)
    simp [Site.Calm, Operation.Defined]
  | add | mul | sub | and | xor | or =>
    exact agrees_plain (by decide) (quiet_bop lhs _) w
  | eq | ne | lt | gt | le | ge | andand | oror =>
    exact agrees_plain (by decide) (quiet_bopn _) w
  | max | min =>
    refine agrees_plain (by decide) ?_ w
    exact moves_ite (fun _ => quiet_setExpld _) fun _ => moves_pure _
  | align =>
    refine agrees_plain (by decide) ?_ w
    exact (quiet_alignN _ _).bind fun v => quiet_setExpld _
  | dataSegmentAlign => exact agrees_plain (by decide) (quiet_dataSegmentAlign _) w
  | dataSegmentRelroEnd => exact agrees_plain (by decide) (quiet_dataSegmentRelroEnd _) w

theorem Computes.then_quiet {P : Prop} {m' : Fold Unit} (h : Moves (Computes env P) m)
    (h' : Moves (Quiet env) m') : Moves (Computes env P) (m >>= fun _ => m') := by
  intro w
  rcases after_bind m (fun _ => m') w with ⟨_, heq⟩ | heq
  · have hend := h' (after m w)
    rw [heq]
    exact ⟨hend.defined.trans (h w).defined, hend.calm.trans (h w).calm⟩
  · rw [heq]
    exact h w

theorem computes_checkSegment (seg : Segment) :
    Moves (Computes env ((Site.segment seg).Calm env)) (checkSegment env seg) := by
  apply moves_ite
  · intro h
    have hcalm : (Site.segment seg).Calm env ↔
        (Operation.umod seg.value env.maxpagesize).Defined := by
      rw [umod_defined_iff]
      have hfirst : seg.used = false ∧ env.magicDemandPaged = true := by simpa using h
      exact forall_prop_of_true hfirst
    rw [hcalm]
    refine computes_perform _ fun r => ?_
    exact moves_ite (fun _ => quiet_report _) fun _ => moves_pure _
  · intro h w
    refine Quiet.computes ⟨.rfl, .rfl⟩ fun hfirst => absurd ?_ h
    simp [hfirst]

/-- A segment whose address the user has set. -/
theorem agrees_takeSegment (seg : Segment) : Moves (Agrees env) (takeSegment env seg) := by
  have huse : Moves (Quiet env) (useSegment seg) :=
    (moves_modify fun _ => ⟨.rfl, .rfl⟩).bind fun _ => quiet_newRelFromAbs seg.value
  intro w
  exact agrees_reach .rfl (Computes.then_quiet (computes_checkSegment seg) huse _)

theorem agrees_segmentStart (segmentName : String) :
    Moves (Agrees env) (segmentStart env segmentName) := by
  refine moves_get.bind fun w => ?_
  split
  · exact agrees_takeSegment _
  · exact moves_pure _

/-! The other parts of the evaluator come to no place. -/

theorem quiet_definedSymbol (name : String) (h : LinkHash) :
    Moves (Quiet env) (definedSymbol env name h) := by
  refine moves_get.bind fun w => ?_
  split
  · exact moves_ite (fun _ => quiet_setResult _) fun _ => quiet_report _
  · exact moves_ite (fun _ => quiet_setResult _) fun _ => quiet_setResult _

theorem quiet_foldSymbol (name : String) : Moves (Quiet env) (foldSymbol env name) := by
  refine moves_get.bind fun w => ?_
  refine moves_ite (fun _ => quiet_definedSymbol _ _) fun _ => ?_
  refine moves_ite (fun _ => moves_throw _) fun _ => ?_
  refine moves_ite (fun _ => ?_) fun _ => moves_pure _
  exact (quiet_setSymbol _ _).bind fun _ => moves_modify fun _ => ⟨.rfl, .rfl⟩

theorem quiet_noteSelf (name : String) : Moves (Quiet env) (noteSelf env name) :=
  moves_get.bind fun _ => moves_ite (fun _ => quiet_setExpld _) fun _ => moves_pure _

theorem quiet_sectionNumber (f : Asection → Vma) (os : OutputSection) :
    Moves (Quiet env) (sectionNumber f os) := by
  refine moves_get.bind fun w => ?_
  split
  · exact quiet_setResult _
  · exact quiet_setResult _

theorem quiet_withRegion {name : String} {f : Vma × Vma → Fold Unit}
    (h : ∀ r, Moves (Quiet env) (f r)) : Moves (Quiet env) (withRegion env name f) := by
  rw [withRegion]
  split
  · exact h _
  · exact moves_throw _

theorem quiet_keepSection (src : Etree) : Moves (Quiet env) (keepSection env src) := by
  refine moves_get.bind fun w => ?_
  split
  · exact moves_ite (fun _ => moves_modify fun _ => ⟨.rfl, .rfl⟩) fun _ => moves_pure _
  · exact moves_pure _

theorem quiet_moveDot : Moves (Quiet env) moveDot := by
  refine moves_get.bind fun w => ?_
  refine moves_ite (fun _ => ?_) fun _ => moves_ite (fun _ => moves_throw _) fun _ => ?_
  · exact moves_ite (fun _ => moves_throw _) fun _ => moves_pure _
  · refine moves_ite (fun _ => ?_) fun _ => moves_pure _
    exact moves_ite (fun _ => moves_throw _) fun _ => quiet_setExpld _

theorem quiet_updateDefinedness (dst : String) (h : LinkHash) :
    Moves (Quiet env) (updateDefinedness env dst h) := moves_modify fun _ => ⟨.rfl, .rfl⟩

theorem quiet_forgetSymbol (dst : String) : Moves (Quiet env) (forgetSymbol env dst) := by
  refine moves_get.bind fun w => ?_
  split
  · exact moves_ite (fun _ => quiet_setSymbol _ _) fun _ => moves_pure _
  · exact moves_pure _

theorem quiet_foldValue (v : Vma) (str : Option String) :
    Moves (Quiet env) (foldValue env v str) := by
  refine Moves.bind (moves_get.bind fun w => ?_) fun _ => quiet_setExpld _
  exact moves_ite (fun _ => quiet_setResult _) fun _ => quiet_setResult _

theorem quiet_foldRel (sect : SectionPtr) (v : Vma) : Moves (Quiet env) (foldRel sect v) :=
  moves_get.bind fun _ => moves_ite (fun _ => quiet_setResult _) fun _ => quiet_setResult _

/-! The evaluator, with the trees below it. -/

section
variable {m' m'' : Fold Unit} {foldBase : Etree → Fold Unit}

theorem agrees_ifValid (h : Moves (Agrees env) m) : Moves (Agrees env) (ifValid m) :=
  moves_get.bind fun _ => moves_ite (fun _ => h) fun _ => moves_pure _

theorem agrees_afterFirst (h : Moves (Agrees env) m) : Moves (Agrees env) (afterFirst m) :=
  moves_get.bind fun _ => moves_ite (fun _ => h) fun _ => moves_pure _

theorem agrees_foldUnary (code : UnaryCode) (h : Moves (Agrees env) m) :
    Moves (Agrees env) (foldUnary env code m) :=
  h.bind fun _ => agrees_ifValid (agrees_of_quiet (quiet_unarySwitch code))

theorem agrees_foldOperands (code : BinaryCode) (lhs : EtreeValue) :
    Moves (Agrees env) (foldOperands env code lhs) := by
  refine (agrees_of_quiet (quiet_setExpld _)).bind fun _ => agrees_ifValid ?_
  refine (agrees_of_quiet (quiet_unify lhs)).bind fun lhs => ?_
  cases code with
  | op o => exact agrees_binarySwitch o lhs
  | segmentStart => exact moves_pure _

theorem agrees_foldBinary (code : BinaryCode) (rhs : Etree) (h : Moves (Agrees env) m)
    (h' : Moves (Agrees env) m') : Moves (Agrees env) (foldBinary env code rhs m m') := by
  refine h.bind fun _ => moves_get.bind fun w => ?_
  split
  · exact agrees_segmentStart _
  · exact h'.bind fun _ => agrees_foldOperands _ _

theorem agrees_foldTrinary (h : Moves (Agrees env) m) (h' : Moves (Agrees env) m')
    (h'' : Moves (Agrees env) m'') : Moves (Agrees env) (foldTrinary m m' m'') := by
  refine h.bind fun _ => moves_get.bind fun w => ?_
  exact moves_ite (fun _ => moves_ite (fun _ => h') fun _ => h'') fun _ => moves_pure _

theorem agrees_foldAssert (message : String) (h : Moves (Agrees env) m) :
    Moves (Agrees env) (foldAssert message m) := by
  refine h.bind fun _ => moves_get.bind fun w => ?_
  exact moves_ite (fun _ => agrees_of_quiet (quiet_report _)) fun _ => moves_pure _

theorem agrees_withOutput {name : String} {f : OutputSection → Fold Unit}
    (h : Moves (Agrees env) m) (hf : ∀ os, Moves (Agrees env) (f os)) :
    Moves (Agrees env) (withOutput env name m f) := by
  refine moves_get.bind fun w => ?_
  split
  · exact moves_ite (fun _ => moves_throw _) fun _ => h
  · exact hf _

theorem agrees_loadAddr (h : ∀ tree, Moves (Agrees env) (foldBase tree)) (os : OutputSection) :
    Moves (Agrees env) (loadAddr foldBase os) := by
  refine moves_get.bind fun w => moves_ite (fun _ => ?_) fun _ => moves_pure _
  split
  · exact (h _).bind fun _ => agrees_ifValid (agrees_of_quiet quiet_makeAbs)
  · exact agrees_of_quiet (quiet_setResult _)
  · exact moves_throw _

theorem agrees_foldName (h : ∀ tree, Moves (Agrees env) (foldBase tree)) (code : NameCode)
    (name : String) : Moves (Agrees env) (foldName env foldBase code name) := by
  have hset (r : EtreeValue) : Moves (Agrees env) (setResult r) :=
    agrees_of_quiet (quiet_setResult r)
  refine (hset _).bind fun _ => moves_get.bind fun w => ?_
  cases code with
  | sizeofHeaders => exact agrees_afterFirst (hset _)
  | defined => exact agrees_afterFirst (hset _)
  | name =>
    refine (agrees_of_quiet (quiet_noteSelf name)).bind fun _ => agrees_afterFirst ?_
    refine moves_ite (fun _ => ?_) fun _ => agrees_of_quiet (quiet_foldSymbol name)
    exact agrees_of_quiet (quiet_newRelFromAbs _)
  | addr =>
    refine agrees_afterFirst (agrees_withOutput (moves_pure _) fun os => ?_)
    exact moves_ite (fun _ => hset _) fun _ => moves_pure _
  | loadaddr => exact agrees_afterFirst (agrees_withOutput (moves_pure _) (agrees_loadAddr h))
  | sizeof | alignof =>
    refine agrees_afterFirst (agrees_withOutput (hset _) fun os => ?_)
    exact agrees_of_quiet (quiet_sectionNumber _ os)
  | length =>
    exact agrees_afterFirst (agrees_of_quiet (quiet_withRegion fun r => quiet_setResult _))
  | origin =>
    exact agrees_afterFirst (agrees_of_quiet (quiet_withRegion fun r => quiet_newRelFromAbs _))
  | constant =>
    exact moves_ite (fun _ => hset _) fun _ => moves_ite (fun _ => hset _) fun _ => moves_throw _

theorem agrees_assignDot (cls : AssignClass) (src : Etree) (h : Moves (Agrees env) m) :
    Moves (Agrees env) (assignDot env cls src m) := by
  have hset (f : Expld → Expld) : Moves (Agrees env) (setExpld f) :=
    agrees_of_quiet (quiet_setExpld f)
  refine moves_get.bind fun w => ?_
  cases cls with
  | provide => exact moves_throw _
  | provided => exact moves_throw _
  | assign defsym =>
    refine moves_ite (fun _ => ?_) fun _ => agrees_of_quiet (quiet_setResult _)
    refine (hset _).bind fun _ => h.bind fun _ => (hset _).bind fun _ => ?_
    exact agrees_of_quiet ((quiet_keepSection src).bind fun _ => quiet_moveDot)

theorem agrees_assignValue (cls : AssignClass) (dst : String) (lineno : Nat)
    (h : Moves (Agrees env) m) : Moves (Agrees env) (assignValue env cls dst lineno m) := by
  refine moves_get.bind fun w => moves_ite (fun _ => moves_get.bind fun w => ?_) fun _ => ?_
  · refine (agrees_of_quiet (quiet_setExpld _)).bind fun _ => ?_
    refine (agrees_of_quiet (quiet_updateDefinedness dst _)).bind fun _ => ?_
    exact (agrees_of_quiet (quiet_setSymbol _ _)).bind fun _ => h
  · exact moves_ite (fun _ => agrees_of_quiet (quiet_forgetSymbol dst)) fun _ => moves_pure _

theorem agrees_assignSymbol (cls : AssignClass) (dst : String) (lineno : Nat)
    (h : Moves (Agrees env) m) (h' : Moves (Agrees env) m') :
    Moves (Agrees env) (assignSymbol env cls dst lineno m m') := by
  have hset (f : Expld → Expld) : Moves (Agrees env) (setExpld f) :=
    agrees_of_quiet (quiet_setExpld f)
  refine moves_get.bind fun w => ?_
  split
  · exact moves_pure _
  · refine (hset _).bind fun _ => h.bind fun _ => ?_
    exact (agrees_assignValue _ dst lineno h').bind fun _ => hset _

end

theorem foldTreeWith_assign (foldBase : Etree → Fold Unit) (cls : AssignClass) (dst : String)
    (lineno : Nat) (src : Etree) :
    foldTreeWith env foldBase (.assign cls dst lineno src) =
      if dst = "." then assignDot env cls src (foldTreeWith env foldBase src)
      else assignSymbol env cls dst lineno (foldTreeWith env foldBase src)
        (match src with
          | .trinary cond _ _ => foldTreeWith env foldBase cond
          | _ => pure ()) := by
  cases src <;> rfl

/-- `exp_fold_tree_1`, one class of nodes after the other. A conditional source of an assignment may
have its condition folded twice. -/
theorem agrees_foldTreeWith {foldBase : Etree → Fold Unit}
    (h : ∀ tree, Moves (Agrees env) (foldBase tree)) (tree : Etree) :
    Moves (Agrees env) (foldTreeWith env foldBase tree) ∧
      ∀ cond lhs rhs, tree = .trinary cond lhs rhs →
        Moves (Agrees env) (foldTreeWith env foldBase cond) := by
  induction tree with
  | value v str => exact ⟨agrees_of_quiet (quiet_foldValue v str), nofun⟩
  | rel sect v => exact ⟨agrees_of_quiet (quiet_foldRel sect v), nofun⟩
  | assert child message ih => exact ⟨agrees_foldAssert message ih.1, nofun⟩
  | unary code child ih => exact ⟨agrees_foldUnary code ih.1, nofun⟩
  | binary code lhs rhs ihl ihr => exact ⟨agrees_foldBinary code rhs ihl.1 ihr.1, nofun⟩
  | trinary cond lhs rhs ihc ihl ihr =>
    refine ⟨agrees_foldTrinary ihc.1 ihl.1 ihr.1, ?_⟩
    intro cond' lhs' rhs' heq
    obtain ⟨rfl, rfl, rfl⟩ := Etree.trinary.inj heq
    exact ihc.1
  | assign cls dst lineno src ih =>
    refine ⟨?_, nofun⟩
    rw [foldTreeWith_assign]
    apply moves_ite
    · intro _
      exact agrees_assignDot cls src ih.1
    · intro _
      refine agrees_assignSymbol cls dst lineno ih.1 ?_
      split
      · exact ih.2 _ _ _ rfl
      · exact moves_pure _
  | name code name => exact ⟨agrees_foldName h code name, nofun⟩

theorem agrees_foldTree (depth : Nat) (tree : Etree) :
    Moves (Agrees env) (foldTree env depth tree) := by
  induction depth generalizing tree with
  | zero => exact (agrees_foldTreeWith (fun _ => moves_throw _) tree).1
  | succ depth ih => exact (agrees_foldTreeWith ih tree).1

/-- Before anything is noted. -/
def World.fresh (w : World) : World := { w with operations := [], sites := [] }

/-- The arithmetic of a folded expression is that of C exactly where no place of `fold_binary` has a
quotient that does not fit, a shift by the width, or a segment that meets a page size of zero. -/
theorem expFoldTree1_defined_iff (env : Env) (depth : Nat) (tree : Option Etree) (w : World) :
    (after (expFoldTree1 env depth tree) w.fresh).AllDefined ↔
      (after (expFoldTree1 env depth tree) w.fresh).AllCalm env := by
  have hrun : Moves (Agrees env) (expFoldTree1 env depth tree) := by
    cases tree with
    | none => exact agrees_of_quiet (quiet_setResult _)
    | some tree => exact agrees_foldTree depth tree
  refine hrun w.fresh (iff_of_true ?_ ?_)
  · exact List.forall_mem_nil _
  · exact List.forall_mem_nil _

/-! A script that is read, without sections, symbols or segments. -/

def parsing : World where
  expld := ⟨.first, false, false, none, .none, 0, none, .abs, ⟨.none, 0, 0, 0, 0, 0, 0⟩, .none⟩
  sections _ := ⟨0, 0, 0, 0, none, 0, false⟩
  symbols _ := none
  definedness _ := none
  segments := []
  undefs := []
  reports := []
  operations := []
  sites := []

def plainEnv : Env where
  maxpagesize := 0x1000
  commonpagesize := 0x1000
  magicDemandPaged := true
  saneExpr := false
  octetsPerByte := 1
  sizeofHeaders := 0
  iteration := false
  sectionForDot := .abs
  outputs _ := none
  regions _ := none
  wrapped n := n
  followed n := n
  undefined _ := 0

/-- `0x8000000000000000 / 0xffffffffffffffff`. -/
def overflowingQuotient : Etree :=
  .binary (.op .div) (.value 0x8000000000000000 none) (.value 0xffffffffffffffff none)

theorem overflowing_quotient_not_defined :
    ¬ ∀ (env : Env) (depth : Nat) (tree : Option Etree) (w : World),
      (after (expFoldTree1 env depth tree) w.fresh).AllDefined := by
  intro h
  have hrun :
      (after (expFoldTree1 plainEnv 0 (some overflowingQuotient)) parsing.fresh).operations =
        [.div 0x8000000000000000 0xffffffffffffffff] := rfl
  have hdef := h plainEnv 0 (some overflowingQuotient) parsing
  rw [World.AllDefined, hrun, List.forall_mem_singleton] at hdef
  exact (div_defined_iff _ _ (by decide)).mp hdef ⟨rfl, rfl⟩

end FusionBinutils.Ld.FoldTree
