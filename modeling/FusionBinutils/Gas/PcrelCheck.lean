import FusionBinutils.Gas.TcFusion

/-! The bounds that `md_apply_fix` puts on a displacement. -/
namespace FusionBinutils.Gas

open Opcode Bfd

variable {fix : FixS} {sym : PlainSym} {val delta : Vma} {buf : Contents} {n : Nat}

/-- The field of a pc-relative code, with the macros that write and read it. -/
structure PcrelField where
  width : Nat
  lo : Int
  hi : Int
  msg : String
  gen : Vma → Vma
  get : Vma → Vma

/-- The constants of the four cases, as they stand in them. -/
def pcrelField : RelocCode → Option PcrelField
  | .fusion14Pcrel =>
    some ⟨14, -8192, 8191, "too large pc relative branch", genBImm, getImmB⟩
  | .fusion21Pcrel =>
    some ⟨21, -1048576, 1048576, "too large pc relative jump", genJImm, getImmJ⟩
  | .r16Pcrel | .hi16Pcrel =>
    some ⟨16, -32768, 32767, "too large pc relative load. No loading in a white zone", genLiImm,
      getImmLi⟩
  | _ => none

/-- The displacement of the cases: the target less the place. -/
def pcrelDelta (fix : FixS) (sym : PlainSym) (val : Vma) : Vma :=
  sym.value + val - mdPcrelFrom fix

def FitsSigned (n : Nat) (x : Int) : Prop := -2 ^ (n - 1) ≤ x ∧ x < 2 ^ (n - 1)

/-- Whenever a displacement is computed, an error is reported exactly if it does not fit; without
one, reading the field with its sign gives the displacement. -/
def CheckExact (f : PcrelField) (fix : FixS) (sym : PlainSym) (val : Vma) (buf : Contents) : Prop :=
  val ≠ 0 → ∃ ap, mdApplyFix fix val buf = some ap ∧
    (ap.msgs = [] ↔ FitsSigned f.width (pcrelDelta fix sym val).toInt) ∧
    (ap.msgs = [] → ((f.get (f.gen (pcrelDelta fix sym val))).setWidth f.width).toInt =
      (pcrelDelta fix sym val).toInt)

/-- Casting the displacement to `int` hides nothing, and a jump does not go one too far. -/
def FairlyJudged (fix : FixS) (n : Nat) (delta : Int) : Prop :=
  (∀ k r : Int, k ≠ 0 → FitsSigned n r → delta ≠ r + k * 2 ^ 32) ∧
    (fix.fxRType = .fusion21Pcrel → delta % 2 ^ 32 ≠ 1048576)

theorem mdApplyFix_pcrel {f : PcrelField} (hf : pcrelField fix.fxRType = some f) (val : Vma)
    (buf : Contents) : mdApplyFix fix val buf =
      some (applyPcrel { fix with fxAddnumber := val } val buf f.lo f.hi f.msg f.gen) := by
  unfold pcrelField at hf
  split at hf
  · next h =>
    cases hf
    simp only [mdApplyFix, h]
  · next h =>
    cases hf
    simp only [mdApplyFix, h]
  · next h =>
    cases hf
    simp only [mdApplyFix, h]
  · next h =>
    cases hf
    simp only [mdApplyFix, h]
  · cases hf

/-- The error is reported by the bounds on the low half of the displacement. -/
theorem applyPcrel_msgs_nil_iff (fix : FixS) (hsym : fix.fxAddsy = some sym) (hval : val ≠ 0) {lo hi : Int}
    {msg : String} {gen : Vma → Vma} :
    (applyPcrel fix val buf lo hi msg gen).msgs = [] ↔
      lo ≤ ((pcrelDelta fix sym val).setWidth 32).toInt ∧
        ((pcrelDelta fix sym val).setWidth 32).toInt ≤ hi := by
  simp only [applyPcrel, hsym, if_neg hval]
  change (if outsideInt lo hi (pcrelDelta fix sym val) then [msg] else []) = [] ↔ _
  simp [outsideInt]

theorem getB_genB (d : Vma) : (getImmB (genBImm d)).toNat = d.toNat % 2 ^ 14 := by
  rw [getImmB_toNat (by decide), genBImm_toNat (by decide)]
  omega

theorem getJ_genJ (d : Vma) : (getImmJ (genJImm d)).toNat = d.toNat % 2 ^ 21 := by
  rw [getImmJ_toNat (by decide), genJImm_toNat (by decide)]
  omega

theorem getLi_genLi (d : Vma) : (getImmLi (genLiImm d)).toNat = d.toNat % 2 ^ 16 := by
  rw [getImmLi_toNat (by decide), genLiImm, getImmLi_toNat (by decide)]
  omega

/-- A field holds the low bits of what was put into it. -/
theorem get_gen {code : RelocCode} {f : PcrelField} (hf : pcrelField code = some f) (d : Vma) :
    (f.get (f.gen d)).setWidth f.width = d.setWidth f.width := by
  apply BitVec.eq_of_toNat_eq
  rw [BitVec.toNat_setWidth, BitVec.toNat_setWidth]
  unfold pcrelField at hf
  split at hf
  · cases hf
    dsimp only
    rw [getB_genB, Nat.mod_mod]
  · cases hf
    dsimp only
    rw [getJ_genJ, Nat.mod_mod]
  · cases hf
    dsimp only
    rw [getLi_genLi, Nat.mod_mod]
  · cases hf
    dsimp only
    rw [getLi_genLi, Nat.mod_mod]
  · cases hf

/-- Sign extension gives a value that fits back. -/
theorem toInt_setWidth_of_fits (hn : 0 < n) (hle : n ≤ 64) (h : FitsSigned n delta.toInt) :
    (delta.setWidth n).toInt = delta.toInt := by
  have hcut : (delta.setWidth n).toInt = delta.toInt.bmod (2 ^ n) := by
    rw [BitVec.toInt_setWidth, BitVec.toInt_eq_toNat_bmod delta,
      Int.bmod_bmod_of_dvd (Nat.pow_dvd_pow 2 hle)]
  obtain ⟨hlo, hhi⟩ := h
  have hpow : ((2 ^ n : Nat) : Int) = 2 * 2 ^ (n - 1) := by
    rw [Nat.cast_pow, Nat.cast_ofNat, ← pow_succ', Nat.sub_add_cancel hn]
  rw [hcut, Int.bmod_eq_of_le] <;> omega

/-- The low half of a displacement differs from it by a multiple of 2^32. -/
theorem toInt_low (delta : Vma) :
    ∃ k : Int, delta.toInt = (delta.setWidth 32).toInt + k * 2 ^ 32 ∧
      -2 ^ 31 ≤ (delta.setWidth 32).toInt ∧ (delta.setWidth 32).toInt < 2 ^ 31 := by
  refine ⟨(delta.toInt - (delta.setWidth 32).toInt) / 2 ^ 32, ?_⟩
  have h := delta.isLt
  rw [BitVec.toInt_eq_toNat_cond, BitVec.toInt_eq_toNat_cond, BitVec.toNat_setWidth]
  split <;> split <;> omega

/-- The bounds of a code are those of its field, except that a jump may go one further. -/
theorem pcrelField_bounds {code : RelocCode} {f : PcrelField} (hf : pcrelField code = some f) :
    0 < f.width ∧ f.width ≤ 21 ∧ (code = .fusion21Pcrel → f.width = 21) ∧
      f.lo = -2 ^ (f.width - 1) ∧
      f.hi = 2 ^ (f.width - 1) - 1 + if code = .fusion21Pcrel then 1 else 0 := by
  unfold pcrelField at hf
  split at hf <;> cases hf <;> decide

/-- The check goes wrong on what the cast brings inside the bounds. -/
theorem fairlyJudged_iff {f : PcrelField} (hf : pcrelField fix.fxRType = some f) (delta : Vma) :
    FairlyJudged fix f.width delta.toInt ↔
      (f.lo ≤ (delta.setWidth 32).toInt ∧ (delta.setWidth 32).toInt ≤ f.hi →
        FitsSigned f.width delta.toInt) := by
  obtain ⟨hpos, hle, h21, hlo, hhi⟩ := pcrelField_bounds hf
  obtain ⟨k, hk, hk31⟩ := toInt_low delta
  have hpow : (2 : Int) ^ (f.width - 1) ≤ 2 ^ 20 :=
    pow_le_pow_right₀ (by decide) (by omega)
  have hjump : fix.fxRType = .fusion21Pcrel → (2 : Int) ^ (f.width - 1) = 1048576 := by
    intro h
    rw [h21 h]
    rfl
  simp only [FairlyJudged, FitsSigned, hlo, hhi]
  generalize (2 : Int) ^ (f.width - 1) = m at *
  generalize (delta.setWidth 32).toInt = low at *
  constructor
  · rintro ⟨hcast, hone⟩ ⟨hge, hle'⟩
    by_cases hin : low < m
    · have hk0 : k = 0 := by
        by_contra hne
        exact hcast k low hne ⟨hge, hin⟩ hk
      omega
    · have hcode : fix.fxRType = .fusion21Pcrel := by
        by_contra hne
        rw [if_neg hne] at hle'
        omega
      rw [if_pos hcode] at hle'
      have := hone hcode
      have := hjump hcode
      omega
  · intro h
    refine ⟨?_, ?_⟩
    · rintro k' r hne hr he
      -- the two remainders are the same
      have hlow : low = r := by omega
      have := h ⟨by omega, by split <;> omega⟩
      omega
    · intro hcode he
      have := hjump hcode
      have hlow : low = m := by omega
      have := h ⟨by omega, by rw [if_pos hcode]; omega⟩
      omega

/-- What fits stays inside the bounds under the cast. -/
theorem bounds_of_fits {f : PcrelField} (hf : pcrelField fix.fxRType = some f)
    (h : FitsSigned f.width delta.toInt) :
    f.lo ≤ (delta.setWidth 32).toInt ∧ (delta.setWidth 32).toInt ≤ f.hi := by
  obtain ⟨-, hle, -, hlo, hhi⟩ := pcrelField_bounds hf
  have hpow : (2 : Int) ^ (f.width - 1) ≤ 2 ^ 20 :=
    pow_le_pow_right₀ (by decide) (by omega)
  obtain ⟨h1, h2⟩ := h
  have h32 : FitsSigned 32 delta.toInt := ⟨by omega, by omega⟩
  rw [toInt_setWidth_of_fits (by decide) (by decide) h32, hlo, hhi]
  exact ⟨h1, by split <;> omega⟩

/-- The check of a pc-relative fixup is exact when no displacement is computed, or the
displacement is judged fairly. -/
theorem checkExact_iff {f : PcrelField} (hf : pcrelField fix.fxRType = some f)
    (hsym : fix.fxAddsy = some sym) (val : Vma) (buf : Contents) :
    CheckExact f fix sym val buf ↔
      (val ≠ 0 → FairlyJudged fix f.width (pcrelDelta fix sym val).toInt) := by
  obtain ⟨hpos, hle, -⟩ := pcrelField_bounds hf
  apply imp_congr_right
  intro hval
  have hmsgs : (applyPcrel { fix with fxAddnumber := val } val buf f.lo f.hi f.msg f.gen).msgs = [] ↔
      f.lo ≤ ((pcrelDelta fix sym val).setWidth 32).toInt ∧
        ((pcrelDelta fix sym val).setWidth 32).toInt ≤ f.hi :=
    applyPcrel_msgs_nil_iff { fix with fxAddnumber := val } hsym hval
  rw [fairlyJudged_iff hf]
  constructor
  · rintro ⟨ap, hap, hiff, -⟩ hbounds
    cases (mdApplyFix_pcrel hf val buf).symm.trans hap
    exact hiff.1 (hmsgs.2 hbounds)
  · intro hfair
    refine ⟨_, mdApplyFix_pcrel hf val buf, ⟨?_, ?_⟩, ?_⟩
    · intro h
      exact hfair (hmsgs.1 h)
    · intro h
      exact hmsgs.2 (bounds_of_fits hf h)
    · intro h
      rw [get_gen hf]
      exact toInt_setWidth_of_fits hpos (by omega) (hfair (hmsgs.1 h))

/-! Jumps from the start of the section to the absolute symbol 0. -/

def sampleJump : FixS where
  fxFrag := ⟨0, 0⟩
  fxWhere := 0
  fxSize := 4
  fxAddsy := some zeroSymbol
  fxSubsy := none
  fxOffset := 0
  fxAddnumber := 0
  fxDone := false
  fxPcrel := false
  fxRType := .fusion21Pcrel

theorem checkExact_jump : ∃ f, pcrelField sampleJump.fxRType = some f ∧
    CheckExact f sampleJump zeroSymbol 8 fun _ => 0 := by
  refine ⟨_, rfl, (checkExact_iff rfl rfl 8 _).2 ?_⟩
  intro _
  exact (fairlyJudged_iff rfl _).2 fun _ => ⟨by decide, by decide⟩

/-- A jump by 2^20 is let through and goes back by as much. -/
theorem jump_one_too_far : ∃ f, pcrelField sampleJump.fxRType = some f ∧
    ¬ CheckExact f sampleJump zeroSymbol 0x100000 fun _ => 0 := by
  refine ⟨_, rfl, ?_⟩
  rw [checkExact_iff rfl rfl]
  intro h
  exact (h (by decide)).2 rfl (by decide)

end FusionBinutils.Gas
