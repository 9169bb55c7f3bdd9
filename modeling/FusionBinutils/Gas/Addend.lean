import FusionBinutils.Gas.Fixups

/-! The addend of a relocation against a symbol, from the expression to `tc_gen_reloc`. -/
namespace FusionBinutils.Gas

open Opcode Bfd

variable {seg addSeg addSeg' : Segment} {frag : FragRef} {pos a : Vma} {size : Nat} {sym : Symbol}
  {code : RelocCode} {buf : Contents} {fix : FixS} {ap : Applied} {r : Arelent}

/-! What a symbol stands for. -/

/-- The symbol at the end of the chain of equates. -/
def Symbol.base : Symbol → PlainSym
  | .plain s => s
  | .equated target _ => target.base
  | .mriCommon _ base => base

/-- The distance from the base to the symbol. -/
def Symbol.shift : Symbol → Vma
  | .plain _ => 0
  | .equated target n => n + target.shift
  | .mriCommon value _ => value

/-- `adjust_reloc_syms` goes over to the section symbol, for the expression `sym + a`. -/
def Symbol.reduces (sec : Segment) : Symbol → Vma → Bool
  | .plain s, a => reducible sec none s a
  | .equated target n, a => target.reduces sec (a + n)
  | .mriCommon _ _, _ => false

/-- A local symbol of the absolute section, which stands for its value. -/
def Symbol.isNumber (sym : Symbol) : Bool :=
  sym.base.seg == .absolute && !sForceReloc sym.base true

/-- The expression is taken relative to the section of the symbol. -/
def Symbol.inSection (seg : Segment) (sym : Symbol) (a : Vma) : Bool :=
  sym.reduces seg a || sym.isNumber

/-- The symbol that the relocation is against. -/
def Symbol.linkSym (seg : Segment) (sym : Symbol) (a : Vma) : PlainSym :=
  if sym.inSection seg a then sectionSymbol sym.base.seg else sym.base

/-- What has to be added to that symbol for `sym + a`. -/
def Symbol.linkAddend (seg : Segment) (sym : Symbol) (a : Vma) : Vma :=
  if sym.inSection seg a then a + sym.shift + sym.base.value else a + sym.shift

/-- The value that `fixup_segment` adds for a symbol that stays in the relocation. -/
def Symbol.extra (seg : Segment) (sym : Symbol) (a : Vma) : Vma :=
  if sym.inSection seg a ∨ sym.base.seg = .undefined ∨ sym.base.seg = .common then 0
  else sym.base.value

/-- The relocation says `sym + a`, against the symbol itself or against its section. -/
def Denotes (sym : Symbol) (a : Vma) (r : Arelent) : Prop :=
  r.sym = sym.base ∧ r.addend = some (a + sym.shift) ∨
    r.sym = sectionSymbol sym.base.seg ∧ r.addend = some (a + sym.shift + sym.base.value)

/-! From the expression to the value handed to `md_apply_fix`. -/

theorem adjustSym_eq (sec : Segment) (sym : Symbol) (a : Vma) : adjustSym sec none sym a =
    if sym.reduces sec a then (sectionSymbol sym.base.seg, a + sym.shift + sym.base.value)
    else (sym.base, a + sym.shift) := by
  induction sym generalizing a with
  | plain s => simp [adjustSym, Symbol.reduces, Symbol.base, Symbol.shift]
  | equated target n ih =>
    rw [adjustSym, ih]
    simp only [Symbol.reduces, Symbol.base, Symbol.shift, BitVec.add_assoc]
  | mriCommon value base => simp [adjustSym, Symbol.reduces, Symbol.base, Symbol.shift]

/-- Only a symbol that may be reduced is, so a reduced one is not absolute and not forced. -/
theorem reduces_base {sec : Segment} (h : sym.reduces sec a = true) :
    sym.base.seg ≠ .absolute ∧ sForceReloc sym.base true = false ∧
      sym.base.sectionSym = false := by
  induction sym generalizing a with
  | plain s =>
    simp only [Symbol.reduces, reducible, Bool.and_eq_true, bne_iff_ne, Bool.not_eq_true'] at h
    exact ⟨h.1.1.1.1.2, h.1.1.1.1.1.1, h.1.1.1.1.1.2⟩
  | equated target n ih => exact ih h
  | mriCommon value base => cases h

theorem sForceReloc_mono {s : PlainSym} (h : sForceReloc s true = false) :
    sForceReloc s false = false := by
  simp only [sForceReloc, Bool.or_eq_false_iff, Bool.and_eq_false_iff] at h ⊢
  simp_all

/-- The fixup of an operand `sym + a`. -/
def symbolFix (frag : FragRef) (pos : Vma) (size : Nat) (sym : Symbol) (a : Vma)
    (code : RelocCode) : NewFix := (fixNewExp frag pos size ⟨.symbol sym, a⟩ false code).1

/-- A fixup that differs from the new one in its symbol and its values only. -/
structure SameFix (fix : FixS) (frag : FragRef) (pos : Vma) (code : RelocCode) : Prop where
  frag : fix.fxFrag = frag
  pos : fix.fxWhere = pos
  code : fix.fxRType = code

/-- What `fixup_segment` makes of the symbol: a number is dropped, any other symbol stays. -/
theorem fixupAdd_symbol (size : Nat) (sym : Symbol) (addSeg : Segment) (hfix : fix = adjustRelocSyms seg
      (symbolFix frag pos size sym a code)) :
    ∃ fix', fixupAdd seg ((fix.fxAddsy.map PlainSym.seg).getD addSeg) fix fix.fxOffset =
        (fix', sym.linkAddend seg a + sym.extra seg a) ∧
      fix'.fxAddsy = (if sym.isNumber then none else some (sym.linkSym seg a)) ∧
      SameFix fix' frag pos code ∧ fix'.fxDone = false := by
  subst hfix
  by_cases hred : sym.reduces seg a = true
  · -- the section symbol has value 0
    obtain ⟨habs, hforce, -⟩ := reduces_base hred
    have hnum : sym.isNumber = false := by simp [Symbol.isNumber, habs]
    have hin : sym.inSection seg a = true := by simp [Symbol.inSection, hred]
    refine ⟨adjustRelocSyms seg (symbolFix frag pos size sym a code), ?_, ?_, ⟨rfl, rfl, rfl⟩, rfl⟩
    · simp [adjustRelocSyms, symbolFix, fixNewExp, adjustSym_eq, hred, fixupAdd,
        tcForceRelocationLocal, sectionSymbol, habs, Symbol.linkAddend, Symbol.extra, hin]
    · simp [adjustRelocSyms, symbolFix, fixNewExp, adjustSym_eq, hred, hnum, Symbol.linkSym, hin]
  · by_cases hnum : sym.isNumber = true
    · have hin : sym.inSection seg a = true := by simp [Symbol.inSection, hnum]
      simp only [Symbol.isNumber, Bool.and_eq_true, beq_iff_eq, Bool.not_eq_true'] at hnum
      obtain ⟨habs, hforce⟩ := hnum
      have hweak := sForceReloc_mono hforce
      refine ⟨{ adjustRelocSyms seg (symbolFix frag pos size sym a code) with
        fxOffset := a + sym.shift + sym.base.value, fxAddsy := none }, ?_, ?_, ⟨rfl, rfl, rfl⟩, rfl⟩
      · simp [adjustRelocSyms, symbolFix, fixNewExp, adjustSym_eq, hred, fixupAdd,
          tcForceRelocationLocal, genericForceReloc, habs, hforce, hweak, Symbol.linkAddend,
          Symbol.extra, hin]
      · simp [Symbol.isNumber, habs, hforce]
    · have hin : sym.inSection seg a = false := by simp [Symbol.inSection, hred, hnum]
      have hkept : ¬ (sym.base.seg = .absolute ∧ sForceReloc sym.base false = false ∧
          sForceReloc sym.base true = false) := by
        rintro ⟨habs, -, hforce⟩
        exact hnum (by simp [Symbol.isNumber, habs, hforce])
      refine ⟨adjustRelocSyms seg (symbolFix frag pos size sym a code), ?_, ?_,
        ⟨rfl, rfl, rfl⟩, rfl⟩
      · simp only [adjustRelocSyms, symbolFix, fixNewExp, adjustSym_eq, hred, fixupAdd,
          tcForceRelocationLocal, genericForceReloc, Symbol.linkAddend, Symbol.extra, hin]
        simp [hkept]
        by_cases hund : sym.base.seg = .undefined ∨ sym.base.seg = .common
        · rcases hund with h | h <;> simp [h]
        · simp_all
      · simp [adjustRelocSyms, symbolFix, fixNewExp, adjustSym_eq, hred, hnum, Symbol.linkSym, hin]

/-- `md_apply_fix` records the value and may declare the fixup done; it changes nothing else. -/
theorem mdApplyFix_fix {v : Vma} (h : mdApplyFix fix v buf = some ap) :
    ap.fix = { fix with fxAddnumber := v, fxDone := ap.fix.fxDone } := by
  cases hr : fix.fxRType with
  | r32 | r8 | fusionHi16 | r16 | fusionStore | fusionLoad | fusion12 =>
    have hplain : fix.fxRType.Plain := by simp [RelocCode.Plain, hr]
    obtain ⟨c, hc⟩ := hplain.const v
    rw [mdApplyFix_plain buf hplain hc] at h
    cases h
    rw [← hr]
  | fusion14Pcrel | fusion21Pcrel | r16Pcrel | hi16Pcrel =>
    simp only [mdApplyFix, hr, Option.some.injEq] at h
    subst h
    rw [applyPcrel_fix]
  | fusion21 =>
    simp only [mdApplyFix, hr] at h
    split at h
    · cases h
      rfl
    · split at h
      · cases h
        rfl
      · simp only [fusionApplyConstReloc, Option.bind_eq_bind, Option.bind_some,
          Option.pure_def, Option.some.injEq] at h
        subst h
        rfl
  | unused | none => simp [mdApplyFix, hr] at h

/-- The fixup that a turn of `fixup_segment` leaves, for an operand `sym + a`. -/
theorem fixupFix_symbol (h : fixupFix seg addSeg
      (adjustRelocSyms seg (symbolFix frag pos size sym a code)) buf = some (addSeg', ap)) :
    code ≠ .unused ∧ SameFix ap.fix frag pos code ∧
      ap.fix.fxAddnumber = sym.linkAddend seg a + sym.extra seg a ∧
      (ap.fix.fxDone = false → ap.fix.fxAddsy = some (sym.linkSym seg a)) := by
  obtain ⟨fix', hadd, hsym, hsame, hdone⟩ := fixupAdd_symbol size sym addSeg
    (rfl : adjustRelocSyms seg (symbolFix frag pos size sym a code) = _)
  obtain ⟨ap', hap, hfix, -⟩ := fixupFix_inv rfl rfl hadd h
  have hfields := mdApplyFix_fix hap
  rw [hfix, hfields]
  refine ⟨?_, ⟨hsame.frag, hsame.pos, hsame.code⟩, rfl, fun hopen => ?_⟩
  · rintro rfl
    simp [mdApplyFix, hsame.code] at hap
  simp only [FixS.withAbs] at hopen ⊢
  rw [hopen, hsym]
  by_cases hnum : sym.isNumber = true
  · have habs : sym.base.seg = .absolute := by
      simp only [Symbol.isNumber, Bool.and_eq_true, beq_iff_eq] at hnum
      exact hnum.1
    simp [hnum, Symbol.linkSym, Symbol.inSection, habs]
  · simp [hnum]

/-- The turn for a code whose value is or-ed onto the word: only a number is done with. -/
theorem fixupFix_symbol_plain (seg addSeg : Segment) (frag : FragRef) (pos : Vma) (size : Nat)
    (sym : Symbol) (a : Vma) (buf : Contents) (hcode : code.Plain) :
    ∃ addSeg' ap c, fixupFix seg addSeg (adjustRelocSyms seg (symbolFix frag pos size sym a code))
        buf = some (addSeg', ap) ∧
      fusionApplyConstReloc code (sym.linkAddend seg a + sym.extra seg a) = some c ∧
      ap.fix.fxDone = sym.isNumber ∧ wordAt ap.buf pos = c ||| wordAt buf pos := by
  obtain ⟨fix', hadd, hsym, hsame, hdone⟩ := fixupAdd_symbol size sym addSeg
    (rfl : adjustRelocSyms seg (symbolFix frag pos size sym a code) = _)
  obtain ⟨c, hc⟩ := hcode.const (sym.linkAddend seg a + sym.extra seg a)
  have hap := mdApplyFix_plain buf (hsame.code ▸ hcode) (hsame.code ▸ hc)
  obtain ⟨msgs, hfix⟩ := fixupFix_eq _ seg addSeg rfl rfl hadd hap
  refine ⟨_, _, c, hfix, hc, ?_, ?_⟩
  · simp only [FixS.withAbs, hdone, hsym]
    cases sym.isNumber <;> rfl
  · rw [← hsame.pos]
    exact wordAt_orAtFix fix' c buf

/-! From there to the relocation. -/

/-- The addend that `tc_gen_reloc` computes for a value at a frag. -/
def genAddend (code : RelocCode) (frAddress value : Vma) : Option Vma :=
  match code with
  | .fusion21Pcrel =>
    if outsideInt (-1048576) 1048575 (frAddress + value) then none
    else some (genJImm (frAddress + value))
  | .fusion14Pcrel =>
    if outsideInt (-8192) 8191 (frAddress + value) then none else some (frAddress + value)
  | .fusion21 => some (genJImm value)
  | _ => some value

theorem tcGenReloc_addend (fix : FixS) (s : PlainSym) (hcode : fix.fxRType ≠ .unused) :
    ∃ r, (tcGenReloc fix s).1 = some r ∧ r.sym = s ∧
      r.addend = genAddend fix.fxRType fix.fxFrag.frAddress fix.fxAddnumber := by
  cases hr : fix.fxRType with
  | unused => exact absurd hr hcode
  | fusion21Pcrel | fusion14Pcrel =>
    simp only [tcGenReloc, hr, fusionRelocTypeLookup, genAddend]
    split <;> exact ⟨_, rfl, rfl, rfl⟩
  | none | r32 | r16 | r8 | fusionHi16 | r16Pcrel | hi16Pcrel | fusion12 | fusionLoad
    | fusionStore | fusion21 =>
    simp only [tcGenReloc, hr, fusionRelocTypeLookup, genAddend]
    exact ⟨_, rfl, rfl, rfl⟩

/-- Against the symbol that the relocation is made for, only the addend matters. -/
theorem denotes_iff (hr : r.sym = sym.linkSym seg a) :
    Denotes sym a r ↔ r.addend = some (sym.linkAddend seg a) := by
  by_cases hin : sym.inSection seg a = true
  · simp only [Symbol.linkSym, hin, if_true] at hr
    simp only [Symbol.linkAddend, hin, if_true]
    constructor
    · rintro (⟨hs, hadd⟩ | ⟨-, hadd⟩)
      · -- the base is its own section symbol, and stands at the start of the section
        have hzero : sym.base.value = 0 :=
          sym.base.sectionSym_value (by rw [← hs, hr]; rfl)
        rw [hadd, hzero, BitVec.ofNat_eq_ofNat, BitVec.add_zero]
      · exact hadd
    · intro hadd
      exact Or.inr ⟨hr, hadd⟩
  · simp only [Symbol.linkSym, hin, Bool.false_eq_true, if_false] at hr
    simp only [Symbol.linkAddend, hin, Bool.false_eq_true, if_false]
    constructor
    · rintro (⟨-, hadd⟩ | ⟨hs, hadd⟩)
      · exact hadd
      · have hzero : sym.base.value = 0 :=
          sym.base.sectionSym_value (by rw [← hr, hs]; rfl)
        rw [hadd, hzero, BitVec.ofNat_eq_ofNat, BitVec.add_zero]
    · intro hadd
      exact Or.inl ⟨hr, hadd⟩

/-- Splitting `e + y` into the two parts of a jump's field gives `e`. -/
def SplitsBack (e y : Vma) : Prop :=
  e.toNat < 2 ^ 26 ∧ e.toNat / 2 ^ 16 % 2 ^ 5 = 0 ∧
    y.toNat % 2 ^ 21 = e.toNat / 2 ^ 21 * 2 ^ 16

theorem genJImm_add_eq_iff (e y : Vma) : genJImm (e + y) = e ↔ SplitsBack e y := by
  have hgen := genJImm_toNat (by decide) (e + y)
  have he := e.isLt
  have hy := y.isLt
  rw [← BitVec.toNat_inj, hgen, BitVec.toNat_add, SplitsBack]
  omega

/-- When the addend comes out right, for the addend `e` and the value `x` added to it. -/
def AddendRight (code : RelocCode) (frAddress e x : Vma) : Prop :=
  match code with
  | .fusion14Pcrel => frAddress + x = 0 ∧ outsideInt (-8192) 8191 e = false
  | .fusion21 => SplitsBack e x
  | .fusion21Pcrel =>
    SplitsBack e (frAddress + x) ∧
      outsideInt (-1048576) 1048575 (e + (frAddress + x)) = false
  | _ => x = 0

theorem genAddend_eq_iff (code : RelocCode) (frAddress e x : Vma) :
    genAddend code frAddress (e + x) = some e ↔ AddendRight code frAddress e x := by
  have hcomm : frAddress + (e + x) = e + (frAddress + x) := add_left_comm ..
  have hself (y : Vma) : e + y = e ↔ y = 0 := by
    constructor
    · intro h
      bv_omega
    · rintro rfl
      exact BitVec.add_zero e
  cases code with
  | fusion21Pcrel =>
    simp only [genAddend, AddendRight, hcomm, ← genJImm_add_eq_iff]
    split <;> simp_all
  | fusion14Pcrel =>
    simp only [genAddend, AddendRight, hcomm]
    split
    · rename_i hout
      refine iff_of_false (by simp) ?_
      rintro ⟨hzero, hin⟩
      rw [(hself _).2 hzero, hin] at hout
      cases hout
    · rename_i hin
      rw [Option.some.injEq, hself]
      constructor
      · intro hzero
        rw [(hself _).2 hzero] at hin
        exact ⟨hzero, by simpa using hin⟩
      · exact And.left
  | fusion21 => simp only [genAddend, AddendRight, Option.some.injEq, genJImm_add_eq_iff]
  | _ => simp only [genAddend, AddendRight, Option.some.injEq, hself]

/-- A relocation that is left for the linker denotes the operand exactly when nothing was added
to the addend and its splitting does no harm. -/
theorem writeReloc_denotes_iff (h : fixupFix seg addSeg
      (adjustRelocSyms seg (symbolFix frag pos size sym a code)) buf = some (addSeg', ap))
    (hopen : ap.fix.fxDone = false) :
    (∃ r, writeReloc ap.fix = some r ∧ Denotes sym a r) ↔
      AddendRight code frag.frAddress (sym.linkAddend seg a) (sym.extra seg a) := by
  obtain ⟨hcode, hsame, hnum, hsym⟩ := fixupFix_symbol h
  obtain ⟨r, hgen, hrsym, hadd⟩ := tcGenReloc_addend ap.fix (sym.linkSym seg a)
    (by rw [hsame.code]; exact hcode)
  have hw : writeReloc ap.fix = some r := by
    simp [writeReloc, hopen, hsym hopen, hgen]
  rw [hsame.code, hsame.frag, hnum] at hadd
  rw [← genAddend_eq_iff, ← hadd, ← denotes_iff hrsym, hw]
  simp

/-! A global symbol, first undefined and then four bytes into `.text`. -/

def sampleSeg : Segment := .normal ".text" ⟨false, false, false⟩

def sampleGlobal (seg : Segment) (value : Vma) : PlainSym where
  name := "glob"
  seg := seg
  value := value
  weak := false
  global := true
  indirectFunction := false
  sectionSym := false
  isLocal := false
  sectionSym_value := fun h => by cases h

theorem writeReloc_denotes_undefined :
    ∃ ap, fixupFix sampleSeg .absolute (adjustRelocSyms sampleSeg (symbolFix ⟨0, 0x100⟩ 8 4
        (.plain (sampleGlobal .undefined 0)) 12 .r16)) (fun _ => 0) = some (.undefined, ap) ∧
      ap.fix.fxDone = false ∧
      ∃ r, writeReloc ap.fix = some r ∧ Denotes (.plain (sampleGlobal .undefined 0)) 12 r := by
  obtain ⟨ap, h, hopen⟩ : ∃ ap, fixupFix sampleSeg .absolute (adjustRelocSyms sampleSeg
      (symbolFix ⟨0, 0x100⟩ 8 4 (.plain (sampleGlobal .undefined 0)) 12 .r16)) (fun _ => 0) =
        some (.undefined, ap) ∧ ap.fix.fxDone = false := ⟨_, rfl, rfl⟩
  have hextra : (Symbol.plain (sampleGlobal .undefined 0)).extra sampleSeg 12 = 0 := by decide
  exact ⟨ap, h, hopen, (writeReloc_denotes_iff h hopen).2 hextra⟩

/-- The offset of a global symbol of the same file is counted into its addend. -/
theorem global_addend_counts_value :
    ∃ ap, fixupFix sampleSeg .absolute (adjustRelocSyms sampleSeg (symbolFix ⟨0, 0⟩ 8 4
        (.plain (sampleGlobal sampleSeg 4)) 0 .r16)) (fun _ => 0) = some (sampleSeg, ap) ∧
      ap.fix.fxDone = false ∧
      ¬ ∃ r, writeReloc ap.fix = some r ∧ Denotes (.plain (sampleGlobal sampleSeg 4)) 0 r := by
  refine ⟨_, rfl, rfl, ?_⟩
  rintro ⟨r, hr, hden⟩
  cases hr
  rcases hden with ⟨-, hadd⟩ | ⟨hsym, -⟩
  · revert hadd
    decide
  · revert hsym
    decide

end FusionBinutils.Gas
