import FusionBinutils.Gas.Fixups
import FusionBinutils.Opcode.Decode

/-! Instructions with a constant operand: the word that the fixup leaves. -/
namespace FusionBinutils.Gas

open Opcode Bfd BitField

variable {e : FusionOpcInfo} {txt : OperandText} {as : Assembled} {seg : Segment}
  {frag : FragRef} {pos c : Vma} {buf : Contents} {regs : List InsnT} {w a b d : InsnT}

/-- What `md_apply_fix` ors onto the word when there is no symbol. -/
def constPart (code : RelocCode) (v : Vma) : InsnT :=
  match code with
  | .fusion14Pcrel | .fusion21Pcrel | .r16Pcrel | .hi16Pcrel => 0
  | code => (fusionApplyConstReloc code v).getD 0

theorem mdApplyFix_const (fix : FixS) (buf : Contents) (hsym : fix.fxAddsy = none)
    (hcode : fix.fxRType ≠ .unused ∧ fix.fxRType ≠ .none) (v : Vma) :
    ∃ ap, mdApplyFix fix v buf = some ap ∧ ap.msgs = [] ∧
      wordAt ap.buf fix.fxWhere = constPart fix.fxRType v ||| wordAt buf fix.fxWhere := by
  have hplain : fix.fxRType.Plain → ∃ ap, mdApplyFix fix v buf = some ap ∧ ap.msgs = [] ∧
      wordAt ap.buf fix.fxWhere =
        (fusionApplyConstReloc fix.fxRType v).getD 0 ||| wordAt buf fix.fxWhere := by
    intro hp
    obtain ⟨r, hr⟩ := hp.const v
    exact ⟨_, mdApplyFix_plain buf hp hr, rfl, by rw [hr]; exact wordAt_orAtFix fix r buf⟩
  cases hr : fix.fxRType with
  | unused => exact absurd hr hcode.1
  | none => exact absurd hr hcode.2
  | r32 | r8 | fusionHi16 | r16 | fusionStore | fusionLoad | fusion12 =>
    rw [hr] at hplain
    exact hplain (by simp [RelocCode.Plain])
  | fusion14Pcrel | fusion21Pcrel | r16Pcrel | hi16Pcrel =>
    refine ⟨⟨{ fix with fxAddnumber := v }, buf, []⟩, ?_, rfl, by simp [constPart]⟩
    simp only [mdApplyFix, hr, applyPcrel, hsym]
  | fusion21 =>
    by_cases hv : v = 0
    · refine ⟨⟨{ fix with fxAddnumber := v }, buf, []⟩, ?_, rfl, ?_⟩
      · simp only [mdApplyFix, hr, hv, if_true]
      · have hz : constPart .fusion21 0 = 0 := by decide
        rw [hv, hz]
        exact BitVec.zero_or.symm
    · refine ⟨⟨{ fix with fxAddnumber := v, fxDone := true },
        orAtFix fix (((genJImm v).setWidth 32).setWidth 64) buf, []⟩, ?_, rfl,
        wordAt_orAtFix fix _ buf⟩
      simp only [mdApplyFix, hr, hv, if_false, hsym, fusionApplyConstReloc]
      rfl

/-- A 64-bit number whose upper half says nothing but the sign. -/
def Fits32 (v : Vma) : Prop := -(2 : Int) ^ 32 ≤ v.toInt ∧ v.toInt < (2 : Int) ^ 32

/-- The check of `fixup_segment` on a field of four bytes lets through 33 bits. -/
theorem fieldOverflow_nil_iff {fix : FixS} (hsize : fix.fxSize = 4) (v : Vma) :
    fieldOverflow fix v = [] ↔ Fits32 v := by
  have hmask : (-1 : Vma) <<< (4 * 8) = 0xffffffff00000000#64 := by decide
  have hand : (v &&& 0xffffffff00000000#64).toNat = v.toNat / 2 ^ 32 * 2 ^ 32 := by
    have hlt : v.toNat / 2 ^ 32 < 2 ^ 32 := by
      have hv := v.isLt
      omega
    rw [toNat_and_field 32 32 (by decide), Nat.mod_eq_of_lt hlt]
  have hlow : v &&& 0xffffffff00000000#64 = 0 ↔ v.toNat / 2 ^ 32 = 0 := by
    rw [← BitVec.toNat_inj, hand, BitVec.ofNat_eq_ofNat, BitVec.toNat_zero]
    omega
  have hhigh : v &&& 0xffffffff00000000#64 = 0xffffffff00000000#64 ↔
      v.toNat / 2 ^ 32 = 2 ^ 32 - 1 := by
    rw [← BitVec.toNat_inj, hand,
      show (0xffffffff00000000#64).toNat = (2 ^ 32 - 1) * 2 ^ 32 by decide]
    omega
  have hv := v.isLt
  have hif : fieldOverflow fix v = [] ↔
      ¬ (v &&& 0xffffffff00000000#64 ≠ 0 ∧
        v &&& 0xffffffff00000000#64 ≠ 0xffffffff00000000#64) := by
    rw [fieldOverflow, hsize, hmask]
    simp
  rw [hif, ne_eq, ne_eq, hlow, hhigh, Fits32, BitVec.toInt_eq_toNat_cond]
  split <;> omega

/-- A fixup without symbols goes through `fixup_segment` with the value of its expression. -/
theorem fixupFix_const (seg : Segment) (frag : FragRef) (pos : Vma) (off : Vma)
    (buf : Contents) {code : RelocCode} (hcode : code ≠ .unused ∧ code ≠ .none) :
    ∃ addSeg ap, fixupFix seg .absolute
        (adjustRelocSyms seg ⟨frag, pos, 4, none, none, off, false, code⟩) buf =
          some (addSeg, ap) ∧
      (ap.msgs = [] ↔ Fits32 off) ∧ wordAt ap.buf pos = constPart code off ||| wordAt buf pos := by
  let fix : FixS := adjustRelocSyms seg ⟨frag, pos, 4, none, none, off, false, code⟩
  obtain ⟨ap, hap, hmsgs, hword⟩ := mdApplyFix_const fix buf rfl hcode off
  have hfix := fixupFix_msgs fix seg .absolute rfl rfl rfl hap
  refine ⟨_, _, hfix, ?_, hword⟩
  rw [hmsgs, List.nil_append, fieldOverflow_nil_iff rfl]
  rfl

/-- The completed word: the assembled one with the constant or-ed on. -/
theorem completeReports_word (seg : Segment) (frag : FragRef) (pos : Vma) (buf : Contents)
    (has : assembleInsnBin e txt = some as) (hnone : as.reloc ≠ .none)
    (hexpr : as.expr.op = .constant ∨ as.expr = ⟨.absent, 0⟩) :
    ∃ buf' msgs, completeReports seg frag pos e txt buf = some (buf', msgs) ∧
      (as.reloc ≠ .unused → (msgs = [] ↔ as.msgs = [] ∧ Fits32 as.expr.addNumber)) ∧
      wordAt buf' pos = constPart as.reloc as.expr.addNumber ||| as.word := by
  have hput : wordAt (bfdPutb32 (as.word.setWidth 64) buf pos) pos = as.word := by
    rw [wordAt_bfdPutb32]
    exact BitVec.setWidth_setWidth_of_le _ (by decide)
  by_cases hunused : as.reloc = .unused
  · refine ⟨bfdPutb32 (as.word.setWidth 64) buf pos, as.msgs, ?_, fun h => absurd hunused h, ?_⟩
    · simp [completeReports, has, appendInsn, hunused, fusionRelocTypeLookup]
    · rw [hput, hunused]
      simp [constPart, fusionApplyConstReloc]
  · obtain ⟨addSeg, ap, hfix, hmsgs, hword⟩ := fixupFix_const seg frag pos
      as.expr.addNumber (bfdPutb32 (as.word.setWidth 64) buf pos) ⟨hunused, hnone⟩
    have happend : appendInsn as frag pos =
        some (⟨frag, pos, 4, none, none, as.expr.addNumber, false, as.reloc⟩, []) := by
      obtain ⟨t, howto, ht, hrow, hsize⟩ : ∃ t howto, fusionRelocTypeLookup as.reloc = some t ∧
          fusionElfHowtoTable[t.number]? = some howto ∧ bfdGetRelocSize howto = some 4 := by
        revert hunused hnone
        cases as.reloc <;> intro hunused hnone <;>
          first | contradiction | exact ⟨_, _, rfl, rfl, rfl⟩
      rcases hexpr with hop | habs
      · simp [appendInsn, ht, hrow, hsize, fixNewExp, hop]
      · simp [appendInsn, ht, hrow, hsize, fixNewExp, habs]
    refine ⟨ap.buf, as.msgs ++ [] ++ ap.msgs, ?_, fun _ => ?_, by rw [hword, hput]⟩
    · simp [completeReports, has, happend, hfix]
    · rw [List.append_nil, List.append_eq_nil_iff, hmsgs]

/-- The messages do not matter to the literal. -/
theorem completeInsn_eq_map : completeInsn seg frag pos e txt buf =
    (completeReports seg frag pos e txt buf).map Prod.fst := by
  unfold completeInsn completeReports
  cases assembleInsnBin e txt with
  | none => rfl
  | some as =>
    simp only [Option.bind_eq_bind, Option.bind_some]
    cases appendInsn as frag pos with
    | none => rfl
    | some fix =>
      dsimp only
      cases fixupFix seg .absolute (adjustRelocSyms seg fix.1)
        (bfdPutb32 (as.word.setWidth 64) buf pos) <;> rfl

theorem completeInsn_word (seg : Segment) (frag : FragRef) (pos : Vma) (buf : Contents)
    (has : assembleInsnBin e txt = some as) (hnone : as.reloc ≠ .none)
    (hexpr : as.expr.op = .constant ∨ as.expr = ⟨.absent, 0⟩) :
    ∃ buf', completeInsn seg frag pos e txt buf = some buf' ∧
      wordAt buf' pos = constPart as.reloc as.expr.addNumber ||| as.word := by
  obtain ⟨buf', msgs, hbuf, -, hword⟩ := completeReports_word seg frag pos buf has hnone hexpr
  exact ⟨buf', by rw [completeInsn_eq_map, hbuf]; rfl, hword⟩

/-! The expression and the relocation of an assembled instruction. -/

theorem returnReloc_ne_none {code : RelocCode} (h : returnReloc e = some code) : code ≠ .none := by
  have hall : returnReloc e ≠ some .none := by
    unfold returnReloc
    repeat' refine iteInduction (motive := (· ≠ some RelocCode.none)) (fun _ => ?_) fun _ => ?_
    -- the jumps and the immediate loads look at the index
    all_goals first | (simp; done) | (split <;> simp)
  rintro rfl
  exact hall h

theorem encodeOperands_reloc {o : Operands} {code : RelocCode} (hcode : code ≠ .none) :
    (encodeOperands e o code).reloc ≠ .none := by
  have hjump : (if o.rsa ≠ 0 then RelocCode.fusion21 else code) ≠ .none :=
    iteInduction (motive := (· ≠ RelocCode.none)) (fun _ => by simp) fun _ => hcode
  unfold encodeOperands
  dsimp only
  repeat' refine iteInduction (motive := fun a : Assembled => a.reloc ≠ .none) (fun _ => ?_)
            fun _ => ?_
  all_goals first | exact hcode | exact hjump

theorem checkAbsoluteExpr_op {ex : ExpressionS}
    (h : ex.op = .constant ∨ ex = ⟨.absent, 0⟩) :
    (checkAbsoluteExpr e ex).1.op = .constant ∨ (checkAbsoluteExpr e ex).1 = ⟨.absent, 0⟩ := by
  rcases h with h | rfl
  · left
    simp only [checkAbsoluteExpr, normalizeConstantExpr, h]
    split_ifs
    · rfl
    · exact h
  · exact .inr rfl

theorem encodeOperands_expr {o : Operands} {code : RelocCode}
    (h : o.expr.op = .constant ∨ o.expr = ⟨.absent, 0⟩) :
    (encodeOperands e o code).expr.op = .constant ∨
      (encodeOperands e o code).expr = ⟨.absent, 0⟩ := by
  unfold encodeOperands
  dsimp only
  repeat' refine iteInduction (motive := fun a : Assembled =>
            a.expr.op = .constant ∨ a.expr = ⟨.absent, 0⟩) (fun _ => ?_) fun _ => ?_
  all_goals first | exact h | exact checkAbsoluteExpr_op (e := e) h

theorem parseRegs_expr {args : UseOp} : (parseRegs args txt).expr = ⟨.absent, 0⟩ := by
  cases args <;> rfl

theorem parseImm_expr {code : RelocCode} {o o' : Operands}
    (h : parseImm txt code o = some o') : o'.expr = txt.expr := by
  cases code <;> cases h <;> rfl

theorem parseWithImm_expr {code : RelocCode} {o : Operands}
    (h : parseWithImm e txt code = some o) : o.expr = txt.expr ∨ o.expr = ⟨.absent, 0⟩ := by
  unfold parseWithImm at h
  split at h
  all_goals first
    | exact .inl (parseImm_expr h)
    | cases h; exact .inr rfl

/-- With a constant operand the fixup has no symbol. -/
theorem assembleInsnBin_const (hconst : txt.expr.op = .constant)
    (has : assembleInsnBin e txt = some as) :
    as.reloc ≠ .none ∧ (as.expr.op = .constant ∨ as.expr = ⟨.absent, 0⟩) := by
  obtain ⟨code, hcode, has⟩ := Option.bind_eq_some_iff.1 has
  have hnone := returnReloc_ne_none hcode
  split at has
  · dsimp only at has
    split at has
    · cases has
    cases has
    exact ⟨encodeOperands_reloc hnone, encodeOperands_expr (.inr parseRegs_expr)⟩
  · obtain ⟨o, ho, has⟩ := Option.bind_eq_some_iff.1 has
    cases has
    refine ⟨encodeOperands_reloc hnone, encodeOperands_expr ?_⟩
    rcases parseWithImm_expr ho with h | h
    · exact .inl (h ▸ hconst)
    · exact .inr h

/-- The word of an instruction with a constant operand, after its fixup. -/
def completedWord (e : FusionOpcInfo) (regs : List InsnT) (c : Vma) : Option InsnT :=
  (assembleInsnBin e ⟨regs, ⟨.constant, c⟩⟩).map fun as =>
    constPart as.reloc as.expr.addNumber ||| as.word

theorem completeInsn_const :
    (completeInsn seg frag pos e ⟨regs, ⟨.constant, c⟩⟩ buf).map (wordAt · pos) =
      completedWord e regs c := by
  cases has : assembleInsnBin e ⟨regs, ⟨.constant, c⟩⟩ with
  | none => simp [completeInsn, completedWord, has]
  | some as =>
    obtain ⟨hnone, hexpr⟩ := assembleInsnBin_const rfl has
    obtain ⟨buf', hbuf, hword⟩ := completeInsn_word seg frag pos buf has hnone hexpr
    rw [hbuf, completedWord, has, Option.map_some, Option.map_some, hword]

/-! The completed words: the constant is or-ed onto a field that already holds it. -/

/-- The value that an immediate instruction hands to its fixup has the same low bits. -/
theorem normalizeConstantExpr_low (c : Vma) :
    (normalizeConstantExpr ⟨.constant, c⟩).addNumber.toNat % 2 ^ 12 = c.toNat % 2 ^ 12 := by
  simp only [normalizeConstantExpr]
  split
  · have hand : (c &&& 0xffffffff#64).toNat = c.toNat % 2 ^ 32 := by
      have h := toNat_and_field (x := c) (m := 0xffffffff#64) 0 32 (by decide)
      simpa using h
    have hxor : ((c &&& 0xffffffff#64) ^^^ 0x80000000#64).toNat % 2 ^ 12 = c.toNat % 2 ^ 12 := by
      rw [BitVec.toNat_xor, hand, Nat.xor_mod_two_pow]
      simp
    rw [BitVec.toNat_sub, BitVec.toNat_ofNat]
    omega
  · rfl

theorem genIImm_congr {v : Vma} {imm : InsnT} (h : v.toNat % 2 ^ 12 = imm.toNat % 2 ^ 12) :
    (genIImm v).setWidth 32 = genIImm imm := by
  apply BitVec.eq_of_toNat_eq
  rw [BitVec.toNat_setWidth, genIImm, genIImm, toNat_and_field 4 12 (by decide),
    toNat_and_field 4 12 (by decide), BitVec.toNat_shiftLeft, BitVec.toNat_shiftLeft,
    Nat.shiftLeft_eq, Nat.shiftLeft_eq]
  omega

theorem genSImm_setWidth (v : Vma) : (genSImm v).setWidth 32 = genSImm (v.setWidth 32) := by
  simp [genSImm, getSplitSImmHi, getSplitSImmLo, splitSImmHi, splitSImmLo, maskImmS, shftImmHiS,
    BitVec.setWidth_and, BitVec.setWidth_or, BitVec.setWidth_shiftLeft_of_le]

theorem genJImm_setWidth (v : Vma) : (genJImm v).setWidth 32 = genJImm (v.setWidth 32) := by
  simp [genJImm, getSplitJImmHi, getSplitJImmLo, splitJImmHi, splitJImmLo, maskImmJ, shftImmHiJ,
    BitVec.setWidth_and, BitVec.setWidth_or, BitVec.setWidth_shiftLeft_of_le]

theorem completedWord_imm {code : RelocCode} {o : Operands} (hreloc : returnReloc e = some code)
    (hmask : e.immMask ≠ maskNoImm)
    (hparse : parseWithImm e ⟨regs, ⟨.constant, c⟩⟩ code = some o) :
    completedWord e regs c = some (constPart (encodeOperands e o code).reloc
      (encodeOperands e o code).expr.addNumber ||| (encodeOperands e o code).word) := by
  simp [completedWord, assembleInsnBin, hreloc, hmask, hparse]

theorem completedWord_i (hopc : e.opc = opcImm) (hmask : e.immMask ≠ maskNoImm)
    (hparse : parseWithImm e ⟨regs, ⟨.constant, c⟩⟩ .fusion12 =
      some ⟨a, b, d, c.setWidth 32, ⟨.constant, c⟩⟩) :
    completedWord e regs c = some (makeIType a b (c.setWidth 32) e.index) := by
  have hreloc : returnReloc e = some .fusion12 := by simp +decide [returnReloc, hopc]
  have henc : encodeOperands e ⟨a, b, d, c.setWidth 32, ⟨.constant, c⟩⟩ .fusion12 =
      ⟨makeIType a b (c.setWidth 32) e.index, normalizeConstantExpr ⟨.constant, c⟩,
        .fusion12, []⟩ := by
    simp +decide [encodeOperands, hopc, checkAbsoluteExpr]
  have hpart : constPart .fusion12 (normalizeConstantExpr ⟨.constant, c⟩).addNumber =
      genIImm (c.setWidth 32) :=
    genIImm_congr ((normalizeConstantExpr_low c).trans (low_setWidth c (by decide)).symm)
  rw [completedWord_imm hreloc hmask hparse, henc, hpart, makeIType]
  exact congrArg some (or_or_left (or_or_left (or_or_right BitVec.or_self)))

theorem completedWord_l (hopc : e.opc = opcLd) (hmask : e.immMask ≠ maskNoImm)
    (hparse : parseWithImm e ⟨regs, ⟨.constant, c⟩⟩ .fusionLoad =
      some ⟨a, b, d, c.setWidth 32, ⟨.constant, c⟩⟩) :
    completedWord e regs c = some (makeLType a b e.index (c.setWidth 32)) := by
  have hreloc : returnReloc e = some .fusionLoad := by simp +decide [returnReloc, hopc]
  have henc : encodeOperands e ⟨a, b, d, c.setWidth 32, ⟨.constant, c⟩⟩ .fusionLoad =
      ⟨makeLType a b e.index (c.setWidth 32), ⟨.constant, c⟩, .fusionLoad, []⟩ := by
    simp +decide [encodeOperands, hopc]
  have hpart : constPart .fusionLoad c = c.setWidth 32 &&& 0x3fff#32 := by
    simp [constPart, fusionApplyConstReloc, genLImm, getImmL, maskImmL, BitVec.setWidth_and,
      BitVec.and_comm]
  rw [completedWord_imm hreloc hmask hparse, henc, hpart, makeLType]
  exact congrArg some (or_or_left (or_or_right BitVec.or_self))

theorem completedWord_s (hopc : e.opc = opcSt) (hmask : e.immMask ≠ maskNoImm)
    (hparse : parseWithImm e ⟨regs, ⟨.constant, c⟩⟩ .fusionStore =
      some ⟨d, a, b, c.setWidth 32, ⟨.constant, c⟩⟩) :
    completedWord e regs c = some (makeSType e.index a b (c.setWidth 32)) := by
  have hreloc : returnReloc e = some .fusionStore := by simp +decide [returnReloc, hopc]
  have henc : encodeOperands e ⟨d, a, b, c.setWidth 32, ⟨.constant, c⟩⟩ .fusionStore =
      ⟨makeSType e.index a b (c.setWidth 32), ⟨.constant, c⟩, .fusionStore, []⟩ := by
    simp +decide [encodeOperands, hopc]
  have hpart : constPart .fusionStore c = genSImm (c.setWidth 32) := genSImm_setWidth c
  rw [completedWord_imm hreloc hmask hparse, henc, hpart, makeSType]
  exact congrArg some (or_or_left (or_or_left (or_or_left (or_or_right BitVec.or_self))))

theorem completedWord_b (hopc : e.opc = opcBranch) (hmask : e.immMask ≠ maskNoImm)
    (hparse : parseWithImm e ⟨regs, ⟨.constant, c⟩⟩ .fusion14Pcrel =
      some ⟨d, a, b, c.setWidth 32, ⟨.constant, c⟩⟩) :
    completedWord e regs c = some (makeBType a b (c.setWidth 32) e.index) := by
  have hreloc : returnReloc e = some .fusion14Pcrel := by simp +decide [returnReloc, hopc]
  have henc : encodeOperands e ⟨d, a, b, c.setWidth 32, ⟨.constant, c⟩⟩ .fusion14Pcrel =
      ⟨makeBType a b (c.setWidth 32) e.index, ⟨.constant, c⟩, .fusion14Pcrel, []⟩ := by
    simp +decide [encodeOperands, hopc]
  rw [completedWord_imm hreloc hmask hparse, henc]
  exact congrArg some BitVec.zero_or

/-- The word of a load immediate. The constant is or-ed on shifted when the code is for a high
part, whatever the field holds already. -/
theorem completedWord_li {code : RelocCode} (hopc : e.opc = opcLi)
    (hmask : e.immMask ≠ maskNoImm) (hreloc : returnReloc e = some code)
    (hparse : parseWithImm e ⟨regs, ⟨.constant, c⟩⟩ code =
      some ⟨a, b, d, c.setWidth 32, ⟨.constant, c⟩⟩) :
    completedWord e regs c =
      some (constPart code c ||| makeLiType a e.index (c.setWidth 32)) := by
  have henc : encodeOperands e ⟨a, b, d, c.setWidth 32, ⟨.constant, c⟩⟩ code =
      ⟨makeLiType a e.index (c.setWidth 32), ⟨.constant, c⟩, code, []⟩ := by
    simp +decide [encodeOperands, hopc]
  rw [completedWord_imm hreloc hmask hparse, henc]

theorem constPart_r16_or :
    constPart .r16 c ||| makeLiType a w (c.setWidth 32) = makeLiType a w (c.setWidth 32) := by
  have hpart : constPart .r16 c = c.setWidth 32 &&& 0xffff#32 := by
    simp [constPart, fusionApplyConstReloc, getImmLi, maskImmLi, BitVec.setWidth_and,
      BitVec.and_comm]
  rw [hpart, makeLiType]
  exact or_or_left (or_or_right BitVec.or_self)

theorem constPart_hi16_or : constPart .fusionHi16 c ||| makeLiType a w (c.setWidth 32) =
    makeLiType a w (c.setWidth 32 ||| (c >>> 16).setWidth 32) := by
  have hpart : constPart .fusionHi16 c = (c >>> 16).setWidth 32 &&& 0xffff#32 := by
    simp [constPart, fusionApplyConstReloc, getImmLi, maskImmLi, BitVec.setWidth_and,
      BitVec.and_comm]
  rw [hpart, makeLiType, makeLiType]
  ext i
  simp only [BitVec.getElem_or, BitVec.getElem_and]
  grind

/-- Both jump formats. -/
theorem completedWord_j {code : RelocCode} (hopc : e.opc = opcJmp ∨ e.opc = opcJlnk)
    (hmask : e.immMask ≠ maskNoImm) (hreloc : returnReloc e = some code)
    (hcode : code = .fusion21 ∨ code = .fusion21Pcrel) (ha : a.toNat < 32)
    (hparse : parseWithImm e ⟨regs, ⟨.constant, c⟩⟩ code =
      some ⟨d, a, b, c.setWidth 32, ⟨.constant, c⟩⟩) :
    ∃ w, completedWord e regs c = some w ∧ w.toNat = a.toNat * 2 ^ 16 +
      ((c.setWidth 32).toNat / 2 ^ 16 % 2 ^ 5 * 2 ^ 21 + (c.setWidth 32).toNat % 2 ^ 16) +
      e.opc.toNat * 2 ^ 26 := by
  have hword : completedWord e regs c = _ := completedWord_imm hreloc hmask hparse
  have hjump : (if a ≠ 0 then RelocCode.fusion21 else code) = .fusion21 ∨
      (if a ≠ 0 then RelocCode.fusion21 else code) = .fusion21Pcrel :=
    iteInduction (motive := fun x => x = RelocCode.fusion21 ∨ x = .fusion21Pcrel)
      (fun _ => .inl rfl) fun _ => hcode
  generalize hcode' : (if a ≠ 0 then RelocCode.fusion21 else code) = code' at hjump
  have hpart : constPart code' c = genJImm (c.setWidth 32) ∨ constPart code' c = 0#32 := by
    rcases hjump with rfl | rfl
    · exact .inl (genJImm_setWidth c)
    · exact .inr rfl
  rcases hopc with hopc | hopc
  · have henc : encodeOperands e ⟨d, a, b, c.setWidth 32, ⟨.constant, c⟩⟩ code =
        ⟨makeJType a (c.setWidth 32), ⟨.constant, c⟩, code', []⟩ := by
      simp +decide [encodeOperands, hopc, ← hcode']
    refine ⟨makeJType a (c.setWidth 32), ?_, by rw [hopc]; exact makeJType_toNat ha⟩
    rw [hword, henc, makeJType]
    rcases hpart with h | h <;> rw [h]
    · exact congrArg some (or_or_left (or_or_right BitVec.or_self))
    · exact congrArg some BitVec.zero_or
  · have henc : encodeOperands e ⟨d, a, b, c.setWidth 32, ⟨.constant, c⟩⟩ code =
        ⟨makeJlType a (c.setWidth 32), ⟨.constant, c⟩, code', []⟩ := by
      simp +decide [encodeOperands, hopc, ← hcode']
    refine ⟨makeJlType a (c.setWidth 32), ?_, by rw [hopc]; exact makeJlType_toNat ha⟩
    rw [hword, henc, makeJlType]
    rcases hpart with h | h <;> rw [h]
    · exact congrArg some (or_or_left (or_or_right BitVec.or_self))
    · exact congrArg some BitVec.zero_or

/-- A system instruction that takes an immediate. -/
theorem completedWord_sys {x : ExpressionS} (hopc : e.opc = opcSys)
    (hmask : e.immMask ≠ maskNoImm)
    (hparse : parseWithImm e ⟨regs, ⟨.constant, c⟩⟩ .r8 =
      some ⟨a, b, d, x.addNumber.setWidth 32, x⟩) :
    completedWord e regs c =
      some (makeSysType a b e.index (x.addNumber.setWidth 32)) := by
  have hreloc : returnReloc e = some .r8 := by simp +decide [returnReloc, hopc, hmask]
  have henc : encodeOperands e ⟨a, b, d, x.addNumber.setWidth 32, x⟩ .r8 =
      ⟨makeSysType a b e.index (x.addNumber.setWidth 32), x, .r8, []⟩ := by
    simp +decide [encodeOperands, hopc]
  have hpart : constPart .r8 x.addNumber = genSysImm (x.addNumber.setWidth 32) := by
    simp [constPart, fusionApplyConstReloc, genSysImm, maskImmSys, BitVec.setWidth_and]
  rw [completedWord_imm hreloc hmask hparse, henc, hpart, makeSysType]
  exact congrArg some (or_or_left (or_or_right BitVec.or_self))

/-- Instructions without an immediate have no fixup. -/
theorem completedWord_regs {o : Operands} (hreloc : returnReloc e = some .unused)
    (hmask : e.immMask = maskNoImm) (ho : parseRegs e.args ⟨regs, ⟨.constant, c⟩⟩ = o)
    (hrd : o.rd.toNat < 32) (hrsa : o.rsa.toNat < 32) (hrsb : o.rsb.toNat < 32)
    (henc : (encodeOperands e o .unused).reloc = .unused) :
    completedWord e regs c = some (encodeOperands e o .unused).word := by
  have hne {r : InsnT} (h : r.toNat < 32) : r ≠ -1 := by
    rintro rfl
    revert h
    decide
  have hregs : ¬ (o.rd = -1 ∨ o.rsa = -1 ∨ o.rsb = -1) := by
    simp only [hne hrd, hne hrsa, hne hrsb, or_self, not_false_eq_true]
  have hasm : assembleInsnBin e ⟨regs, ⟨.constant, c⟩⟩ = some (encodeOperands e o .unused) := by
    simp only [assembleInsnBin, hreloc, hmask, ho, Option.bind_eq_bind, Option.bind_some, if_true]
    exact if_neg hregs
  rw [completedWord, hasm, Option.map_some, henc]
  exact congrArg some BitVec.zero_or

end FusionBinutils.Gas
