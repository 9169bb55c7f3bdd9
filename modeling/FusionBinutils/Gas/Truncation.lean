import FusionBinutils.Gas.Printed

/-! Constants that an immediate field cannot hold. -/
namespace FusionBinutils.Gas

open Opcode Bfd BitField

set_option maxRecDepth 4000

variable {e : FusionOpcInfo} {regs : List InsnT} {c : Vma} {seg : Segment} {frag : FragRef}
  {pos : Vma} {buf : Contents} {as : Assembled}

/-- The value that a printed operand shows. -/
def printedValue : PrintOp → Option Int
  | .dec v => some v.toInt
  | .hex _ v => some v.toNat
  | .gpr _ | .base _ | .spr _ => none

/-- The immediate in the line that the disassembler prints for a word. -/
def printedImm (w : InsnT) : Option Int :=
  match printWord w with
  | some (.insn _ ops) => ops.findSome? printedValue
  | _ => none

/-- The argument kinds with an immediate operand. -/
def takesImm : UseOp → Bool
  | .rdai | .rdi | .rabi | .rai | .i | .rabiO | .rdaiO | .raiO => true
  | .none | .rdab | .rda | .rab => false

/-- The immediate is printed as a signed number. -/
def printsSigned (e : FusionOpcInfo) (regs : List InsnT) : Bool :=
  if e.opc = opcImm then signedImm e
  else if e.opc = opcBranch then true
  else if e.opc = opcJmp ∨ e.opc = opcJlnk then regs = [] ∨ regs = [0]
  else false

/-- The range of a field, by its width and the way it is printed. -/
def InField (signed : Bool) (width : Nat) (x : Int) : Prop :=
  if signed then -(2 : Int) ^ (width - 1) ≤ x ∧ x < 2 ^ (width - 1) else 0 ≤ x ∧ x < 2 ^ width

/-- A constant for which no error is reported is printed back. -/
def KeptOrReported (seg : Segment) (frag : FragRef) (pos : Vma) (e : FusionOpcInfo)
    (regs : List InsnT) (c : Vma) (buf : Contents) : Prop :=
  ∀ buf', completeReports seg frag pos e ⟨regs, ⟨.constant, c⟩⟩ buf = some (buf', []) →
    printedImm (wordAt buf' pos) = some c.toInt

/-! What is reported. -/

theorem fits32_of_isZext32BitNum (h : isZext32BitNum c = true) : Fits32 c := by
  have hc := c.isLt
  have hhigh : (c &&& ~~~0xffffffff#64).toNat = c.toNat / 2 ^ 32 % 2 ^ 32 * 2 ^ 32 :=
    toNat_and_field 32 32 (by decide)
  have hmid : (c &&& ~~~0x7fffffff#64).toNat = c.toNat / 2 ^ 31 % 2 ^ 33 * 2 ^ 31 :=
    toNat_and_field 31 33 (by decide)
  simp only [isZext32BitNum, Bool.or_eq_true, beq_iff_eq] at h
  rw [Fits32, BitVec.toInt_eq_toNat_cond]
  rcases h with h | h
  · have hzero : c.toNat / 2 ^ 32 % 2 ^ 32 * 2 ^ 32 = 0 := by rw [← hhigh, h]; rfl
    split <;> omega
  · have htop : c.toNat / 2 ^ 31 % 2 ^ 33 * 2 ^ 31 = (2 ^ 33 - 2) * 2 ^ 31 := by
      rw [← hmid, h]
      decide
    split <;> omega

/-- Bringing a constant of 32 bits to its signed form keeps it inside 33 bits. -/
theorem fits32_normalize (c : Vma) :
    Fits32 (normalizeConstantExpr ⟨.constant, c⟩).addNumber ↔ Fits32 c := by
  by_cases hz : isZext32BitNum c = true
  · refine iff_of_true ?_ (fits32_of_isZext32BitNum hz)
    have hlow : (c &&& 0xffffffff#64).toNat = c.toNat / 2 ^ 0 % 2 ^ 32 * 2 ^ 0 :=
      toNat_and_field 0 32 (by decide)
    have hlt : ((c &&& 0xffffffff#64) ^^^ 0x80000000#64).toNat < 2 ^ 32 := by
      rw [BitVec.toNat_xor]
      exact Nat.xor_lt_two_pow (by omega) (by decide)
    simp only [normalizeConstantExpr, hz, if_true]
    generalize (c &&& 0xffffffff#64) ^^^ 0x80000000#64 = y at hlt
    rw [Fits32, BitVec.toInt_eq_toNat_cond, BitVec.toNat_sub,
      show (0x80000000#64).toNat = 2 ^ 31 by decide]
    split <;> omega
  · simp [normalizeConstantExpr, hz]

/-- The rows with an immediate are assembled with the constant in the expression, as it stands or
brought to its signed form, and without a message. -/
theorem assembleInsnBin_imm (hmem : e ∈ fusionInsnAll) (himm : takesImm e.args = true)
    (has : assembleInsnBin e ⟨regs, ⟨.constant, c⟩⟩ = some as) :
    as.msgs = [] ∧ as.reloc ≠ .unused ∧ (Fits32 as.expr.addNumber ↔ Fits32 c) := by
  have htable : ∀ e ∈ fusionInsnAll, takesImm e.args = true → e.immMask ≠ maskNoImm ∧
      returnReloc e ≠ some .unused ∧ (e.opc = opcImm ∨ e.opc = opcLd ∨ e.opc = opcSt ∨
        e.opc = opcLi ∨ e.opc = opcJmp ∨ e.opc = opcJlnk ∨ e.opc = opcBranch ∨
        e.opc = opcSys) := by decide
  obtain ⟨hmask, hunused, hopc⟩ := htable e hmem himm
  obtain ⟨code, hcode, has⟩ := Option.bind_eq_some_iff.1 has
  rw [if_neg hmask] at has
  obtain ⟨o, ho, has⟩ := Option.bind_eq_some_iff.1 has
  cases has
  have hexpr : o.expr = ⟨.constant, c⟩ := by
    rw [parseWithImm] at ho
    revert himm ho
    cases e.args <;> intro himm ho <;> first | exact parseImm_expr ho | cases himm
  have hne : code ≠ .unused := fun h => hunused (h ▸ hcode)
  have hjump : (if o.rsa ≠ 0 then RelocCode.fusion21 else code) ≠ .unused :=
    iteInduction (motive := (· ≠ RelocCode.unused)) (fun _ => by simp) fun _ => hne
  rcases hopc with h | hopc
  · have henc : encodeOperands e o code = ⟨makeIType o.rd o.rsa o.imm e.index,
        normalizeConstantExpr ⟨.constant, c⟩, code, []⟩ := by
      simp +decide [encodeOperands, h, checkAbsoluteExpr, hexpr]
    rw [henc]
    exact ⟨rfl, hne, fits32_normalize c⟩
  · obtain ⟨word, reloc, henc, hreloc⟩ : ∃ word reloc, encodeOperands e o code =
        ⟨word, ⟨.constant, c⟩, reloc, []⟩ ∧ reloc ≠ .unused := by
      rcases hopc with h | h | h | h | h | h | h
      · exact ⟨_, _, by simp +decide [encodeOperands, h, hexpr]; rfl, hne⟩
      · exact ⟨_, _, by simp +decide [encodeOperands, h, hexpr]; rfl, hne⟩
      · exact ⟨_, _, by simp +decide [encodeOperands, h, hexpr]; rfl, hne⟩
      · exact ⟨_, _, by simp +decide only [encodeOperands, h, hexpr, if_true, if_false]; rfl,
          hjump⟩
      · exact ⟨_, _, by simp +decide only [encodeOperands, h, hexpr, if_true, if_false]; rfl,
          hjump⟩
      · exact ⟨_, _, by simp +decide [encodeOperands, h, hexpr]; rfl, hne⟩
      · exact ⟨_, _, by simp +decide [encodeOperands, h, hexpr]; rfl, hne⟩
    rw [henc]
    exact ⟨rfl, hreloc, Iff.rfl⟩

/-- A constant is reported exactly when it does not fit in 33 bits. -/
theorem completeReports_imm (seg : Segment) (frag : FragRef) (pos : Vma) (buf : Contents)
    (hmem : e ∈ fusionInsnAll) (himm : takesImm e.args = true) {w : InsnT}
    (hw : completedWord e regs c = some w) :
    ∃ buf' msgs, completeReports seg frag pos e ⟨regs, ⟨.constant, c⟩⟩ buf = some (buf', msgs) ∧
      (msgs = [] ↔ Fits32 c) ∧ wordAt buf' pos = w := by
  obtain ⟨as, has, rfl⟩ := Option.map_eq_some_iff.1 hw
  obtain ⟨hnone, hexpr⟩ := assembleInsnBin_const rfl has
  obtain ⟨hmsgs, hunused, hfits⟩ := assembleInsnBin_imm hmem himm has
  obtain ⟨buf', msgs, hbuf, hnil, hword⟩ := completeReports_word seg frag pos buf has hnone hexpr
  refine ⟨buf', msgs, hbuf, ?_, hword⟩
  rw [hnil hunused, hfits]
  simp [hmsgs]

/-! What is printed. -/

/-- A word that is printed with a value of its field's range, the constant's own if it is in that
range. -/
def PrintsInField (e : FusionOpcInfo) (regs : List InsnT) (c : Vma) (signed : Bool) (width : Nat) :
    Prop :=
  ∃ w x, completedWord e regs c = some w ∧ printedImm w = some x ∧ InField signed width x ∧
    (InField signed width c.toInt → x = c.toInt)

theorem printsInField_unsigned {w x : InsnT} {width : Nat} (hw : completedWord e regs c = some w)
    (himm : printedImm w = some (x.toNat : Int)) (hlt : x.toNat < 2 ^ width)
    (hx : c.toNat < 2 ^ width → x.toNat = c.toNat) : PrintsInField e regs c false width := by
  refine ⟨w, _, hw, himm, ⟨Int.natCast_nonneg _, ?_⟩, fun hc => ?_⟩
  · exact_mod_cast hlt
  · have hnn : (c.toNat : Int) = c.toInt := by
      have hle := hc.1
      have hc' := c.isLt
      rw [BitVec.toInt_eq_toNat_cond] at hle ⊢
      split at hle <;> rename_i h
      · rw [if_pos h]
      · omega
    rw [← hnn, hx]
    have hlt' := hc.2
    rw [← hnn] at hlt'
    exact_mod_cast hlt'

theorem printsInField_mod {w x : InsnT} {width : Nat} (hw : completedWord e regs c = some w)
    (himm : printedImm w = some (x.toNat : Int)) (hx : x.toNat = c.toNat % 2 ^ width) :
    PrintsInField e regs c false width :=
  printsInField_unsigned hw himm (hx ▸ Nat.mod_lt _ (Nat.two_pow_pos _))
    fun h => hx.trans (Nat.mod_eq_of_lt h)

/-- A field of `k + 1` bits, printed less the weight of its sign. -/
theorem printsInField_signed {w x : InsnT} (k : Nat) (hk : k = 11 ∨ k = 13 ∨ k = 20)
    (hw : completedWord e regs c = some w)
    (himm : printedImm w = some ((x.toNat % 2 ^ (k + 1) : Nat) -
      (x.toNat / 2 ^ k % 2 * 2 ^ (k + 1) : Nat) : Int))
    (hx : x.toNat = c.toNat % 2 ^ (k + 1)) : PrintsInField e regs c true (k + 1) := by
  have hc := c.isLt
  refine ⟨w, _, hw, himm, ?_, fun hin => ?_⟩
  · simp only [InField, if_true, Nat.add_sub_cancel, hx]
    rcases hk with rfl | rfl | rfl <;> omega
  · simp only [InField, if_true, Nat.add_sub_cancel, BitVec.toInt_eq_toNat_cond] at hin
    rw [hx, BitVec.toInt_eq_toNat_cond]
    rcases hk with rfl | rfl | rfl <;> split at hin <;> rename_i h <;>
      simp only [h, if_true, if_false] <;> omega

theorem findSome?_gprs (regs : List InsnT) (op : PrintOp) :
    (regs.map PrintOp.gpr ++ [op]).findSome? printedValue = printedValue op := by
  induction regs with
  | nil => cases h : printedValue op <;> simp [h]
  | cons a regs ih => exact ih

theorem printedImm_eq {w : InsnT} {name : String} {ops : List PrintOp}
    (h : printWord w = some (.insn name ops)) : printedImm w = ops.findSome? printedValue := by
  rw [printedImm, h]

/-- The rows with an immediate, format by format. -/
theorem printsInField (hmem : e ∈ fusionInsnAll) (hmain : e.cpid = .main)
    (himm : takesImm e.args = true) (hlen : regs.length = regCount e.args)
    (hregs : ∀ r ∈ regs, r.toNat < 32) :
    PrintsInField e regs c (printsSigned e regs) (immWidth e) := by
  have hopcs : ∀ e ∈ fusionInsnAll, e.cpid = .main → takesImm e.args = true →
      e.opc = opcImm ∧ immWidth e = 12 ∨ e.opc = opcLd ∧ immWidth e = 14 ∨
      e.opc = opcSt ∧ immWidth e = 14 ∨ e.opc = opcLi ∧ immWidth e = 16 ∨
      (e.opc = opcJmp ∨ e.opc = opcJlnk) ∧ immWidth e = 21 ∨
      e.opc = opcBranch ∧ immWidth e = 14 ∨
      e.opc = opcSys ∧ immWidth e = 8 ∧ (e.args = .rdai ∨ e.args = .i) := by decide
  rcases hopcs e hmem hmain himm with ⟨h, hw⟩ | ⟨h, hw⟩ | ⟨h, hw⟩ | ⟨h, hw⟩ | ⟨h, hw⟩ | ⟨h, hw⟩ |
    ⟨h, hw, hargs⟩ <;> rw [hw]
  · obtain ⟨w, x, hword, hx, hp⟩ := printed_imm (c := c) hmem h hlen hregs
    have hval := (printedImm_eq hp).trans (findSome?_gprs regs (immOp e x))
    rw [printsSigned, if_pos h]
    unfold immOp at hval
    by_cases hs : signedImm e = true
    · rw [if_pos hs, printedValue, sext12b_toInt] at hval
      rw [hs]
      exact printsInField_signed 11 (.inl rfl) hword hval hx
    · rw [if_neg hs] at hval
      rw [Bool.not_eq_true] at hs
      rw [hs]
      exact printsInField_mod hword hval hx
  · obtain ⟨w, x, a, b, rfl, hword, hx, hp⟩ := printed_ld (c := c) hmem h hlen hregs
    have hs : printsSigned e [a, b] = false := by simp +decide [printsSigned, h]
    rw [hs]
    exact printsInField_mod hword (printedImm_eq hp) hx
  · obtain ⟨w, x, b, a, rfl, hword, hx, hp⟩ := printed_st (c := c) hmem h hlen hregs
    have hs : printsSigned e [b, a] = false := by simp +decide [printsSigned, h]
    rw [hs]
    exact printsInField_mod hword (printedImm_eq hp) hx
  · obtain ⟨w, x, hword, hx, hp⟩ := printed_li (c := c) hmem hmain h hlen hregs
    have hs : printsSigned e regs = false := by simp +decide [printsSigned, h]
    have hval := (printedImm_eq hp).trans (findSome?_gprs regs (.hex 4 x))
    rw [hs]
    refine printsInField_unsigned hword hval ?_ fun hlt => ?_
    · rw [hx, liField]
      split
      · exact Nat.or_lt_two_pow (Nat.mod_lt _ (by decide)) (Nat.mod_lt _ (by decide))
      · exact Nat.mod_lt _ (by decide)
    · -- without an upper half nothing is or-ed on
      rw [hx, liField, Nat.mod_eq_of_lt hlt, Nat.div_eq_of_lt hlt]
      split <;> simp
  · obtain ⟨w, x, hword, hx, hp⟩ := printed_jump (c := c) hmem hmain h hlen hregs
    have hs : printsSigned e regs = decide (regs = [] ∨ regs = [0]) := by
      rcases h with h | h <;> simp +decide [printsSigned, h]
    rw [hs]
    by_cases hr : regs = [] ∨ regs = [0]
    · rw [if_pos hr] at hp
      have hval := printedImm_eq hp
      rw [List.findSome?_cons, printedValue, sext21b_toInt] at hval
      rw [decide_eq_true hr]
      exact printsInField_signed 20 (.inr (.inr rfl)) hword hval hx
    · rw [if_neg hr] at hp
      rw [decide_eq_false hr]
      exact printsInField_mod hword (printedImm_eq hp) hx
  · obtain ⟨w, x, hword, hx, hp⟩ := printed_branch (c := c) hmem h hlen hregs
    have hs : printsSigned e regs = true := by simp +decide [printsSigned, h]
    have hval := (printedImm_eq hp).trans (findSome?_gprs regs (.dec (sext14b x)))
    rw [printedValue, sext14b_toInt] at hval
    rw [hs]
    exact printsInField_signed 13 (.inr (.inl rfl)) hword hval hx
  · obtain ⟨w, x, hword, hx, hp⟩ := printed_sys (c := c) hmem h hargs hlen hregs
    have hs : printsSigned e regs = false := by simp +decide [printsSigned, h]
    rw [hs]
    exact printsInField_mod hword ((printedImm_eq hp).trans (findSome?_gprs regs (.hex 2 x))) hx

/-- A constant is kept or reported exactly when it is in the printed range of the field, or needs
more than 33 bits. -/
theorem immediate_kept_iff (hmem : e ∈ fusionInsnAll) (hmain : e.cpid = .main)
    (himm : takesImm e.args = true) (hlen : regs.length = regCount e.args)
    (hregs : ∀ r ∈ regs, r.toNat < 32) :
    KeptOrReported seg frag pos e regs c buf ↔
      InField (printsSigned e regs) (immWidth e) c.toInt ∨ ¬ Fits32 c := by
  obtain ⟨w, x, hw, hx, hin, hkept⟩ := printsInField (c := c) hmem hmain himm hlen hregs
  obtain ⟨buf', msgs, hbuf, hmsgs, hword⟩ := completeReports_imm seg frag pos buf hmem himm hw
  constructor
  · intro h
    by_cases hfits : Fits32 c
    · have hnil := hmsgs.2 hfits
      subst hnil
      have hc := h buf' hbuf
      rw [hword, hx] at hc
      exact .inl (Option.some.inj hc ▸ hin)
    · exact .inr hfits
  · intro h buf'' hbuf''
    cases hbuf.symm.trans hbuf''
    rcases h with h | h
    · rw [hword, hx, hkept h]
    · exact absurd (hmsgs.1 rfl) h

theorem immediate_kept_addi :
    KeptOrReported (.normal ".text" ⟨false, false, false⟩) ⟨0, 0⟩ 0
      ⟨"addi", 0x00, .rdai, .i, .main, maskImmI, opcImm⟩ [1, 2] (-5) (fun _ => 0) :=
  (immediate_kept_iff (by decide) rfl rfl rfl (by simp)).2
    (.inl (show -(2 : Int) ^ 11 ≤ _ ∧ _ < (2 : Int) ^ 11 by decide))

/-- `addi $1, $2, 4096` is assembled as an addition of 0. -/
theorem addi_truncated_silently :
    ¬ KeptOrReported (.normal ".text" ⟨false, false, false⟩) ⟨0, 0⟩ 0
      ⟨"addi", 0x00, .rdai, .i, .main, maskImmI, opcImm⟩ [1, 2] 4096 (fun _ => 0) := by
  have hw : completedWord ⟨"addi", 0x00, .rdai, .i, .main, maskImmI, opcImm⟩ [1, 2] 4096 =
      some 0x58220000#32 := by decide
  obtain ⟨buf', msgs, hbuf, hmsgs, hword⟩ := completeReports_imm
    (.normal ".text" ⟨false, false, false⟩) ⟨0, 0⟩ 0 (fun _ => 0) (by decide) rfl hw
  have hnil : msgs = [] := hmsgs.2 ⟨by decide, by decide⟩
  subst hnil
  intro h
  have hprinted := h buf' hbuf
  rw [hword] at hprinted
  revert hprinted
  decide

end FusionBinutils.Gas
