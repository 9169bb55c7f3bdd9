import FusionBinutils.Gas.Constant

/-! What the disassembler prints for an instruction that was assembled with a constant. -/
namespace FusionBinutils.Gas

open Opcode Bfd BitField

set_option maxRecDepth 4000

variable {e : FusionOpcInfo} {regs : List InsnT} {c : Vma}

/-- The width of the immediate field of a table entry. -/
def immWidth (e : FusionOpcInfo) : Nat :=
  if e.immMask = maskNoImm then 0
  else if e.immMask = maskImmI then 12
  else if e.immMask = maskImmLi then 16
  else if e.immMask = maskImmJ then 21
  else if e.immMask = maskImmSys then 8
  else 14

/-- The number of registers an argument kind names. -/
def regCount : UseOp → Nat
  | .none | .i => 0
  | .rdi | .rai | .raiO => 1
  | .rdai | .rabi | .rda | .rab | .rabiO | .rdaiO => 2
  | .rdab => 3

/-- The immediate instructions whose operand `printI` takes for signed. -/
def signedImm (e : FusionOpcInfo) : Bool := e.index.toNat ∈ [0, 1, 8, 9, 10, 11, 12]

def immOp (e : FusionOpcInfo) (x : InsnT) : PrintOp :=
  if signedImm e then .dec (sext12b x) else .hex 3 x

/-- The two ways in which an immediate instruction prints its operand. -/
theorem printI_eq {r : FusionOpcInfo} (w : InsnT) (hr : r.index.toNat ≤ 12) :
    printI r w = .insn r.name (if r.index.toNat = 4 then [.gpr (getRd w), immOp r (getImmI w)]
      else [.gpr (getRd w), .gpr (getRsa w), immOp r (getImmI w)]) := by
  unfold printI immOp signedImm
  generalize r.index.toNat = k at hr
  interval_cases k <;> rfl

theorem printed_imm (hmem : e ∈ fusionInsnAll) (hopc : e.opc = opcImm)
    (hlen : regs.length = regCount e.args) (hregs : ∀ r ∈ regs, r.toNat < 32) :
    ∃ w x, completedWord e regs c = some w ∧ x.toNat = c.toNat % 2 ^ 12 ∧
      printWord w = some (.insn e.name (regs.map .gpr ++ [immOp e x])) := by
  have htable : ∀ e ∈ fusionInsnAll, e.opc = opcImm →
      (e.args = .rdai ∧ e.index.toNat ≠ 4 ∨ e.args = .rdi ∧ e.index.toNat = 4) ∧
        e.immMask ≠ maskNoImm ∧ e.index.toNat ≤ 12 ∧
        fusionInsnI[e.index.toNat]?.map (fun r => (r.name, r.index)) = some (e.name, e.index) := by
    decide
  obtain ⟨hkind, hmask, hidx, hrow⟩ := htable e hmem hopc
  obtain ⟨r, hr, hrow⟩ := Option.map_eq_some_iff.1 hrow
  obtain ⟨hrname, hrindex⟩ := Prod.mk.inj hrow
  have hop (x : InsnT) : immOp r x = immOp e x := by rw [immOp, immOp, signedImm, signedImm, hrindex]
  have hprint {a b : InsnT} (ha : a.toNat < 32) (hb : b.toNat < 32) :
      ∃ x : InsnT, x.toNat = c.toNat % 2 ^ 12 ∧
        printWord (makeIType a b (c.setWidth 32) e.index) = some (.insn e.name
          (if e.index.toNat = 4 then [.gpr a, immOp e x] else [.gpr a, .gpr b, immOp e x])) := by
    obtain ⟨hopc', hal, hrd, hrsa, himm⟩ := makeIType_fields ha hb
      (show e.index.toNat < 16 by omega) (c.setWidth 32)
    rw [low_setWidth c (by decide)] at himm
    refine ⟨_, himm, ?_⟩
    rw [printWord, hopc', hal, hr]
    change some (printI r _) = _
    rw [printI_eq _ (hrindex ▸ hidx), hrname, hrindex, hrd, hrsa, hop]
  rcases hkind with ⟨hargs, hne⟩ | ⟨hargs, h4⟩
  · rw [hargs, regCount, List.length_eq_two] at hlen
    obtain ⟨a, b, rfl⟩ := hlen
    obtain ⟨x, hx, hp⟩ := hprint (hregs a (by simp)) (hregs b (by simp))
    rw [if_neg hne] at hp
    exact ⟨_, x, completedWord_i (a := a) (b := b) (d := 0) hopc hmask
      (by rw [parseWithImm, hargs]; rfl), hx, hp⟩
  · rw [hargs, regCount, List.length_eq_one_iff] at hlen
    obtain ⟨a, rfl⟩ := hlen
    obtain ⟨x, hx, hp⟩ := hprint (hregs a (by simp)) (show (0 : InsnT).toNat < 32 by decide)
    rw [if_pos h4] at hp
    exact ⟨_, x, completedWord_i (a := a) (b := 0) (d := 0) hopc hmask
      (by rw [parseWithImm, hargs]; rfl), hx, hp⟩

theorem printed_ld (hmem : e ∈ fusionInsnAll) (hopc : e.opc = opcLd)
    (hlen : regs.length = regCount e.args) (hregs : ∀ r ∈ regs, r.toNat < 32) :
    ∃ w x a b, regs = [a, b] ∧ completedWord e regs c = some w ∧ x.toNat = c.toNat % 2 ^ 14 ∧
      printWord w = some (.insn e.name [.gpr a, .hex 3 x, .base b]) := by
  have htable : ∀ e ∈ fusionInsnAll, e.opc = opcLd → e.args = .rdaiO ∧
      e.immMask ≠ maskNoImm ∧ e.index.toNat < 4 ∧
      fusionInsnL[e.index.toNat]?.map FusionOpcInfo.name = some e.name := by decide
  obtain ⟨hargs, hmask, hidx, hrow⟩ := htable e hmem hopc
  obtain ⟨r, hr, hrname⟩ := Option.map_eq_some_iff.1 hrow
  rw [hargs, regCount, List.length_eq_two] at hlen
  obtain ⟨a, b, rfl⟩ := hlen
  obtain ⟨hop, hf, hrd, hrsa, himm⟩ := makeLType_fields
    (hregs a (by simp)) (hregs b (by simp)) hidx (c.setWidth 32)
  rw [low_setWidth c (by decide)] at himm
  refine ⟨_, _, a, b, rfl, completedWord_l (a := a) (b := b) (d := 0) hopc hmask
    (by rw [parseWithImm, hargs]; rfl), himm, ?_⟩
  rw [printWord, hop, hf, hrd, hrsa, hr, ← hrname]
  rfl

theorem printed_st (hmem : e ∈ fusionInsnAll) (hopc : e.opc = opcSt)
    (hlen : regs.length = regCount e.args) (hregs : ∀ r ∈ regs, r.toNat < 32) :
    ∃ w x b a, regs = [b, a] ∧ completedWord e regs c = some w ∧ x.toNat = c.toNat % 2 ^ 14 ∧
      printWord w = some (.insn e.name [.gpr b, .hex 3 x, .base a]) := by
  have htable : ∀ e ∈ fusionInsnAll, e.opc = opcSt → e.args = .rabiO ∧
      e.immMask ≠ maskNoImm ∧ e.index.toNat < 4 ∧
      fusionInsnS[e.index.toNat]?.map FusionOpcInfo.name = some e.name := by decide
  obtain ⟨hargs, hmask, hidx, hrow⟩ := htable e hmem hopc
  obtain ⟨r, hr, hrname⟩ := Option.map_eq_some_iff.1 hrow
  rw [hargs, regCount, List.length_eq_two] at hlen
  obtain ⟨b, a, rfl⟩ := hlen
  obtain ⟨hop, hf, hrsa, hrsb, himm⟩ := makeSType_fields
    (hregs a (by simp)) (hregs b (by simp)) hidx (c.setWidth 32)
  rw [low_setWidth c (by decide)] at himm
  refine ⟨_, _, b, a, rfl, completedWord_s (a := a) (b := b) (d := 0) hopc hmask
    (by rw [parseWithImm, hargs]; rfl), himm, ?_⟩
  rw [printWord, hop, hf, hrsa, hrsb, hr, ← hrname]
  rfl

theorem printed_branch (hmem : e ∈ fusionInsnAll) (hopc : e.opc = opcBranch)
    (hlen : regs.length = regCount e.args) (hregs : ∀ r ∈ regs, r.toNat < 32) :
    ∃ w x, completedWord e regs c = some w ∧ x.toNat = c.toNat % 2 ^ 14 ∧
      printWord w = some (.insn e.name (regs.map .gpr ++ [.dec (sext14b x)])) := by
  have htable : ∀ e ∈ fusionInsnAll, e.opc = opcBranch → e.args = .rabi ∧
      e.immMask ≠ maskNoImm ∧ e.index.toNat < 4 ∧
      fusionInsnB[e.index.toNat]?.map FusionOpcInfo.name = some e.name := by decide
  obtain ⟨hargs, hmask, hidx, hrow⟩ := htable e hmem hopc
  obtain ⟨r, hr, hrname⟩ := Option.map_eq_some_iff.1 hrow
  rw [hargs, regCount, List.length_eq_two] at hlen
  obtain ⟨a, b, rfl⟩ := hlen
  obtain ⟨hop, hf, hrsa, hrsb, himm⟩ := makeBType_fields
    (hregs a (by simp)) (hregs b (by simp)) hidx (c.setWidth 32)
  rw [low_setWidth c (by decide)] at himm
  refine ⟨_, _, completedWord_b (a := a) (b := b) (d := 0) hopc hmask
    (by rw [parseWithImm, hargs]; rfl), himm, ?_⟩
  rw [printWord, hop, hf, hrsa, hrsb, hr, ← hrname]
  rfl

/-- A jump through register 0 is printed as one without a register. -/
theorem printed_jump (hmem : e ∈ fusionInsnAll) (hmain : e.cpid = .main)
    (hopc : e.opc = opcJmp ∨ e.opc = opcJlnk) (hlen : regs.length = regCount e.args)
    (hregs : ∀ r ∈ regs, r.toNat < 32) :
    ∃ w x, completedWord e regs c = some w ∧ x.toNat = c.toNat % 2 ^ 21 ∧
      printWord w = some (if regs = [] ∨ regs = [0] then
          .insn (if e.opc = opcJlnk then "jal" else "j") [.dec (sext21b x)]
        else .insn e.name (.hex 6 x :: regs.map .base)) := by
  have htable : ∀ e ∈ fusionInsnAll, e.cpid = .main → e.opc = opcJmp ∨ e.opc = opcJlnk →
      e.immMask ≠ maskNoImm ∧ e.opc.toNat < 64 ∧
      (e.args = .i ∧ returnReloc e = some .fusion21Pcrel ∨
        e.args = .raiO ∧ returnReloc e = some .fusion21 ∧
          e.name = if e.opc = opcJlnk then "jrl" else "jr") := by decide
  obtain ⟨hmask, hopclt, hkind⟩ := htable e hmem hmain hopc
  -- the word of either format, and what the disassembler finds in it
  have hword (regs : List InsnT) {a : InsnT} {code : RelocCode} (ha : a.toNat < 32)
      (hreloc : returnReloc e = some code) (hcode : code = .fusion21 ∨ code = .fusion21Pcrel)
      (hparse : parseWithImm e ⟨regs, ⟨.constant, c⟩⟩ code =
        some ⟨0, a, 0, c.setWidth 32, ⟨.constant, c⟩⟩) :
      ∃ w, completedWord e regs c = some w ∧ getOpc w = e.opc ∧ getRsa w = a ∧
        (getImmJ w).toNat = c.toNat % 2 ^ 21 ∧ printWord w = some (printJ w) := by
    obtain ⟨w, hw, hval⟩ := completedWord_j hopc hmask hreloc hcode ha hparse
    obtain ⟨hop, hrsa, himm⟩ := jump_fields hopclt ha hval
    refine ⟨w, hw, hop, hrsa, by rw [himm, low_setWidth c (by decide)], ?_⟩
    rcases hopc with h | h <;> (rw [printWord, hop, h]; rfl)
  rcases hkind with ⟨hargs, hreloc⟩ | ⟨hargs, hreloc, hname⟩
  · rw [hargs, regCount, List.length_eq_zero_iff] at hlen
    subst hlen
    obtain ⟨w, hw, hop, hrsa, himm, hp⟩ := hword [] (a := 0) (by decide) hreloc (.inr rfl)
      (by rw [parseWithImm, hargs]; rfl)
    refine ⟨w, getImmJ w, hw, himm, ?_⟩
    rw [if_pos (show ([] : List InsnT) = [] ∨ _ from .inl rfl), hp, printJ, hrsa, hop]
    rcases hopc with h | h <;> (rw [h]; rfl)
  · rw [hargs, regCount, List.length_eq_one_iff] at hlen
    obtain ⟨a, rfl⟩ := hlen
    obtain ⟨w, hw, hop, hrsa, himm, hp⟩ := hword [a] (hregs a (by simp)) hreloc (.inl rfl)
      (by rw [parseWithImm, hargs, hmain]; rfl)
    refine ⟨w, getImmJ w, hw, himm, ?_⟩
    by_cases ha : a = 0
    · rw [if_pos (show [a] = [] ∨ [a] = [0] from .inr (by rw [ha])), hp, printJ, hrsa, hop, ha]
      rcases hopc with h | h <;> (rw [h]; rfl)
    · have hne : ¬ ([a] = [] ∨ [a] = [0]) := by simpa using ha
      rw [if_neg hne, hp, printJ, hrsa, if_neg ha, hop, hname]
      rcases hopc with h | h <;> (rw [h]; rfl)

/-- The system instructions that read an immediate. -/
theorem printed_sys (hmem : e ∈ fusionInsnAll) (hopc : e.opc = opcSys)
    (hargs : e.args = .rdai ∨ e.args = .i) (hlen : regs.length = regCount e.args)
    (hregs : ∀ r ∈ regs, r.toNat < 32) :
    ∃ w x, completedWord e regs c = some w ∧ x.toNat = c.toNat % 2 ^ 8 ∧
      printWord w = some (.insn e.name (regs.map .gpr ++ [.hex 2 x])) := by
  have htable : ∀ e ∈ fusionInsnAll, e.opc = opcSys → e.args = .rdai ∨ e.args = .i →
      e.immMask ≠ maskNoImm ∧ e.index.toNat < 256 ∧
      fusionInsnSYS[e.index.toNat]?.map (fun r => (r.name, r.args)) = some (e.name, e.args) := by
    decide
  obtain ⟨hmask, hidx, hrow⟩ := htable e hmem hopc hargs
  obtain ⟨r, hr, hrow⟩ := Option.map_eq_some_iff.1 hrow
  obtain ⟨hrname, hrargs⟩ := Prod.mk.inj hrow
  rcases hargs with hargs | hargs
  · rw [hargs, regCount, List.length_eq_two] at hlen
    obtain ⟨a, b, rfl⟩ := hlen
    obtain ⟨hop, hf, hrd, hrsa, himm⟩ := makeSysType_fields (hregs a (by simp))
      (hregs b (by simp)) hidx (c.setWidth 32)
    rw [low_setWidth c (by decide)] at himm
    have hparse : parseWithImm e ⟨[a, b], ⟨.constant, c⟩⟩ .r8 =
        some ⟨a, b, 0, c.setWidth 32, ⟨.constant, c⟩⟩ := by
      rw [parseWithImm, hargs]
      rfl
    have hw := completedWord_sys (x := ⟨.constant, c⟩) hopc hmask hparse
    refine ⟨_, _, hw, himm, ?_⟩
    rw [printWord, hop, hf, hr]
    change some (printSys r _) = _
    rw [printSys, hrargs, hargs, hrname, hrd, hrsa]
    rfl
  · rw [hargs, regCount, List.length_eq_zero_iff] at hlen
    subst hlen
    obtain ⟨hop, hf, -, -, himm⟩ := makeSysType_fields (show (0 : InsnT).toNat < 32 by decide)
      (show (0 : InsnT).toNat < 32 by decide) hidx (c.setWidth 32)
    rw [low_setWidth c (by decide)] at himm
    have hparse : parseWithImm e ⟨[], ⟨.constant, c⟩⟩ .r8 =
        some ⟨0, 0, 0, c.setWidth 32, ⟨.constant, c⟩⟩ := by
      rw [parseWithImm, hargs]
      rfl
    have hw := completedWord_sys (x := ⟨.constant, c⟩) hopc hmask hparse
    refine ⟨_, _, hw, himm, ?_⟩
    rw [printWord, hop, hf, hr]
    change some (printSys r _) = _
    rw [printSys, hrargs, hargs, hrname]
    rfl

/-- The field of a load immediate: the code for a high part leaves both halves there. -/
def liField (e : FusionOpcInfo) (c : Vma) : Nat :=
  if returnReloc e = some .fusionHi16 then c.toNat % 2 ^ 16 ||| c.toNat / 2 ^ 16 % 2 ^ 16
  else c.toNat % 2 ^ 16

theorem printed_li (hmem : e ∈ fusionInsnAll) (hmain : e.cpid = .main) (hopc : e.opc = opcLi)
    (hlen : regs.length = regCount e.args) (hregs : ∀ r ∈ regs, r.toNat < 32) :
    ∃ w x, completedWord e regs c = some w ∧ x.toNat = liField e c ∧
      printWord w = some (.insn e.name (regs.map .gpr ++ [.hex 4 x])) := by
  have htable : ∀ e ∈ fusionInsnAll, e.cpid = .main → e.opc = opcLi → e.args = .rdi ∧
      e.immMask ≠ maskNoImm ∧ e.index.toNat < 16 ∧
      (returnReloc e = some .r16 ∨ returnReloc e = some .fusionHi16) ∧
      fusionInsnLI[e.index.toNat]?.map FusionOpcInfo.name = some e.name := by decide
  obtain ⟨hargs, hmask, hidx, hreloc, hrow⟩ := htable e hmem hmain hopc
  obtain ⟨r, hr, hrname⟩ := Option.map_eq_some_iff.1 hrow
  rw [hargs, regCount, List.length_eq_one_iff] at hlen
  obtain ⟨a, rfl⟩ := hlen
  have hprint (imm : InsnT) : printWord (makeLiType a e.index imm) = some (.insn e.name
      [.gpr a, .hex 4 (getImmLi (makeLiType a e.index imm))]) ∧
      (getImmLi (makeLiType a e.index imm)).toNat = imm.toNat % 2 ^ 16 := by
    obtain ⟨hop, hd, hrd, himm⟩ := makeLiType_fields (hregs a (by simp)) hidx imm
    rw [printWord, hop, hd, hrd, hr, ← hrname]
    exact ⟨rfl, himm⟩
  rcases hreloc with hreloc | hreloc
  · have hw : completedWord e [a] c = _ := completedWord_li (a := a) (b := 0) (d := 0) hopc hmask hreloc
      (by rw [parseWithImm, hargs]; rfl)
    rw [constPart_r16_or] at hw
    obtain ⟨hp, himm⟩ := hprint (c.setWidth 32)
    refine ⟨_, _, hw, ?_, hp⟩
    rw [himm, low_setWidth c (by decide), liField, if_neg (by simp [hreloc])]
  · have hw : completedWord e [a] c = _ := completedWord_li (a := a) (b := 0) (d := 0) hopc hmask hreloc
      (by rw [parseWithImm, hargs]; rfl)
    rw [constPart_hi16_or] at hw
    obtain ⟨hp, himm⟩ := hprint (c.setWidth 32 ||| (c >>> 16).setWidth 32)
    refine ⟨_, _, hw, ?_, hp⟩
    rw [himm, BitVec.toNat_or, Nat.or_mod_two_pow, low_setWidth c (by decide),
      low_setWidth _ (by decide), BitVec.toNat_ushiftRight, Nat.shiftRight_eq_div_pow, liField,
      if_pos hreloc]

end FusionBinutils.Gas
