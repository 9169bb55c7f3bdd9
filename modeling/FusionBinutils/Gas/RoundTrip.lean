import FusionBinutils.Gas.Printed

/-! Assembling an instruction with a constant operand and disassembling the word. -/
namespace FusionBinutils.Gas

open Opcode Bfd BitField

set_option maxRecDepth 4000

variable {e : FusionOpcInfo} {regs : List InsnT} {c : Vma} {seg : Segment} {frag : FragRef}
  {pos addr : Vma} {buf : Contents} {w a b d : InsnT}

/-- An operand as written or printed: a register by number, an immediate up to its width. -/
inductive TextOp where
  | reg (n : InsnT)
  | imm (v : Nat)
  deriving DecidableEq, Repr

/-- The operands of an instruction in the order of the text. -/
def textOps (args : UseOp) (regs : List InsnT) (v : Nat) : List TextOp :=
  match args with
  | .none | .rdab | .rda | .rab => regs.map .reg
  | .rdai | .rdi | .rabi | .rai | .i => regs.map .reg ++ [.imm v]
  -- an offset stands before the register in parentheses
  | .rabiO | .rdaiO | .raiO => regs.dropLast.map .reg ++ .imm v :: regs.getLast?.toList.map .reg

def toText (width : Nat) : PrintOp → TextOp
  | .gpr n | .base n | .spr n => .reg n
  | .dec v | .hex _ v => .imm (v.toNat % 2 ^ width)

/-- The constant fits the field, read as signed or as unsigned. -/
def FitsImm (width : Nat) (c : Vma) : Prop :=
  width ≠ 0 → -(2 : Int) ^ (width - 1) ≤ c.toInt ∧ c.toInt < (2 : Int) ^ width

/-- The word is printed as the entry's mnemonic with the given operands. -/
def PrintsAs (e : FusionOpcInfo) (regs : List InsnT) (c : Vma) (w : InsnT) : Prop :=
  ∃ ops, printWord w = some (.insn e.name ops) ∧
    ops.map (toText (immWidth e)) = textOps e.args regs (c.toNat % 2 ^ immWidth e)

/-- Assembling the instruction and disassembling it at `addr` gives it back. -/
def RoundTrips (seg : Segment) (frag : FragRef) (pos : Vma) (buf : Contents) (addr : Vma)
    (e : FusionOpcInfo) (regs : List InsnT) (c : Vma) : Prop :=
  ∃ buf' ops, completeInsn seg frag pos e ⟨regs, ⟨.constant, c⟩⟩ buf = some buf' ∧
    printInsnFusion addr (.ok fun p => buf' (pos + p)) = .ok (some (.insn e.name ops)) ∧
    ops.map (toText (immWidth e)) = textOps e.args regs (c.toNat % 2 ^ immWidth e)

/-- Rows for which every choice of operands comes back. -/
def Ordinary (e : FusionOpcInfo) : Prop :=
  e.name ≠ "nri" ∧ e.args ≠ .rda ∧ e.args ≠ .raiO ∧ returnReloc e ≠ some .fusionHi16

instance : Decidable (Ordinary e) := inferInstanceAs (Decidable (_ ∧ _))

/-- When an instruction comes back. Three registers are printed for a `nri`, the assembler has no
operand case for `stspr` and `ldspr`, register 0 of a jump is printed as no register, and the
upper half of the constant is or-ed onto a high part. -/
def Recoverable (e : FusionOpcInfo) (regs : List InsnT) (c : Vma) : Prop :=
  e.name ≠ "nri" ∧ (e.args = .rda → regs = [0, 0]) ∧ (e.args = .raiO → regs ≠ [0]) ∧
    (returnReloc e = some .fusionHi16 → ¬ (-32768 ≤ c.toInt ∧ c.toInt ≤ -2))

theorem wordAt_shift (buf : Contents) (pos : Vma) :
    wordAt (fun p => buf (pos + p)) 0 = wordAt buf pos := by
  simp [wordAt, bfdGetb32]

/-- The question is about the completed word only. -/
theorem roundTrips_iff (haddr : addr ≤ 0x2000000) :
    RoundTrips seg frag pos buf addr e regs c ↔
      ∃ w, completedWord e regs c = some w ∧ PrintsAs e regs c w := by
  have hprint (buf' : Contents) : printInsnFusion addr (.ok fun p => buf' (pos + p)) =
      .ok (printWord (wordAt buf' pos)) := by
    rw [← wordAt_shift]
    exact if_neg (BitVec.not_lt.2 haddr)
  have hword : (completeInsn seg frag pos e ⟨regs, ⟨.constant, c⟩⟩ buf).map (wordAt · pos) =
      completedWord e regs c := completeInsn_const
  constructor
  · rintro ⟨buf', ops, hbuf, hp, ht⟩
    rw [hbuf] at hword
    rw [hprint] at hp
    exact ⟨_, hword.symm, ops, Except.ok.inj hp, ht⟩
  · rintro ⟨w, hw, ops, hp, ht⟩
    obtain ⟨buf', hbuf, rfl⟩ := Option.map_eq_some_iff.1 (hword.trans hw)
    exact ⟨buf', ops, hbuf, by rw [hprint, hp], ht⟩

theorem Ordinary.recoverable (h : Ordinary e) : Recoverable e regs c :=
  ⟨h.1, fun h' => absurd h' h.2.1, fun h' => absurd h' h.2.2.1, fun h' => absurd h' h.2.2.2⟩

def Recovered (e : FusionOpcInfo) (regs : List InsnT) (c : Vma) : Prop :=
  ∃ w, completedWord e regs c = some w ∧ PrintsAs e regs c w

/-- The printed line decides. -/
theorem recovered_iff {name : String} {ops : List PrintOp} (hw : completedWord e regs c = some w)
    (hp : printWord w = some (.insn name ops)) :
    Recovered e regs c ↔ name = e.name ∧
      ops.map (toText (immWidth e)) = textOps e.args regs (c.toNat % 2 ^ immWidth e) := by
  constructor
  · rintro ⟨w', hw', ops', hp', ht⟩
    cases hw.symm.trans hw'
    cases hp.symm.trans hp'
    exact ⟨rfl, ht⟩
  · rintro ⟨rfl, ht⟩
    exact ⟨w, hw, ops, hp, ht⟩

theorem Ordinary.recovered (h : Ordinary e) {ops : List PrintOp}
    (hw : completedWord e regs c = some w) (hp : printWord w = some (.insn e.name ops))
    (ht : ops.map (toText (immWidth e)) = textOps e.args regs (c.toNat % 2 ^ immWidth e)) :
    Recovered e regs c ↔ Recoverable e regs c :=
  iff_of_true ((recovered_iff hw hp).2 ⟨rfl, ht⟩) h.recoverable

/-! The formats one by one. -/

theorem recovered_nop (hmem : e ∈ fusionInsnAll) (hopc : e.opc = 0)
    (hlen : regs.length = regCount e.args) : Recovered e regs c ↔ Recoverable e regs c := by
  have htable : ∀ e ∈ fusionInsnAll, e.opc = 0 → Ordinary e ∧ e.name = "nop" ∧ e.args = .none ∧
      e.immMask = maskNoImm ∧ returnReloc e = some .unused := by decide
  obtain ⟨hord, hname, hargs, hmask, hreloc⟩ := htable e hmem hopc
  have henc : encodeOperands e .init .unused = ⟨0, ⟨.absent, 0⟩, .unused, []⟩ := by
    simp +decide [encodeOperands, hopc, Operands.init]
  have hw : completedWord e regs c = _ := completedWord_regs (o := .init) hreloc hmask
      (by rw [hargs]; rfl) (by decide) (by decide) (by decide) (by rw [henc])
  have hp : printWord 0 = some (.insn e.name []) := by rw [hname]; decide
  rw [henc] at hw
  rw [hargs, regCount, List.length_eq_zero_iff] at hlen
  exact hord.recovered hw hp (by rw [hargs, hlen]; rfl)

theorem recovered_int (hmem : e ∈ fusionInsnAll) (hopc : e.opc = opcInt)
    (hlen : regs.length = regCount e.args) (hregs : ∀ r ∈ regs, r.toNat < 32) :
    Recovered e regs c ↔ Recoverable e regs c := by
  have htable : ∀ e ∈ fusionInsnAll, e.opc = opcInt →
      (Ordinary e ∧ e.args = .rdab ∨ e.name = "nri" ∧ e.args = .none) ∧
        e.immMask = maskNoImm ∧ e.index.toNat < 16 ∧ returnReloc e = some .unused ∧
        fusionInsnR[e.index.toNat]?.map FusionOpcInfo.name = some e.name := by decide
  obtain ⟨hkind, hmask, hidx, hreloc, hrow⟩ := htable e hmem hopc
  obtain ⟨r, hr, hrname⟩ := Option.map_eq_some_iff.1 hrow
  have henc (o : Operands) : encodeOperands e o .unused =
      ⟨makeRType o.rd o.rsa o.rsb 0 e.index, o.expr, .unused, []⟩ := by
    simp +decide [encodeOperands, hopc]
  have hprint {a b d : InsnT} (ha : a.toNat < 32) (hb : b.toNat < 32) (hd : d.toNat < 32) :
      printWord (makeRType a b d 0 e.index) = some (.insn e.name [.gpr a, .gpr b, .gpr d]) := by
    obtain ⟨hop, hal, hrd, hrsa, hrsb⟩ := makeRType_fields ha hb hd hidx
    rw [printWord, hop, hal, hrd, hrsa, hrsb, hr, ← hrname]
    rfl
  rcases hkind with ⟨hord, hargs⟩ | ⟨hname, hargs⟩
  · rw [hargs, regCount, List.length_eq_three] at hlen
    obtain ⟨a, b, d, rfl⟩ := hlen
    have ha := hregs a (by simp)
    have hb := hregs b (by simp)
    have hd := hregs d (by simp)
    have hw : completedWord e [a, b, d] c = _ := completedWord_regs
      (o := ⟨a, b, d, 0, ⟨.absent, 0⟩⟩) hreloc hmask (by rw [hargs]; rfl) ha hb hd (by rw [henc])
    rw [henc] at hw
    exact hord.recovered hw (hprint ha hb hd) (by rw [hargs]; rfl)
  · -- three registers are printed for an instruction that takes none
    have hw : completedWord e regs c = _ := completedWord_regs (o := .init) hreloc hmask
      (by rw [hargs]; rfl) (by decide) (by decide) (by decide) (by rw [henc])
    rw [henc] at hw
    rw [hargs, regCount, List.length_eq_zero_iff] at hlen
    refine iff_of_false ?_ fun h => h.1 hname
    rw [recovered_iff hw (hprint (by decide) (by decide) (by decide)), hargs, hlen]
    simp [textOps]

theorem toText_gprs (n : Nat) (regs : List InsnT) :
    (regs.map PrintOp.gpr).map (toText n) = regs.map .reg := by
  induction regs with
  | nil => rfl
  | cons a regs ih => rw [List.map_cons, List.map_cons, ih]; rfl

theorem toText_immOp (x : InsnT) : toText 12 (immOp e x) = .imm (x.toNat % 2 ^ 12) := by
  unfold immOp
  split
  · exact congrArg TextOp.imm (sext12b_low x)
  · rfl

theorem recovered_imm (hmem : e ∈ fusionInsnAll) (hopc : e.opc = opcImm)
    (hlen : regs.length = regCount e.args) (hregs : ∀ r ∈ regs, r.toNat < 32) :
    Recovered e regs c ↔ Recoverable e regs c := by
  have htable : ∀ e ∈ fusionInsnAll, e.opc = opcImm → (e.args = .rdai ∨ e.args = .rdi) ∧
      Ordinary e ∧ immWidth e = 12 := by decide
  obtain ⟨hargs, hord, hwidth⟩ := htable e hmem hopc
  obtain ⟨w, x, hw, hx, hp⟩ := printed_imm (c := c) hmem hopc hlen hregs
  refine hord.recovered hw hp ?_
  rw [hwidth, List.map_append, toText_gprs, List.map_cons, List.map_nil, toText_immOp, hx,
    Nat.mod_mod]
  rcases hargs with h | h <;> (rw [h]; rfl)

theorem recovered_ld (hmem : e ∈ fusionInsnAll) (hopc : e.opc = opcLd)
    (hlen : regs.length = regCount e.args) (hregs : ∀ r ∈ regs, r.toNat < 32) :
    Recovered e regs c ↔ Recoverable e regs c := by
  have htable : ∀ e ∈ fusionInsnAll, e.opc = opcLd → Ordinary e ∧ e.args = .rdaiO ∧
      immWidth e = 14 := by decide
  obtain ⟨hord, hargs, hwidth⟩ := htable e hmem hopc
  obtain ⟨w, x, a, b, rfl, hw, hx, hp⟩ := printed_ld (c := c) hmem hopc hlen hregs
  refine hord.recovered hw hp ?_
  rw [hargs, hwidth]
  simp only [List.map_cons, List.map_nil, toText, hx, Nat.mod_mod]
  rfl

theorem recovered_st (hmem : e ∈ fusionInsnAll) (hopc : e.opc = opcSt)
    (hlen : regs.length = regCount e.args) (hregs : ∀ r ∈ regs, r.toNat < 32) :
    Recovered e regs c ↔ Recoverable e regs c := by
  have htable : ∀ e ∈ fusionInsnAll, e.opc = opcSt → Ordinary e ∧ e.args = .rabiO ∧
      immWidth e = 14 := by decide
  obtain ⟨hord, hargs, hwidth⟩ := htable e hmem hopc
  obtain ⟨w, x, b, a, rfl, hw, hx, hp⟩ := printed_st (c := c) hmem hopc hlen hregs
  refine hord.recovered hw hp ?_
  rw [hargs, hwidth]
  simp only [List.map_cons, List.map_nil, toText, hx, Nat.mod_mod]
  rfl

theorem recovered_branch (hmem : e ∈ fusionInsnAll) (hopc : e.opc = opcBranch)
    (hlen : regs.length = regCount e.args) (hregs : ∀ r ∈ regs, r.toNat < 32) :
    Recovered e regs c ↔ Recoverable e regs c := by
  have htable : ∀ e ∈ fusionInsnAll, e.opc = opcBranch → Ordinary e ∧ e.args = .rabi ∧
      immWidth e = 14 := by decide
  obtain ⟨hord, hargs, hwidth⟩ := htable e hmem hopc
  obtain ⟨w, x, hw, hx, hp⟩ := printed_branch (c := c) hmem hopc hlen hregs
  refine hord.recovered hw hp ?_
  rw [hargs, hwidth, List.map_append, toText_gprs]
  simp only [List.map_cons, List.map_nil, toText, sext14b_low, hx, Nat.mod_mod]
  rfl

/-- A jump is recovered unless it names register 0, which is printed as no register. -/
theorem recovered_jump (hmem : e ∈ fusionInsnAll) (hmain : e.cpid = .main)
    (hopc : e.opc = opcJmp ∨ e.opc = opcJlnk) (hlen : regs.length = regCount e.args)
    (hregs : ∀ r ∈ regs, r.toNat < 32) : Recovered e regs c ↔ Recoverable e regs c := by
  have htable : ∀ e ∈ fusionInsnAll, e.cpid = .main → e.opc = opcJmp ∨ e.opc = opcJlnk →
      immWidth e = 21 ∧ e.name ≠ "nri" ∧
      (Ordinary e ∧ e.args = .i ∧ e.name = (if e.opc = opcJlnk then "jal" else "j") ∨
        e.args = .raiO ∧ returnReloc e = some .fusion21 ∧
          e.name ≠ if e.opc = opcJlnk then "jal" else "j") := by decide
  obtain ⟨hwidth, hnri, hkind⟩ := htable e hmem hmain hopc
  obtain ⟨w, x, hw, hx, hp⟩ := printed_jump (c := c) hmem hmain hopc hlen hregs
  rcases hkind with ⟨hord, hargs, hname⟩ | ⟨hargs, hreloc, hname⟩
  · rw [hargs, regCount, List.length_eq_zero_iff] at hlen
    subst hlen
    rw [if_pos (.inl rfl), ← hname] at hp
    refine hord.recovered hw hp ?_
    rw [hargs, hwidth]
    simp only [List.map_cons, List.map_nil, toText, sext21b_low, hx, Nat.mod_mod]
    rfl
  · rw [hargs, regCount, List.length_eq_one_iff] at hlen
    obtain ⟨a, rfl⟩ := hlen
    have hok : Recoverable e [a] c ↔ a ≠ 0 := by
      simp [Recoverable, hnri, hargs, hreloc]
    rw [hok]
    by_cases ha : a = 0
    · rw [if_pos (.inr (by rw [ha]))] at hp
      refine iff_of_false ?_ (not_not.2 ha)
      rw [recovered_iff hw hp]
      exact fun h => hname h.1.symm
    · rw [if_neg (by simpa using ha)] at hp
      refine iff_of_true ((recovered_iff hw hp).2 ⟨rfl, ?_⟩) ha
      rw [hargs, hwidth]
      simp only [List.map_cons, List.map_nil, toText, hx, Nat.mod_mod]
      rfl

theorem recovered_sys (hmem : e ∈ fusionInsnAll) (hopc : e.opc = opcSys)
    (hlen : regs.length = regCount e.args) (hregs : ∀ r ∈ regs, r.toNat < 32) :
    Recovered e regs c ↔ Recoverable e regs c := by
  have htable : ∀ e ∈ fusionInsnAll, e.opc = opcSys → e.index.toNat < 256 ∧ e.name ≠ "nri" ∧
      fusionInsnSYS[e.index.toNat]?.map (fun r => (r.name, r.args)) = some (e.name, e.args) ∧
      (e.args = .none ∧ e.immMask = maskNoImm ∧ returnReloc e = some .unused ∧ Ordinary e ∨
        (e.immMask ≠ maskNoImm ∧ immWidth e = 8 ∧
          (Ordinary e ∧ (e.args = .rdai ∨ e.args = .i) ∨
            e.args = .rda ∧ (e.index = 2 ∨ e.index = 3) ∧ returnReloc e = some .r8))) := by
    decide
  obtain ⟨hidx, hnri, hrow, hkind⟩ := htable e hmem hopc
  obtain ⟨r, hr, hrow⟩ := Option.map_eq_some_iff.1 hrow
  obtain ⟨hrname, hrargs⟩ := Prod.mk.inj hrow
  -- without registers of its own the word is printed with register 0 for both
  have hprint : getFunctSys (makeSysType 0 0 e.index 0) = e.index ∧
      getRd (makeSysType 0 0 e.index 0) = 0 ∧ getRsa (makeSysType 0 0 e.index 0) = 0 ∧
      printWord (makeSysType 0 0 e.index 0) = some (printSys r (makeSysType 0 0 e.index 0)) := by
    obtain ⟨hop, hf, hrd, hrsa, -⟩ := makeSysType_fields (show (0 : InsnT).toNat < 32 by decide)
      (show (0 : InsnT).toNat < 32 by decide) hidx 0
    refine ⟨hf, hrd, hrsa, ?_⟩
    rw [printWord, hop, hf, hr]
    rfl
  obtain ⟨hf, hrd, hrsa, hp⟩ := hprint
  rcases hkind with ⟨hargs, hmask, hreloc, hord⟩ | ⟨hmask, hwidth, hkind⟩
  · have henc : encodeOperands e .init .unused =
        ⟨makeSysType 0 0 e.index 0, ⟨.absent, 0⟩, .unused, []⟩ := by
      simp +decide [encodeOperands, hopc, Operands.init]
    have hw : completedWord e regs c = _ := completedWord_regs (o := .init) hreloc hmask
      (by rw [hargs]; rfl) (by decide) (by decide) (by decide) (by rw [henc])
    rw [henc] at hw
    rw [printSys, hrargs, hargs, hrname] at hp
    rw [hargs, regCount, List.length_eq_zero_iff] at hlen
    exact hord.recovered hw hp (by rw [hargs, hlen]; rfl)
  rcases hkind with ⟨hord, hargs⟩ | ⟨hargs, hindex, hreloc⟩
  · obtain ⟨w, x, hw, hx, hp⟩ := printed_sys (c := c) hmem hopc hargs hlen hregs
    refine hord.recovered hw hp ?_
    rw [hwidth, List.map_append, toText_gprs]
    simp only [List.map_cons, List.map_nil, toText, hx, Nat.mod_mod]
    rcases hargs with h | h <;> (rw [h]; rfl)
  · -- the operand switch has no case for these, so both registers are encoded as 0
    rw [hargs, regCount, List.length_eq_two] at hlen
    obtain ⟨a, b, rfl⟩ := hlen
    have hw : completedWord e [a, b] c = _ := completedWord_sys (a := 0) (b := 0) (d := 0)
      (x := ⟨.absent, 0⟩) hopc hmask (by rw [parseWithImm, hargs]; rfl)
    have hok : Recoverable e [a, b] c ↔ a = 0 ∧ b = 0 := by
      simp [Recoverable, hnri, hargs, hreloc]
    have htext : (∃ ops, printSys r (makeSysType 0 0 e.index 0) =
        .insn e.name ops ∧ ops.map (toText (immWidth e)) = [.reg 0, .reg 0]) := by
      rw [printSys, hrargs, hargs, hrname, hf, hrd, hrsa]
      rcases hindex with h | h <;> (rw [h]; exact ⟨_, rfl, rfl⟩)
    obtain ⟨ops, hops, htext⟩ := htext
    rw [hops] at hp
    rw [hok, recovered_iff hw hp, htext, hargs]
    simp only [textOps, List.map_cons, List.map_nil, List.cons.injEq, TextOp.reg.injEq, and_true,
      true_and, eq_comm (a := (0 : InsnT))]

/-- The constant of a high part is or-ed on shifted, which is seen where its upper half is not
empty: the negative ones. -/
theorem hi_or_low (hfits : FitsImm 16 c) :
    c.toNat % 2 ^ 16 ||| c.toNat / 2 ^ 16 % 2 ^ 16 = c.toNat % 2 ^ 16 ↔
      ¬ (-32768 ≤ c.toInt ∧ c.toInt ≤ -2) := by
  obtain ⟨hlo, hhi⟩ := hfits (by decide)
  have hlt := c.isLt
  rw [BitVec.toInt_eq_toNat_cond] at *
  split at hlo
  · have h0 : c.toNat / 2 ^ 16 % 2 ^ 16 = 0 := by omega
    rw [h0, Nat.or_zero]
    simp only [true_iff]
    omega
  · have h1 : c.toNat / 2 ^ 16 % 2 ^ 16 = 2 ^ 16 - 1 := by omega
    have hor : c.toNat % 2 ^ 16 ||| (2 ^ 16 - 1) = 2 ^ 16 - 1 := by
      have h := congrArg BitVec.toNat (BitVec.or_allOnes (x := c.setWidth 16))
      rwa [BitVec.toNat_or, BitVec.toNat_setWidth, BitVec.toNat_allOnes] at h
    rw [h1, hor]
    omega

theorem recovered_li (hmem : e ∈ fusionInsnAll) (hmain : e.cpid = .main) (hopc : e.opc = opcLi)
    (hlen : regs.length = regCount e.args) (hregs : ∀ r ∈ regs, r.toNat < 32)
    (hfits : FitsImm (immWidth e) c) : Recovered e regs c ↔ Recoverable e regs c := by
  have htable : ∀ e ∈ fusionInsnAll, e.cpid = .main → e.opc = opcLi → e.args = .rdi ∧
      immWidth e = 16 ∧ e.name ≠ "nri" := by decide
  obtain ⟨hargs, hwidth, hnri⟩ := htable e hmem hmain hopc
  obtain ⟨w, x, hw, hx, hp⟩ := printed_li (c := c) hmem hmain hopc hlen hregs
  rw [hwidth] at hfits
  have hmod : x.toNat % 2 ^ 16 = x.toNat := by
    rw [hx, liField]
    split
    · rw [Nat.or_mod_two_pow, Nat.mod_mod, Nat.mod_mod]
    · rw [Nat.mod_mod]
  have hok : Recoverable e regs c ↔ x.toNat = c.toNat % 2 ^ 16 := by
    rw [hx, liField]
    by_cases hreloc : returnReloc e = some .fusionHi16
    · rw [if_pos hreloc, hi_or_low hfits]
      simp [Recoverable, hnri, hargs, hreloc]
    · rw [if_neg hreloc]
      simp [Recoverable, hnri, hargs, hreloc]
  rw [hok, recovered_iff hw hp, hargs, hwidth, List.map_append, toText_gprs]
  simp only [textOps, List.map_cons, List.map_nil, toText, hmod, true_and,
    List.append_cancel_left_eq, List.cons.injEq, and_true, TextOp.imm.injEq]

/-- Disassembling undoes assembling exactly for the recoverable operands. -/
theorem roundTrips_iff_recoverable (hmem : e ∈ fusionInsnAll) (hmain : e.cpid = .main)
    (hlen : regs.length = regCount e.args) (hregs : ∀ r ∈ regs, r.toNat < 32)
    (hfits : FitsImm (immWidth e) c) (haddr : addr ≤ 0x2000000) :
    RoundTrips seg frag pos buf addr e regs c ↔ Recoverable e regs c := by
  have hopcs : ∀ e ∈ fusionInsnAll, e.opc = 0 ∨ e.opc = opcInt ∨ e.opc = opcImm ∨ e.opc = opcLd ∨
      e.opc = opcSt ∨ e.opc = opcLi ∨ (e.opc = opcJmp ∨ e.opc = opcJlnk) ∨ e.opc = opcBranch ∨
      e.opc = opcSys := by decide
  rw [roundTrips_iff haddr]
  change Recovered e regs c ↔ _
  rcases hopcs e hmem with h | h | h | h | h | h | h | h | h
  · exact recovered_nop hmem h hlen
  · exact recovered_int hmem h hlen hregs
  · exact recovered_imm hmem h hlen hregs
  · exact recovered_ld hmem h hlen hregs
  · exact recovered_st hmem h hlen hregs
  · exact recovered_li hmem hmain h hlen hregs hfits
  · exact recovered_jump hmem hmain h hlen hregs
  · exact recovered_branch hmem h hlen hregs
  · exact recovered_sys hmem h hlen hregs

theorem roundTrips_addi : RoundTrips (.normal ".text" ⟨false, false, false⟩) ⟨0, 0⟩ 0 (fun _ => 0) 0
    ⟨"addi", 0x00, .rdai, .i, .main, maskImmI, opcImm⟩ [1, 2] (-5) := by
  have hord : Ordinary ⟨"addi", 0x00, .rdai, .i, .main, maskImmI, opcImm⟩ := by decide
  exact (roundTrips_iff_recoverable (by decide) rfl rfl (by simp)
    (fun _ => by decide) (by decide)).2 hord.recoverable

/-- `stspr` with registers 1 and 2 comes back with register 0 twice. -/
theorem stspr_loses_registers :
    let e : FusionOpcInfo := ⟨"stspr", 0x02, .rda, .sys, .main, maskImmSys, opcSys⟩
    e ∈ fusionInsnAll ∧ e.cpid = .main ∧ [(1 : InsnT), 2].length = regCount e.args ∧
      FitsImm (immWidth e) 0 ∧
      ¬ RoundTrips (.normal ".text" ⟨false, false, false⟩) ⟨0, 0⟩ 0 (fun _ => 0) 0 e [1, 2] 0 := by
  refine ⟨by decide, rfl, rfl, fun _ => by decide, fun h => ?_⟩
  have hrec := (recovered_sys (by decide) rfl rfl (by simp)).1
    ((roundTrips_iff (by decide)).1 h)
  exact absurd (hrec.2.1 rfl) (by decide)

end FusionBinutils.Gas
