import FusionBinutils.Bfd.LineMachine

/-! The address-advancing opcodes of `decode_line_info` (bfd/dwarf2.c), each with the branch for one
operation an instruction and the branch for several. -/
namespace FusionBinutils.Bfd.LineMachine

variable {u : CompUnit} {lh : LineHead} {m m' : Machine} {p : Pc} {a : Vma}

/-- The registers `address` and `op_index`. -/
structure Pc where
  address : Vma
  opIndex : Nat
  deriving DecidableEq, Repr

/-- A special opcode; the quotients are of type `int`. -/
def specialPc (lh : LineHead) (adjOpcode : Nat) (p : Pc) : Pc :=
  if lh.maximumOpsPerInsn = 1 then
    { p with address :=
        p.address + BitVec.ofNat 64 (adjOpcode / lh.lineRange * lh.minimumInstructionLength) }
  else
    { address := p.address + BitVec.ofNat 64 ((p.opIndex + adjOpcode / lh.lineRange) /
        lh.maximumOpsPerInsn * lh.minimumInstructionLength)
      opIndex := (p.opIndex + adjOpcode / lh.lineRange) % lh.maximumOpsPerInsn }

/-- `DW_LNS_const_add_pc`. -/
def constAddPc (lh : LineHead) (p : Pc) : Pc :=
  if lh.maximumOpsPerInsn = 1 then
    { p with address := p.address +
        BitVec.ofNat 64 (lh.minimumInstructionLength * ((255 - lh.opcodeBase) / lh.lineRange)) }
  else
    let adjust : Vma := BitVec.ofNat 64 ((255 - lh.opcodeBase) / lh.lineRange)
    { address := p.address + BitVec.ofNat 64 lh.minimumInstructionLength *
        ((BitVec.ofNat 64 p.opIndex + adjust) / BitVec.ofNat 64 lh.maximumOpsPerInsn)
      opIndex :=
        ((BitVec.ofNat 64 p.opIndex + adjust) % BitVec.ofNat 64 lh.maximumOpsPerInsn).toNat }

/-- `DW_LNS_advance_pc`; the branch for several operations assigns the address. -/
def advancePcBy (lh : LineHead) (adjust : Vma) (p : Pc) : Pc :=
  if lh.maximumOpsPerInsn = 1 then
    { p with address := p.address + BitVec.ofNat 64 lh.minimumInstructionLength * adjust }
  else
    { address := (BitVec.ofNat 64 p.opIndex + adjust) / BitVec.ofNat 64 lh.maximumOpsPerInsn *
        BitVec.ofNat 64 lh.minimumInstructionLength
      opIndex :=
        ((BitVec.ofNat 64 p.opIndex + adjust) % BitVec.ofNat 64 lh.maximumOpsPerInsn).toNat }

/-- The fields that are stored as an `unsigned char`. -/
structure LineHead.Bytes (lh : LineHead) : Prop where
  minimumInstructionLength : lh.minimumInstructionLength < 2 ^ 8
  maximumOpsPerInsn : lh.maximumOpsPerInsn < 2 ^ 8
  lineRange : lh.lineRange < 2 ^ 8
  opcodeBase : lh.opcodeBase < 2 ^ 8

/-- What an advance by `a` operations is meant to do. -/
def advanced (lh : LineHead) (a : Vma) (p : Pc) : Pc where
  address := p.address + BitVec.ofNat 64 lh.minimumInstructionLength *
    ((BitVec.ofNat 64 p.opIndex + a) / BitVec.ofNat 64 lh.maximumOpsPerInsn)
  opIndex := ((BitVec.ofNat 64 p.opIndex + a) % BitVec.ofNat 64 lh.maximumOpsPerInsn).toNat

/-- The three opcodes advance as they are meant to. -/
structure AdvanceAlike (lh : LineHead) (p : Pc) (a : Vma) : Prop where
  advancePc : advancePcBy lh a p = advanced lh a p
  constAddPc : constAddPc lh p =
    advanced lh (BitVec.ofNat 64 ((255 - lh.opcodeBase) / lh.lineRange)) p
  special : ∀ adjOpcode, adjOpcode ≤ 255 - lh.opcodeBase →
    specialPc lh adjOpcode p = advanced lh (BitVec.ofNat 64 (adjOpcode / lh.lineRange)) p

/-! Small numbers as words. -/

theorem ofNat_udiv {x y : Nat} (hx : x < 2 ^ 64) (hy : y < 2 ^ 64) :
    BitVec.ofNat 64 x / BitVec.ofNat 64 y = BitVec.ofNat 64 (x / y) := by
  have hq : x / y < 2 ^ 64 := lt_of_le_of_lt (Nat.div_le_self x y) hx
  apply BitVec.eq_of_toNat_eq
  rw [BitVec.toNat_udiv, BitVec.toNat_ofNat, BitVec.toNat_ofNat, BitVec.toNat_ofNat,
    Nat.mod_eq_of_lt hx, Nat.mod_eq_of_lt hy, Nat.mod_eq_of_lt hq]

theorem toNat_ofNat_umod {x y : Nat} (hx : x < 2 ^ 64) (hy : y < 2 ^ 64) :
    (BitVec.ofNat 64 x % BitVec.ofNat 64 y).toNat = x % y := by
  rw [BitVec.toNat_umod, BitVec.toNat_ofNat, BitVec.toNat_ofNat, Nat.mod_eq_of_lt hx,
    Nat.mod_eq_of_lt hy]

/-- One operation an instruction: the index stays at zero. -/
theorem advanced_one (hmax : lh.maximumOpsPerInsn = 1) (hop : p.opIndex < lh.maximumOpsPerInsn) :
    advanced lh a p =
      { p with address := p.address + BitVec.ofNat 64 lh.minimumInstructionLength * a } := by
  have hzero : p.opIndex = 0 := by omega
  have hdiv : a / BitVec.ofNat 64 1 = a := by
    apply BitVec.eq_of_toNat_eq
    simp
  have hmod : (a % BitVec.ofNat 64 1).toNat = 0 := by
    simp
  rw [advanced, hmax, hzero, BitVec.zero_add, hdiv, hmod]

/-! The three opcodes. -/

theorem advancePcBy_one (hmax : lh.maximumOpsPerInsn = 1)
    (hop : p.opIndex < lh.maximumOpsPerInsn) : advancePcBy lh a p = advanced lh a p := by
  rw [advancePcBy, if_pos hmax, advanced_one hmax hop]

/-- With several operations an instruction the address before is lost. -/
theorem advancePcBy_eq_iff (hmax : lh.maximumOpsPerInsn ≠ 1) :
    advancePcBy lh a p = advanced lh a p ↔ p.address = 0 := by
  rw [advancePcBy, if_neg hmax, advanced, Pc.mk.injEq, BitVec.mul_comm]
  simp

theorem constAddPc_eq (hop : p.opIndex < lh.maximumOpsPerInsn) :
    constAddPc lh p = advanced lh (BitVec.ofNat 64 ((255 - lh.opcodeBase) / lh.lineRange)) p := by
  by_cases hmax : lh.maximumOpsPerInsn = 1
  · rw [constAddPc, if_pos hmax, advanced_one hmax hop, BitVec.ofNat_mul]
  · rw [constAddPc, if_neg hmax]
    rfl

theorem specialPc_eq (hb : lh.Bytes) (hop : p.opIndex < lh.maximumOpsPerInsn) {adjOpcode : Nat}
    (hadj : adjOpcode ≤ 255) :
    specialPc lh adjOpcode p = advanced lh (BitVec.ofNat 64 (adjOpcode / lh.lineRange)) p := by
  have hmaxlt := hb.maximumOpsPerInsn
  have hquot : adjOpcode / lh.lineRange ≤ 255 := (Nat.div_le_self _ _).trans hadj
  by_cases hmax : lh.maximumOpsPerInsn = 1
  · rw [specialPc, if_pos hmax, advanced_one hmax hop, BitVec.ofNat_mul, BitVec.mul_comm]
  · rw [specialPc, if_neg hmax, advanced, ← BitVec.ofNat_add, ofNat_udiv (by omega) (by omega),
      toNat_ofNat_umod (by omega) (by omega), BitVec.ofNat_mul, BitVec.mul_comm]

/-- The opcodes advance alike with one operation an instruction, and with several only from the
address zero. -/
theorem advanceAlike_iff (lh : LineHead) (p : Pc) (a : Vma) (hb : lh.Bytes)
    (hop : p.opIndex < lh.maximumOpsPerInsn) :
    AdvanceAlike lh p a ↔ lh.maximumOpsPerInsn = 1 ∨ p.address = 0 := by
  constructor
  · intro h
    by_cases hmax : lh.maximumOpsPerInsn = 1
    · exact .inl hmax
    · exact .inr ((advancePcBy_eq_iff hmax).mp h.advancePc)
  · intro h
    have hspecial : ∀ adjOpcode, adjOpcode ≤ 255 - lh.opcodeBase →
        specialPc lh adjOpcode p = advanced lh (BitVec.ofNat 64 (adjOpcode / lh.lineRange)) p :=
      fun adjOpcode hadj => specialPc_eq hb hop (hadj.trans (Nat.sub_le _ _))
    refine ⟨?_, constAddPc_eq hop, hspecial⟩
    by_cases hmax : lh.maximumOpsPerInsn = 1
    · exact advancePcBy_one hmax hop
    · exact (advancePcBy_eq_iff hmax).mpr (h.resolve_left hmax)

/-- A header with two operations an instruction of eight bytes. -/
def pairHead : LineHead := ⟨8, 2, 1, -5, 14, 13, [1, 0, 1, 1, 1, 1, 0, 0, 0, 1, 0, 0, 1]⟩

theorem pairHead_alike : AdvanceAlike pairHead ⟨0, 1⟩ 3 :=
  (advanceAlike_iff pairHead ⟨0, 1⟩ 3 ⟨by decide, by decide, by decide, by decide⟩
    (by decide)).mpr (.inr rfl)

/-- From `0x1000`, three operations lead to `0x1010`, and `DW_LNS_advance_pc` to `0x10`. -/
theorem pairHead_loses_address : ¬ AdvanceAlike pairHead ⟨0x1000, 1⟩ 3 := by
  rintro ⟨h, -, -⟩
  revert h
  decide

/-! The steps of the machine go through these formulas. -/

def Machine.pc (m : Machine) : Pc := ⟨BitVec.ofNat 64 m.address, m.opIndex⟩

theorem ofNat_mod (x : Nat) : BitVec.ofNat 64 (x % 2 ^ 64) = BitVec.ofNat 64 x := by
  apply BitVec.eq_of_toNat_eq
  rw [BitVec.toNat_ofNat, BitVec.toNat_ofNat, Nat.mod_mod]

/-- An advance of the machine by few operations. -/
theorem addOps_pc {adjust : Nat} (hadj : m.opIndex + adjust < 2 ^ 64) :
    (m.addOps lh adjust).pc =
      if lh.maximumOpsPerInsn = 1 then
        { m.pc with address :=
            m.pc.address + BitVec.ofNat 64 (adjust * lh.minimumInstructionLength) }
      else
        { address := m.pc.address + BitVec.ofNat 64 ((m.opIndex + adjust) / lh.maximumOpsPerInsn *
            lh.minimumInstructionLength)
          opIndex := (m.opIndex + adjust) % lh.maximumOpsPerInsn } := by
  unfold Machine.addOps
  split
  · rw [Machine.pc, ofNat_mod, BitVec.ofNat_add]
    rfl
  · rw [Machine.pc, ofNat_mod, BitVec.ofNat_add, Nat.mod_eq_of_lt hadj]
    rfl

theorem special_pc {adjOpcode : Nat} (hop : m.opIndex < 2 ^ 8) (hadj : adjOpcode ≤ 255)
    (h : special lh m adjOpcode = some m') : m'.pc = specialPc lh adjOpcode m.pc := by
  have hquot : adjOpcode / lh.lineRange ≤ 255 := (Nat.div_le_self _ _).trans hadj
  have hfits : m.opIndex + adjOpcode / lh.lineRange < 2 ^ 64 := by omega
  have hpc := @addOps_pc lh m _ hfits
  unfold special at h
  split at h
  · cases h
  · cases h
    exact hpc

theorem standardOp_constAddPc_pc (hb : lh.Bytes) (hop : m.opIndex < 2 ^ 8)
    (h : standardOp u lh m 8 = some m') : m'.pc = constAddPc lh m.pc := by
  have hmaxlt := hb.maximumOpsPerInsn
  have hquot : (255 - lh.opcodeBase) / lh.lineRange ≤ 255 :=
    (Nat.div_le_self _ _).trans (Nat.sub_le _ _)
  have hfits : m.opIndex + (255 - lh.opcodeBase) / lh.lineRange < 2 ^ 64 := by omega
  have hpc := @addOps_pc lh m _ hfits
  have hop' : m.pc.opIndex = m.opIndex := rfl
  simp only [standardOp] at h
  split at h
  · cases h
  · cases h
    rw [hpc, constAddPc, Nat.mul_comm]
    split
    · rfl
    · dsimp only
      rw [hop', ← BitVec.ofNat_add, ofNat_udiv (by omega) (by omega),
        toNat_ofNat_umod (by omega) (by omega), BitVec.ofNat_mul, BitVec.mul_comm]

theorem advancePc_pc (hb : lh.Bytes) :
    (advancePc lh m).pc =
      advancePcBy lh (BitVec.ofNat 64 (readLeb128 false m.linePtr).1) m.pc := by
  have hmaxlt := hb.maximumOpsPerInsn
  unfold advancePc advancePcBy Machine.addOps
  by_cases hmax : lh.maximumOpsPerInsn = 1
  · simp only [hmax, if_true, Machine.pc, ofNat_mod, BitVec.ofNat_add]
    rw [BitVec.ofNat_mul, BitVec.mul_comm]
  · have hsum : BitVec.ofNat 64 ((m.opIndex + (readLeb128 false m.linePtr).1) % 2 ^ 64) =
        BitVec.ofNat 64 m.opIndex + BitVec.ofNat 64 (readLeb128 false m.linePtr).1 := by
      rw [ofNat_mod, BitVec.ofNat_add]
    have hlt : (m.opIndex + (readLeb128 false m.linePtr).1) % 2 ^ 64 < 2 ^ 64 :=
      Nat.mod_lt _ (by decide)
    simp only [hmax, if_false, Machine.pc, ofNat_mod, Nat.zero_add]
    rw [← hsum, ofNat_udiv hlt (by omega), toNat_ofNat_umod hlt (by omega), BitVec.ofNat_mul]

end FusionBinutils.Bfd.LineMachine
