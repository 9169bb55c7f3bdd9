import FusionBinutils.Opcode.Disassemble

/-! The words that the `MAKE_` macros build, and what the disassembler reads in them. -/
namespace FusionBinutils.Opcode

open BitField

variable {rd rsa rsb imm op : InsnT}

/-! Values of the words. The registers are numbers below 32. -/

theorem occupies_opc (opc : InsnT) (h : opc.toNat < 64) :
    Occupies 0xfc000000#32 (opc.toNat * 2 ^ 26) ((opc &&& 0x3f#32) <<< 26) :=
  .shl 26 6 (by decide) (by decide) h (by decide)

theorem occupies_rd (h : rd.toNat < 32) :
    Occupies maskRd (rd.toNat * 2 ^ 21) ((rd &&& 0x1f#32) <<< 21) :=
  .shl 21 5 (by decide) (by decide) h (by decide)

theorem occupies_rsa (h : rsa.toNat < 32) :
    Occupies maskRsa (rsa.toNat * 2 ^ 16) ((rsa &&& 0x1f#32) <<< 16) :=
  .shl 16 5 (by decide) (by decide) h (by decide)

theorem occupies_rsb (h : rsb.toNat < 32) :
    Occupies maskRsb (rsb.toNat * 2 ^ 11) ((rsb &&& 0x1f#32) <<< 11) :=
  .shl 11 5 (by decide) (by decide) h (by decide)

theorem makeRType_toNat (hd : rd.toNat < 32) (ha : rsa.toNat < 32) (hb : rsb.toNat < 32)
    (ho : op.toNat < 16) : (makeRType rd rsa rsb 0 op).toNat =
      rd.toNat * 2 ^ 21 + rsa.toNat * 2 ^ 16 + rsb.toNat * 2 ^ 11 + op.toNat + 0x13 * 2 ^ 26 := by
  -- the macro keeps six bits of `RSb`, of which a register number uses five
  have hrsb : rsb &&& 0x3f#32 = rsb &&& 0x1f#32 := by
    apply BitVec.eq_of_toNat_eq
    rw [(Occupies.low 6 (by decide) (by omega)).toNat_eq, (Occupies.low 5 (by decide) hb).toNat_eq]
  have hshft : Occupies 0#32 0 (((0 : InsnT) <<< 4) &&& 0x7f#32) := ⟨by decide, by decide⟩
  have hop : Occupies 0xf#32 op.toNat (op &&& 0x0f#32) := .low 4 (by decide) ho
  have h := (((((occupies_rd hd).or (occupies_rsa ha) (by decide)).or (occupies_rsb hb)
    (by decide)).or hshft (by decide)).or hop (by decide)).or (occupies_opc opcInt (by decide))
    (by decide)
  have hopc : opcInt.toNat = 0x13 := rfl
  rw [makeRType, hrsb, h.toNat_eq, hopc, Nat.add_zero]

theorem makeIType_toNat (hd : rd.toNat < 32) (ha : rsa.toNat < 32) (ho : op.toNat < 16)
    (imm : InsnT) :
    (makeIType rd rsa imm op).toNat = rd.toNat * 2 ^ 21 + rsa.toNat * 2 ^ 16 +
      imm.toNat % 2 ^ 12 * 2 ^ 4 + op.toNat + 0x16 * 2 ^ 26 := by
  have himm : Occupies maskImmI (imm.toNat % 2 ^ 12 * 2 ^ 4) (genIImm imm) := by
    refine ⟨by rw [genIImm, BitVec.and_assoc, BitVec.and_self], ?_⟩
    rw [genIImm, toNat_and_field 4 12 (by decide), BitVec.toNat_shiftLeft, Nat.shiftLeft_eq]
    omega
  have hop : Occupies 0xf#32 op.toNat (op &&& 0x0f#32) := .low 4 (by decide) ho
  exact ((((occupies_rd hd).or (occupies_rsa ha) (by decide)).or himm (by decide)).or hop
    (by decide)).or (occupies_opc opcImm (by decide)) (by decide) |>.toNat_eq

theorem makeLType_toNat (hd : rd.toNat < 32) (ha : rsa.toNat < 32) (ho : op.toNat < 4)
    (imm : InsnT) :
    (makeLType rd rsa op imm).toNat = rd.toNat * 2 ^ 21 + rsa.toNat * 2 ^ 16 +
      op.toNat * 2 ^ 14 + imm.toNat % 2 ^ 14 + 0x1e * 2 ^ 26 := by
  have hop : Occupies maskFunctL (op.toNat * 2 ^ 14) ((op &&& 0x3#32) <<< 14) :=
    .shl 14 2 (by decide) (by decide) ho (by decide)
  have himm : Occupies maskImmL (imm.toNat % 2 ^ 14) (imm &&& 0x3fff#32) :=
    ⟨by rw [maskImmL, BitVec.and_assoc]; rfl, by
      have h := toNat_and_field (x := imm) (m := 0x3fff#32) 0 14 (by decide)
      simpa using h⟩
  exact ((((occupies_rd hd).or (occupies_rsa ha) (by decide)).or hop (by decide)).or himm
    (by decide)).or (occupies_opc opcLd (by decide)) (by decide) |>.toNat_eq

theorem makeLiType_toNat (hd : rd.toNat < 32) (ho : op.toNat < 16) (imm : InsnT) :
    (makeLiType rd op imm).toNat = rd.toNat * 2 ^ 21 + op.toNat * 2 ^ 17 + imm.toNat % 2 ^ 16 +
      0x10 * 2 ^ 26 := by
  have hop : Occupies maskDselLi (op.toNat * 2 ^ 17) ((op &&& 0xf#32) <<< 17) :=
    .shl 17 4 (by decide) (by decide) ho (by decide)
  have himm : Occupies maskImmLi (imm.toNat % 2 ^ 16) (imm &&& 0xffff#32) :=
    ⟨by rw [maskImmLi, BitVec.and_assoc]; rfl, by
      have h := toNat_and_field (x := imm) (m := 0xffff#32) 0 16 (by decide)
      simpa using h⟩
  exact (((occupies_rd hd).or hop (by decide)).or himm (by decide)).or
    (occupies_opc opcLi (by decide)) (by decide) |>.toNat_eq

theorem occupies_genSImm : Occupies maskImmS
    (imm.toNat / 2 ^ 11 % 2 ^ 3 * 2 ^ 21 + imm.toNat % 2 ^ 11) (genSImm imm) :=
  ⟨by rw [genSImm, BitVec.and_assoc, BitVec.and_self], genSImm_toNat (by decide) imm⟩

theorem occupies_genJImm : Occupies maskImmJ
    (imm.toNat / 2 ^ 16 % 2 ^ 5 * 2 ^ 21 + imm.toNat % 2 ^ 16) (genJImm imm) :=
  ⟨by rw [genJImm, BitVec.and_assoc, BitVec.and_self], genJImm_toNat (by decide) imm⟩

theorem occupies_genBImm : Occupies maskImmB
    (imm.toNat / 2 ^ 9 % 2 ^ 5 * 2 ^ 21 + imm.toNat % 2 ^ 9 * 2 ^ 2) (genBImm imm) :=
  ⟨by rw [genBImm, BitVec.and_assoc, BitVec.and_self], genBImm_toNat (by decide) imm⟩

theorem makeSType_toNat (ha : rsa.toNat < 32) (hb : rsb.toNat < 32) (ho : op.toNat < 4)
    (imm : InsnT) :
    (makeSType op rsa rsb imm).toNat = op.toNat * 2 ^ 24 +
      (imm.toNat / 2 ^ 11 % 2 ^ 3 * 2 ^ 21 + imm.toNat % 2 ^ 11) + rsa.toNat * 2 ^ 16 +
      rsb.toNat * 2 ^ 11 + 0x1d * 2 ^ 26 := by
  have hop : Occupies 0x03000000#32 (op.toNat * 2 ^ 24) ((op &&& 0x3#32) <<< 24) :=
    .shl 24 2 (by decide) (by decide) ho (by decide)
  exact (((hop.or occupies_genSImm (by decide)).or (occupies_rsa ha) (by decide)).or
    (occupies_rsb hb) (by decide)).or (occupies_opc opcSt (by decide)) (by decide) |>.toNat_eq

theorem genRsa_eq (rsa : InsnT) : genRsa rsa = (rsa &&& 0x1f#32) <<< 16 := by
  rw [genRsa, BitVec.shiftLeft_and_distrib]
  rfl

theorem makeJType_toNat (ha : rsa.toNat < 32) : (makeJType rsa imm).toNat = rsa.toNat * 2 ^ 16 +
    (imm.toNat / 2 ^ 16 % 2 ^ 5 * 2 ^ 21 + imm.toNat % 2 ^ 16) + 0x0c * 2 ^ 26 := by
  rw [makeJType, genRsa_eq]
  exact ((occupies_rsa ha).or occupies_genJImm (by decide)).or (occupies_opc opcJmp (by decide))
    (by decide) |>.toNat_eq

theorem makeJlType_toNat (ha : rsa.toNat < 32) : (makeJlType rsa imm).toNat = rsa.toNat * 2 ^ 16 +
    (imm.toNat / 2 ^ 16 % 2 ^ 5 * 2 ^ 21 + imm.toNat % 2 ^ 16) + 0x04 * 2 ^ 26 :=
  ((occupies_rsa ha).or occupies_genJImm (by decide)).or (occupies_opc opcJlnk (by decide))
    (by decide) |>.toNat_eq

theorem makeBType_toNat (ha : rsa.toNat < 32) (hb : rsb.toNat < 32) (ho : op.toNat < 4)
    (imm : InsnT) :
    (makeBType rsa rsb imm op).toNat = rsa.toNat * 2 ^ 16 + rsb.toNat * 2 ^ 11 +
      (imm.toNat / 2 ^ 9 % 2 ^ 5 * 2 ^ 21 + imm.toNat % 2 ^ 9 * 2 ^ 2) + op.toNat +
      0x0d * 2 ^ 26 := by
  have hop : Occupies 0x3#32 op.toNat (op &&& 0x3#32) := .low 2 (by decide) ho
  exact ((((occupies_rsa ha).or (occupies_rsb hb) (by decide)).or occupies_genBImm (by decide)).or
    hop (by decide)).or (occupies_opc opcBranch (by decide)) (by decide) |>.toNat_eq

theorem makeSysType_toNat (hd : rd.toNat < 32) (ha : rsa.toNat < 32) (ho : op.toNat < 256)
    (imm : InsnT) :
    (makeSysType rd rsa op imm).toNat = rd.toNat * 2 ^ 21 + rsa.toNat * 2 ^ 16 +
      op.toNat * 2 ^ 8 + imm.toNat % 2 ^ 8 + 0x20 * 2 ^ 26 := by
  have hop : Occupies maskFunctSys (op.toNat * 2 ^ 8) ((op &&& 0xff#32) <<< 8) :=
    .shl 8 8 (by decide) (by decide) ho (by decide)
  have himm : Occupies maskImmSys (imm.toNat % 2 ^ 8) (genSysImm imm) :=
    ⟨by rw [genSysImm, BitVec.and_assoc, BitVec.and_self], by
      have h := toNat_and_field (x := imm) (m := 0xff#32) 0 8 (by decide)
      simpa [genSysImm, maskImmSys] using h⟩
  exact ((((occupies_rd hd).or (occupies_rsa ha) (by decide)).or hop (by decide)).or himm
    (by decide)).or (occupies_opc opcSys (by decide)) (by decide) |>.toNat_eq

/-! The fields read back. -/

/-- The macros see 32 bits of an operand, more than any field holds. -/
theorem low_setWidth (c : Vma) {n : Nat} (hn : n ≤ 32) :
    (c.setWidth 32).toNat % 2 ^ n = c.toNat % 2 ^ n := by
  rw [BitVec.toNat_setWidth]
  exact Nat.mod_mod_of_dvd _ (Nat.pow_dvd_pow 2 hn)

theorem eq_of_toNat {x y : InsnT} {n : Nat} (hx : x.toNat = n) (hy : n = y.toNat) : x = y :=
  BitVec.eq_of_toNat_eq (hx.trans hy)

theorem makeRType_fields (hd : rd.toNat < 32) (ha : rsa.toNat < 32) (hb : rsb.toNat < 32)
    (ho : op.toNat < 16) :
    getOpc (makeRType rd rsa rsb 0 op) = opcInt ∧ getAluop (makeRType rd rsa rsb 0 op) = op ∧
      getRd (makeRType rd rsa rsb 0 op) = rd ∧ getRsa (makeRType rd rsa rsb 0 op) = rsa ∧
      getRsb (makeRType rd rsa rsb 0 op) = rsb := by
  have hw := makeRType_toNat hd ha hb ho
  have hopc : opcInt.toNat = 0x13 := rfl
  refine ⟨eq_of_toNat (getOpc_toNat (by decide) _) ?_,
    eq_of_toNat (getAluop_toNat (by decide) _) ?_, eq_of_toNat (getRd_toNat (by decide) _) ?_,
    eq_of_toNat (getRsa_toNat (by decide) _) ?_, eq_of_toNat (getRsb_toNat (by decide) _) ?_⟩ <;>
    omega

theorem makeIType_fields (hd : rd.toNat < 32) (ha : rsa.toNat < 32) (ho : op.toNat < 16)
    (imm : InsnT) :
    getOpc (makeIType rd rsa imm op) = opcImm ∧ getAluop (makeIType rd rsa imm op) = op ∧
      getRd (makeIType rd rsa imm op) = rd ∧ getRsa (makeIType rd rsa imm op) = rsa ∧
      (getImmI (makeIType rd rsa imm op)).toNat = imm.toNat % 2 ^ 12 := by
  have hw := makeIType_toNat hd ha ho imm
  have hopc : opcImm.toNat = 0x16 := rfl
  refine ⟨eq_of_toNat (getOpc_toNat (by decide) _) ?_,
    eq_of_toNat (getAluop_toNat (by decide) _) ?_, eq_of_toNat (getRd_toNat (by decide) _) ?_,
    eq_of_toNat (getRsa_toNat (by decide) _) ?_, (getImmI_toNat (by decide) _).trans ?_⟩ <;>
    omega

theorem makeLType_fields (hd : rd.toNat < 32) (ha : rsa.toNat < 32) (ho : op.toNat < 4)
    (imm : InsnT) :
    getOpc (makeLType rd rsa op imm) = opcLd ∧ getFunctL (makeLType rd rsa op imm) = op ∧
      getRd (makeLType rd rsa op imm) = rd ∧ getRsa (makeLType rd rsa op imm) = rsa ∧
      (getImmL (makeLType rd rsa op imm)).toNat = imm.toNat % 2 ^ 14 := by
  have hw := makeLType_toNat hd ha ho imm
  have hopc : opcLd.toNat = 0x1e := rfl
  refine ⟨eq_of_toNat (getOpc_toNat (by decide) _) ?_,
    eq_of_toNat (getFunctL_toNat (by decide) _) ?_, eq_of_toNat (getRd_toNat (by decide) _) ?_,
    eq_of_toNat (getRsa_toNat (by decide) _) ?_, (getImmL_toNat (by decide) _).trans ?_⟩ <;>
    omega

theorem makeLiType_fields (hd : rd.toNat < 32) (ho : op.toNat < 16) (imm : InsnT) :
    getOpc (makeLiType rd op imm) = opcLi ∧ getDselLi (makeLiType rd op imm) = op ∧
      getRd (makeLiType rd op imm) = rd ∧
      (getImmLi (makeLiType rd op imm)).toNat = imm.toNat % 2 ^ 16 := by
  have hw := makeLiType_toNat hd ho imm
  have hopc : opcLi.toNat = 0x10 := rfl
  refine ⟨eq_of_toNat (getOpc_toNat (by decide) _) ?_,
    eq_of_toNat (getDselLi_toNat (by decide) _) ?_, eq_of_toNat (getRd_toNat (by decide) _) ?_,
    (getImmLi_toNat (by decide) _).trans ?_⟩ <;> omega

theorem makeSType_fields (ha : rsa.toNat < 32) (hb : rsb.toNat < 32) (ho : op.toNat < 4)
    (imm : InsnT) :
    getOpc (makeSType op rsa rsb imm) = opcSt ∧ getFunctS (makeSType op rsa rsb imm) = op ∧
      getRsa (makeSType op rsa rsb imm) = rsa ∧ getRsb (makeSType op rsa rsb imm) = rsb ∧
      (getImmS (makeSType op rsa rsb imm)).toNat = imm.toNat % 2 ^ 14 := by
  have hw := makeSType_toNat ha hb ho imm
  have hopc : opcSt.toNat = 0x1d := rfl
  have himm : imm.toNat % 2 ^ 14 =
      imm.toNat / 2 ^ 11 % 2 ^ 3 * 2 ^ 11 + imm.toNat % 2 ^ 11 := by omega
  have hhi : imm.toNat / 2 ^ 11 % 2 ^ 3 < 2 ^ 3 := Nat.mod_lt _ (by decide)
  have hlo : imm.toNat % 2 ^ 11 < 2 ^ 11 := Nat.mod_lt _ (by decide)
  rw [himm]
  clear himm
  generalize imm.toNat / 2 ^ 11 % 2 ^ 3 = hi at *
  generalize imm.toNat % 2 ^ 11 = lo at *
  refine ⟨eq_of_toNat (getOpc_toNat (by decide) _) ?_,
    eq_of_toNat (getFunctS_toNat (by decide) _) ?_, eq_of_toNat (getRsa_toNat (by decide) _) ?_,
    eq_of_toNat (getRsb_toNat (by decide) _) ?_, (getImmS_toNat (by decide) _).trans ?_⟩ <;>
    omega

/-- `j` and `jal` are decoded by `RSa`, so the word counts whatever instruction it came from. -/
theorem jump_fields {w opc : InsnT} (hopc : opc.toNat < 64) (ha : rsa.toNat < 32)
    (hw : w.toNat = rsa.toNat * 2 ^ 16 +
      (imm.toNat / 2 ^ 16 % 2 ^ 5 * 2 ^ 21 + imm.toNat % 2 ^ 16) + opc.toNat * 2 ^ 26) :
    getOpc w = opc ∧ getRsa w = rsa ∧ (getImmJ w).toNat = imm.toNat % 2 ^ 21 := by
  have himm : imm.toNat % 2 ^ 21 =
      imm.toNat / 2 ^ 16 % 2 ^ 5 * 2 ^ 16 + imm.toNat % 2 ^ 16 := by omega
  have hhi : imm.toNat / 2 ^ 16 % 2 ^ 5 < 2 ^ 5 := Nat.mod_lt _ (by decide)
  have hlo : imm.toNat % 2 ^ 16 < 2 ^ 16 := Nat.mod_lt _ (by decide)
  rw [himm]
  clear himm
  generalize imm.toNat / 2 ^ 16 % 2 ^ 5 = hi at *
  generalize imm.toNat % 2 ^ 16 = lo at *
  refine ⟨eq_of_toNat (getOpc_toNat (by decide) _) ?_, eq_of_toNat (getRsa_toNat (by decide) _) ?_,
    (getImmJ_toNat (by decide) _).trans ?_⟩ <;> omega

theorem makeBType_fields (ha : rsa.toNat < 32) (hb : rsb.toNat < 32) (ho : op.toNat < 4)
    (imm : InsnT) :
    getOpc (makeBType rsa rsb imm op) = opcBranch ∧ getFunctB (makeBType rsa rsb imm op) = op ∧
      getRsa (makeBType rsa rsb imm op) = rsa ∧ getRsb (makeBType rsa rsb imm op) = rsb ∧
      (getImmB (makeBType rsa rsb imm op)).toNat = imm.toNat % 2 ^ 14 := by
  have hw := makeBType_toNat ha hb ho imm
  have hopc : opcBranch.toNat = 0x0d := rfl
  have himm : imm.toNat % 2 ^ 14 =
      imm.toNat / 2 ^ 9 % 2 ^ 5 * 2 ^ 9 + imm.toNat % 2 ^ 9 := by omega
  have hhi : imm.toNat / 2 ^ 9 % 2 ^ 5 < 2 ^ 5 := Nat.mod_lt _ (by decide)
  have hlo : imm.toNat % 2 ^ 9 < 2 ^ 9 := Nat.mod_lt _ (by decide)
  rw [himm]
  clear himm
  generalize imm.toNat / 2 ^ 9 % 2 ^ 5 = hi at *
  generalize imm.toNat % 2 ^ 9 = lo at *
  refine ⟨eq_of_toNat (getOpc_toNat (by decide) _) ?_,
    eq_of_toNat (getFunctB_toNat (by decide) _) ?_, eq_of_toNat (getRsa_toNat (by decide) _) ?_,
    eq_of_toNat (getRsb_toNat (by decide) _) ?_, (getImmB_toNat (by decide) _).trans ?_⟩ <;>
    omega

theorem makeSysType_fields (hd : rd.toNat < 32) (ha : rsa.toNat < 32) (ho : op.toNat < 256)
    (imm : InsnT) :
    getOpc (makeSysType rd rsa op imm) = opcSys ∧ getFunctSys (makeSysType rd rsa op imm) = op ∧
      getRd (makeSysType rd rsa op imm) = rd ∧ getRsa (makeSysType rd rsa op imm) = rsa ∧
      (getImmSys (makeSysType rd rsa op imm)).toNat = imm.toNat % 2 ^ 8 := by
  have hw := makeSysType_toNat hd ha ho imm
  have hopc : opcSys.toNat = 0x20 := rfl
  refine ⟨eq_of_toNat (getOpc_toNat (by decide) _) ?_,
    eq_of_toNat (getFunctSys_toNat (by decide) _) ?_, eq_of_toNat (getRd_toNat (by decide) _) ?_,
    eq_of_toNat (getRsa_toNat (by decide) _) ?_, (getImmSys_toNat (by decide) _).trans ?_⟩ <;>
    omega

end FusionBinutils.Opcode
