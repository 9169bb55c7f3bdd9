import FusionBinutils.Lib.BitField

/-! Bit fields of a fusion-core instruction word (opcode/fusion.h, opcode/fusion-opc.h).
The macros are used at 32 bits by the assembler and at the width of `bfd_vma` by BFD,
so every definition takes the width from its argument. -/
namespace FusionBinutils

/-- `bfd_vma`, `addressT` and `valueT` of a BFD64 host. -/
abbrev Vma := BitVec 64

/-- `insn_t`. -/
abbrev InsnT := BitVec 32

abbrev BfdByte := BitVec 8

namespace Opcode

variable {w : Nat}

def maskRd : BitVec w := 0x03e00000#w
def maskRsa : BitVec w := 0x001f0000#w
def maskRsb : BitVec w := 0x0000f800#w
def maskAluop : BitVec w := 0x0000000f#w
def maskImmI : BitVec w := 0x0000fff0#w
def maskImmL : BitVec w := 0x00003fff#w
def maskFunctL : BitVec w := 0x0000c000#w
def maskDselLi : BitVec w := 0x001e0000#w
def maskImmLi : BitVec w := 0x0000ffff#w
def maskFunctS : BitVec w := 0x0f000000#w
def maskImmS : BitVec w := 0x00e007ff#w
def maskImmHiS : BitVec w := 0x00e00000#w
def maskImmLoS : BitVec w := 0x000007ff#w
def maskImmJ : BitVec w := 0x03e0ffff#w
def maskImmHiJ : BitVec w := 0x03e00000#w
def maskImmLoJ : BitVec w := 0x0000ffff#w
def maskImmB : BitVec w := 0x03e007fc#w
def maskImmHiB : BitVec w := 0x03e00000#w
def maskImmLoB : BitVec w := 0x000007fc#w
def maskFunctB : BitVec w := 0x00000003#w
def maskFunctSys : BitVec w := 0x0000ff00#w
def maskImmSys : BitVec w := 0x000000ff#w
def maskOpc : BitVec w := 0xfc000000#w
def maskNoImm : BitVec w := 0#w

def splitSImmLo : BitVec w := 0x000007ff#w
def splitSImmHi : BitVec w := 0x00003800#w
def splitJImmLo : BitVec w := 0x0000ffff#w
def splitJImmHi : BitVec w := 0x001f0000#w
def splitBImmLo : BitVec w := 0x000001ff#w
def splitBImmHi : BitVec w := 0x00003e00#w

def shftImmHiS : Nat := 10
def shftImmHiJ : Nat := 5
def shftImmHiB : Nat := 12
def shftImmLoB : Nat := 2

def getRd (i : BitVec w) : BitVec w := (maskRd &&& i) >>> 21
def getRsa (i : BitVec w) : BitVec w := (maskRsa &&& i) >>> 16
def getRsb (i : BitVec w) : BitVec w := (maskRsb &&& i) >>> 11
def getAluop (i : BitVec w) : BitVec w := maskAluop &&& i
def getImmI (i : BitVec w) : BitVec w := (maskImmI &&& i) >>> 4
def getImmL (i : BitVec w) : BitVec w := maskImmL &&& i
def getFunctL (i : BitVec w) : BitVec w := (maskFunctL &&& i) >>> 14
def getDselLi (i : BitVec w) : BitVec w := (maskDselLi &&& i) >>> 17
def getImmLi (i : BitVec w) : BitVec w := maskImmLi &&& i
def getFunctS (i : BitVec w) : BitVec w := ((maskFunctS &&& i) >>> 24) &&& 0x3#w
def getImmS (i : BitVec w) : BitVec w := (maskImmLoS &&& i) ||| ((maskImmHiS &&& i) >>> 10)
def getImmJ (i : BitVec w) : BitVec w :=
  (maskImmLoJ &&& i) ||| ((maskImmHiJ &&& i) >>> shftImmHiJ)
def getImmB (i : BitVec w) : BitVec w :=
  ((maskImmLoB &&& i) >>> shftImmLoB) ||| ((maskImmHiB &&& i) >>> shftImmHiB)
def getFunctB (i : BitVec w) : BitVec w := maskFunctB &&& i
def getFunctSys (i : BitVec w) : BitVec w := (maskFunctSys &&& i) >>> 8
def getImmSys (i : BitVec w) : BitVec w := maskImmSys &&& i
def getOpc (i : BitVec w) : BitVec w := (maskOpc &&& i) >>> 26

def getSplitSImmHi (imm : BitVec w) : BitVec w := (imm &&& splitSImmHi) <<< shftImmHiS
def getSplitSImmLo (imm : BitVec w) : BitVec w := imm &&& splitSImmLo
def getSplitJImmHi (imm : BitVec w) : BitVec w := (imm &&& splitJImmHi) <<< shftImmHiJ
def getSplitJImmLo (imm : BitVec w) : BitVec w := imm &&& splitJImmLo
def getSplitBImmHi (imm : BitVec w) : BitVec w := (imm &&& splitBImmHi) <<< shftImmHiB
def getSplitBImmLo (imm : BitVec w) : BitVec w := (imm &&& splitBImmLo) <<< shftImmLoB

def genRsa (rsa : BitVec w) : BitVec w := (rsa <<< 16) &&& maskRsa
def genIImm (imm : BitVec w) : BitVec w := (imm <<< 4) &&& maskImmI
def genSImm (imm : BitVec w) : BitVec w := (getSplitSImmHi imm ||| getSplitSImmLo imm) &&& maskImmS
def genJImm (imm : BitVec w) : BitVec w := (getSplitJImmHi imm ||| getSplitJImmLo imm) &&& maskImmJ
def genBImm (imm : BitVec w) : BitVec w := (getSplitBImmHi imm ||| getSplitBImmLo imm) &&& maskImmB
def genSysImm (imm : BitVec w) : BitVec w := imm &&& maskImmSys
def genLImm (imm : BitVec w) : BitVec w := getImmL imm
def genLiImm (imm : BitVec w) : BitVec w := getImmLi imm
def genOpc (opc : BitVec w) : BitVec w := (opc <<< 26) &&& 0xfc000000#w
def genRd (rd : BitVec w) : BitVec w := (rd <<< 21) &&& maskRd
def genAluop (op : BitVec w) : BitVec w := getAluop op
def genFunctL (f : BitVec w) : BitVec w := (f &&& 0x03#w) <<< 14
def genFunctS (f : BitVec w) : BitVec w := (f &&& 0x03#w) <<< 24
def genDselLi (f : BitVec w) : BitVec w := (f &&& 0x0f#w) <<< 17

/-! Whole instruction words (`MAKE_` macros). The opcodes are those of opcode/fusion.h. -/

def opcInt : InsnT := 0x13
def opcImm : InsnT := 0x16
def opcLd : InsnT := 0x1e
def opcLi : InsnT := 0x10
def opcSt : InsnT := 0x1d
def opcJmp : InsnT := 0x0c
def opcJlnk : InsnT := 0x04
def opcBranch : InsnT := 0x0d
def opcSys : InsnT := 0x20

def makeRType (rd rsa rsb shft aluop : InsnT) : InsnT :=
  ((rd &&& 0x1f#32) <<< 21) ||| ((rsa &&& 0x1f#32) <<< 16) ||| ((rsb &&& 0x3f#32) <<< 11) |||
    ((shft <<< 4) &&& 0x7f#32) ||| (aluop &&& 0x0f#32) ||| ((opcInt &&& 0x3f#32) <<< 26)

def makeIType (rd rsa imm aluop : InsnT) : InsnT :=
  ((rd &&& 0x1f#32) <<< 21) ||| ((rsa &&& 0x1f#32) <<< 16) ||| genIImm imm ||| (aluop &&& 0x0f#32) |||
    ((opcImm &&& 0x3f#32) <<< 26)

def makeLType (rd rsa funct imm : InsnT) : InsnT :=
  ((rd &&& 0x1f#32) <<< 21) ||| ((rsa &&& 0x1f#32) <<< 16) ||| ((funct &&& 0x3#32) <<< 14) |||
    (imm &&& 0x3fff#32) ||| ((opcLd &&& 0x3f#32) <<< 26)

def makeLiType (rd dsel imm : InsnT) : InsnT :=
  ((rd &&& 0x1f#32) <<< 21) ||| ((dsel &&& 0xf#32) <<< 17) ||| (imm &&& 0xffff#32) |||
    ((opcLi &&& 0x3f#32) <<< 26)

def makeSType (funct rsa rsb imm : InsnT) : InsnT :=
  ((funct &&& 0x3#32) <<< 24) ||| genSImm imm ||| ((rsa &&& 0x1f#32) <<< 16) |||
    ((rsb &&& 0x1f#32) <<< 11) ||| ((opcSt &&& 0x3f#32) <<< 26)

def makeJType (rsa imm : InsnT) : InsnT :=
  genRsa rsa ||| genJImm imm ||| ((opcJmp &&& 0x3f#32) <<< 26)

def makeJlType (rsa imm : InsnT) : InsnT :=
  ((rsa &&& 0x1f#32) <<< 16) ||| genJImm imm ||| ((opcJlnk &&& 0x3f#32) <<< 26)

def makeBType (rsa rsb imm funct : InsnT) : InsnT :=
  ((rsa &&& 0x1f#32) <<< 16) ||| ((rsb &&& 0x1f#32) <<< 11) ||| genBImm imm |||
    (funct &&& 0x3#32) ||| ((opcBranch &&& 0x3f#32) <<< 26)

def makeSysType (rd rsa funct imm : InsnT) : InsnT :=
  ((rd &&& 0x1f#32) <<< 21) ||| ((rsa &&& 0x1f#32) <<< 16) ||| ((funct &&& 0xff#32) <<< 8) |||
    genSysImm imm ||| ((opcSys &&& 0x3f#32) <<< 26)

/-- The shape of the disassembler's `SEXT_` macros (fusion-dis.c). -/
def sextB (mask sign high n : InsnT) : InsnT :=
  (n &&& mask) ||| (if n &&& sign ≠ 0 then high else 0)

def sext14b (n : InsnT) : InsnT := sextB 0x3fff#32 0x2000#32 0xffffc000#32 n
def sext12b (n : InsnT) : InsnT := sextB 0xfff#32 0x800#32 0xfffff000#32 n
def sext21b (n : InsnT) : InsnT := sextB 0x1fffff#32 0x100000#32 0xffe00000#32 n

/-! Values of the fields as numbers. -/

theorem toNat_literal {c : Nat} (hc : c < 2 ^ 32) (hw : 32 ≤ w) :
    (BitVec.ofNat w c).toNat = c := by
  rw [BitVec.toNat_ofNat]
  exact Nat.mod_eq_of_lt (Nat.lt_of_lt_of_le hc (Nat.pow_le_pow_right (by decide) hw))

/-- Reading a field of the word: the macros write the mask first. -/
theorem toNat_mask_and {c : Nat} (k n s : Nat) (hc : c = (2 ^ n - 1) * 2 ^ k)
    (hlt : c < 2 ^ 32) (hw : 32 ≤ w) (hs : s ≤ k) (i : BitVec w) :
    ((BitVec.ofNat w c &&& i) >>> s).toNat = i.toNat / 2 ^ k % 2 ^ n * 2 ^ (k - s) := by
  rw [BitVec.and_comm]
  exact BitField.toNat_and_field_shiftRight k n s ((toNat_literal hlt hw).trans hc) hs

/-- Reading a field down to its foot. -/
theorem toNat_get {c : Nat} (k n : Nat) (hc : c = (2 ^ n - 1) * 2 ^ k) (hlt : c < 2 ^ 32)
    (hw : 32 ≤ w) (i : BitVec w) :
    ((BitVec.ofNat w c &&& i) >>> k).toNat = i.toNat / 2 ^ k % 2 ^ n := by
  rw [toNat_mask_and k n k hc hlt hw (Nat.le_refl k), Nat.sub_self, Nat.pow_zero, Nat.mul_one]

/-- Reading a field at the foot of the word. -/
theorem toNat_getLow {c : Nat} (n : Nat) (hc : c = 2 ^ n - 1) (hlt : c < 2 ^ 32) (hw : 32 ≤ w)
    (i : BitVec w) : (BitVec.ofNat w c &&& i).toNat = i.toNat % 2 ^ n := by
  have h := toNat_get 0 n (by simpa using hc) hlt hw i
  rwa [BitVec.ushiftRight_zero, Nat.pow_zero, Nat.div_one] at h

theorem getOpc_toNat (hw : 32 ≤ w) (i : BitVec w) :
    (getOpc i).toNat = i.toNat / 2 ^ 26 % 2 ^ 6 :=
  toNat_get 26 6 (by decide) (by decide) hw i

theorem getRd_toNat (hw : 32 ≤ w) (i : BitVec w) : (getRd i).toNat = i.toNat / 2 ^ 21 % 2 ^ 5 :=
  toNat_get 21 5 (by decide) (by decide) hw i

theorem getRsa_toNat (hw : 32 ≤ w) (i : BitVec w) : (getRsa i).toNat = i.toNat / 2 ^ 16 % 2 ^ 5 :=
  toNat_get 16 5 (by decide) (by decide) hw i

theorem getRsb_toNat (hw : 32 ≤ w) (i : BitVec w) : (getRsb i).toNat = i.toNat / 2 ^ 11 % 2 ^ 5 :=
  toNat_get 11 5 (by decide) (by decide) hw i

theorem getAluop_toNat (hw : 32 ≤ w) (i : BitVec w) : (getAluop i).toNat = i.toNat % 2 ^ 4 :=
  toNat_getLow 4 (by decide) (by decide) hw i

theorem getFunctL_toNat (hw : 32 ≤ w) (i : BitVec w) :
    (getFunctL i).toNat = i.toNat / 2 ^ 14 % 2 ^ 2 :=
  toNat_get 14 2 (by decide) (by decide) hw i

theorem getDselLi_toNat (hw : 32 ≤ w) (i : BitVec w) :
    (getDselLi i).toNat = i.toNat / 2 ^ 17 % 2 ^ 4 :=
  toNat_get 17 4 (by decide) (by decide) hw i

theorem getImmLi_toNat (hw : 32 ≤ w) (i : BitVec w) : (getImmLi i).toNat = i.toNat % 2 ^ 16 :=
  toNat_getLow 16 (by decide) (by decide) hw i

theorem getFunctS_toNat (hw : 32 ≤ w) (i : BitVec w) :
    (getFunctS i).toNat = i.toNat / 2 ^ 24 % 2 ^ 2 := by
  have h4 := toNat_get 24 4 (c := 0x0f000000) (by decide) (by decide) hw i
  rw [getFunctS, maskFunctS, BitVec.and_comm, toNat_getLow 2 (by decide) (by decide) hw, h4]
  omega

theorem getFunctB_toNat (hw : 32 ≤ w) (i : BitVec w) : (getFunctB i).toNat = i.toNat % 2 ^ 2 :=
  toNat_getLow 2 (by decide) (by decide) hw i

theorem getFunctSys_toNat (hw : 32 ≤ w) (i : BitVec w) :
    (getFunctSys i).toNat = i.toNat / 2 ^ 8 % 2 ^ 8 :=
  toNat_get 8 8 (by decide) (by decide) hw i

theorem getImmSys_toNat (hw : 32 ≤ w) (i : BitVec w) : (getImmSys i).toNat = i.toNat % 2 ^ 8 :=
  toNat_getLow 8 (by decide) (by decide) hw i

theorem getImmL_toNat (hw : 32 ≤ w) (i : BitVec w) : (getImmL i).toNat = i.toNat % 2 ^ 14 :=
  toNat_getLow 14 (by decide) (by decide) hw i

theorem getImmI_toNat (hw : 32 ≤ w) (i : BitVec w) :
    (getImmI i).toNat = i.toNat / 2 ^ 4 % 2 ^ 12 :=
  toNat_get 4 12 (by decide) (by decide) hw i

theorem getImmS_toNat (hw : 32 ≤ w) (i : BitVec w) :
    (getImmS i).toNat = i.toNat / 2 ^ 21 % 2 ^ 3 * 2 ^ 11 + i.toNat % 2 ^ 11 := by
  have hlo := toNat_mask_and 0 11 0 (c := 0x7ff) (by decide) (by decide) hw (by decide) i
  have hhi := toNat_mask_and 21 3 10 (c := 0xe00000) (by decide) (by decide) hw (by decide) i
  rw [BitVec.ushiftRight_zero] at hlo
  rw [getImmS, BitVec.or_comm, maskImmLoS, maskImmHiS,
    BitField.toNat_or_high_low 11 _ hhi (by omega), hlo]
  omega

theorem getImmJ_toNat (hw : 32 ≤ w) (i : BitVec w) :
    (getImmJ i).toNat = i.toNat / 2 ^ 21 % 2 ^ 5 * 2 ^ 16 + i.toNat % 2 ^ 16 := by
  have hlo := toNat_mask_and 0 16 0 (c := 0xffff) (by decide) (by decide) hw (by decide) i
  have hhi := toNat_mask_and 21 5 5 (c := 0x3e00000) (by decide) (by decide) hw (by decide) i
  rw [BitVec.ushiftRight_zero] at hlo
  rw [getImmJ, BitVec.or_comm, maskImmLoJ, maskImmHiJ, shftImmHiJ,
    BitField.toNat_or_high_low 16 _ hhi (by omega), hlo]
  omega

theorem getImmB_toNat (hw : 32 ≤ w) (i : BitVec w) :
    (getImmB i).toNat = i.toNat / 2 ^ 21 % 2 ^ 5 * 2 ^ 9 + i.toNat / 2 ^ 2 % 2 ^ 9 := by
  have hlo := toNat_mask_and 2 9 2 (c := 0x7fc) (by decide) (by decide) hw (by decide) i
  have hhi := toNat_mask_and 21 5 12 (c := 0x3e00000) (by decide) (by decide) hw (by decide) i
  rw [getImmB, BitVec.or_comm, maskImmLoB, maskImmHiB, shftImmHiB, shftImmLoB,
    BitField.toNat_or_high_low 9 _ hhi (by omega), hlo]
  omega

/-- Both halves of a split immediate in the places the word gives them. -/
theorem toNat_split (mhi mlo k n s p t : Nat) (hhi : mhi = (2 ^ n - 1) * 2 ^ k)
    (hlo : mlo = 2 ^ p - 1) (hlt : mhi < 2 ^ 32 ∧ mlo < 2 ^ 32) (hw : 32 ≤ w)
    (hk : k + n + s ≤ 32) (hp : p + t ≤ k + s) (imm : BitVec w) :
    ((imm &&& BitVec.ofNat w mhi) <<< s ||| (imm &&& BitVec.ofNat w mlo) <<< t).toNat =
      imm.toNat / 2 ^ k % 2 ^ n * 2 ^ (k + s) + imm.toNat % 2 ^ p * 2 ^ t := by
  have h1 := BitField.toNat_and_field_shiftLeft (x := imm) k n s
    ((toNat_literal hlt.1 hw).trans hhi) (by omega)
  have h2 := BitField.toNat_and_field_shiftLeft (x := imm) 0 p t
    ((toNat_literal hlt.2 hw).trans (by simpa using hlo)) (by omega)
  simp only [Nat.pow_zero, Nat.div_one, Nat.zero_add] at h2
  have hb : imm.toNat % 2 ^ p * 2 ^ t < 2 ^ (k + s) :=
    calc imm.toNat % 2 ^ p * 2 ^ t
        < 2 ^ p * 2 ^ t :=
          (Nat.mul_lt_mul_right (Nat.two_pow_pos t)).2 (Nat.mod_lt _ (Nat.two_pow_pos p))
      _ = 2 ^ (p + t) := (Nat.pow_add 2 p t).symm
      _ ≤ 2 ^ (k + s) := Nat.pow_le_pow_right (by decide) hp
  rw [BitField.toNat_or_high_low (k + s) _ h1 (by rw [h2]; exact hb), h2]

theorem genSImm_toNat (hw : 32 ≤ w) (imm : BitVec w) :
    (genSImm imm).toNat = imm.toNat / 2 ^ 11 % 2 ^ 3 * 2 ^ 21 + imm.toNat % 2 ^ 11 := by
  have h := toNat_split 0x3800 0x7ff 11 3 10 11 0 (by decide) (by decide)
    (by decide) hw (by decide) (by decide) imm
  rw [BitVec.shiftLeft_zero] at h
  have hm : maskImmS (w := w) = maskImmHiS ||| maskImmLoS := by
    rw [maskImmS, maskImmHiS, maskImmLoS, ← BitVec.ofNat_or]; rfl
  rw [genSImm, BitField.toNat_and_split hm 21 3 0 11 (toNat_literal (by decide) hw)
    (toNat_literal (by decide) hw) (by decide), getSplitSImmHi, getSplitSImmLo, splitSImmHi,
    splitSImmLo, shftImmHiS, h]
  omega

theorem genJImm_toNat (hw : 32 ≤ w) (imm : BitVec w) :
    (genJImm imm).toNat = imm.toNat / 2 ^ 16 % 2 ^ 5 * 2 ^ 21 + imm.toNat % 2 ^ 16 := by
  have h := toNat_split 0x1f0000 0xffff 16 5 5 16 0 (by decide) (by decide)
    (by decide) hw (by decide) (by decide) imm
  rw [BitVec.shiftLeft_zero] at h
  have hm : maskImmJ (w := w) = maskImmHiJ ||| maskImmLoJ := by
    rw [maskImmJ, maskImmHiJ, maskImmLoJ, ← BitVec.ofNat_or]; rfl
  rw [genJImm, BitField.toNat_and_split hm 21 5 0 16 (toNat_literal (by decide) hw)
    (toNat_literal (by decide) hw) (by decide), getSplitJImmHi, getSplitJImmLo, splitJImmHi,
    splitJImmLo, shftImmHiJ, h]
  omega

theorem genBImm_toNat (hw : 32 ≤ w) (imm : BitVec w) :
    (genBImm imm).toNat = imm.toNat / 2 ^ 9 % 2 ^ 5 * 2 ^ 21 + imm.toNat % 2 ^ 9 * 2 ^ 2 := by
  have h := toNat_split 0x3e00 0x1ff 9 5 12 9 2 (by decide) (by decide)
    (by decide) hw (by decide) (by decide) imm
  have hm : maskImmB (w := w) = maskImmHiB ||| maskImmLoB := by
    rw [maskImmB, maskImmHiB, maskImmLoB, ← BitVec.ofNat_or]; rfl
  rw [genBImm, BitField.toNat_and_split hm 21 5 2 9 (toNat_literal (by decide) hw)
    (toNat_literal (by decide) hw) (by decide), getSplitBImmHi, getSplitBImmLo, splitBImmHi,
    splitBImmLo, shftImmHiB, shftImmLoB, h]
  omega

/-- A `SEXT_` macro of `k + 1` bits: the low bits, less the weight of the sign twice. -/
theorem sextB_toInt {mask sign high : InsnT} (k : Nat) (hk : k < 32)
    (hmask : mask.toNat = 2 ^ (k + 1) - 1) (hsign : sign.toNat = 2 ^ k)
    (hhigh : high.toNat = (2 ^ (31 - k) - 1) * 2 ^ (k + 1)) (n : InsnT) :
    (sextB mask sign high n).toInt =
      (n.toNat % 2 ^ (k + 1) : Nat) - (n.toNat / 2 ^ k % 2 * 2 ^ (k + 1) : Nat) := by
  have hlo := BitField.toNat_and_field (x := n) (m := mask) 0 (k + 1) (by simpa using hmask)
  have hs := BitField.toNat_and_field (x := n) (m := sign) k 1 (by simpa using hsign)
  have hsplit : n.toNat % 2 ^ (k + 1) = n.toNat % 2 ^ k + 2 ^ k * (n.toNat / 2 ^ k % 2) :=
    Nat.mod_pow_succ
  have hlt : n.toNat % 2 ^ k < 2 ^ k := Nat.mod_lt _ (Nat.two_pow_pos k)
  have htop : 2 ^ (31 - k) * 2 ^ (k + 1) = 2 ^ 32 := by
    rw [← Nat.pow_add]; congr 1; omega
  have hpow : 2 ^ (k + 1) = 2 * 2 ^ k := Nat.pow_succ'
  have hle : 2 ^ k ≤ 2 ^ 31 := Nat.pow_le_pow_right (by decide) (by omega)
  simp only [Nat.pow_zero, Nat.div_one, Nat.mul_one, Nat.pow_one] at hlo hs
  rw [sextB, BitVec.or_comm]
  -- the two branches are told apart by the sign bit
  by_cases h : n &&& sign = 0#32
  · have h0 : n.toNat / 2 ^ k % 2 = 0 := by
      have hz := hs.symm.trans (congrArg BitVec.toNat h)
      simpa using hz
    rw [h0, Nat.mul_zero, Nat.add_zero] at hsplit
    rw [if_neg (by simpa using h), BitVec.toInt_eq_toNat_cond, BitVec.ofNat_eq_ofNat,
      BitVec.zero_or, hlo, hsplit, h0, if_pos (by omega)]
    omega
  · have h1 : n.toNat / 2 ^ k % 2 = 1 := by
      rcases Nat.mod_two_eq_zero_or_one (n.toNat / 2 ^ k) with h0 | h1
      · exact absurd (BitVec.eq_of_toNat_eq (by rw [hs, h0, Nat.zero_mul]; rfl)) h
      · exact h1
    rw [h1, Nat.mul_one] at hsplit
    have hor := BitField.toNat_or_high_low (k + 1) (2 ^ (31 - k) - 1) hhigh
      (b := n &&& mask) (by rw [hlo]; exact Nat.mod_lt _ (Nat.two_pow_pos _))
    rw [Nat.sub_mul, htop, Nat.one_mul, hlo] at hor
    rw [if_pos (by simpa using h), BitVec.toInt_eq_toNat_cond, hor, hsplit, h1,
      if_neg (by omega)]
    omega

theorem sext12b_toInt (n : InsnT) :
    (sext12b n).toInt = (n.toNat % 2 ^ 12 : Nat) - (n.toNat / 2 ^ 11 % 2 * 2 ^ 12 : Nat) :=
  sextB_toInt 11 (by decide) (by decide) (by decide) (by decide) n

theorem sext14b_toInt (n : InsnT) :
    (sext14b n).toInt = (n.toNat % 2 ^ 14 : Nat) - (n.toNat / 2 ^ 13 % 2 * 2 ^ 14 : Nat) :=
  sextB_toInt 13 (by decide) (by decide) (by decide) (by decide) n

theorem sext21b_toInt (n : InsnT) :
    (sext21b n).toInt = (n.toNat % 2 ^ 21 : Nat) - (n.toNat / 2 ^ 20 % 2 * 2 ^ 21 : Nat) :=
  sextB_toInt 20 (by decide) (by decide) (by decide) (by decide) n

/-! Sign extension keeps the field. -/

theorem sextB_low {mask sign high : InsnT} (k : Nat) (hmask : mask.toNat = 2 ^ k - 1)
    (hhigh : high.toNat % 2 ^ k = 0) (n : InsnT) :
    (sextB mask sign high n).toNat % 2 ^ k = n.toNat % 2 ^ k := by
  have hlo := BitField.toNat_and_field (x := n) (m := mask) 0 k (by simpa using hmask)
  have hif : (if n &&& sign ≠ 0 then high else 0).toNat % 2 ^ k = 0 :=
    iteInduction (motive := fun x : InsnT => x.toNat % 2 ^ k = 0) (fun _ => hhigh)
      fun _ => Nat.zero_mod _
  rw [sextB, BitVec.toNat_or, Nat.or_mod_two_pow, hif, hlo, Nat.or_zero]
  simp

theorem sext12b_low (n : InsnT) : (sext12b n).toNat % 2 ^ 12 = n.toNat % 2 ^ 12 :=
  sextB_low 12 (by decide) (by decide) n

theorem sext14b_low (n : InsnT) : (sext14b n).toNat % 2 ^ 14 = n.toNat % 2 ^ 14 :=
  sextB_low 14 (by decide) (by decide) n

theorem sext21b_low (n : InsnT) : (sext21b n).toNat % 2 ^ 21 = n.toNat % 2 ^ 21 :=
  sextB_low 21 (by decide) (by decide) n

end Opcode

end FusionBinutils
