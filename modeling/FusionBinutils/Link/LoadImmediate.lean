import FusionBinutils.Gas.Constant
import FusionBinutils.Link.LoadStore

/-! The load-immediate family and the half of the value that each mnemonic names. -/
namespace FusionBinutils.Link

open Opcode Bfd Gas BitField

set_option maxRecDepth 4000

variable {seg : Segment} {frag : FragRef} {pos a c : Vma} {sym : Symbol} {buf : Contents}
  {sec : Asection} {index : PlainSym → Vma} {map : LinkMap} {e : FusionOpcInfo}
  {regs : List InsnT} {code : RelocCode}

def lowHalf (v : Vma) : BitVec 16 := v.setWidth 16

def highHalf (v : Vma) : BitVec 16 := (v >>> 16).setWidth 16

/-- The immediate field of a load immediate. -/
def immField (w : InsnT) : BitVec 16 := (getImmLi w).setWidth 16

/-- The mnemonics that load an upper half. -/
def isUpper (e : FusionOpcInfo) : Bool :=
  e.name ∈ ["lui", "lusi", "lugi", "luni", "lunsi", "lungi"]

/-- The half that the mnemonic names. -/
def namedHalf (e : FusionOpcInfo) (v : Vma) : BitVec 16 :=
  if isUpper e then highHalf v else lowHalf v

/-- The half that a relocation code selects. -/
def codeHalf (code : RelocCode) (v : Vma) : BitVec 16 :=
  if code = .fusionHi16 then highHalf v else lowHalf v

/-- How a mnemonic is treated. The last kind are the two upper mnemonics, `lugi` and `lungi`,
that `return_reloc` does not know for such. -/
inductive LiKind where
  | lower | upper | upperAsLower
  deriving DecidableEq

def liKind (e : FusionOpcInfo) : LiKind :=
  if isUpper e then
    if e.index = 0x06 ∨ e.index = 0x0e then .upperAsLower else .upper
  else .lower

/-- When a constant is loaded right. -/
def ConstFits : LiKind → Vma → Prop
  | .lower, _ => True
  -- the low half stays in the field and must not show
  | .upper, c => lowHalf c &&& ~~~highHalf c = 0
  | .upperAsLower, c => lowHalf c = highHalf c

/-- When `sym + a` is loaded right, for its address `v`. A number is or-ed onto what the field
holds of `a`; for any other symbol the linker adds `extra` once too often. -/
def SymbolFits : LiKind → Bool → (v a extra : Vma) → Prop
  | .lower, true, v, a, _ => lowHalf a &&& ~~~lowHalf v = 0
  | .lower, false, _, _, extra => lowHalf extra = 0
  | .upper, true, v, a, _ => lowHalf a &&& ~~~highHalf v = 0
  | .upper, false, v, _, extra => highHalf (v + extra) = highHalf v
  | .upperAsLower, true, v, a, _ => lowHalf v ||| lowHalf a = highHalf v
  | .upperAsLower, false, v, _, extra => lowHalf (v + extra) = highHalf v

/-! The field of the words. -/

theorem immField_or (x y : InsnT) : immField (x ||| y) = immField x ||| immField y := by
  rw [immField, getImmLi, BitVec.and_or_distrib_left, BitVec.setWidth_or]
  rfl

theorem immField_eq (w : InsnT) : immField w = w.setWidth 16 := by
  rw [immField, getImmLi, BitVec.setWidth_and]
  exact BitVec.allOnes_and

theorem low_shiftLeft (x : InsnT) {k : Nat} (hk : 16 ≤ k) : (x <<< k).setWidth 16 = 0#16 := by
  ext i hi
  simp only [BitVec.getElem_setWidth, BitVec.getLsbD_shiftLeft, show i < k by omega,
    decide_true, Bool.not_true, Bool.and_false, Bool.false_and, BitVec.getElem_zero]

theorem immField_makeLiType (rd dsel imm : InsnT) :
    immField (makeLiType rd dsel imm) = imm.setWidth 16 := by
  have hmask : (imm &&& 0xffff#32).setWidth 16 = imm.setWidth 16 := by
    rw [BitVec.setWidth_and]
    exact BitVec.and_allOnes
  rw [immField_eq, makeLiType, BitVec.setWidth_or, BitVec.setWidth_or, BitVec.setWidth_or, hmask,
    low_shiftLeft _ (by decide), low_shiftLeft _ (by decide), low_shiftLeft _ (by decide), BitVec.or_self,
    BitVec.zero_or, BitVec.or_zero]

/-- What `fusion_apply_const_reloc` answers is the field alone. -/
theorem immField_const (v : Vma) {k : InsnT} (hcode : code = .fusionHi16 ∨ code = .r16)
    (hk : fusionApplyConstReloc code v = some k) : immField k = codeHalf code v := by
  have hget (x : Vma) : immField ((getImmLi x).setWidth 32) = x.setWidth 16 := by
    rw [immField_eq, BitVec.setWidth_setWidth_of_le _ (by decide), getImmLi, BitVec.setWidth_and]
    exact BitVec.allOnes_and
  rcases hcode with rfl | rfl
  · cases hk
    exact hget (v >>> 16)
  · cases hk
    exact hget v

/-- The linker replaces the field. -/
theorem immField_relocated (sec : Asection) (rel : Rela) (v x : Vma) {t : RFusion}
    (hcode : code = .fusionHi16 ∨ code = .r16) (ht : fusionRelocTypeLookup code = some t) :
    immField ((relocatedWord t sec rel v x).setWidth 32) = codeHalf code (v + rel.rAddend) := by
  have hinsert (x y : Vma) :
      immField ((BitField.insert 0xffff#64 x y).setWidth 32) = y.setWidth 16 := by
    rw [immField_eq, BitVec.setWidth_setWidth_of_le _ (by decide), BitField.insert,
      BitVec.setWidth_or, BitVec.setWidth_and, BitVec.setWidth_and]
    have hx : x.setWidth 16 &&& (~~~0xffff#64).setWidth 16 = 0#16 := BitVec.and_zero
    rw [hx, BitVec.zero_or]
    exact BitVec.and_allOnes
  have hsrc (y : Vma) : (x &&& 0#64) + y = y := by rw [BitVec.and_zero, BitVec.zero_add]
  rcases hcode with rfl | rfl
  · cases ht
    have hword : relocatedWord .lui sec rel v x = BitField.insert 0xffff#64 x
        ((x &&& 0#64) + (v + rel.rAddend) >>> 16) := rfl
    rw [hword, hinsert, hsrc]
    rfl
  · cases ht
    have hword : relocatedWord .li sec rel v x = BitField.insert 0xffff#64 x
        ((x &&& 0#64) + (v + rel.rAddend) >>> 0) := rfl
    rw [hword, hinsert, hsrc, BitVec.ushiftRight_zero]
    rfl

/-- Both halves are read off the low 32 bits. -/
theorem codeHalf_congr {x y : Vma} (h : x.setWidth 32 = y.setWidth 32) :
    codeHalf code x = codeHalf code y := by
  have hnat : x.toNat % 2 ^ 32 = y.toNat % 2 ^ 32 := by
    rw [← BitVec.toNat_setWidth, ← BitVec.toNat_setWidth, h]
  unfold codeHalf
  split
  · apply BitVec.eq_of_toNat_eq
    simp only [highHalf, BitVec.toNat_setWidth, BitVec.toNat_ushiftRight, Nat.shiftRight_eq_div_pow]
    omega
  · apply BitVec.eq_of_toNat_eq
    simp only [lowHalf, BitVec.toNat_setWidth]
    omega

/-! The assembled word. -/

/-- The rows of the family: their relocation and their kind go together. -/
theorem liRow (hmem : e ∈ fusionInsnAll) (hopc : e.opc = opcLi) (hmain : e.cpid = .main) :
    e.args = .rdi ∧ e.immMask ≠ maskNoImm ∧
      (liKind e = .lower ∧ isUpper e = false ∧ returnReloc e = some .r16 ∨
        liKind e = .upper ∧ isUpper e = true ∧ returnReloc e = some .fusionHi16 ∨
        liKind e = .upperAsLower ∧ isUpper e = true ∧ returnReloc e = some .r16) := by
  have htable : ∀ e ∈ fusionInsnAll, e.opc = opcLi → e.cpid = .main →
      e.args = .rdi ∧ e.immMask ≠ maskNoImm ∧
        (liKind e = .lower ∧ isUpper e = false ∧ returnReloc e = some .r16 ∨
          liKind e = .upper ∧ isUpper e = true ∧ returnReloc e = some .fusionHi16 ∨
          liKind e = .upperAsLower ∧ isUpper e = true ∧ returnReloc e = some .r16) := by decide
  exact htable e hmem hopc hmain

theorem assembleInsnBin_li (hopc : e.opc = opcLi) (hargs : e.args = .rdi)
    (hmask : e.immMask ≠ maskNoImm) (hreloc : returnReloc e = some code)
    (hcode : code = .fusionHi16 ∨ code = .r16) (txt : OperandText) :
    assembleInsnBin e txt = some ⟨makeLiType (txt.reg 0) e.index (txt.expr.addNumber.setWidth 32),
      txt.expr, code, []⟩ := by
  rcases hcode with rfl | rfl <;>
    simp +decide [assembleInsnBin, hreloc, hmask, parseWithImm, hargs, parseImm, encodeOperands,
      hopc, Operands.init]

/-- The field after a constant operand. -/
theorem completeInsn_li (hopc : e.opc = opcLi) (hargs : e.args = .rdi)
    (hmask : e.immMask ≠ maskNoImm) (hreloc : returnReloc e = some code)
    (hcode : code = .fusionHi16 ∨ code = .r16) (P : BitVec 16 → Prop) :
    (∃ buf', completeInsn seg frag pos e ⟨regs, ⟨.constant, c⟩⟩ buf = some buf' ∧
        P (immField (wordAt buf' pos))) ↔ P (codeHalf code c ||| lowHalf c) := by
  have has := assembleInsnBin_li hopc hargs hmask hreloc hcode ⟨regs, ⟨.constant, c⟩⟩
  have hnone : code ≠ .none := by rcases hcode with rfl | rfl <;> decide
  obtain ⟨buf', hbuf, hword⟩ := completeInsn_word seg frag pos buf has hnone (.inl rfl)
  obtain ⟨k, hk, hpart⟩ : ∃ k, fusionApplyConstReloc code c = some k ∧ constPart code c = k := by
    rcases hcode with rfl | rfl <;> exact ⟨_, rfl, rfl⟩
  have hfield : immField (wordAt buf' pos) = codeHalf code c ||| lowHalf c := by
    rw [hword, hpart, immField_or, immField_const c hcode hk, immField_makeLiType, lowHalf,
      BitVec.setWidth_setWidth_of_le _ (by decide)]
  constructor
  · rintro ⟨buf'', hbuf'', hP⟩
    cases hbuf.symm.trans hbuf''
    rwa [← hfield]
  · intro hP
    exact ⟨buf', hbuf, by rwa [hfield]⟩

/-- The field that a fixup for a half ends up with, whatever word it is in. -/
theorem fixedSymbol_half (map : LinkMap) (index : PlainSym → Vma) (seg : Segment) (sym : Symbol)
    (a : Vma) (buf : Contents) (P : BitVec 16 → Prop)
    (hcode : code = .fusionHi16 ∨ code = .r16)
    (hin : relocOffsetInRange 4 sec (fileWord (frag.frAddress + pos))) :
    LinksTo map index sec (fixedSymbol seg frag pos sym a code buf) (fun w => P (immField w)) ↔
      P (if sym.isNumber then codeHalf code (map.symAddr sym + a) ||| immField (wordAt buf pos)
        else codeHalf code (map.symAddr sym + a + sym.extra seg a)) := by
  have hplain : code.Plain := by rcases hcode with rfl | rfl <;> simp [RelocCode.Plain]
  obtain ⟨t, ht, hfield⟩ : ∃ t, fusionRelocTypeLookup code = some t ∧ t.HasField := by
    rcases hcode with rfl | rfl <;> exact ⟨_, rfl, by decide, by decide⟩
  obtain ⟨k, hk⟩ := hplain.const (sym.linkAddend seg a + sym.extra seg a)
  obtain ⟨rel, hadd, hiff⟩ := linksTo_iff map index seg sym a buf (fun w => P (immField w)) hplain
    ht hfield hk hin
  rw [hiff]
  by_cases hnum : sym.isNumber = true
  · obtain ⟨haddr, hextra⟩ := isNumber_link map seg a hnum
    have hsum := linkSym_add_linkAddend map seg sym a
    rw [haddr, BitVec.ofNat_eq_ofNat, BitVec.zero_add] at hsum
    rw [if_pos hnum, if_pos hnum, immField_or, immField_const _ hcode hk, hextra, ← hsum,
      BitVec.ofNat_eq_ofNat, BitVec.add_zero]
  · have hsum : (map.addr (sym.linkSym seg a) + rel.rAddend).setWidth 32 =
        (map.symAddr sym + a + sym.extra seg a).setWidth 32 := by
      rw [hadd, setWidth_add32, setWidth_signExtend, ← setWidth_add32, ← BitVec.add_assoc,
        linkSym_add_linkAddend]
    rw [if_neg hnum, if_neg hnum, immField_relocated sec rel _ _ hcode ht, codeHalf_congr hsum]

theorem or_eq_left_iff (x y : BitVec 16) : x ||| y = x ↔ y &&& ~~~x = 0 := by
  constructor
  · intro h
    rw [← h, BitVec.not_or, BitVec.and_comm y, BitVec.and_assoc, BitVec.and_comm _ y,
      BitVec.and_not_self]
    exact BitVec.and_zero
  · intro h
    ext i hi
    have hbit := congrArg (fun z => z[i]) h
    simp only [BitVec.getElem_and, BitVec.getElem_not, BitVec.ofNat_eq_ofNat,
      BitVec.getElem_zero] at hbit
    rw [BitVec.getElem_or]
    cases hx : x[i] <;> simp_all

/-! Which values come out right. -/

theorem const_half_iff (hmem : e ∈ fusionInsnAll) (hopc : e.opc = opcLi) (hmain : e.cpid = .main) :
    (∃ buf', completeInsn seg frag pos e ⟨regs, ⟨.constant, c⟩⟩ buf = some buf' ∧
        immField (wordAt buf' pos) = namedHalf e c) ↔ ConstFits (liKind e) c := by
  obtain ⟨hargs, hmask, hrow⟩ := liRow hmem hopc hmain
  rcases hrow with ⟨hkind, hup, hreloc⟩ | ⟨hkind, hup, hreloc⟩ | ⟨hkind, hup, hreloc⟩
  · rw [completeInsn_li hopc hargs hmask hreloc (.inr rfl) (· = namedHalf e c), hkind]
    simp [codeHalf, namedHalf, hup, ConstFits]
  · rw [completeInsn_li hopc hargs hmask hreloc (.inl rfl) (· = namedHalf e c), hkind]
    simp only [codeHalf, namedHalf, hup, if_true]
    exact or_eq_left_iff _ _
  · rw [completeInsn_li hopc hargs hmask hreloc (.inr rfl) (· = namedHalf e c), hkind]
    simp [codeHalf, namedHalf, hup, ConstFits]

theorem lowHalf_add_eq_iff (v x : Vma) : lowHalf (v + x) = lowHalf v ↔ lowHalf x = 0 := by
  rw [lowHalf, BitVec.setWidth_add _ _ (by decide)]
  exact add_eq_left

theorem symbol_half_iff (hmem : e ∈ fusionInsnAll) (hopc : e.opc = opcLi) (hmain : e.cpid = .main)
    (hin : relocOffsetInRange 4 sec (fileWord (frag.frAddress + pos))) :
    LinksTo map index sec (emitInsn seg frag pos e ⟨regs, ⟨.symbol sym, a⟩⟩ buf)
        (fun w => immField w = namedHalf e (map.symAddr sym + a)) ↔
      SymbolFits (liKind e) sym.isNumber (map.symAddr sym + a) a (sym.extra seg a) := by
  obtain ⟨hargs, hmask, hrow⟩ := liRow hmem hopc hmain
  -- the emitted word holds the low half of `a`
  have hemit {code : RelocCode} (hreloc : returnReloc e = some code)
      (hcode : code = .fusionHi16 ∨ code = .r16) :
      LinksTo map index sec (emitInsn seg frag pos e ⟨regs, ⟨.symbol sym, a⟩⟩ buf)
          (fun w => immField w = namedHalf e (map.symAddr sym + a)) ↔
        (if sym.isNumber then codeHalf code (map.symAddr sym + a) ||| lowHalf a
          else codeHalf code (map.symAddr sym + a + sym.extra seg a)) =
            namedHalf e (map.symAddr sym + a) := by
    have has := assembleInsnBin_li hopc hargs hmask hreloc hcode ⟨regs, ⟨.symbol sym, a⟩⟩
    have hplain : code.Plain := by rcases hcode with rfl | rfl <;> simp [RelocCode.Plain]
    rw [emitInsn_eq has hplain, fixedSymbol_half map index seg sym a _
      (· = namedHalf e (map.symAddr sym + a)) hcode hin, wordAt_bfdPutb32,
      BitVec.setWidth_setWidth_of_le _ (by decide), BitVec.setWidth_eq, immField_makeLiType,
      BitVec.setWidth_setWidth_of_le _ (by decide), lowHalf]
  rcases hrow with ⟨hkind, hup, hreloc⟩ | ⟨hkind, hup, hreloc⟩ | ⟨hkind, hup, hreloc⟩
  · rw [hemit hreloc (.inr rfl), hkind]
    cases sym.isNumber with
    | true => simpa [codeHalf, namedHalf, hup, SymbolFits] using or_eq_left_iff _ _
    | false => simpa [codeHalf, namedHalf, hup, SymbolFits] using lowHalf_add_eq_iff _ _
  · rw [hemit hreloc (.inl rfl), hkind]
    cases sym.isNumber with
    | true => simpa [codeHalf, namedHalf, hup, SymbolFits] using or_eq_left_iff _ _
    | false => simp [codeHalf, namedHalf, hup, SymbolFits]
  · rw [hemit hreloc (.inr rfl), hkind]
    cases sym.isNumber <;> simp [codeHalf, namedHalf, hup, SymbolFits]

/-- A load immediate selects the half that its mnemonic names exactly when its operand fits. -/
theorem loadImmediate_half_iff (hmem : e ∈ fusionInsnAll) (hopc : e.opc = opcLi)
    (hmain : e.cpid = .main)
    (hin : relocOffsetInRange 4 sec (fileWord (frag.frAddress + pos))) :
    ((∃ buf', completeInsn seg frag pos e ⟨regs, ⟨.constant, c⟩⟩ buf = some buf' ∧
        immField (wordAt buf' pos) = namedHalf e c) ↔ ConstFits (liKind e) c) ∧
      (LinksTo map index sec (emitInsn seg frag pos e ⟨regs, ⟨.symbol sym, a⟩⟩ buf)
          (fun w => immField w = namedHalf e (map.symAddr sym + a)) ↔
        SymbolFits (liKind e) sym.isNumber (map.symAddr sym + a) a (sym.extra seg a)) :=
  ⟨const_half_iff hmem hopc hmain, symbol_half_iff hmem hopc hmain hin⟩

theorem loadImmediate_half_lui :
    (∃ buf', completeInsn sampleSeg ⟨0, 0⟩ 8 ⟨"lui", 0x04, .rdi, .li, .main, maskImmLi, opcLi⟩
        ⟨[1], ⟨.constant, 0x30001⟩⟩ (fun _ => 0) = some buf' ∧
      immField (wordAt buf' 8) = namedHalf ⟨"lui", 0x04, .rdi, .li, .main, maskImmLi, opcLi⟩
        0x30001) ∧
    LinksTo (sampleMap 0x12345) (fun _ => 1) sampleText
      (emitInsn sampleSeg ⟨0, 0⟩ 8 ⟨"lui", 0x04, .rdi, .li, .main, maskImmLi, opcLi⟩
        ⟨[1], ⟨.symbol (.plain (sampleGlobal .undefined 0)), 4⟩⟩ (fun _ => 0))
      (fun w => immField w = namedHalf ⟨"lui", 0x04, .rdi, .li, .main, maskImmLi, opcLi⟩
        ((sampleMap 0x12345).symAddr (.plain (sampleGlobal .undefined 0)) + 4)) :=
  (loadImmediate_half_iff (by decide) (by rfl) (by rfl) (by decide)).imp
    (fun h => h.2 (show lowHalf _ &&& ~~~highHalf _ = 0 by decide))
    (fun h => h.2 (show highHalf _ = highHalf _ by decide))

/-- `lui $1, 0x10002` loads 3 and not 1: the low half is still in the field. -/
theorem lui_keeps_low_half :
    ¬ ∃ buf', completeInsn sampleSeg ⟨0, 0⟩ 8 ⟨"lui", 0x04, .rdi, .li, .main, maskImmLi, opcLi⟩
        ⟨[1], ⟨.constant, 0x10002⟩⟩ (fun _ => 0) = some buf' ∧
      immField (wordAt buf' 8) = namedHalf ⟨"lui", 0x04, .rdi, .li, .main, maskImmLi, opcLi⟩
        0x10002 := by
  rw [const_half_iff (by decide) rfl rfl]
  change ¬ (lowHalf 0x10002 &&& ~~~highHalf 0x10002 = 0)
  decide

end FusionBinutils.Link
