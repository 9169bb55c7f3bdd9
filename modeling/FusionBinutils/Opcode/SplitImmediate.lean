import FusionBinutils.Opcode.Encoding

/-! The macros of the split immediates (opcode/fusion.h, opcode/fusion-opc.h) against each other.
The arguments and three of the expansions stand without parentheses, so the text of an argument
matters where a macro masks it. -/
namespace FusionBinutils.Opcode

/-- The text of an argument: a name or an expression in parentheses, or two of them with `|` between
them. -/
inductive ArgText
  | primary (x : InsnT)
  | or (x y : InsnT)

/-- The value of the text by itself. -/
def ArgText.value : ArgText → InsnT
  | .primary x => x
  | .or x y => x ||| y

/-- `text & m`: the mask belongs to what is next to it. -/
def ArgText.and (m : InsnT) : ArgText → InsnT
  | .primary x => x &&& m
  | .or x y => x ||| (y &&& m)

/-- The expansion of `GET_IMM_S`. -/
def getImmSText (i : InsnT) : ArgText := .or (maskImmLoS &&& i) ((maskImmHiS &&& i) >>> 10)

/-- The expansion of `GET_IMM_J`. -/
def getImmJText (i : InsnT) : ArgText := .or (maskImmLoJ &&& i) ((maskImmHiJ &&& i) >>> shftImmHiJ)

/-- The expansion of `GET_IMM_B`. -/
def getImmBText (i : InsnT) : ArgText :=
  .or ((maskImmLoB &&& i) >>> shftImmLoB) ((maskImmHiB &&& i) >>> shftImmHiB)

/-- `GEN_S_IMM` of an argument with the text. -/
def genSImmText (imm : ArgText) : InsnT :=
  (imm.and splitSImmHi <<< shftImmHiS ||| imm.and splitSImmLo) &&& maskImmS

/-- `GEN_J_IMM` of an argument with the text. -/
def genJImmText (imm : ArgText) : InsnT :=
  (imm.and splitJImmHi <<< shftImmHiJ ||| imm.and splitJImmLo) &&& maskImmJ

/-- `GEN_B_IMM` of an argument with the text. -/
def genBImmText (imm : ArgText) : InsnT :=
  (imm.and splitBImmHi <<< shftImmHiB ||| imm.and splitBImmLo <<< shftImmLoB) &&& maskImmB

variable {v w x y : InsnT}

/-! An argument in parentheses is used by its value. -/

theorem genSImmText_primary (x : InsnT) : genSImmText (.primary x) = genSImm x := rfl

theorem genJImmText_primary (x : InsnT) : genJImmText (.primary x) = genJImm x := rfl

theorem genBImmText_primary (x : InsnT) : genBImmText (.primary x) = genBImm x := rfl

theorem value_getImmSText (i : InsnT) : (getImmSText i).value = getImmS i := rfl

theorem value_getImmJText (i : InsnT) : (getImmJText i).value = getImmJ i := rfl

theorem value_getImmBText (i : InsnT) : (getImmBText i).value = getImmB i := rfl

/-! The macros by their values -/

theorem getImmB_genBImm (v : InsnT) : (getImmB (genBImm v)).toNat = v.toNat % 2 ^ 14 := by
  rw [getImmB_toNat (by decide), genBImm_toNat (by decide)]
  omega

theorem getImmJ_genJImm (v : InsnT) : (getImmJ (genJImm v)).toNat = v.toNat % 2 ^ 21 := by
  rw [getImmJ_toNat (by decide), genJImm_toNat (by decide)]
  omega

theorem getImmS_genSImm_word (v : InsnT) : (getImmS (genSImm v)).toNat = v.toNat % 2 ^ 14 := by
  rw [getImmS_toNat (by decide), genSImm_toNat (by decide)]
  omega

theorem genSImm_getImmS (w : InsnT) : genSImm (getImmS w) = w &&& maskImmS := by
  have hm : (maskImmS : InsnT) = maskImmHiS ||| maskImmLoS := rfl
  apply BitVec.eq_of_toNat_eq
  rw [genSImm_toNat (by decide), getImmS_toNat (by decide),
    BitField.toNat_and_split hm 21 3 0 11 rfl rfl (by decide)]
  omega

theorem genJImm_getImmJ (w : InsnT) : genJImm (getImmJ w) = w &&& maskImmJ := by
  have hm : (maskImmJ : InsnT) = maskImmHiJ ||| maskImmLoJ := rfl
  apply BitVec.eq_of_toNat_eq
  rw [genJImm_toNat (by decide), getImmJ_toNat (by decide),
    BitField.toNat_and_split hm 21 5 0 16 rfl rfl (by decide)]
  omega

theorem genBImm_getImmB (w : InsnT) : genBImm (getImmB w) = w &&& maskImmB := by
  have hm : (maskImmB : InsnT) = maskImmHiB ||| maskImmLoB := rfl
  apply BitVec.eq_of_toNat_eq
  rw [genBImm_toNat (by decide), getImmB_toNat (by decide),
    BitField.toNat_and_split hm 21 5 2 9 rfl rfl (by decide)]
  omega

/-! The macros by their texts -/

/-- Without its parentheses the low part is not masked when the high part is taken. -/
theorem gen_or {lo a : InsnT} (hi m b : InsnT) (s t : Nat) (ha : a &&& lo = a) :
    ((a ||| (b &&& hi)) <<< s ||| (a ||| (b &&& lo)) <<< t) &&& m =
      (a <<< s &&& m) ||| ((((a ||| b) &&& hi) <<< s ||| ((a ||| b) &&& lo) <<< t) &&& m) := by
  have hhigh : a ||| (b &&& hi) = a ||| ((a ||| b) &&& hi) := by
    rw [BitVec.and_or_distrib_right, ← BitVec.or_assoc]
    congr 1
    ext i hi
    simp only [BitVec.getElem_or, BitVec.getElem_and, Bool.eq_self_or, Bool.and_eq_true, and_imp]
    exact fun ha _ => ha
  have hlow : a ||| (b &&& lo) = (a ||| b) &&& lo := by
    rw [BitVec.and_or_distrib_right, ha]
  rw [hhigh, hlow, BitVec.shiftLeft_or_distrib, BitVec.or_assoc, BitVec.and_or_distrib_right]

/-- What the low part leaves where it does not belong. -/
theorem genSImmText_get (w : InsnT) : genSImmText (getImmSText w) =
    ((maskImmLoS &&& w) <<< 10 &&& maskImmS) ||| (w &&& maskImmS) := by
  have ha : maskImmLoS &&& w &&& splitSImmLo = maskImmLoS &&& w := by
    rw [BitVec.and_assoc, BitVec.and_comm w, ← BitVec.and_assoc]
    rfl
  have h := gen_or splitSImmHi maskImmS ((maskImmHiS &&& w) >>> 10) 10 0 ha
  rw [BitVec.shiftLeft_zero, BitVec.shiftLeft_zero] at h
  rw [← genSImm_getImmS w]
  exact h

theorem genJImmText_get (w : InsnT) : genJImmText (getImmJText w) =
    ((maskImmLoJ &&& w) <<< 5 &&& maskImmJ) ||| (w &&& maskImmJ) := by
  have ha : maskImmLoJ &&& w &&& splitJImmLo = maskImmLoJ &&& w := by
    rw [BitVec.and_assoc, BitVec.and_comm w, ← BitVec.and_assoc]
    rfl
  have h := gen_or splitJImmHi maskImmJ ((maskImmHiJ &&& w) >>> 5) 5 0 ha
  rw [BitVec.shiftLeft_zero, BitVec.shiftLeft_zero] at h
  rw [← genJImm_getImmJ w]
  exact h

theorem getLsbD_spill (a m : InsnT) (s : Nat) {i : Nat} (hi : i < 32) :
    ((a &&& w) <<< s &&& m).getLsbD i =
      ((!decide (i < s) && a.getLsbD (i - s) && m.getLsbD i) && w.getLsbD (i - s)) := by
  rw [BitVec.getLsbD_and, BitVec.getLsbD_shiftLeft, BitVec.getLsbD_and, decide_eq_true hi,
    Bool.true_and]
  cases w.getLsbD (i - s) <;> simp

theorem genBImmText_get (w : InsnT) : genBImmText (getImmBText w) = w &&& maskImmB := by
  have ha : (maskImmLoB &&& w) >>> 2 &&& splitBImmLo = (maskImmLoB &&& w) >>> 2 := by
    rw [BitVec.ushiftRight_and_distrib, BitVec.and_assoc, BitVec.and_comm (w >>> 2),
      ← BitVec.and_assoc]
    rfl
  have h := gen_or splitBImmHi maskImmB ((maskImmHiB &&& w) >>> 12) 12 2 ha
  -- the field of the low part is far enough below the mask's high one
  have hnone : (maskImmLoB &&& w) >>> 2 <<< 12 &&& maskImmB = 0#32 := by
    have hplaces : ∀ i < 32, (!decide (i < 12) && ((maskImmLoB : InsnT) >>> 2).getLsbD (i - 12) &&
        (maskImmB : InsnT).getLsbD i) = false := by decide
    apply BitVec.eq_of_getLsbD_eq
    intro i hi
    rw [BitVec.ushiftRight_and_distrib, getLsbD_spill _ _ _ hi, hplaces i hi, Bool.false_and,
      BitVec.getLsbD_zero]
  rw [hnone, BitVec.zero_or] at h
  rw [← genBImm_getImmB w]
  exact h

theorem or_eq_right_iff : x ||| y = y ↔ ∀ i < 32, x.getLsbD i = true → y.getLsbD i = true := by
  constructor
  · intro h i _ hx
    rw [← h, BitVec.getLsbD_or, hx, Bool.true_or]
  · intro h
    apply BitVec.eq_of_getLsbD_eq
    intro i hi
    rw [BitVec.getLsbD_or]
    cases hx : x.getLsbD i with
    | false => rw [Bool.false_or]
    | true => rw [h i hi hx, Bool.or_true]

/-- In the format of stores bit 0 comes to bit 10 as well. -/
theorem store_text_iff :
    genSImmText (getImmSText w) = w &&& maskImmS ↔ (w.getLsbD 0 → w.getLsbD 10) := by
  have hplaces : ∀ i < 32, (!decide (i < 10) && (maskImmLoS : InsnT).getLsbD (i - 10) &&
      (maskImmS : InsnT).getLsbD i) = decide (i = 10) := by decide
  have hten : (w &&& maskImmS).getLsbD 10 = w.getLsbD 10 :=
    (BitVec.getLsbD_and ..).trans (Bool.and_true _)
  rw [genSImmText_get, or_eq_right_iff]
  constructor
  · intro h hzero
    rw [← hten]
    apply h 10 (by decide)
    rw [getLsbD_spill _ _ _ (by decide), hplaces 10 (by decide)]
    exact hzero
  · intro h i hi hbit
    rw [getLsbD_spill _ _ _ hi, hplaces i hi, Bool.and_eq_true, decide_eq_true_eq] at hbit
    obtain ⟨rfl, hzero⟩ := hbit
    rw [hten]
    exact h hzero

/-- In the formats of jumps the bits 0 to 10 come to the bits 5 to 15 as well. -/
theorem jump_text_iff : genJImmText (getImmJText w) = w &&& maskImmJ ↔
    ∀ k ≤ 10, w.getLsbD k → w.getLsbD (k + 5) := by
  have hplaces : ∀ i < 32, (!decide (i < 5) && (maskImmLoJ : InsnT).getLsbD (i - 5) &&
      (maskImmJ : InsnT).getLsbD i) = decide (5 ≤ i ∧ i ≤ 15) := by decide
  have hmask : ∀ i ≤ 15, (maskImmJ : InsnT).getLsbD i = true := by decide
  rw [genJImmText_get, or_eq_right_iff]
  constructor
  · intro h k hk hbit
    have hspill : ((maskImmLoJ &&& w) <<< 5 &&& maskImmJ).getLsbD (k + 5) = true := by
      rw [getLsbD_spill _ _ _ (by omega), hplaces (k + 5) (by omega), Nat.add_sub_cancel, hbit,
        decide_eq_true ⟨by omega, by omega⟩]
      rfl
    have hword := h (k + 5) (by omega) hspill
    rw [BitVec.getLsbD_and, Bool.and_eq_true] at hword
    exact hword.1
  · intro h i hi hbit
    rw [getLsbD_spill _ _ _ hi, hplaces i hi, Bool.and_eq_true, decide_eq_true_eq] at hbit
    obtain ⟨⟨hlo, hle⟩, hbit⟩ := hbit
    have hword := h (i - 5) (by omega) hbit
    rw [Nat.sub_add_cancel hlo] at hword
    rw [BitVec.getLsbD_and, hword, hmask i hle]
    rfl

/-- The fields beside the immediate that `MAKE_S_TYPE` places. -/
def otherFieldsS (funct rsa rsb : InsnT) : List InsnT :=
  [(funct &&& 0x3#32) <<< 24, (rsa &&& 0x1f#32) <<< 16, (rsb &&& 0x1f#32) <<< 11,
    (opcSt &&& 0x3f#32) <<< 26]

/-- The fields beside the immediate that `MAKE_J_TYPE` and `MAKE_JL_TYPE` place. -/
def otherFieldsJ (rsa : InsnT) : List InsnT :=
  [genRsa rsa, (opcJmp &&& 0x3f#32) <<< 26, (rsa &&& 0x1f#32) <<< 16, (opcJlnk &&& 0x3f#32) <<< 26]

/-- The fields beside the immediate that `MAKE_B_TYPE` places. -/
def otherFieldsB (rsa rsb funct : InsnT) : List InsnT :=
  [(rsa &&& 0x1f#32) <<< 16, (rsb &&& 0x1f#32) <<< 11, funct &&& 0x3#32,
    (opcBranch &&& 0x3f#32) <<< 26]

/-- A field in its place is disjoint from a mask that is clear there. -/
theorem field_disjoint {m low : InsnT} (x : InsnT) (s : Nat) (h : low <<< s &&& m = 0#32) :
    (x &&& low) <<< s &&& m = 0#32 := by
  rw [BitVec.shiftLeft_and_distrib, BitVec.and_assoc, h, BitVec.and_zero]

theorem otherFieldsS_disjoint (funct rsa rsb : InsnT) :
    ∀ f ∈ otherFieldsS funct rsa rsb, f &&& maskImmS = 0#32 := by
  intro f hf
  simp only [otherFieldsS, List.mem_cons, List.not_mem_nil, or_false] at hf
  rcases hf with rfl | rfl | rfl | rfl
  · exact field_disjoint funct 24 rfl
  · exact field_disjoint rsa 16 rfl
  · exact field_disjoint rsb 11 rfl
  · rfl

theorem otherFieldsJ_disjoint (rsa : InsnT) :
    ∀ f ∈ otherFieldsJ rsa, f &&& maskImmJ = 0#32 := by
  intro f hf
  simp only [otherFieldsJ, List.mem_cons, List.not_mem_nil, or_false] at hf
  rcases hf with rfl | rfl | rfl | rfl
  · rw [genRsa, BitVec.and_assoc]
    exact BitVec.and_zero
  · rfl
  · exact field_disjoint rsa 16 rfl
  · rfl

theorem otherFieldsB_disjoint (rsa rsb funct : InsnT) :
    ∀ f ∈ otherFieldsB rsa rsb funct, f &&& maskImmB = 0#32 := by
  intro f hf
  simp only [otherFieldsB, List.mem_cons, List.not_mem_nil, or_false] at hf
  rcases hf with rfl | rfl | rfl | rfl
  · exact field_disjoint rsa 16 rfl
  · exact field_disjoint rsb 11 rfl
  · rw [BitVec.and_assoc]
    exact BitVec.and_zero
  · rfl

/-- What the macros of the split immediates promise of a value and of a word. -/
structure SplitInverse (v w : InsnT) : Prop where
  store : (getImmSText (genSImm v)).value.toNat = v.toNat % 2 ^ 14
  branch : (getImmBText (genBImm v)).value.toNat = v.toNat % 2 ^ 14
  jump : (getImmJText (genJImm v)).value.toNat = v.toNat % 2 ^ 21
  storeWord : genSImmText (getImmSText w) = w &&& maskImmS
  branchWord : genBImmText (getImmBText w) = w &&& maskImmB
  jumpWord : genJImmText (getImmJText w) = w &&& maskImmJ
  storeFields (funct rsa rsb : InsnT) : ∀ f ∈ otherFieldsS funct rsa rsb, f &&& maskImmS = 0#32
  branchFields (rsa rsb funct : InsnT) : ∀ f ∈ otherFieldsB rsa rsb funct, f &&& maskImmB = 0#32
  jumpFields (rsa : InsnT) : ∀ f ∈ otherFieldsJ rsa, f &&& maskImmJ = 0#32

/-- The promise is kept for the words in which the misplaced bits of the low part are set anyway,
and for every word when the part taken out is in a variable or in parentheses. -/
theorem splitInverse_iff (v w : InsnT) :
    (SplitInverse v w ↔
      (w.getLsbD 0 → w.getLsbD 10) ∧ ∀ k ≤ 10, w.getLsbD k → w.getLsbD (k + 5)) ∧
      genSImmText (.primary (getImmSText w).value) = w &&& maskImmS ∧
      genBImmText (.primary (getImmBText w).value) = w &&& maskImmB ∧
      genJImmText (.primary (getImmJText w).value) = w &&& maskImmJ := by
  refine ⟨⟨?_, ?_⟩, genSImm_getImmS w, genBImm_getImmB w, genJImm_getImmJ w⟩
  · intro h
    exact ⟨store_text_iff.mp h.storeWord, jump_text_iff.mp h.jumpWord⟩
  · rintro ⟨hstore, hjump⟩
    exact {
      store := getImmS_genSImm_word v
      branch := getImmB_genBImm v
      jump := getImmJ_genJImm v
      storeWord := store_text_iff.mpr hstore
      branchWord := genBImmText_get w
      jumpWord := jump_text_iff.mpr hjump
      storeFields := otherFieldsS_disjoint
      branchFields := otherFieldsB_disjoint
      jumpFields := otherFieldsJ_disjoint }

/-- `GEN_S_IMM (GET_IMM_S (1))` is `0x401`. -/
theorem bit_taken_twice :
    genSImmText (getImmSText 1#32) = 0x401#32 ∧ ¬SplitInverse 0#32 1#32 := by
  refine ⟨rfl, ?_⟩
  intro h
  exact absurd h.storeWord (by decide)

end FusionBinutils.Opcode
