import FusionBinutils.Gas.Fixups

/-! Fixups of data directives (gas/read.c) and what `md_apply_fix` does around them. -/
namespace FusionBinutils.Gas

open Opcode Bfd

variable {n i k : Nat} {v : Vma} {fix : FixS} {new : NewFix} {buf buf₀ : Contents} {p : Vma}
  {exp : ExpressionS} {frag : FragRef} {msgs : List String} {code : RelocCode} {c : InsnT}

/-- `memset (p, 0, size)`. -/
def clear (buf : Contents) (p : Vma) (size : Nat) : Contents :=
  fun q => if (q - p).toNat < size then 0 else buf q

/-- The code of a field of so many bytes. The switch has codes for 3 and 8 bytes as well; the port
does not know them. -/
def consReloc : Nat → Option RelocCode
  | 1 => some .r8
  | 2 => some .r16
  | 4 => some .r32
  | _ => none

/-- `emit_expr_fix` without a relocation of the parser's own: the frag, and the fixup with the
messages. -/
def emitExprFix (exp : ExpressionS) (nbytes : Nat) (frag : FragRef) (p : Vma) (buf : Contents) :
    Contents × Option (NewFix × List String) :=
  (clear buf p nbytes, (consReloc nbytes).map fun r => fixNewExp frag p nbytes exp false r)

/-- A later state of the fixup: only its symbols and numbers change. -/
structure NewFix.Becomes (new : NewFix) (fix : FixS) : Prop where
  frag : fix.fxFrag = new.frag
  pos : fix.fxWhere = new.pos
  size : fix.fxSize = new.size
  code : fix.fxRType = new.rType

/-- The `i`-th byte of a value in a field of `n` bytes. -/
def fieldByte (n : Nat) (v : Vma) (i : Nat) : BfdByte := byteOf (v >>> (8 * (n - 1 - i)))

/-- The value goes into the bytes of the field, and into no others. -/
def StoresOwn (fix : FixS) (v : Vma) (buf : Contents) : Prop :=
  ∃ ap, mdApplyFix fix v buf = some ap ∧
    (∀ i < fix.fxSize, ap.buf (fix.fxWhere + .ofNat 64 i) = fieldByte fix.fxSize v i) ∧
    ∀ q, (∀ i < fix.fxSize, q ≠ fix.fxWhere + .ofNat 64 i) → ap.buf q = buf q

/-- A word is or-ed at the field: one of four bytes may hold bits of the value already, a shorter
one must hold the value, with its bits also set at the end of the word. -/
def FieldReady (n : Nat) (v : Vma) (buf : Contents) (p : Vma) : Prop :=
  if n = 4 then ∀ i < 4, fieldByte 4 v i ||| buf (p + .ofNat 64 i) = fieldByte 4 v i
  else (∀ i < n, buf (p + .ofNat 64 i) = fieldByte n v i) ∧
    ∀ i < n, fieldByte n v i ||| buf (p + .ofNat 64 (4 - n + i)) = buf (p + .ofNat 64 (4 - n + i))

/-! The bytes that are written. -/

theorem byteOf_or (x y : Vma) : byteOf (x ||| y) = byteOf x ||| byteOf y := by
  apply BitVec.eq_of_toNat_eq
  rw [BitVec.toNat_or, byteOf_toNat, byteOf_toNat, byteOf_toNat, BitVec.toNat_or, Nat.or_mod_two_pow]

/-- The bytes that a load puts together. -/
theorem byteOf_bfdGetb32 (buf : Contents) (p : Vma) (hi : i < 4) :
    byteOf (bfdGetb32 buf p >>> (8 * (3 - i))) = buf (p + .ofNat 64 i) := by
  have h0 := (buf p).isLt
  have h1 := (buf (p + 1#64)).isLt
  have h2 := (buf (p + 2#64)).isLt
  have h3 := (buf (p + 3#64)).isLt
  apply BitVec.eq_of_toNat_eq
  rw [byteOf_toNat, BitVec.toNat_ushiftRight, Nat.shiftRight_eq_div_pow, bfdGetb32_toNat]
  match i, hi with
  | 0, _ =>
    rw [BitVec.add_zero]
    omega
  | 1, _ => omega
  | 2, _ => omega
  | 3, _ => omega

theorem bfdPutb32_byte (x : Vma) (buf : Contents) (p : Vma) (hi : i < 4) :
    bfdPutb32 x buf p (p + .ofNat 64 i) = byteOf (x >>> (8 * (3 - i))) := by
  obtain ⟨h0, h1, h2, h3⟩ := bfdPutb32_bytes x buf p
  match i, hi with
  | 0, _ => rwa [BitVec.add_zero]
  | 1, _ => exact h1
  | 2, _ => exact h2
  | 3, _ => exact h3

theorem orAtFix_byte (fix : FixS) (x : Vma) (buf : Contents) (hi : i < 4) :
    orAtFix fix x buf (fix.fxWhere + .ofNat 64 i) =
      byteOf (x >>> (8 * (3 - i))) ||| buf (fix.fxWhere + .ofNat 64 i) := by
  rw [orAtFix, bfdPutb32_byte _ _ _ hi, BitVec.ushiftRight_or_distrib, byteOf_or,
    byteOf_bfdGetb32 _ _ hi]

theorem orAtFix_of_ne (fix : FixS) (x : Vma) (buf : Contents) {q : Vma}
    (h : ∀ i < 4, q ≠ fix.fxWhere + .ofNat 64 i) : orAtFix fix x buf q = buf q := by
  apply bfdPutb32_of_ne
  refine ⟨?_, h 1 (by decide), h 2 (by decide), h 3 (by decide)⟩
  have h0 := h 0 (by decide)
  rwa [BitVec.add_zero] at h0

theorem consReloc_plain (h : consReloc n = some code) : code.Plain ∧ (n = 1 ∨ n = 2 ∨ n = 4) := by
  unfold consReloc at h
  split at h <;> cases h <;> simp [RelocCode.Plain]

/-- The value of a data fixup, cut down to its field. -/
theorem constReloc_toNat (h : consReloc n = some code)
    (hc : fusionApplyConstReloc code v = some c) : c.toNat = v.toNat % 2 ^ (8 * n) := by
  unfold consReloc at h
  split at h <;> cases h <;> cases hc
  · have hv := getImmSys_toNat (w := 64) (by decide) v
    rw [getImmSys, BitVec.and_comm] at hv
    rw [BitVec.toNat_setWidth, genSysImm, hv]
    omega
  · rw [BitVec.toNat_setWidth, getImmLi_toNat (by decide)]
    omega
  · rw [BitVec.toNat_setWidth]

theorem constReloc_byte (h : consReloc n = some code)
    (hc : fusionApplyConstReloc code v = some c) :
    byteOf (c.setWidth 64 >>> (8 * k)) = if k < n then byteOf (v >>> (8 * k)) else 0#8 := by
  have hnat := constReloc_toNat h hc
  have hshift : ∀ x : Vma, (byteOf (x >>> (8 * k))).toNat = x.toNat / 2 ^ (8 * k) % 2 ^ 8 := by
    intro x
    rw [byteOf_toNat, BitVec.toNat_ushiftRight, Nat.shiftRight_eq_div_pow]
  have hwide : (c.setWidth 64).toNat = v.toNat % 2 ^ (8 * n) := by
    rw [BitVec.toNat_setWidth_of_le (by decide), hnat]
  apply BitVec.eq_of_toNat_eq
  rw [hshift, hwide]
  split
  · next hk =>
    rw [hshift, show 8 * n = 8 * k + (8 + 8 * (n - k - 1)) by omega, Nat.pow_add,
      Nat.mod_mul_right_div_self, Nat.pow_add, Nat.mod_mul_right_mod]
  · next hk =>
    rw [Nat.div_eq_of_lt, Nat.zero_mod]
    · rfl
    · calc v.toNat % 2 ^ (8 * n) < 2 ^ (8 * n) := Nat.mod_lt _ (Nat.two_pow_pos _)
        _ ≤ 2 ^ (8 * k) := Nat.pow_le_pow_right (by decide) (by omega)

/-- What becomes of the four bytes that the routine writes. -/
theorem storesOwn_iff_bytes (hcode : consReloc fix.fxSize = some fix.fxRType) :
    StoresOwn fix v buf ↔ ∀ i < 4,
      (if 3 - i < fix.fxSize then byteOf (v >>> (8 * (3 - i))) else 0#8) |||
          buf (fix.fxWhere + .ofNat 64 i) =
        if i < fix.fxSize then fieldByte fix.fxSize v i else buf (fix.fxWhere + .ofNat 64 i) := by
  obtain ⟨hplain, hsize⟩ := consReloc_plain hcode
  obtain ⟨c, hc⟩ := hplain.const v
  have hap := mdApplyFix_plain buf hplain hc
  have hle : fix.fxSize ≤ 4 := by omega
  have hbyte : ∀ i < 4, orAtFix fix (c.setWidth 64) buf (fix.fxWhere + .ofNat 64 i) =
      (if 3 - i < fix.fxSize then byteOf (v >>> (8 * (3 - i))) else 0#8) |||
        buf (fix.fxWhere + .ofNat 64 i) := by
    intro i hi
    rw [orAtFix_byte fix _ buf hi, constReloc_byte hcode hc]
  constructor
  · rintro ⟨ap, h, hown, hout⟩ i hi
    cases hap.symm.trans h
    rw [← hbyte i hi]
    split
    · next hlt => exact hown i hlt
    · next hlt =>
      apply hout
      intro j hj he
      have hnat := congrArg BitVec.toNat ((BitVec.add_right_inj _).1 he)
      rw [BitVec.toNat_ofNat, BitVec.toNat_ofNat] at hnat
      omega
  · intro h
    refine ⟨_, hap, ?_, ?_⟩
    · intro i hi
      have := h i (by omega)
      rwa [← hbyte i (by omega), if_pos hi] at this
    · intro q hq
      by_cases hin : ∃ i < 4, q = fix.fxWhere + .ofNat 64 i
      · obtain ⟨i, hi, rfl⟩ := hin
        have := h i hi
        rwa [← hbyte i hi, if_neg fun hlt => hq i hlt rfl] at this
      · exact orAtFix_of_ne fix _ buf fun i hi he => hin ⟨i, hi, he⟩

theorem forall_lt_two {P : Nat → Prop} : (∀ i < 2, P i) ↔ P 0 ∧ P 1 := by
  simp only [Nat.forall_lt_succ_right, Nat.not_lt_zero, false_imp_iff, implies_true, true_and]

theorem forall_lt_four {P : Nat → Prop} : (∀ i < 4, P i) ↔ P 0 ∧ P 1 ∧ P 2 ∧ P 3 := by
  simp only [Nat.forall_lt_succ_right, Nat.not_lt_zero, false_imp_iff, implies_true, true_and,
    and_assoc]

theorem storesOwn_iff_ready (hcode : consReloc fix.fxSize = some fix.fxRType) :
    StoresOwn fix v buf ↔ FieldReady fix.fxSize v buf fix.fxWhere := by
  rw [storesOwn_iff_bytes hcode, forall_lt_four]
  obtain ⟨-, h | h | h⟩ := consReloc_plain hcode
  · simp [FieldReady, fieldByte, h]
  · rw [h, FieldReady, if_neg (by decide), forall_lt_two, forall_lt_two]
    simp [fieldByte, and_assoc]
  · simp [FieldReady, fieldByte, h, forall_lt_four]

/-- The bytes of a field are all zero when its value is. -/
theorem fieldByte_zero_iff (hn : n = 1 ∨ n = 2) :
    (∀ i < n, fieldByte n v i = 0#8) ↔ v.toNat % 2 ^ (8 * n) = 0 := by
  have hbyte : ∀ i, fieldByte n v i = 0#8 ↔ v.toNat / 2 ^ (8 * (n - 1 - i)) % 2 ^ 8 = 0 := by
    intro i
    rw [fieldByte, ← BitVec.toNat_inj, byteOf_toNat, BitVec.toNat_ushiftRight,
      Nat.shiftRight_eq_div_pow]
    rfl
  simp only [hbyte]
  rcases hn with rfl | rfl
  · simp
  · rw [forall_lt_two]
    omega

/-- With the field cleared, as it was left. -/
theorem ready_of_clear (hn : n = 1 ∨ n = 2 ∨ n = 4) (hzero : ∀ i < n, buf (p + .ofNat 64 i) = 0) :
    FieldReady n v buf p ↔ n = 4 ∨ (v.toNat % 2 ^ (8 * n) = 0) := by
  by_cases h4 : n = 4
  · subst h4
    refine iff_of_true ?_ (.inl rfl)
    intro i hi
    rw [hzero i hi]
    exact BitVec.or_zero
  · have hn : n = 1 ∨ n = 2 := by omega
    rw [FieldReady, if_neg h4, or_iff_right h4, ← fieldByte_zero_iff hn]
    constructor
    · rintro ⟨hown, -⟩ i hi
      rw [← hown i hi, hzero i hi]
      rfl
    · intro h
      refine ⟨?_, ?_⟩
      · intro i hi
        rw [hzero i hi, h i hi]
        rfl
      · intro i hi
        rw [h i hi, BitVec.zero_or]

theorem fixNewExp_fields (frag : FragRef) (p : Vma) (size : Nat) (exp : ExpressionS) (pcrel : Bool)
    (r : RelocCode) : (fixNewExp frag p size exp pcrel r).1.pos = p ∧
      (fixNewExp frag p size exp pcrel r).1.size = size ∧
      (fixNewExp frag p size exp pcrel r).1.rType = r := by
  unfold fixNewExp
  split <;> exact ⟨rfl, rfl, rfl⟩

theorem emitExprFix_made (h : (emitExprFix exp n frag p buf₀).2 = some (new, msgs)) :
    consReloc n = some new.rType ∧ new.pos = p ∧ new.size = n := by
  obtain ⟨r, hr, he⟩ := Option.map_eq_some_iff.1 h
  obtain ⟨hpos, hsize, htype⟩ := fixNewExp_fields frag p n exp false r
  rw [he] at hpos hsize htype
  exact ⟨by rw [hr, htype], hpos, hsize⟩

theorem clear_field (buf : Contents) (p : Vma) (hi : i < n) (hn : n ≤ 4) :
    clear buf p n (p + .ofNat 64 i) = 0 := by
  apply if_pos
  rw [add_sub_cancel_left, BitVec.toNat_ofNat]
  omega

/-- A data fixup stores its value into its own bytes, and nowhere else, exactly when they are
ready for it. In the cleared bytes that `emit_expr_fix` leaves this means four bytes, or zero. -/
theorem dataFixup_iff (hmade : (emitExprFix exp n frag p buf₀).2 = some (new, msgs))
    (hfix : new.Becomes fix) (v : Vma) (buf : Contents) :
    (StoresOwn fix v buf ↔ FieldReady n v buf p) ∧
      ((∀ i < n, buf (p + .ofNat 64 i) = (emitExprFix exp n frag p buf₀).1 (p + .ofNat 64 i)) →
        (StoresOwn fix v buf ↔ n = 4 ∨ v.toNat % 2 ^ (8 * n) = 0)) := by
  obtain ⟨hcode, hpos, hsize⟩ := emitExprFix_made hmade
  have hn := (consReloc_plain hcode).2
  rw [← hfix.code] at hcode
  rw [← hfix.size] at hsize
  rw [← hfix.pos] at hpos
  subst hsize hpos
  have hready := @storesOwn_iff_ready v fix buf hcode
  refine ⟨hready, ?_⟩
  intro hkept
  rw [hready]
  apply ready_of_clear hn
  intro i hi
  rw [hkept i hi]
  exact clear_field buf₀ _ hi (by omega)

/-! Fixups at the start of a frag, for a difference of two symbols that comes to 5. -/

def sampleDifference : ExpressionS := ⟨.subtract (.plain zeroSymbol) zeroSymbol, 5⟩

def sampleDataFix (n : Nat) (code : RelocCode) : FixS where
  fxFrag := ⟨0, 0⟩
  fxWhere := 0
  fxSize := n
  fxAddsy := none
  fxSubsy := none
  fxOffset := 5
  fxAddnumber := 0
  fxDone := false
  fxPcrel := false
  fxRType := code

theorem dataFixup_word : StoresOwn (sampleDataFix 4 .r32) 5 fun _ => 0 :=
  ((dataFixup_iff
    (show (emitExprFix sampleDifference 4 ⟨0, 0⟩ 0 fun _ => 0).2 = some (_, []) from rfl)
    ⟨rfl, rfl, rfl, rfl⟩ 5 fun _ => 0).2 (by decide)).2 (.inl rfl)

/-- A byte 5 is or-ed onto the third byte behind its place. -/
theorem byte_lands_behind :
    ∃ new, (emitExprFix sampleDifference 1 ⟨0, 0⟩ 0 fun _ => 0).2 = some (new, []) ∧
      new.Becomes (sampleDataFix 1 .r8) ∧
      ¬ StoresOwn (sampleDataFix 1 .r8) 5 (emitExprFix sampleDifference 1 ⟨0, 0⟩ 0 fun _ => 0).1 := by
  refine ⟨_, rfl, ⟨rfl, rfl, rfl, rfl⟩, ?_⟩
  rw [storesOwn_iff_ready rfl]
  rintro ⟨hown, -⟩
  exact absurd (hown 0 (by decide)) (by decide)

end FusionBinutils.Gas
