import FusionBinutils.Opcode.Encoding

/-! Big-endian access to section contents (libbfd.c). -/
namespace FusionBinutils.Bfd

/-- The host memory seen from a `contents` pointer. Offsets below the section size are the
section's buffer; the others are whatever lies around it. -/
abbrev Contents := Vma → BfdByte

def byteOf (v : Vma) : BfdByte := (v &&& 0xff#64).setWidth 8

def bfdGet8 (c : Contents) (p : Vma) : Vma := (c p).setWidth 64

def bfdPut8 (data : Vma) (c : Contents) (p : Vma) : Contents :=
  Function.update c p (byteOf data)

def bfdGetb16 (c : Contents) (p : Vma) : Vma :=
  (c p).setWidth 64 <<< 8 ||| (c (p + 1#64)).setWidth 64

def bfdPutb16 (data : Vma) (c : Contents) (p : Vma) : Contents :=
  Function.update (Function.update c p (byteOf (data >>> 8))) (p + 1#64) (byteOf data)

def bfdGetb32 (c : Contents) (p : Vma) : Vma :=
  (c p).setWidth 64 <<< 24 ||| (c (p + 1#64)).setWidth 64 <<< 16 |||
    (c (p + 2#64)).setWidth 64 <<< 8 ||| (c (p + 3#64)).setWidth 64

def bfdPutb32 (data : Vma) (c : Contents) (p : Vma) : Contents :=
  Function.update (Function.update (Function.update (Function.update c
    p (byteOf (data >>> 24))) (p + 1#64) (byteOf (data >>> 16)))
    (p + 2#64) (byteOf (data >>> 8))) (p + 3#64) (byteOf data)

def bfdGetb64 (c : Contents) (p : Vma) : Vma :=
  bfdGetb32 c p <<< 32 ||| bfdGetb32 c (p + 4#64)

def bfdPutb64 (data : Vma) (c : Contents) (p : Vma) : Contents :=
  bfdPutb32 data (bfdPutb32 (data >>> 32) c p) (p + 4#64)

/-- The instruction word stored at an offset. -/
def wordAt (c : Contents) (p : Vma) : InsnT := (bfdGetb32 c p).setWidth 32

theorem offsets_ne (p : Vma) : p + 1#64 ≠ p ∧ p + 2#64 ≠ p ∧ p + 3#64 ≠ p ∧
    p + 2#64 ≠ p + 1#64 ∧ p + 3#64 ≠ p + 1#64 ∧ p + 3#64 ≠ p + 2#64 := by
  refine ⟨?_, ?_, ?_, ?_, ?_, ?_⟩ <;> (intro h; have := congrArg BitVec.toNat h; bv_omega)

/-- A store touches its four bytes only. -/
theorem bfdPutb32_of_ne {data : Vma} {c : Contents} {p q : Vma}
    (h : q ≠ p ∧ q ≠ p + 1#64 ∧ q ≠ p + 2#64 ∧ q ≠ p + 3#64) : bfdPutb32 data c p q = c q := by
  obtain ⟨h0, h1, h2, h3⟩ := h
  simp [bfdPutb32, Function.update, h0, h1, h2, h3]

theorem bfdPutb32_bytes (data : Vma) (c : Contents) (p : Vma) :
    bfdPutb32 data c p p = byteOf (data >>> 24) ∧
      bfdPutb32 data c p (p + 1#64) = byteOf (data >>> 16) ∧
      bfdPutb32 data c p (p + 2#64) = byteOf (data >>> 8) ∧
      bfdPutb32 data c p (p + 3#64) = byteOf data := by
  obtain ⟨h1, h2, h3, h21, h31, h32⟩ := offsets_ne p
  simp [bfdPutb32, Function.update, Ne.symm h1, Ne.symm h2, Ne.symm h3, Ne.symm h21,
    Ne.symm h31, Ne.symm h32]

theorem byteOf_toNat (v : Vma) : (byteOf v).toNat = v.toNat % 2 ^ 8 := by
  have h := BitField.toNat_and_field (x := v) (m := 0xff#64) 0 8 (by decide)
  rw [byteOf, BitVec.toNat_setWidth, h]
  omega

theorem bfdGetb32_toNat (c : Contents) (p : Vma) : (bfdGetb32 c p).toNat =
    (c p).toNat * 2 ^ 24 + (c (p + 1#64)).toNat * 2 ^ 16 + (c (p + 2#64)).toNat * 2 ^ 8 +
      (c (p + 3#64)).toNat := by
  have shifted : ∀ (b : BfdByte) (k : Nat), k ≤ 24 →
      (b.setWidth 64 <<< k).toNat = b.toNat * 2 ^ k := by
    intro b k hk
    have hb := b.isLt
    rw [BitVec.toNat_shiftLeft, BitVec.toNat_setWidth_of_le (by decide), Nat.shiftLeft_eq]
    apply Nat.mod_eq_of_lt
    calc b.toNat * 2 ^ k ≤ b.toNat * 2 ^ 24 :=
          Nat.mul_le_mul_left _ (Nat.pow_le_pow_right (by decide) hk)
      _ < 2 ^ 64 := by omega
  have h0 := (c p).isLt
  have h1 := (c (p + 1#64)).isLt
  have h2 := (c (p + 2#64)).isLt
  have h3 := (c (p + 3#64)).isLt
  have e3 : ((c (p + 3#64)).setWidth 64).toNat = (c (p + 3#64)).toNat :=
    BitVec.toNat_setWidth_of_le (by decide)
  have e2 := shifted (c (p + 2#64)) 8 (by decide)
  have e1 := shifted (c (p + 1#64)) 16 (by decide)
  have e01 := BitField.toNat_or_high_low (b := (c (p + 1#64)).setWidth 64 <<< 16) 24 _
    (shifted (c p) 24 (by decide)) (by omega)
  have e012 := BitField.toNat_or_high_low (b := (c (p + 2#64)).setWidth 64 <<< 8) 16
    ((c p).toNat * 2 ^ 8 + (c (p + 1#64)).toNat) (by rw [e01]; omega) (by omega)
  rw [bfdGetb32, BitField.toNat_or_high_low 8 ((c p).toNat * 2 ^ 16 +
    (c (p + 1#64)).toNat * 2 ^ 8 + (c (p + 2#64)).toNat) (by rw [e012]; omega) (by omega)]
  omega

theorem bfdGetb32_lt (c : Contents) (p : Vma) : (bfdGetb32 c p).toNat < 2 ^ 32 := by
  have h0 := (c p).isLt
  have h1 := (c (p + 1#64)).isLt
  have h2 := (c (p + 2#64)).isLt
  have h3 := (c (p + 3#64)).isLt
  rw [bfdGetb32_toNat]
  omega

/-- What a load returns is the stored word, zero-extended. -/
theorem bfdGetb32_eq_wordAt (c : Contents) (p : Vma) :
    bfdGetb32 c p = (wordAt c p).setWidth 64 := by
  apply BitVec.eq_of_toNat_eq
  have h := bfdGetb32_lt c p
  rw [wordAt, BitVec.toNat_setWidth, BitVec.toNat_setWidth]
  omega

@[simp]
theorem wordAt_bfdPutb32 (data : Vma) (c : Contents) (p : Vma) :
    wordAt (bfdPutb32 data c p) p = data.setWidth 32 := by
  obtain ⟨b0, b1, b2, b3⟩ := bfdPutb32_bytes data c p
  apply BitVec.eq_of_toNat_eq
  rw [wordAt, BitVec.toNat_setWidth, bfdGetb32_toNat, b0, b1, b2, b3, BitVec.toNat_setWidth]
  simp only [byteOf_toNat, BitVec.toNat_ushiftRight, Nat.shiftRight_eq_div_pow]
  omega

end FusionBinutils.Bfd
