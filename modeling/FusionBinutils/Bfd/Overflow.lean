import FusionBinutils.Bfd.Reloc

/-! The two overflow checks of relocation processing, and what they test. -/
namespace FusionBinutils.Bfd

open BitField

/-- `bfd_check_overflow`. -/
def bfdCheckOverflow (how : ComplainOverflow) (bitsize rightshift addrsize : Nat)
    (relocation : Vma) : RelocStatus :=
  let fieldmask := nOnes bitsize
  let addrmask := nOnes addrsize ||| (fieldmask <<< rightshift)
  let a := (relocation &&& addrmask) >>> rightshift
  let signedCheck (signmask : Vma) : RelocStatus :=
    let ss := a &&& signmask
    if ss ≠ 0 ∧ ss ≠ (addrmask >>> rightshift) &&& signmask then .overflow else .ok
  match how with
  | .dont => .ok
  | .signed => signedCheck (~~~(fieldmask >>> 1))
  | .bitfield => signedCheck (~~~fieldmask)
  | .unsigned => if a &&& ~~~fieldmask ≠ 0 then .overflow else .ok

/-- `_bfd_relocate_contents` for addresses of any width. -/
def relocateContents (bitsPerAddress : Nat) (howto : RelocHowto) (relocation : Vma) (c : Contents)
    (location : Vma) : Option (RelocStatus × Contents) :=
  let relocation := if howto.size < 0 then -relocation else relocation
  let go (get : Contents → Vma → Vma) (put : Vma → Contents → Vma → Contents) :=
    let x := get c location
    some (relocateContentsOverflow bitsPerAddress howto relocation x,
      put (relocateContentsField howto relocation x) c location)
  match bfdGetRelocSize howto with
  | some 0 => some (.ok, c)
  | some 1 => go bfdGet8 bfdPut8
  | some 2 => go bfdGetb16 bfdPutb16
  | some 4 => go bfdGetb32 bfdPutb32
  | some 8 => go bfdGetb64 bfdPutb64
  | _ => none

theorem bfdRelocateContents_eq (howto : RelocHowto) (relocation : Vma) (c : Contents)
    (location : Vma) : bfdRelocateContents howto relocation c location
      = relocateContents bfdArchBitsPerAddress howto relocation c location := rfl

/-- The value that `_bfd_relocate_contents` relocates with: "If the size is negative, negate
RELOCATION." -/
def RelocHowto.taken (howto : RelocHowto) (relocation : Vma) : Vma :=
  if howto.size < 0 then -relocation else relocation

/-- The howto has a field that `_bfd_relocate_contents` reads and writes. -/
def RelocHowto.HasField (howto : RelocHowto) : Prop :=
  bfdGetRelocSize howto = some 1 ∨ bfdGetRelocSize howto = some 2 ∨
    bfdGetRelocSize howto = some 4 ∨ bfdGetRelocSize howto = some 8

/-- The value as an address, shifted right, is a signed number of `bitsize` bits. -/
def ShiftedFitsSigned (bitsize rightshift addrsize : Nat) (v : Vma) : Prop :=
  -2 ^ (bitsize - 1) ≤ (v.setWidth addrsize).toInt / 2 ^ rightshift ∧
    (v.setWidth addrsize).toInt / 2 ^ rightshift < 2 ^ (bitsize - 1)

/-- The value as an address, shifted right, is an unsigned number of `bitsize` bits. -/
def ShiftedFitsUnsigned (bitsize rightshift addrsize : Nat) (v : Vma) : Prop :=
  (v.setWidth addrsize).toNat / 2 ^ rightshift < 2 ^ bitsize

variable {bitsize rightshift addrsize : Nat} {howto : RelocHowto} {relocation v x : Vma}

/-! Without bits of the field to add, both checks are one. -/

/-- The overflow part of `_bfd_relocate_contents`, when no bits of the field are added. -/
theorem relocateContentsOverflow_eq (hsrc : howto.srcMask = 0) :
    relocateContentsOverflow addrsize howto v x
      = bfdCheckOverflow howto.complainOnOverflow howto.bitsize howto.rightshift addrsize v := by
  have hb : (x &&& howto.srcMask &&& (nOnes addrsize ||| nOnes howto.bitsize <<< howto.rightshift))
      >>> howto.bitpos = 0 := by
    simp [hsrc]
  have hs : (~~~howto.srcMask >>> 1 &&& howto.srcMask) >>> howto.bitpos = 0 := by
    simp [hsrc]
  have ha : (v &&& (nOnes addrsize ||| nOnes howto.bitsize <<< howto.rightshift))
      >>> howto.rightshift
      &&& (nOnes addrsize ||| nOnes howto.bitsize <<< howto.rightshift) >>> howto.rightshift
      = (v &&& (nOnes addrsize ||| nOnes howto.bitsize <<< howto.rightshift))
        >>> howto.rightshift := by
    rw [← BitVec.ushiftRight_and_distrib, BitVec.and_assoc, BitVec.and_self]
  unfold relocateContentsOverflow bfdCheckOverflow
  cases howto.complainOnOverflow with
  | dont => rfl
  | bitfield => simp [hb, hs]
  | signed => simp [hb, hs]
  | unsigned => simp [hb, ha]

theorem relocateContents_status (addrsize : Nat) (relocation : Vma) (hsrc : howto.srcMask = 0)
    (hfield : howto.HasField) (c : Contents)
    (location : Vma) :
    (relocateContents addrsize howto relocation c location).map Prod.fst
      = some (bfdCheckOverflow howto.complainOnOverflow howto.bitsize howto.rightshift addrsize
          (howto.taken relocation)) := by
  rcases hfield with h | h | h | h <;>
    simp only [relocateContents, h, Option.map_some, relocateContentsOverflow_eq hsrc,
      RelocHowto.taken]

/-! The masks as numbers. -/

theorem toNat_nOnes {n : Nat} (hpos : 0 < n) (hle : n ≤ 64) : (nOnes n).toNat = 2 ^ n - 1 := by
  obtain ⟨k, rfl⟩ : ∃ k, n = k + 1 := ⟨n - 1, by omega⟩
  have hpow : 2 ^ k ≤ 2 ^ 63 := Nat.pow_le_pow_right (by decide) (by omega)
  have hkpos : 0 < 2 ^ k := Nat.two_pow_pos k
  have hone : (1#64 <<< k).toNat = 2 ^ k := by
    rw [BitVec.toNat_shiftLeft, Nat.shiftLeft_eq, Nat.mod_eq_of_lt]
    · exact Nat.one_mul _
    · exact Nat.lt_of_le_of_lt (by simpa using hpow) (by decide)
  have hle1 : (1 : Vma) ≤ 1#64 <<< k := by
    rw [BitVec.le_def, hone]
    exact hkpos
  have hsub : (1#64 <<< k - 1).toNat = 2 ^ k - 1 := by
    rw [BitVec.toNat_sub_of_le hle1, hone]
    rfl
  have hshift : ((1#64 <<< k - 1) <<< 1).toNat = (2 ^ k - 1) * 2 ^ 1 := by
    rw [BitVec.toNat_shiftLeft, hsub, Nat.shiftLeft_eq, Nat.mod_eq_of_lt]
    omega
  have hor := toNat_or_high_low (b := 1#64) 1 (2 ^ k - 1) hshift (by decide)
  have hbit : (1#64).toNat = 1 := rfl
  rw [nOnes, Nat.add_sub_cancel]
  refine hor.trans ?_
  rw [hbit, pow_succ]
  omega

/-- More ones than bits are all ones. -/
theorem nOnes_of_le {n : Nat} (h : 64 ≤ n) : nOnes n = nOnes 64 := by
  rcases Nat.eq_or_lt_of_le h with rfl | hlt
  · rfl
  · have hzero : 1#64 <<< (n - 1) = 0#64 := BitVec.shiftLeft_eq_zero (by omega)
    rw [nOnes, hzero]
    rfl

theorem getLsbD_nOnes {n i : Nat} (hpos : 0 < n) (hle : n ≤ 64) :
    (nOnes n).getLsbD i = decide (i < n) := by
  rw [← BitVec.testBit_toNat, toNat_nOnes hpos hle, Nat.testBit_two_pow_sub_one]

/-- The bits of the address mask, shifted right. -/
theorem getLsbD_addrmask {i : Nat} (hb : 0 < bitsize) (hb64 : bitsize ≤ 64) (ha : 0 < addrsize)
    (ha64 : addrsize ≤ 64) :
    (nOnes addrsize ||| nOnes bitsize <<< rightshift).getLsbD (rightshift + i)
      = decide (rightshift + i < 64 ∧ i < max (addrsize - rightshift) bitsize) := by
  rw [BitVec.getLsbD_or, BitVec.getLsbD_shiftLeft, getLsbD_nOnes ha ha64, Nat.add_sub_cancel_left,
    getLsbD_nOnes hb hb64, Bool.eq_iff_iff]
  simp only [Bool.or_eq_true, Bool.and_eq_true, Bool.not_eq_true', decide_eq_true_eq,
    decide_eq_false_iff_not]
  omega

/-- The value as the checks look at it. -/
theorem toNat_shifted (hb : 0 < bitsize) (hb64 : bitsize ≤ 64) (ha : 0 < addrsize)
    (ha64 : addrsize ≤ 64) :
    ((v &&& (nOnes addrsize ||| nOnes bitsize <<< rightshift)) >>> rightshift).toNat
      = v.toNat / 2 ^ rightshift % 2 ^ max (addrsize - rightshift) bitsize := by
  apply Nat.eq_of_testBit_eq
  intro i
  rw [BitVec.testBit_toNat, BitVec.getLsbD_ushiftRight, BitVec.getLsbD_and,
    getLsbD_addrmask hb hb64 ha ha64, Nat.testBit_mod_two_pow, Nat.testBit_div_two_pow,
    BitVec.testBit_toNat, Nat.add_comm i rightshift]
  by_cases h64 : rightshift + i < 64
  · simp [h64, Bool.and_comm]
  · rw [BitVec.getLsbD_of_ge v _ (Nat.le_of_not_lt h64)]
    simp

theorem toNat_addrmask (hb : 0 < bitsize) (hb64 : bitsize ≤ 64) (ha : 0 < addrsize)
    (ha64 : addrsize ≤ 64) :
    ((nOnes addrsize ||| nOnes bitsize <<< rightshift) >>> rightshift).toNat
      = 2 ^ min (64 - rightshift) (max (addrsize - rightshift) bitsize) - 1 := by
  apply Nat.eq_of_testBit_eq
  intro i
  rw [BitVec.testBit_toNat, BitVec.getLsbD_ushiftRight, getLsbD_addrmask hb hb64 ha ha64,
    Nat.testBit_two_pow_sub_one, decide_eq_decide]
  omega

/-- A value whose address has no bits above the field. -/
theorem shifted_small (h : addrsize - rightshift ≤ bitsize) :
    v.toNat / 2 ^ rightshift % 2 ^ max (addrsize - rightshift) bitsize < 2 ^ bitsize := by
  rw [Nat.max_eq_right h]
  exact Nat.mod_lt _ (Nat.two_pow_pos _)

/-- A value whose address has bits above the field. -/
theorem shifted_large (h : bitsize < addrsize - rightshift) :
    v.toNat / 2 ^ rightshift % 2 ^ max (addrsize - rightshift) bitsize
      = (v.setWidth addrsize).toNat / 2 ^ rightshift := by
  have hsplit : 2 ^ rightshift * 2 ^ (addrsize - rightshift) = 2 ^ addrsize := by
    rw [← pow_add, Nat.add_sub_cancel' (by omega)]
  rw [Nat.max_eq_left h.le, BitVec.toNat_setWidth, ← hsplit, Nat.mod_mul_right_div_self]

/-! The unsigned check. -/

theorem fitsUnsigned_of_small (h : addrsize - rightshift ≤ bitsize) :
    ShiftedFitsUnsigned bitsize rightshift addrsize v := by
  rw [ShiftedFitsUnsigned, Nat.div_lt_iff_lt_mul (Nat.two_pow_pos _), ← pow_add]
  exact Nat.lt_of_lt_of_le (v.setWidth addrsize).isLt
    (Nat.pow_le_pow_right (by decide) (by omega))

theorem unsigned_overflow_of_le (hb : 0 < bitsize) (hb64 : bitsize ≤ 64) (ha : 0 < addrsize)
    (ha64 : addrsize ≤ 64) :
    bfdCheckOverflow .unsigned bitsize rightshift addrsize v = .overflow
      ↔ ¬ ShiftedFitsUnsigned bitsize rightshift addrsize v := by
  have hpow : 0 < 2 ^ bitsize := Nat.two_pow_pos bitsize
  have hnot : (v &&& (nOnes addrsize ||| nOnes bitsize <<< rightshift)) >>> rightshift
      &&& ~~~nOnes bitsize ≠ 0
      ↔ 2 ^ bitsize
        ≤ v.toNat / 2 ^ rightshift % 2 ^ max (addrsize - rightshift) bitsize := by
    rw [ne_eq, ← BitVec.toNat_inj, toNat_and_not_low bitsize (toNat_nOnes hb hb64),
      toNat_shifted hb hb64 ha ha64]
    have hzero : (0 : Vma).toNat = 0 := rfl
    rw [hzero, Nat.mul_eq_zero, not_or, Nat.div_eq_zero_iff]
    omega
  have hstatus : bfdCheckOverflow .unsigned bitsize rightshift addrsize v = .overflow
      ↔ (v &&& (nOnes addrsize ||| nOnes bitsize <<< rightshift)) >>> rightshift
        &&& ~~~nOnes bitsize ≠ 0 := by
    simp only [bfdCheckOverflow]
    split
    · next h => exact ⟨fun _ => h, fun _ => rfl⟩
    · next h => exact ⟨fun h' => (by cases h'), fun h' => absurd h' h⟩
  rw [hstatus, hnot, ShiftedFitsUnsigned, Nat.not_lt]
  rcases Nat.lt_or_ge bitsize (addrsize - rightshift) with hlarge | hsmall
  · rw [shifted_large hlarge]
  · have hlt := shifted_small (v := v) hsmall
    have hfits : (v.setWidth addrsize).toNat / 2 ^ rightshift < 2 ^ bitsize :=
      fitsUnsigned_of_small hsmall
    constructor
    · intro h
      omega
    · intro h
      omega

/-! The signed check. -/

/-- The bits of the sign, as numbers: they must be all zero or all those of the mask. -/
theorem signed_status_iff (hb : 0 < bitsize) (hb64 : bitsize ≤ 64) (ha : 0 < addrsize)
    (ha64 : addrsize ≤ 64) :
    bfdCheckOverflow .signed bitsize rightshift addrsize v = .overflow ↔
      v.toNat / 2 ^ rightshift % 2 ^ max (addrsize - rightshift) bitsize / 2 ^ (bitsize - 1) ≠ 0 ∧
      v.toNat / 2 ^ rightshift % 2 ^ max (addrsize - rightshift) bitsize / 2 ^ (bitsize - 1)
        ≠ (2 ^ min (64 - rightshift) (max (addrsize - rightshift) bitsize) - 1)
          / 2 ^ (bitsize - 1) := by
  have hpos : 0 < 2 ^ (bitsize - 1) := Nat.two_pow_pos _
  have hmask : (nOnes bitsize >>> 1).toNat = 2 ^ (bitsize - 1) - 1 := by
    obtain ⟨k, rfl⟩ : ∃ k, bitsize = k + 1 := ⟨bitsize - 1, by omega⟩
    rw [BitVec.toNat_ushiftRight, toNat_nOnes hb hb64, Nat.shiftRight_eq_div_pow, pow_one,
      Nat.add_sub_cancel, pow_succ]
    omega
  have hss : ∀ y : Vma, (y &&& ~~~(nOnes bitsize >>> 1)).toNat
      = y.toNat / 2 ^ (bitsize - 1) * 2 ^ (bitsize - 1) :=
    fun y => toNat_and_not_low (bitsize - 1) hmask
  have hstatus : bfdCheckOverflow .signed bitsize rightshift addrsize v = .overflow ↔
      (v &&& (nOnes addrsize ||| nOnes bitsize <<< rightshift)) >>> rightshift
          &&& ~~~(nOnes bitsize >>> 1) ≠ 0 ∧
        (v &&& (nOnes addrsize ||| nOnes bitsize <<< rightshift)) >>> rightshift
          &&& ~~~(nOnes bitsize >>> 1)
          ≠ (nOnes addrsize ||| nOnes bitsize <<< rightshift) >>> rightshift
            &&& ~~~(nOnes bitsize >>> 1) := by
    simp only [bfdCheckOverflow]
    split
    · next h => exact ⟨fun _ => h, fun _ => rfl⟩
    · next h => exact ⟨fun h' => (by cases h'), fun h' => absurd h' h⟩
  have hzero : (0 : Vma).toNat = 0 := rfl
  rw [hstatus, ne_eq, ne_eq, ← BitVec.toNat_inj, ← BitVec.toNat_inj, hss, hss,
    toNat_shifted hb hb64 ha ha64, toNat_addrmask hb hb64 ha ha64, hzero, Nat.mul_eq_zero, not_or,
    Nat.mul_left_inj hpos.ne']
  simp only [hpos.ne', not_false_eq_true, and_true]

/-- A signed number below the address width, shifted right. -/
theorem fitsSigned_of_small (h : addrsize - rightshift ≤ bitsize) (hb : 0 < bitsize)
    (ha : 0 < addrsize) : ShiftedFitsSigned bitsize rightshift addrsize v := by
  have hpow : (2 : Int) ^ (addrsize - 1) ≤ 2 ^ (bitsize - 1) * 2 ^ rightshift := by
    rw [← pow_add]
    exact pow_le_pow_right₀ (by omega) (by omega)
  have hpos : (0 : Int) < 2 ^ rightshift := by positivity
  have hlow := BitVec.le_toInt (v.setWidth addrsize)
  have hhigh := BitVec.toInt_lt (x := v.setWidth addrsize)
  refine ⟨?_, ?_⟩
  · rw [Int.le_ediv_iff_mul_le hpos]
    linarith
  · rw [Int.ediv_lt_iff_lt_mul hpos]
    linarith

/-- A number `v` of `t` steps of `k`, read as signed, is below one step in size exactly when it lies
in the first or in the last. -/
theorem signed_step_iff {k t v : Nat} (hk : 0 < k) (ht : 2 ≤ t) (hv : v < k * t) :
    (-(k : Int) ≤ (if 2 * v < k * t then (v : Int) else v - (k * t : Nat)) ∧
      (if 2 * v < k * t then (v : Int) else v - (k * t : Nat)) < k) ↔
      v / k = 0 ∨ v / k = t - 1 := by
  have hlow : k * (v / k) ≤ v := Nat.mul_div_le v k
  have hhigh : v < k * (v / k) + k := Nat.lt_mul_div_succ v hk
  have hlt : v / k < t := Nat.div_lt_of_lt_mul hv
  generalize v / k = d at hlow hhigh hlt
  have htwo : k * 2 ≤ k * t := Nat.mul_le_mul_left k ht
  have hlast : d = t - 1 → k * d + k = k * t := by
    rintro rfl
    rw [← Nat.mul_succ]
    congr 1
    omega
  have hbelow : d ≠ t - 1 → k * d + k * 2 ≤ k * t := by
    intro hne
    rw [← Nat.mul_add]
    exact Nat.mul_le_mul_left k (by omega)
  have hzero : d = 0 → k * d = 0 := by
    rintro rfl
    exact Nat.mul_zero k
  have hstep : d ≠ 0 → k ≤ k * d := fun hne => Nat.le_mul_of_pos_right k (Nat.pos_of_ne_zero hne)
  generalize k * t = n at *
  generalize k * d = m at *
  split <;> omega

theorem fitsSigned_of_large (h : bitsize < addrsize - rightshift) (hb : 0 < bitsize) :
    ShiftedFitsSigned bitsize rightshift addrsize v ↔
      (v.setWidth addrsize).toNat / 2 ^ rightshift / 2 ^ (bitsize - 1) = 0 ∨
        (v.setWidth addrsize).toNat / 2 ^ rightshift / 2 ^ (bitsize - 1)
          = 2 ^ (addrsize - rightshift - (bitsize - 1)) - 1 := by
  let k := 2 ^ rightshift * 2 ^ (bitsize - 1)
  let t := 2 ^ (addrsize - rightshift - (bitsize - 1))
  have hsplit : k * t = 2 ^ addrsize := by
    change 2 ^ rightshift * 2 ^ (bitsize - 1) * 2 ^ (addrsize - rightshift - (bitsize - 1))
      = 2 ^ addrsize
    rw [← pow_add, ← pow_add]
    congr 1
    omega
  have hk : 0 < k := by positivity
  have ht : 2 ≤ t := by
    have hone : 2 ^ 1 ≤ t := Nat.pow_le_pow_right (by decide) (by omega)
    simpa using hone
  have hpos : (0 : Int) < 2 ^ rightshift := by positivity
  have hkint : (k : Int) = 2 ^ (bitsize - 1) * 2 ^ rightshift := by
    push_cast [k]
    ring
  have hint : (v.setWidth addrsize).toInt = if 2 * (v.setWidth addrsize).toNat < k * t then
      ((v.setWidth addrsize).toNat : Int) else (v.setWidth addrsize).toNat - (k * t : Nat) := by
    rw [BitVec.toInt_eq_toNat_cond, hsplit]
  have hiff := signed_step_iff hk ht (by rw [hsplit]; exact (v.setWidth addrsize).isLt)
  rw [Nat.div_div_eq_div_mul, ← hiff, ← hint, ShiftedFitsSigned, Int.le_ediv_iff_mul_le hpos,
    Int.ediv_lt_iff_lt_mul hpos, hkint, neg_mul]

theorem pred_div {p t : Nat} (hp : 0 < p) (ht : 0 < t) : (p * t - 1) / p = t - 1 := by
  have hprod : p ≤ p * t := Nat.le_mul_of_pos_right p ht
  have hsucc : t - 1 + 1 = t := Nat.sub_add_cancel ht
  have hpred : (t - 1) * p + p = p * t := by
    rw [← Nat.succ_mul, Nat.succ_eq_add_one, hsucc, Nat.mul_comm]
  apply Nat.div_eq_of_lt_le
  · omega
  · rw [hsucc, Nat.mul_comm t]
    omega

theorem signed_overflow_of_le (hb : 0 < bitsize) (hb64 : bitsize ≤ 64) (ha : 0 < addrsize)
    (ha64 : addrsize ≤ 64) :
    bfdCheckOverflow .signed bitsize rightshift addrsize v = .overflow
      ↔ ¬ ShiftedFitsSigned bitsize rightshift addrsize v := by
  rw [signed_status_iff hb hb64 ha ha64]
  have hpos : 0 < 2 ^ (bitsize - 1) := Nat.two_pow_pos _
  rcases Nat.lt_or_ge bitsize (addrsize - rightshift) with hlarge | hsmall
  · rw [fitsSigned_of_large hlarge hb, shifted_large hlarge]
    have hmin : min (64 - rightshift) (max (addrsize - rightshift) bitsize)
        = addrsize - rightshift := by omega
    have hsplit : 2 ^ (addrsize - rightshift)
        = 2 ^ (bitsize - 1) * 2 ^ (addrsize - rightshift - (bitsize - 1)) := by
      rw [← pow_add]
      congr 1
      omega
    have hmask : (2 ^ (addrsize - rightshift) - 1) / 2 ^ (bitsize - 1)
        = 2 ^ (addrsize - rightshift - (bitsize - 1)) - 1 := by
      rw [hsplit, pred_div hpos (Nat.two_pow_pos _)]
    rw [hmin, hmask, not_or]
  · refine ⟨?_, fun hfits => absurd (fitsSigned_of_small hsmall hb ha) hfits⟩
    rintro ⟨hne, hne'⟩
    exfalso
    -- the bit of the sign is set, so that it is a bit of the value
    have hsmallq := shifted_small (v := v) hsmall
    rw [Nat.max_eq_right hsmall] at hne hne' hsmallq
    have hhalf : 2 ^ bitsize = 2 ^ (bitsize - 1) * 2 := by
      rw [← pow_succ]
      congr 1
      omega
    have hge : 2 ^ (bitsize - 1) ≤ v.toNat / 2 ^ rightshift % 2 ^ bitsize := by
      by_contra hlt
      exact hne (Nat.div_eq_of_lt (Nat.lt_of_not_le hlt))
    have hone : v.toNat / 2 ^ rightshift % 2 ^ bitsize / 2 ^ (bitsize - 1) = 1 := by
      apply Nat.div_eq_of_lt_le
      · omega
      · omega
    have hbit : 2 ^ (bitsize - 1 + rightshift) < 2 ^ 64 := by
      have hquot := hge.trans (Nat.mod_le _ _)
      rw [Nat.le_div_iff_mul_le (Nat.two_pow_pos _), ← pow_add] at hquot
      exact Nat.lt_of_le_of_lt hquot v.isLt
    have hroom : bitsize - 1 + rightshift < 64 := (Nat.pow_lt_pow_iff_right (by decide)).mp hbit
    have hmin : min (64 - rightshift) bitsize = bitsize := by omega
    rw [hone, hmin, hhalf, pred_div hpos (by decide)] at hne'
    exact hne' rfl

/-! Fields of more than 64 bits are checked as those of 64, and any address fits in them. -/

theorem bfdCheckOverflow_of_le {how : ComplainOverflow} (h : 64 ≤ bitsize) :
    bfdCheckOverflow how bitsize rightshift addrsize v
      = bfdCheckOverflow how 64 rightshift addrsize v := by
  simp only [bfdCheckOverflow, nOnes_of_le h]

theorem unsigned_overflow_iff (hb : 0 < bitsize) (ha : 0 < addrsize) (ha64 : addrsize ≤ 64) :
    bfdCheckOverflow .unsigned bitsize rightshift addrsize v = .overflow
      ↔ ¬ ShiftedFitsUnsigned bitsize rightshift addrsize v := by
  rcases Nat.le_total bitsize 64 with hle | hge
  · exact unsigned_overflow_of_le hb hle ha ha64
  · have hfits : ShiftedFitsUnsigned bitsize rightshift addrsize v :=
      fitsUnsigned_of_small (by omega)
    have hfits64 : ShiftedFitsUnsigned 64 rightshift addrsize v := fitsUnsigned_of_small (by omega)
    rw [bfdCheckOverflow_of_le hge, unsigned_overflow_of_le (by omega) le_rfl ha ha64]
    exact not_congr ⟨fun _ => hfits, fun _ => hfits64⟩

theorem signed_overflow_iff (hb : 0 < bitsize) (ha : 0 < addrsize) (ha64 : addrsize ≤ 64) :
    bfdCheckOverflow .signed bitsize rightshift addrsize v = .overflow
      ↔ ¬ ShiftedFitsSigned bitsize rightshift addrsize v := by
  rcases Nat.le_total bitsize 64 with hle | hge
  · exact signed_overflow_of_le hb hle ha ha64
  · have hfits : ShiftedFitsSigned bitsize rightshift addrsize v :=
      fitsSigned_of_small (by omega) hb ha
    have hfits64 : ShiftedFitsSigned 64 rightshift addrsize v :=
      fitsSigned_of_small (by omega) (by omega) ha
    rw [bfdCheckOverflow_of_le hge, signed_overflow_of_le (by omega) le_rfl ha ha64]
    exact not_congr ⟨fun _ => hfits, fun _ => hfits64⟩

/-- Against a field that adds no bits, `_bfd_relocate_contents` and `bfd_check_overflow` report the
same for the value relocated with, and both complaints are exact for it. -/
theorem overflow_checks_agree (hsrc : howto.srcMask = 0) (hfield : howto.HasField)
    (hb : 0 < howto.bitsize) (ha : 0 < addrsize) (ha64 : addrsize ≤ 64) (c : Contents)
    (location : Vma) :
    (relocateContents addrsize howto relocation c location).map Prod.fst
        = some (bfdCheckOverflow howto.complainOnOverflow howto.bitsize howto.rightshift addrsize
          (howto.taken relocation)) ∧
      (howto.complainOnOverflow = .signed →
        ((relocateContents addrsize howto relocation c location).map Prod.fst = some .overflow
          ↔ ¬ ShiftedFitsSigned howto.bitsize howto.rightshift addrsize
            (howto.taken relocation))) ∧
      (howto.complainOnOverflow = .unsigned →
        ((relocateContents addrsize howto relocation c location).map Prod.fst = some .overflow
          ↔ ¬ ShiftedFitsUnsigned howto.bitsize howto.rightshift addrsize
            (howto.taken relocation))) := by
  have hstatus := relocateContents_status addrsize relocation hsrc hfield c location
  refine ⟨hstatus, ?_, ?_⟩
  · intro hhow
    rw [hstatus, hhow, Option.some_inj]
    exact signed_overflow_iff hb ha ha64
  · intro hhow
    rw [hstatus, hhow, Option.some_inj]
    exact unsigned_overflow_iff hb ha ha64

/-- A relocation of eight signed bits, without bits of the field to add. -/
def signedByteHowto (size : Int) : RelocHowto where
  type := 0
  rightshift := 0
  size := size
  bitsize := 8
  pcRelative := false
  bitpos := 0
  complainOnOverflow := .signed
  name := "SIGNED_BYTE"
  partialInplace := false
  srcMask := 0
  dstMask := 0xff
  pcrelOffset := false

theorem overflow_checks_agree_at_128 :
    (relocateContents 32 (signedByteHowto 0) 128 (fun _ => 0) 0).map Prod.fst
        = some (bfdCheckOverflow .signed 8 0 32 128) ∧
      ((relocateContents 32 (signedByteHowto 0) 128 (fun _ => 0) 0).map Prod.fst = some .overflow
        ↔ ¬ ShiftedFitsSigned 8 0 32 128) := by
  have hagree := @overflow_checks_agree 32 (signedByteHowto 0) 128 rfl (.inl rfl) (by decide)
    (by decide) (by decide) (fun _ => 0) 0
  exact ⟨hagree.1, hagree.2.1 rfl⟩

/-- A howto of negative size subtracts: -128 fits where 128 does not. -/
theorem negative_size_disagrees :
    bfdCheckOverflow .signed 8 0 32 128 = .overflow ∧
      (relocateContents 32 (signedByteHowto (-2)) 128 (fun _ => 0) 0).map Prod.fst = some .ok := by
  decide

end FusionBinutils.Bfd
