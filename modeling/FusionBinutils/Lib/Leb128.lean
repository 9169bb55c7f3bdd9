import Mathlib.Tactic.Ring
import Mathlib.Tactic.Linarith
import Mathlib.Data.Nat.Bitwise
import Mathlib.Data.Nat.Digits.Defs

/-! Little-endian base 128 numbers: seven bits a byte, the lowest first, the high bit of a byte set
while more bytes follow. -/
namespace FusionBinutils.Leb128
variable {w s r : Nat} {v : Int} {rest : List (BitVec 8)}

/-- The bytes of an unsigned number. -/
def unsigned (v : Nat) : List (BitVec 8) :=
  if v / 128 = 0 then [.ofNat 8 (v % 128)]
  else .ofNat 8 (v % 128 + 128) :: unsigned (v / 128)
termination_by v

def sizeUnsigned (v : Nat) : Nat :=
  if v / 128 = 0 then 1 else sizeUnsigned (v / 128) + 1
termination_by v

/-- The seven bits `low` carry the sign of a number whose other bits are `high`. -/
def Ends (low high : Int) : Prop := high = 0 ∧ low < 64 ∨ high = -1 ∧ 64 ≤ low

instance (low high : Int) : Decidable (Ends low high) := inferInstanceAs (Decidable (_ ∨ _))

theorem natAbs_div_lt (h : ¬ Ends (v % 128) (v / 128)) :
    (2 * (v / 128) + 1).natAbs < (2 * v + 1).natAbs := by
  simp only [Ends] at h
  omega

/-- The bytes of a signed number. -/
def signed (v : Int) : List (BitVec 8) :=
  if Ends (v % 128) (v / 128) then [.ofNat 8 (v % 128).toNat]
  else .ofNat 8 ((v % 128).toNat + 128) :: signed (v / 128)
termination_by (2 * v + 1).natAbs
decreasing_by exact natAbs_div_lt ‹_›

def sizeSigned (v : Int) : Nat :=
  if Ends (v % 128) (v / 128) then 1 else sizeSigned (v / 128) + 1
termination_by (2 * v + 1).natAbs
decreasing_by exact natAbs_div_lt ‹_›

/-- What has been read: the bits so far, their count, the last byte and the bytes behind it. -/
structure Bits where
  result : Nat
  shift : Nat
  byte : BitVec 8
  rest : List (BitVec 8)

/-- The loop of a reader with a result of `w` bits. -/
def readBits (w : Nat) : List (BitVec 8) → Nat → Nat → BitVec 8 → Bits
  | [], result, shift, byte => ⟨result, shift, byte, []⟩
  | byte :: rest, result, shift, _ =>
    let result := result ||| (byte.toNat % 128) <<< shift % 2 ^ w
    if byte.toNat < 128 then ⟨result, shift + 7, byte, rest⟩
    else readBits w rest result (shift + 7) byte

/-- The sign is spread over the bits that have not been read. -/
def Bits.value (b : Bits) (w : Nat) (sign : Bool) : Nat :=
  if sign && b.shift < w && 64 ≤ b.byte.toNat % 128 then b.result ||| (2 ^ w - 2 ^ b.shift)
  else b.result

/-- The number at the start of `data`, and what follows it. -/
def read (w : Nat) (sign : Bool) (data : List (BitVec 8)) : Nat × List (BitVec 8) :=
  let b := readBits w data 0 0 0#8
  (b.value w sign, b.rest)

theorem length_unsigned (v : Nat) : (unsigned v).length = sizeUnsigned v := by
  fun_induction unsigned v with
  | case1 v h => rw [sizeUnsigned, if_pos h]; rfl
  | case2 v h ih => rw [sizeUnsigned, if_neg h, List.length_cons, ih]

theorem length_signed (v : Int) : (signed v).length = sizeSigned v := by
  fun_induction signed v with
  | case1 v h => rw [sizeSigned, if_pos h]; rfl
  | case2 v h ih => rw [sizeSigned, if_neg h, List.length_cons, ih]

theorem sizeUnsigned_le {k v : Nat} (h : v < 128 ^ (k + 1)) : sizeUnsigned v ≤ k + 1 := by
  induction k generalizing v with
  | zero => rw [sizeUnsigned, if_pos (by omega)]
  | succ k ih =>
    rw [sizeUnsigned]
    split
    · omega
    · have := ih (v := v / 128) (Nat.div_lt_of_lt_mul (by rwa [← Nat.pow_succ']))
      omega

theorem sizeUnsigned_pos (v : Nat) : 0 < sizeUnsigned v := by
  rw [sizeUnsigned]
  split <;> omega

theorem sizeUnsigned_mono {v v' : Nat} (h : v ≤ v') : sizeUnsigned v ≤ sizeUnsigned v' := by
  fun_induction sizeUnsigned v generalizing v' with
  | case1 v hv => exact sizeUnsigned_pos v'
  | case2 v hv ih =>
    rw [sizeUnsigned.eq_def v', if_neg (by omega)]
    have := ih (Nat.div_le_div_right (c := 128) h)
    omega

/-- A small number is written alike in both ways. -/
theorem signed_eq_unsigned {v : Nat} (h : v < 64) : signed v = unsigned v := by
  rw [signed, unsigned, if_pos (by simp only [Ends]; omega), if_pos (by omega)]
  congr 2

theorem or_shiftLeft (x : Nat) (hr : r < 2 ^ s) : r ||| x <<< s = r + x * 2 ^ s := by
  rw [Nat.or_comm, ← Nat.shiftLeft_add_eq_or_of_lt hr, Nat.shiftLeft_eq, Nat.add_comm]

/-- The bits that a byte brings do not meet the ones already read. -/
theorem or_shiftLeft_mod (x : Nat) (hr : r < 2 ^ s) (hs : s ≤ w) :
    r ||| x <<< s % 2 ^ w = r + x * 2 ^ s % 2 ^ w := by
  have hw : 2 ^ w = 2 ^ (w - s) * 2 ^ s := by rw [← Nat.pow_add]; congr 1; omega
  have hx : x <<< s % 2 ^ w = (x % 2 ^ (w - s)) <<< s := by
    rw [Nat.shiftLeft_eq, Nat.shiftLeft_eq, hw, Nat.mul_mod_mul_right]
  rw [hx, or_shiftLeft _ hr, ← Nat.shiftLeft_eq, ← hx, Nat.shiftLeft_eq]

theorem readBits_last {b b' : BitVec 8} (hb : b.toNat < 128) :
    readBits w (b :: rest) r s b' = ⟨r ||| (b.toNat % 128) <<< s % 2 ^ w, s + 7, b, rest⟩ := by
  simp [readBits, hb]

theorem readBits_more {b b' : BitVec 8} (hb : ¬ b.toNat < 128) :
    readBits w (b :: rest) r s b' =
      readBits w rest (r ||| (b.toNat % 128) <<< s % 2 ^ w) (s + 7) b := by
  simp [readBits, hb]

/-- The loop on an unsigned number whose bits go where the result has room. -/
theorem readBits_unsigned {v : Nat} {b : BitVec 8} (rest) (hr : r < 2 ^ s) (hv : r + v * 2 ^ s < 2 ^ w) :
    (readBits w (unsigned v ++ rest) r s b).result = r + v * 2 ^ s ∧
      (readBits w (unsigned v ++ rest) r s b).rest = rest := by
  fun_induction unsigned v generalizing r s b with
  | case1 v h =>
    have hlow : (BitVec.ofNat 8 (v % 128)).toNat = v := by simp; omega
    rw [List.cons_append, List.nil_append, readBits_last (by omega), hlow]
    have hm : v % 128 = v := by omega
    rw [hm, Nat.mod_eq_of_lt (by rw [Nat.shiftLeft_eq]; omega), or_shiftLeft _ hr]
    exact ⟨rfl, rfl⟩
  | case2 v h ih =>
    have hlow : (BitVec.ofNat 8 (v % 128 + 128)).toNat = v % 128 + 128 := by simp; omega
    have hsplit : v * 2 ^ s = v % 128 * 2 ^ s + v / 128 * 2 ^ (s + 7) := by
      have := Nat.mod_add_div v 128
      rw [Nat.pow_add]
      calc v * 2 ^ s = (v % 128 + 128 * (v / 128)) * 2 ^ s := by rw [this]
        _ = _ := by ring
    have hpos := Nat.zero_le (v / 128 * 2 ^ (s + 7))
    have hbits : r ||| ((v % 128 + 128) % 128) <<< s % 2 ^ w = r + v % 128 * 2 ^ s := by
      rw [Nat.add_mod_right, Nat.mod_mod, Nat.mod_eq_of_lt (by rw [Nat.shiftLeft_eq]; omega),
        or_shiftLeft _ hr]
    have hlt : r + v % 128 * 2 ^ s < 2 ^ (s + 7) := by
      have h128 : v % 128 + 1 ≤ 128 := by omega
      have := Nat.mul_le_mul_right (2 ^ s) h128
      rw [Nat.pow_add]
      linarith
    rw [List.cons_append, readBits_more (by omega), hlow, hbits]
    obtain ⟨hres, hrest⟩ := ih hlt (b := .ofNat 8 (v % 128 + 128)) (by omega)
    exact ⟨by rw [hres]; omega, hrest⟩

/-- Reading back an unsigned number. -/
theorem read_unsigned {v : Nat} (hv : v < 2 ^ w) : read w false (unsigned v ++ rest) = (v, rest) := by
  have hroom : 0 + v * 2 ^ 0 < 2 ^ w := by simpa using hv
  obtain ⟨hres, hrest⟩ := readBits_unsigned (b := 0#8) rest (by simp) hroom
  simp [read, Bits.value, hres, hrest]

theorem or_sign (hr : r < 2 ^ s) (hs : s ≤ w) : r ||| (2 ^ w - 2 ^ s) = r + (2 ^ w - 2 ^ s) := by
  have hw : 2 ^ w - 2 ^ s = (2 ^ (w - s) - 1) <<< s := by
    rw [Nat.shiftLeft_eq, Nat.sub_mul, ← Nat.pow_add, Nat.one_mul]
    congr 2
    omega
  rw [hw, or_shiftLeft _ hr, Nat.shiftLeft_eq]

/-- The seven bits of a byte behind the ones already read. -/
theorem or_low (x : Nat) (hr : r < 2 ^ s) (hs : s < w) :
    r ||| x <<< s % 2 ^ w < 2 ^ w ∧
      ((r ||| x <<< s % 2 ^ w : Nat) : Int) % 2 ^ w = (r + 2 ^ s * x) % 2 ^ w := by
  have hrw : r < 2 ^ w := lt_of_lt_of_le hr (Nat.pow_le_pow_right (by decide) hs.le)
  refine ⟨Nat.or_lt_two_pow hrw (Nat.mod_lt _ (by positivity)), ?_⟩
  rw [or_shiftLeft_mod _ hr hs.le]
  push_cast
  rw [Int.add_emod_emod, mul_comm]

/-- The last byte of a signed number. -/
theorem value_last {b : BitVec 8} (hr : r < 2 ^ s) (hs : s < w)
    (h : Ends (v % 128) (v / 128)) (hb : b.toNat = (v % 128).toNat) :
    ((Bits.value ⟨r ||| (b.toNat % 128) <<< s % 2 ^ w, s + 7, b, rest⟩ w true : Nat) : Int) =
      (r + 2 ^ s * v) % 2 ^ w := by
  obtain ⟨x, hx, hx128, hxv⟩ : ∃ x, b.toNat % 128 = x ∧ x < 128 ∧ (x : Int) = v % 128 :=
    ⟨_, rfl, by omega, by omega⟩
  obtain ⟨hlt, hmod⟩ := or_low x hr hs
  have hp : (2 : Int) ^ (s + 7) = 2 ^ s * 128 := by rw [pow_add]; norm_num
  simp only [Bits.value, Bool.true_and, Bool.and_eq_true, decide_eq_true_eq, hx]
  by_cases hneg : s + 7 < w ∧ 64 ≤ x
  · -- the bits above the last byte are set
    have hv : v = x - 128 := by simp only [Ends] at h; omega
    have hbits : x * 2 ^ s + 2 ^ s ≤ 2 ^ (s + 7) := by
      have := Nat.mul_le_mul_right (2 ^ s) (show x + 1 ≤ 128 by omega)
      rw [Nat.pow_add]
      linarith
    have hle : 2 ^ (s + 7) ≤ 2 ^ w := Nat.pow_le_pow_right (by decide) hneg.1.le
    have hor : r ||| x <<< s % 2 ^ w = r + x * 2 ^ s := by
      rw [or_shiftLeft_mod _ hr hs.le, Nat.mod_eq_of_lt]
      have := Nat.two_pow_pos s
      omega
    rw [if_pos hneg, hor, or_sign (by omega) hneg.1.le, hv]
    have hle' : (2 : Int) ^ s * 128 ≤ 2 ^ w := by rw [← hp]; exact_mod_cast hle
    zify [hle] at hbits hr ⊢
    rw [hp] at hbits ⊢
    rw [← Int.add_emod_right, Int.emod_eq_of_lt]
    · ring
    · nlinarith
    · nlinarith
  · rw [if_neg hneg, ← Int.emod_eq_of_lt (Int.natCast_nonneg _)
      (show ((r ||| x <<< s % 2 ^ w : Nat) : Int) < 2 ^ w by exact_mod_cast hlt), hmod]
    rcases h with ⟨h0, h64⟩ | ⟨h1, h64⟩
    · have hv : v = x := by omega
      rw [← hv]
    · -- the sign's bits are behind the end of the result
      have hv : v = x - 128 := by omega
      obtain ⟨c, hc⟩ : (2 : Int) ^ w ∣ 2 ^ s * 128 := hp ▸ pow_dvd_pow _ (by omega)
      rw [hv, mul_sub, ← add_sub_assoc, hc, Int.sub_mul_emod_self_left]

/-- The loop on a signed number that the result can hold. -/
theorem value_readBits_signed {b : BitVec 8} (rest) (hr : r < 2 ^ s) (hs : s < w)
    (hlo : -2 ^ (w - 1) ≤ r + 2 ^ s * v) (hhi : r + 2 ^ s * v < 2 ^ (w - 1)) :
    (((readBits w (signed v ++ rest) r s b).value w true : Nat) : Int) =
      (r + 2 ^ s * v) % 2 ^ w ∧ (readBits w (signed v ++ rest) r s b).rest = rest := by
  fun_induction signed v generalizing r s b with
  | case1 v h =>
    have hb : (BitVec.ofNat 8 (v % 128).toNat).toNat = (v % 128).toNat := by simp; omega
    rw [List.cons_append, List.nil_append, readBits_last (by omega)]
    exact ⟨value_last hr hs h hb, rfl⟩
  | case2 v h ih =>
    have hb : (BitVec.ofNat 8 ((v % 128).toNat + 128)).toNat = (v % 128).toNat + 128 := by
      simp; omega
    obtain ⟨x, hx, hx128⟩ : ∃ x : Nat, v = x + 128 * (v / 128) ∧ (v % 128).toNat = x ∧ x < 128 :=
      ⟨(v % 128).toNat, by omega, rfl, by omega⟩
    have hmore : v < -64 ∨ 64 ≤ v := by simp only [Ends] at h; omega
    have hp : (2 : Int) ^ (s + 7) = 2 ^ s * 128 := by rw [pow_add]; norm_num
    have hr' : (r : Int) < 2 ^ s := by exact_mod_cast hr
    -- a number that goes on leaves room for seven more bits
    have hs7 : s + 7 < w := by
      have hpow : (2 : Int) ^ (s + 6) < 2 ^ (w - 1) := by
        rw [pow_add]
        rcases hmore with hneg | hpos <;> nlinarith
      have := (pow_lt_pow_iff_right₀ (by norm_num : (1 : Int) < 2)).mp hpow
      omega
    have hbits : x * 2 ^ s + 2 ^ s ≤ 2 ^ (s + 7) := by
      have := Nat.mul_le_mul_right (2 ^ s) (show x + 1 ≤ 128 by omega)
      rw [Nat.pow_add]
      linarith
    have hle : 2 ^ (s + 7) ≤ 2 ^ w := Nat.pow_le_pow_right (by decide) hs7.le
    have hor : r ||| ((x + 128) % 128) <<< s % 2 ^ w = r + x * 2 ^ s := by
      have := Nat.two_pow_pos s
      rw [show (x + 128) % 128 = x by omega, or_shiftLeft_mod _ hr hs.le, Nat.mod_eq_of_lt (by omega)]
    have hsum : ((r + x * 2 ^ s : Nat) : Int) + 2 ^ (s + 7) * (v / 128) = r + 2 ^ s * v := by
      rw [hp]
      nth_rewrite 2 [hx]
      push_cast
      ring
    rw [List.cons_append, readBits_more (by omega), hb, hx128.1, hor, ← hsum]
    exact ih (by omega) hs7 (by rw [hsum]; exact hlo) (by rw [hsum]; exact hhi)

/-- Reading back a signed number, as a number of `w` bits. -/
theorem read_signed (hw : 0 < w) (hlo : -2 ^ (w - 1) ≤ v) (hhi : v < 2 ^ (w - 1)) :
    read w true (signed v ++ rest) = ((v % 2 ^ w).toNat, rest) := by
  obtain ⟨hval, hrest⟩ := value_readBits_signed (b := 0#8) (r := 0) (s := 0) rest (by simp) hw
    (by simpa using hlo) (by simpa using hhi)
  simp only [Nat.cast_zero, pow_zero, one_mul, zero_add] at hval
  simp only [read, hrest, ← hval, Int.toNat_natCast]

/-! Numbers of any size. Their bytes need not be the shortest ones. -/

/-- The unsigned number at the start of `data`, and what follows it. -/
def decodeUnsigned : List (BitVec 8) → Option (Nat × List (BitVec 8))
  | [] => none
  | b :: data =>
    if b.toNat < 128 then some (b.toNat, data)
    else (decodeUnsigned data).map fun (v, rest) => (b.toNat - 128 + 128 * v, rest)

/-- The signed number at the start of `data`, and what follows it. -/
def decodeSigned : List (BitVec 8) → Option (Int × List (BitVec 8))
  | [] => none
  | b :: data =>
    if b.toNat < 128 then some (if b.toNat < 64 then b.toNat else b.toNat - 128, data)
    else (decodeSigned data).map fun (v, rest) => (b.toNat - 128 + 128 * v, rest)

theorem decodeUnsigned_last {b : BitVec 8} (hb : b.toNat < 128) :
    decodeUnsigned (b :: rest) = some (b.toNat, rest) := by
  rw [decodeUnsigned, if_pos hb]

theorem decodeUnsigned_more {b : BitVec 8} {data : List (BitVec 8)} {low v : Nat}
    (hb : b.toNat = low + 128) (h : decodeUnsigned data = some (v, rest)) :
    decodeUnsigned (b :: data) = some (low + 128 * v, rest) := by
  rw [decodeUnsigned, if_neg (by omega), h, Option.map_some, hb, Nat.add_sub_cancel]

theorem decodeSigned_last {b : BitVec 8} (hb : b.toNat < 128) :
    decodeSigned (b :: rest) =
      some (if b.toNat < 64 then (b.toNat : Int) else b.toNat - 128, rest) := by
  rw [decodeSigned, if_pos hb]

theorem decodeSigned_more {b : BitVec 8} {data : List (BitVec 8)} {low : Nat}
    (hb : b.toNat = low + 128) (h : decodeSigned data = some (v, rest)) :
    decodeSigned (b :: data) = some (low + 128 * v, rest) := by
  rw [decodeSigned, if_neg (by omega), h, Option.map_some, hb]
  simp

/-! The number in any bytes, also where the last one is not marked as the last. -/

/-- The seven bits of every byte. -/
def groups (bytes : List (BitVec 8)) : List Nat := bytes.map fun b => b.toNat % 128

/-- The sign bit of the last byte. -/
def Negative (bytes : List (BitVec 8)) : Prop := ∃ b ∈ bytes.getLast?, 64 ≤ b.toNat % 128

instance (bytes : List (BitVec 8)) : Decidable (Negative bytes) :=
  inferInstanceAs (Decidable (∃ b ∈ bytes.getLast?, _))

/-- The number that the bytes hold. -/
def number (sign : Bool) (bytes : List (BitVec 8)) : Int :=
  ((Nat.ofDigits 128 (groups bytes) : Nat) : Int) -
    if sign = true ∧ Negative bytes then 128 ^ bytes.length else 0

theorem length_groups (bytes : List (BitVec 8)) : (groups bytes).length = bytes.length :=
  List.length_map _

theorem groups_concat (bytes : List (BitVec 8)) (b : BitVec 8) :
    groups (bytes ++ [b]) = groups bytes ++ [b.toNat % 128] := by
  rw [groups, List.map_append]
  rfl

theorem ofDigits_groups_lt (bytes : List (BitVec 8)) :
    Nat.ofDigits 128 (groups bytes) < 2 ^ (7 * bytes.length) := by
  have hlt : Nat.ofDigits 128 (groups bytes) < 128 ^ (groups bytes).length := by
    apply Nat.ofDigits_lt_base_pow_length (by norm_num)
    intro x hx
    obtain ⟨b, -, rfl⟩ := List.mem_map.mp hx
    exact Nat.mod_lt _ (by norm_num)
  rwa [length_groups, show 128 = 2 ^ 7 from rfl, ← Nat.pow_mul] at hlt

/-- One more byte adds its seven bits above the others. -/
theorem ofDigits_groups_concat (bytes : List (BitVec 8)) (b : BitVec 8) :
    Nat.ofDigits 128 (groups (bytes ++ [b])) =
      Nat.ofDigits 128 (groups bytes) + 2 ^ (7 * bytes.length) * (b.toNat % 128) := by
  rw [groups_concat, Nat.ofDigits_append, Nat.ofDigits_singleton, length_groups,
    show 128 = 2 ^ 7 from rfl, ← Nat.pow_mul]

end FusionBinutils.Leb128
