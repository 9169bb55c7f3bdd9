import FusionBinutils.Gas.Leb128RoundTrip

/-! `_bfd_safe_read_leb128` (bfd/libbfd.c) on any bytes: the places it reads, the widths it shifts
by and the number it returns. -/
namespace FusionBinutils.Bfd.SafeLeb128
open Leb128 (groups number Negative)

/-- The variables of the reader, with the places it has read and the widths of its shifts. -/
structure Reader where
  data : Nat
  result : Vma
  numRead : Nat
  shift : Nat
  byte : BfdByte
  reads : List Nat
  shifts : List Nat

/-- What the caller gets; `length_return` may be null. -/
structure Returned where
  result : Vma
  lengthReturn : Option Nat
  reads : List Nat
  shifts : List Nat

section
variable (beyond : Vma → Nat → Vma) (mem : Nat → BfdByte)

/-- `v << shift`. C says nothing about a shift by the width of `v` or more. -/
def shl (v : Vma) (shift : Nat) : Vma := if shift < 64 then v <<< shift else beyond v shift

/-- One turn of the loop. The two counters are of type `unsigned int`. -/
def Reader.take (s : Reader) : Reader where
  data := s.data + 1
  result := s.result ||| shl beyond ((mem s.data &&& 0x7f#8).setWidth 64) s.shift
  numRead := (s.numRead + 1) % 2 ^ 32
  shift := (s.shift + 7) % 2 ^ 32
  byte := mem s.data
  reads := s.reads ++ [s.data]
  shifts := s.shifts ++ [s.shift]

/-- `while (data < end)`, with the `break` behind the last byte of a number. -/
def readLoop (stop : Nat) (s : Reader) : Reader :=
  if s.data < stop then
    if (s.take beyond mem).byte &&& 0x80#8 = 0 then s.take beyond mem
    else readLoop stop (s.take beyond mem)
  else s
termination_by stop - s.data
decreasing_by
  simp only [Reader.take]
  omega

/-- The variables before the loop. -/
def Reader.start (data : Nat) : Reader := ⟨data, 0, 0, 0, 0, [], []⟩

/-- What follows the loop: the sign goes above the bits that have been read. -/
def Reader.finish (s : Reader) (lengthReturn sign : Bool) : Returned :=
  let length := if lengthReturn then some s.numRead else none
  if sign ∧ s.shift < 64 ∧ s.byte &&& 0x40#8 ≠ 0 then
    ⟨s.result ||| -shl beyond 1 s.shift, length, s.reads, s.shifts ++ [s.shift]⟩
  else ⟨s.result, length, s.reads, s.shifts⟩

def bfdSafeReadLeb128 (data : Nat) (lengthReturn sign : Bool) (stop : Nat) : Returned :=
  (readLoop beyond mem stop (.start data)).finish beyond lengthReturn sign

end

/-- The bytes from `data` up to the first one without the continuation bit, `room` at most. -/
def consumed (mem : Nat → BfdByte) (data : Nat) : Nat → List BfdByte
  | 0 => []
  | room + 1 =>
    if mem data &&& 0x80#8 = 0 then [mem data] else mem data :: consumed mem (data + 1) room

/-- A reader that is right about the bytes `taken` and looks at nothing behind `stop`. -/
structure Right (taken : List BfdByte) (sign : Bool) (stop : Nat) (r : Returned) : Prop where
  inside : ∀ p ∈ r.reads, p < stop
  counted : ∀ n ∈ r.lengthReturn, n = taken.length
  shifted : ∀ k ∈ r.shifts, k < 64
  value : r.result = BitVec.ofInt 64 (number sign taken)

variable {beyond : Vma → Nat → Vma} {mem : Nat → BfdByte} {data stop n : Nat} {s : Reader}

/-! The loop takes the consumed bytes, one each turn. -/

theorem readLoop_eq (stop : Nat) (s : Reader) :
    readLoop beyond mem stop s =
      (Reader.take beyond mem)^[(consumed mem s.data (stop - s.data)).length] s := by
  fun_induction readLoop beyond mem stop s with
  | case1 s hs hlast =>
    obtain ⟨room, hroom⟩ : ∃ room, stop - s.data = room + 1 := ⟨stop - s.data - 1, by omega⟩
    have hend : mem s.data &&& 0x80#8 = 0 := hlast
    rw [hroom, consumed, if_pos hend]
    rfl
  | case2 s hs hmore ih =>
    obtain ⟨room, hroom⟩ : ∃ room, stop - s.data = room + 1 := ⟨stop - s.data - 1, by omega⟩
    have hgo : ¬ mem s.data &&& 0x80#8 = 0 := hmore
    have hleft : stop - (s.take beyond mem).data = room := by
      simp only [Reader.take]
      omega
    rw [ih, hleft, hroom, consumed, if_neg hgo, List.length_cons, Function.iterate_succ_apply]
    rfl
  | case3 s hs =>
    rw [Nat.sub_eq_zero_of_le (Nat.le_of_not_lt hs)]
    rfl

theorem readLoop_start (data stop : Nat) :
    readLoop beyond mem stop (.start data) =
      (Reader.take beyond mem)^[(consumed mem data (stop - data)).length] (.start data) :=
  readLoop_eq stop (.start data)

/-- The `n` bytes from `data` on. -/
def bytesAt (mem : Nat → BfdByte) (data n : Nat) : List BfdByte :=
  (List.range n).map fun i => mem (data + i)

@[simp] theorem length_bytesAt (mem : Nat → BfdByte) (data n : Nat) :
    (bytesAt mem data n).length = n := by
  simp [bytesAt]

theorem bytesAt_succ (mem : Nat → BfdByte) (data n : Nat) :
    bytesAt mem data (n + 1) = bytesAt mem data n ++ [mem (data + n)] := by
  rw [bytesAt, List.range_succ, List.map_append]
  rfl

theorem bytesAt_cons (mem : Nat → BfdByte) (data n : Nat) :
    bytesAt mem data (n + 1) = mem data :: bytesAt mem (data + 1) n := by
  rw [bytesAt, List.range_succ_eq_map, List.map_cons, List.map_map]
  congr 1
  apply List.map_congr_left
  intro i _
  exact congrArg mem (by simp only [Nat.succ_eq_add_one]; omega)

theorem consumed_eq (mem : Nat → BfdByte) (data room : Nat) :
    consumed mem data room = bytesAt mem data (consumed mem data room).length := by
  induction room generalizing data with
  | zero => rfl
  | succ room ih =>
    rw [consumed]
    split
    · rfl
    · rw [List.length_cons, bytesAt_cons, ← ih]

theorem length_consumed_le (mem : Nat → BfdByte) (data room : Nat) :
    (consumed mem data room).length ≤ room := by
  induction room generalizing data with
  | zero => exact Nat.le_refl 0
  | succ room ih =>
    rw [consumed]
    split
    · exact Nat.succ_le_succ (Nat.zero_le room)
    · exact Nat.succ_le_succ (ih (data + 1))

/-! The variables after `n` turns. -/

/-- The bits of a byte, where there is room for some of them. -/
theorem toNat_take_result (hs : s.shift < 64) (hr : s.result.toNat < 2 ^ s.shift) :
    (s.take beyond mem).result.toNat =
      (s.result.toNat + 2 ^ s.shift * ((mem s.data).toNat % 128)) % 2 ^ 64 := by
  have hbits := Gas.toNat_take_result ⟨s.result, s.numRead, s.shift, s.byte⟩ (mem s.data)
  obtain ⟨hlt, hmod⟩ := Leb128.or_low (w := 64) ((mem s.data).toNat % 128) hr hs
  have hshl : (s.take beyond mem).result =
      s.result ||| ((mem s.data &&& 0x7f#8).setWidth 64) <<< s.shift := by
    rw [Reader.take, shl, if_pos hs]
  have heq : (s.take beyond mem).result.toNat =
      s.result.toNat ||| ((mem s.data).toNat % 128) <<< s.shift % 2 ^ 64 := by
    rw [hshl]
    exact hbits
  rw [← heq] at hlt hmod
  rw [← Nat.mod_eq_of_lt hlt]
  exact_mod_cast hmod

/-- The places, the counters and the widths, which do not depend on the bytes. -/
structure After (data n : Nat) (s : Reader) : Prop where
  place : s.data = data + n
  numRead : s.numRead = n % 2 ^ 32
  shift : s.shift = 7 * n % 2 ^ 32
  reads : s.reads = List.range' data n
  shifts : s.shifts = (List.range n).map (7 * · % 2 ^ 32)

theorem after_start (data : Nat) : After data 0 (.start data) := ⟨rfl, rfl, rfl, rfl, rfl⟩

theorem After.take (h : After data n s) : After data (n + 1) (s.take beyond mem) where
  place := by
    rw [Reader.take, h.place]
    rfl
  numRead := by
    rw [Reader.take, h.numRead]
    exact Nat.mod_add_mod n (2 ^ 32) 1
  shift := by
    rw [Reader.take, h.shift]
    exact Nat.mod_add_mod (7 * n) (2 ^ 32) 7
  reads := by
    rw [Reader.take, h.reads, h.place, List.range'_concat, Nat.one_mul]
  shifts := by
    rw [Reader.take, h.shifts, h.shift, List.range_succ, List.map_append]
    rfl

theorem after_iterate (beyond : Vma → Nat → Vma) (mem : Nat → BfdByte) (data n : Nat) :
    After data n ((Reader.take beyond mem)^[n] (.start data)) := by
  induction n with
  | zero => exact after_start data
  | succ n ih =>
    rw [Function.iterate_succ_apply']
    exact ih.take

theorem byte_iterate (beyond : Vma → Nat → Vma) (mem : Nat → BfdByte) (data n : Nat) :
    ((Reader.take beyond mem)^[n] (.start data)).byte &&& 0x40#8 ≠ 0 ↔
      Negative (bytesAt mem data n) := by
  cases n with
  | zero => simp [Negative, bytesAt, Reader.start]
  | succ n =>
    have hplace := (after_iterate beyond mem data n).place
    rw [Function.iterate_succ_apply', bytesAt_succ, Negative, List.getLast?_concat, Reader.take,
      hplace, Gas.and_64_ne_zero]
    simp

/-- Ten bytes fill the result. -/
theorem result_iterate (beyond : Vma → Nat → Vma) (mem : Nat → BfdByte) (data : Nat) (hn : n ≤ 10) :
    ((Reader.take beyond mem)^[n] (.start data)).result.toNat =
      Nat.ofDigits 128 (groups (bytesAt mem data n)) % 2 ^ 64 := by
  induction n with
  | zero => rfl
  | succ n ih =>
    obtain ⟨hplace, -, hshift, -, -⟩ := after_iterate beyond mem data n
    have hsmall : Nat.ofDigits 128 (groups (bytesAt mem data n)) < 2 ^ (7 * n) := by
      have hlt := Leb128.ofDigits_groups_lt (bytesAt mem data n)
      rwa [length_bytesAt] at hlt
    have hroom : 7 * n < 64 := by omega
    have hold := ih (by omega)
    rw [Nat.mod_eq_of_lt (hsmall.trans (Nat.pow_lt_pow_right (by norm_num) hroom))] at hold
    rw [Function.iterate_succ_apply', bytesAt_succ, Leb128.ofDigits_groups_concat, length_bytesAt]
    generalize (Reader.take beyond mem)^[n] (.start data) = s at *
    have hwidth : s.shift = 7 * n := by rw [hshift, Nat.mod_eq_of_lt (by omega)]
    rw [toNat_take_result (by omega) (by rwa [hold, hwidth]), hold, hwidth, hplace]

/-! The sign bits, where the number has them. -/

theorem toNat_or_sign {r : Vma} (hn : 7 * n < 64) (hr : r.toNat < 2 ^ (7 * n)) :
    r ||| -((1 : Vma) <<< (7 * n)) = BitVec.ofInt 64 (r.toNat - 128 ^ n) := by
  have hle : 2 ^ (7 * n) ≤ 2 ^ 64 := Nat.pow_le_pow_right (by norm_num) hn.le
  have hpow : (128 : Int) ^ n = ((2 ^ (7 * n) : Nat) : Int) := by
    rw [Nat.pow_mul]
    norm_num
  apply BitVec.eq_of_toNat_eq
  rw [BitVec.toNat_or, Gas.toNat_neg_shiftLeft hn, Leb128.or_sign hr hn.le, BitVec.toNat_ofInt,
    hpow]
  omega

/-- A sign behind the last bit of the result changes nothing. -/
theorem ofInt_sub_of_le {d : Nat} (hn : 64 ≤ 7 * n) :
    BitVec.ofInt 64 ((d : Int) - 128 ^ n) = BitVec.ofInt 64 d := by
  obtain ⟨c, hc⟩ : (2 : Int) ^ 64 ∣ 128 ^ n := by
    rw [show (128 : Int) = 2 ^ 7 from rfl, ← pow_mul]
    exact pow_dvd_pow 2 hn
  apply BitVec.eq_of_toNat_eq
  rw [BitVec.toNat_ofInt, BitVec.toNat_ofInt, hc]
  omega

/-! What the caller gets. -/

section
variable {taken : List BfdByte} {lengthReturn sign : Bool}

theorem finish_reads : (s.finish beyond lengthReturn sign).reads = s.reads := by
  rw [Reader.finish]
  split <;> rfl

theorem finish_length :
    (s.finish beyond lengthReturn sign).lengthReturn =
      if lengthReturn then some s.numRead else none := by
  rw [Reader.finish]
  split <;> rfl

theorem finish_shifts (beyond : Vma → Nat → Vma) (s : Reader) (lengthReturn sign : Bool) :
    (s.finish beyond lengthReturn sign).shifts = s.shifts ∨
      (s.finish beyond lengthReturn sign).shifts = s.shifts ++ [s.shift] ∧ s.shift < 64 := by
  rw [Reader.finish]
  split
  case isTrue h => exact .inr ⟨rfl, h.2.1⟩
  case isFalse h => exact .inl rfl

/-- Ten bytes or less give the number. -/
theorem finish_result (hshift : s.shift = 7 * taken.length)
    (hbyte : s.byte &&& 0x40#8 ≠ 0 ↔ Negative taken)
    (hresult : s.result.toNat = Nat.ofDigits 128 (groups taken) % 2 ^ 64) :
    (s.finish beyond lengthReturn sign).result = BitVec.ofInt 64 (number sign taken) := by
  have hlt := Leb128.ofDigits_groups_lt taken
  have hplain : s.result = BitVec.ofInt 64 (Nat.ofDigits 128 (groups taken) : Nat) := by
    apply BitVec.eq_of_toNat_eq
    rw [BitVec.toNat_ofInt, hresult]
    omega
  rw [Reader.finish, number]
  by_cases hneg : sign = true ∧ Negative taken
  · rw [if_pos hneg]
    by_cases hroom : s.shift < 64
    · have hpow : 2 ^ (7 * taken.length) < 2 ^ 64 :=
        Nat.pow_lt_pow_right (by norm_num) (hshift ▸ hroom)
      rw [Nat.mod_eq_of_lt (hlt.trans hpow)] at hresult
      rw [if_pos ⟨hneg.1, hroom, hbyte.mpr hneg.2⟩, shl, if_pos hroom, hshift, ← hresult]
      exact toNat_or_sign (hshift ▸ hroom) (hresult ▸ hlt)
    · rw [if_neg fun h => hroom h.2.1, ofInt_sub_of_le (by omega)]
      exact hplain
  · rw [if_neg hneg, if_neg fun h => hneg ⟨h.1, hbyte.mp h.2.2⟩, sub_zero]
    exact hplain

theorem right_of_le (h : (consumed mem data (stop - data)).length ≤ 10) :
    Right (consumed mem data (stop - data)) sign stop
      (bfdSafeReadLeb128 beyond mem data lengthReturn sign stop) := by
  have hroom := length_consumed_le mem data (stop - data)
  have hafter := after_iterate beyond mem data
    (consumed mem data (stop - data)).length
  have hresult := result_iterate beyond mem data h
  have hbyte := byte_iterate beyond mem data
    (consumed mem data (stop - data)).length
  rw [← consumed_eq] at hresult hbyte
  rw [bfdSafeReadLeb128, readLoop_start]
  generalize consumed mem data (stop - data) = taken at *
  generalize (Reader.take beyond mem)^[taken.length] (.start data) = s at *
  obtain ⟨-, hnum, hshift, hreads, hshifts⟩ := hafter
  rw [Nat.mod_eq_of_lt (by omega)] at hnum hshift
  constructor
  case inside =>
    intro p hp
    rw [finish_reads, hreads, List.mem_range'_1] at hp
    omega
  case counted =>
    intro n hn
    rw [finish_length, hnum] at hn
    cases lengthReturn with
    | false => cases hn
    | true => exact (Option.some.inj hn).symm
  case shifted =>
    have hsmall : ∀ k ∈ s.shifts, k < 64 := by
      intro k hk
      rw [hshifts] at hk
      obtain ⟨i, hi, rfl⟩ := List.mem_map.mp hk
      have hle : i < taken.length := List.mem_range.mp hi
      exact (Nat.mod_le (7 * i) (2 ^ 32)).trans_lt (by omega)
    intro k hk
    rcases finish_shifts beyond s lengthReturn sign with heq | ⟨heq, hlast⟩
    · exact hsmall k (heq ▸ hk)
    · rw [heq] at hk
      rcases List.mem_append.mp hk with hk | hk
      · exact hsmall k hk
      · exact List.mem_singleton.mp hk ▸ hlast
  case value => exact finish_result hshift hbyte hresult

/-- The eleventh byte goes behind the result. -/
theorem shift_of_lt (beyond : Vma → Nat → Vma) (lengthReturn sign : Bool)
    (h : 10 < (consumed mem data (stop - data)).length) :
    70 ∈ (bfdSafeReadLeb128 beyond mem data lengthReturn sign stop).shifts := by
  have hafter := after_iterate beyond mem data
    (consumed mem data (stop - data)).length
  rw [bfdSafeReadLeb128, readLoop_start]
  generalize (Reader.take beyond mem)^[_] (.start data) = s at *
  have hmem : 70 ∈ s.shifts := by
    rw [hafter.shifts]
    exact List.mem_map.mpr ⟨10, List.mem_range.mpr h, rfl⟩
  rcases finish_shifts beyond s lengthReturn sign with heq | ⟨heq, -⟩
  · rwa [heq]
  · rw [heq]
    exact List.mem_append_left _ hmem

end

/-- The reader is right as long as the number takes no more than ten bytes. -/
theorem bfdSafeReadLeb128_right_iff (beyond : Vma → Nat → Vma) (mem : Nat → BfdByte)
    (data stop : Nat) (lengthReturn sign : Bool) :
    Right (consumed mem data (stop - data)) sign stop
        (bfdSafeReadLeb128 beyond mem data lengthReturn sign stop) ↔
      (consumed mem data (stop - data)).length ≤ 10 := by
  constructor
  · intro h
    by_contra hlong
    exact absurd (h.shifted 70 (shift_of_lt beyond lengthReturn sign (by omega))) (by norm_num)
  · exact right_of_le

/-- Ten bytes that go on and a last one. -/
def paddedOne (p : Nat) : BfdByte := if p < 10 then 0x80#8 else 1#8

theorem paddedOne_shifts_too_far :
    ¬ ∀ (beyond : Vma → Nat → Vma) (mem : Nat → BfdByte) (data stop : Nat)
        (lengthReturn sign : Bool),
      Right (consumed mem data (stop - data)) sign stop
        (bfdSafeReadLeb128 beyond mem data lengthReturn sign stop) := by
  intro h
  have hlong : (consumed paddedOne 0 (11 - 0)).length = 11 := by decide
  have hshift := shift_of_lt (fun v _ => v) true false
    (show 10 < (consumed paddedOne 0 (11 - 0)).length by omega)
  exact absurd ((h (fun v _ => v) paddedOne 0 11 true false).shifted 70 hshift) (by norm_num)

end FusionBinutils.Bfd.SafeLeb128
