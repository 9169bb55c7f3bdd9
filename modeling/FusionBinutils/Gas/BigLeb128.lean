import FusionBinutils.Gas.Expr
import FusionBinutils.Gas.IntegerConstant
import FusionBinutils.Gas.Leb128RoundTrip

/-! LEB128 output of bignums (gas/read.c): a word takes sixteen bits at a time from the littlenums
and gives seven at a time to the bytes. Where the buffer is NULL the bytes are only counted. -/
namespace FusionBinutils.Gas.BigLeb

open Integer Limbs Leb128
open Gas.Expr (ExprS)

/-- The buffer behind `p`, when there is one, and how far `p` has moved. -/
structure Out where
  written : List BfdByte
  count : Nat
  deriving DecidableEq

def Out.start : Out := ⟨[], 0⟩

/-- `if (orig) *p = byte; p++`. -/
def Out.put (real : Bool) (byte : BfdByte) (o : Out) : Out where
  written := if real then o.written ++ [byte] else o.written
  count := o.count + 1

/-! `output_big_sleb128`. -/

/-- The word after its loop, its bits, whether the last byte asks for another one, and the output. -/
structure Drained where
  val : Vma
  loaded : Nat
  more : Bool
  out : Out
  deriving DecidableEq

/-- The inner loop, which leaves less than seven bits or ends the number. -/
def drain (real : Bool) (size : Nat) (val : Vma) (loaded : Nat) (o : Out) : Drained :=
  let byte := val &&& 0x7f#64
  let loaded' := loaded - 7
  let val' := val >>> 7
  let more := decide (0 < size) ||
    val' != (if byte &&& 0x40#64 = 0 then 0 else (1 : Vma) <<< loaded' - 1)
  let o := o.put real ((if more then byte ||| 0x80#64 else byte).setWidth 8)
  if more ∧ 7 ≤ loaded' then drain real size val' loaded' o else ⟨val', loaded', more, o⟩
termination_by loaded

/-- The outer loop; `none` is a read behind the array. -/
def slebLoop (real : Bool) : List Littlenum → Vma → Nat → Out → Option Drained
  | [], _, _, _ => none
  | n :: nums, val, loaded, o =>
    let d := drain real nums.length (val ||| n.setWidth 64 <<< loaded) (loaded + 16) o
    match nums with
    | [] => some d
    | _ :: _ => slebLoop real nums d.val d.loaded d.out

/-- Sign words on top of a sign, the highest littlenum first. -/
def stripTop : List Littlenum → List Littlenum
  | top :: next :: nums =>
    if top = 0xffff#16 ∧ 0x7fff#16 < next then stripTop (next :: nums) else top :: next :: nums
  | nums => nums

/-- Strip leading sign extensions off the bignum. -/
def stripSigns (nums : List Littlenum) : List Littlenum := (stripTop nums.reverse).reverse

/-- The byte of the left-over bits, sign-extended. -/
def mopUp (val : Vma) (loaded : Nat) : BfdByte :=
  let val := if val &&& (1 : Vma) <<< (loaded - 1) ≠ 0 then
      val ||| ((BitVec.allOnes 32) <<< loaded).setWidth 64
    else val
  (val &&& 0x7f#64).setWidth 8

def outputBigSleb128 (real : Bool) (bignum : List Littlenum) : Option Out := do
  let d ← slebLoop real (stripSigns bignum) 0 0 .start
  return if d.more then d.out.put real (mopUp d.val d.loaded) else d.out

/-! `output_big_uleb128`. -/

/-- Strip leading zeros off the bignum. -/
def stripZeros (nums : List Littlenum) : List Littlenum :=
  (nums.reverse.dropWhile (· == 0)).reverse

/-- The word takes the next littlenum when it is short of bits. -/
def refill : List Littlenum → Vma → Nat → List Littlenum × Vma × Nat
  | n :: nums, val, loaded =>
    if loaded < 7 then (nums, val ||| n.setWidth 64 <<< loaded, loaded + 16)
    else (n :: nums, val, loaded)
  | [], val, loaded => ([], val, loaded)

/-- The bits in sight get fewer with every byte, or the word gets smaller. -/
theorem refill_smaller {nums : List Littlenum} {val : Vma} {loaded : Nat}
    (h : (refill nums val loaded).1 ≠ [] ∨ (refill nums val loaded).2.1 >>> 7 ≠ 0) :
    16 * (refill nums val loaded).1.length + ((refill nums val loaded).2.2 - 7) <
        16 * nums.length + loaded ∨
      16 * (refill nums val loaded).1.length + ((refill nums val loaded).2.2 - 7) =
          16 * nums.length + loaded ∧
        ((refill nums val loaded).2.1 >>> 7).toNat < val.toNat := by
  cases nums with
  | nil =>
    rcases Nat.eq_zero_or_pos loaded with rfl | hpos
    · rcases h with h | h
      · exact absurd rfl h
      · refine .inr ⟨rfl, ?_⟩
        have hne : (val >>> 7).toNat ≠ 0 := fun hz => h (BitVec.eq_of_toNat_eq hz)
        simp only [refill, toNat_ushiftRight_7] at hne ⊢
        omega
    · refine .inl ?_
      simp only [refill, List.length_nil]
      omega
  | cons n nums =>
    refine .inl ?_
    rw [refill]
    split <;> simp only [List.length_cons] <;> omega

/-- The loop; `loaded` goes below zero only where nothing asks for it any more. -/
def ulebLoop (real : Bool) (nums : List Littlenum) (val : Vma) (loaded : Nat) (o : Out) : Out :=
  let r := refill nums val loaded
  let byte := r.2.1 &&& 0x7f#64
  let val' := r.2.1 >>> 7
  let more := !r.1.isEmpty || val' != 0
  let o := o.put real ((if more then byte ||| 0x80#64 else byte).setWidth 8)
  if more then ulebLoop real r.1 val' (r.2.2 - 7) o else o
termination_by (16 * nums.length + loaded, val.toNat)
decreasing_by
  next h =>
    have hmore : (!(refill nums val loaded).1.isEmpty ||
      (refill nums val loaded).2.1 >>> 7 != 0) = true := h
    rcases refill_smaller (by simpa using hmore) with hlt | ⟨heq, hlt⟩
    · exact Prod.Lex.left _ _ hlt
    · exact heq ▸ Prod.Lex.right _ hlt

def outputBigUleb128 (real : Bool) (bignum : List Littlenum) : Out :=
  ulebLoop real (stripZeros bignum) 0 0 .start

def outputBigLeb128 (real : Bool) (bignum : List Littlenum) (sign : Bool) : Option Out :=
  if sign then outputBigSleb128 real bignum else some (outputBigUleb128 real bignum)

/-! The word and its bytes. -/

variable {nums : List Littlenum} {val : Vma} {loaded : Nat} {o o' : Out}

/-- A littlenum goes above the bits of the word. -/
theorem toNat_load (n : Littlenum) (hval : val.toNat < 2 ^ loaded) (hl : loaded ≤ 48) :
    (val ||| n.setWidth 64 <<< loaded).toNat = val.toNat + 2 ^ loaded * n.toNat := by
  have hn := n.isLt
  have hpow : 2 ^ loaded ≤ 2 ^ 48 := Nat.pow_le_pow_right (by decide) hl
  have hlt : n.toNat * 2 ^ loaded < 2 ^ 64 := by
    calc n.toNat * 2 ^ loaded ≤ n.toNat * 2 ^ 48 := Nat.mul_le_mul_left _ hpow
      _ < 2 ^ 64 := by omega
  rw [BitVec.toNat_or, BitVec.toNat_shiftLeft, BitVec.toNat_setWidth,
    Nat.mod_eq_of_lt (show n.toNat < 2 ^ 64 by omega), Nat.shiftLeft_eq, Nat.mod_eq_of_lt hlt,
    ← Nat.shiftLeft_eq, or_shiftLeft _ hval, Nat.mul_comm]

/-- The byte that is put, with the bit that asks for another one. -/
theorem toNat_byte (v : Vma) (more : Bool) :
    ((if more then v &&& 0x7f#64 ||| 0x80#64 else v &&& 0x7f#64).setWidth 8).toNat =
      v.toNat % 128 + if more then 128 else 0 := by
  have hlow : v.toNat % 128 < 128 := Nat.mod_lt _ (by decide)
  cases more with
  | false =>
    rw [if_neg Bool.false_ne_true, if_neg Bool.false_ne_true, low_eq_ofNat, BitVec.toNat_ofNat]
    omega
  | true =>
    have hbit : (v &&& 0x7f#64 ||| 0x80#64).setWidth 8 = (v &&& 0x7f#64).setWidth 8 ||| 0x80#8 :=
      BitVec.setWidth_or
    rw [if_pos rfl, if_pos rfl, hbit, low_eq_ofNat, ofNat_or_128 hlow, BitVec.toNat_ofNat]
    omega

/-- What is in the word and the array after the word has taken a littlenum. -/
theorem refill_spec (h : nums ≠ [] → val.toNat < 2 ^ loaded) :
    (refill nums val loaded).2.1.toNat +
        2 ^ (refill nums val loaded).2.2 * value (refill nums val loaded).1 =
      val.toNat + 2 ^ loaded * value nums ∧
    ((refill nums val loaded).1 ≠ [] → 7 ≤ (refill nums val loaded).2.2 ∧
      (refill nums val loaded).2.1.toNat < 2 ^ (refill nums val loaded).2.2) := by
  cases nums with
  | nil => exact ⟨rfl, fun hne => absurd rfl hne⟩
  | cons n nums =>
    have hval := h (List.cons_ne_nil _ _)
    rw [refill]
    split
    · next hl =>
      have hload := toNat_load n hval (by omega)
      simp only [hload, value_cons, Nat.pow_add]
      refine ⟨by ring, fun _ => ⟨by omega, ?_⟩⟩
      have hle : 2 ^ loaded * (n.toNat + 1) ≤ 2 ^ loaded * 2 ^ 16 := Nat.mul_le_mul_left _ n.isLt
      linarith
    · next hl => exact ⟨rfl, fun _ => ⟨Nat.le_of_not_lt hl, hval⟩⟩

/-- A word of seven bits less. -/
theorem two_pow_split {k : Nat} (h : 7 ≤ k) : 2 ^ k = 128 * 2 ^ (k - 7) := by
  obtain ⟨j, rfl⟩ := Nat.exists_eq_add_of_le h
  rw [Nat.add_sub_cancel_left, Nat.pow_add]

/-- The unsigned loop, where there is a buffer. -/
theorem ulebLoop_spec (h : nums ≠ [] → val.toNat < 2 ^ loaded) :
    ∃ bs, ulebLoop true nums val loaded o = ⟨o.written ++ bs, o.count + bs.length⟩ ∧
      ∀ rest, decodeUnsigned (bs ++ rest) = some (val.toNat + 2 ^ loaded * value nums, rest) := by
  fun_induction ulebLoop true nums val loaded o with
  | case1 nums val loaded o r byte val' more o₁ hmore ih =>
    obtain ⟨hsum, hword⟩ : r.2.1.toNat + 2 ^ r.2.2 * value r.1 = val.toNat + 2 ^ loaded * value nums ∧
      (r.1 ≠ [] → 7 ≤ r.2.2 ∧ r.2.1.toNat < 2 ^ r.2.2) := refill_spec h
    have hval' : val'.toNat = r.2.1.toNat / 128 := toNat_ushiftRight_7 _
    have hsplit : r.1 ≠ [] → 2 ^ r.2.2 = 128 * 2 ^ (r.2.2 - 7) := fun hne =>
      two_pow_split (hword hne).1
    obtain ⟨bs, hout, hdec⟩ := ih fun hne => by
      rw [hval']
      exact Nat.div_lt_of_lt_mul (hsplit hne ▸ (hword hne).2)
    obtain ⟨b, hb⟩ : ∃ b, (if more then byte ||| 0x80#64 else byte).setWidth 8 = b := ⟨_, rfl⟩
    have hbyte : b.toNat = r.2.1.toNat % 128 + 128 := by
      rw [← hb, hmore]
      exact toNat_byte r.2.1 true
    have ho₁ : o₁ = ⟨o.written ++ [b], o.count + 1⟩ := by
      rw [← hb]
      rfl
    refine ⟨b :: bs, ?_, ?_⟩
    · rw [hout, ho₁, List.append_assoc, List.length_cons, Nat.add_assoc, Nat.add_comm 1]
      rfl
    · intro rest
      have hnext := decodeUnsigned_more hbyte (hdec rest)
      have hword' : 128 * (2 ^ (r.2.2 - 7) * value r.1) = 2 ^ r.2.2 * value r.1 := by
        by_cases hne : r.1 = []
        · rw [hne]
          rfl
        · rw [hsplit hne, Nat.mul_assoc]
      have htotal : r.2.1.toNat % 128 + 128 * (val'.toNat + 2 ^ (r.2.2 - 7) * value r.1) =
          val.toNat + 2 ^ loaded * value nums := by omega
      rw [List.cons_append, hnext, htotal]
  | case2 nums val loaded o r byte val' more o₁ hmore =>
    obtain ⟨hsum, -⟩ : r.2.1.toNat + 2 ^ r.2.2 * value r.1 = val.toNat + 2 ^ loaded * value nums ∧
      (r.1 ≠ [] → 7 ≤ r.2.2 ∧ r.2.1.toNat < 2 ^ r.2.2) := refill_spec h
    have hval' : val'.toNat = r.2.1.toNat / 128 := toNat_ushiftRight_7 _
    obtain ⟨hnil, hzero⟩ : r.1 = [] ∧ val' = 0 := by simpa [more] using hmore
    rw [hzero] at hval'
    obtain ⟨b, hb⟩ : ∃ b, (if more then byte ||| 0x80#64 else byte).setWidth 8 = b := ⟨_, rfl⟩
    have hbyte : b.toNat = r.2.1.toNat % 128 := by
      rw [← hb, Bool.eq_false_of_not_eq_true hmore]
      exact toNat_byte r.2.1 false
    have hlast : b.toNat < 128 := hbyte ▸ Nat.mod_lt _ (by decide)
    refine ⟨[b], by rw [← hb]; rfl, ?_⟩
    intro rest
    have hzero' : 2 ^ r.2.2 * value r.1 = 0 := by rw [hnil, value_nil, Nat.mul_zero]
    have htotal : r.2.1.toNat % 128 = val.toNat + 2 ^ loaded * value nums := by
      have : (0 : Vma).toNat = 0 := rfl
      omega
    rw [List.singleton_append, decodeUnsigned_last hlast, hbyte, htotal]

/-- The bytes are counted alike without a buffer. -/
theorem ulebLoop_count {real real' : Bool} (h : o.count = o'.count) :
    (ulebLoop real nums val loaded o).count = (ulebLoop real' nums val loaded o').count := by
  fun_induction ulebLoop real nums val loaded o generalizing o' with
  | case1 nums val loaded o r byte val' more o₁ hmore =>
    rename_i ih
    obtain ⟨b, hb⟩ : ∃ b, (if more then byte ||| 0x80#64 else byte).setWidth 8 = b := ⟨_, rfl⟩
    have hput : o₁.count = (o'.put real' b).count := congrArg (· + 1) h
    have hnext : ulebLoop real' nums val loaded o' =
        ulebLoop real' r.1 val' (r.2.2 - 7) (o'.put real' b) := by
      rw [ulebLoop.eq_def]
      exact (if_pos hmore).trans (by rw [← hb])
    rw [hnext]
    exact ih hput
  | case2 nums val loaded o r byte val' more o₁ =>
    rename_i hmore
    have hlast : (ulebLoop real' nums val loaded o').count = o'.count + 1 := by
      rw [ulebLoop.eq_def]
      exact congrArg Out.count (if_neg hmore)
    rw [hlast, ← h]
    rfl

/-- What is above the word: any number while littlenums are left, then the sign of the word. -/
def Above (size : Nat) (val loaded : Nat) (y : Int) : Prop :=
  size = 0 → y = if 2 * val < 2 ^ loaded then 0 else -1

/-- The sign does not change when low bits go. -/
theorem above_shift {size v l : Nat} {y : Int} (h : Above size v l y) (hl : 7 < l) :
    Above size (v / 128) (l - 7) y := by
  have hpow := two_pow_split hl.le
  obtain ⟨m, hm⟩ : ∃ m, 2 ^ (l - 7) = 2 * m :=
    ⟨2 ^ (l - 8), by rw [← Nat.pow_succ', show (l - 8).succ = l - 7 by omega]⟩
  intro hsize
  rw [h hsize, hpow, hm]
  by_cases hlt : 2 * v < 128 * (2 * m)
  · rw [if_pos hlt, if_pos (by omega)]
  · rw [if_neg hlt, if_neg (by omega)]

/-- The test for the last byte: what is left is sign bits. -/
theorem last_eq {size v l : Nat} {y : Int} (h : Above size v l y) (hsize : size = 0) (hl : 7 ≤ l)
    (hv : v < 2 ^ l) (hlast : v / 128 = if v % 128 < 64 then 0 else 2 ^ (l - 7) - 1) :
    (if v % 128 < 64 then ((v % 128 : Nat) : Int) else (v % 128 : Nat) - 128) = v + 2 ^ l * y := by
  have hpow := two_pow_split hl
  have hpos := Nat.two_pow_pos (l - 7)
  rw [h hsize]
  split at hlast
  · next hlow =>
    have hpos : 2 * v < 2 ^ l := by omega
    rw [if_pos hlow, if_pos hpos]
    omega
  · next hlow =>
    have hneg : ¬ 2 * v < 2 ^ l := by omega
    rw [if_neg hlow, if_neg hneg]
    have : ((2 ^ l : Nat) : Int) = 2 ^ l := by push_cast; rfl
    omega

theorem and_sign_eq_zero (v : Vma) : v &&& 0x7f#64 &&& 0x40#64 = 0 ↔ v.toNat % 128 < 64 := by
  rw [← BitVec.toNat_inj, BitVec.toNat_and, toNat_and_127]
  exact and_64_eq_zero (Nat.mod_lt v.toNat (by decide))

theorem toNat_mask {k : Nat} (hk : k < 64) : ((1 : Vma) <<< k - 1).toNat = 2 ^ k - 1 := by
  have hlt : 2 ^ k < 2 ^ 64 := Nat.pow_lt_pow_right (by decide) hk
  have hpos := Nat.two_pow_pos k
  have hone : ((1 : Vma) <<< k).toNat = 2 ^ k := by
    rw [BitVec.toNat_shiftLeft, Nat.shiftLeft_eq]
    exact (congrArg (· % 2 ^ 64) (Nat.one_mul _)).trans (Nat.mod_eq_of_lt hlt)
  have hle : (1 : Vma) ≤ (1 : Vma) <<< k := by
    rw [BitVec.le_def, hone]
    exact hpos
  rw [BitVec.toNat_sub_of_le hle, hone]
  rfl

/-- The test of the inner loop, in numbers. -/
theorem left_eq_iff (v : Vma) {k : Nat} (hk : k < 64) :
    v >>> 7 = (if v &&& 0x7f#64 &&& 0x40#64 = 0 then 0 else (1 : Vma) <<< k - 1) ↔
      v.toNat / 128 = if v.toNat % 128 < 64 then 0 else 2 ^ k - 1 := by
  rw [← BitVec.toNat_inj, toNat_ushiftRight_7]
  by_cases hlow : v.toNat % 128 < 64
  · rw [if_pos hlow, if_pos ((and_sign_eq_zero v).mpr hlow)]
    rfl
  · rw [if_neg hlow, if_neg fun h => hlow ((and_sign_eq_zero v).mp h), toNat_mask hk]

/-- In front of what denotes `x'`, the bytes denote `x`. -/
def Carries (bs : List BfdByte) (x x' : Int) : Prop :=
  ∀ data rest, decodeSigned data = some (x', rest) → decodeSigned (bs ++ data) = some (x, rest)

/-- What the inner loop leaves of the number `x`. -/
structure Drains (size : Nat) (y x : Int) (bs : List BfdByte) (d : Drained) : Prop where
  last : d.more = false → size = 0 ∧ ∀ rest, decodeSigned (bs ++ rest) = some (x, rest)
  more : d.more = true → d.loaded < 7 ∧ d.val.toNat < 2 ^ d.loaded ∧
    Above size d.val.toNat d.loaded y ∧ (size = 0 → 0 < d.loaded) ∧
    Carries bs x (d.val.toNat + 2 ^ d.loaded * y)

theorem Carries.cons {b : BfdByte} {bs : List BfdByte} {low : Nat} {x x' : Int}
    (hb : b.toNat = low + 128) (h : Carries bs x x') : Carries (b :: bs) (low + 128 * x) x' :=
  fun data rest hdata => decodeSigned_more hb (h data rest hdata)

theorem Drains.cons {size low : Nat} {b : BfdByte} {bs : List BfdByte} {x y : Int} {d : Drained}
    (hb : b.toNat = low + 128) (h : Drains size y x bs d) :
    Drains size y (low + 128 * x) (b :: bs) d where
  last hd := ⟨(h.last hd).1, fun rest => decodeSigned_more hb ((h.last hd).2 rest)⟩
  more hd := by
    obtain ⟨hl, hv, hy, hpos, hbs⟩ := h.more hd
    exact ⟨hl, hv, hy, hpos, hbs.cons hb⟩

/-- Seven bits of a number and what is above them. -/
theorem split_value {v l : Nat} (y : Int) (hl : 7 ≤ l) :
    (v + 2 ^ l * y : Int) = (v % 128 : Nat) + 128 * ((v / 128 : Nat) + 2 ^ (l - 7) * y) := by
  have hsplit : (2 : Int) ^ l = 128 * 2 ^ (l - 7) := by exact_mod_cast two_pow_split hl
  have hmod := Nat.mod_add_div v 128
  rw [hsplit, mul_add, ← mul_assoc]
  omega

theorem drain_spec {size : Nat} {y : Int} (hl : 7 ≤ loaded) (hl' : loaded < 64)
    (hv : val.toNat < 2 ^ loaded) (hy : Above size val.toNat loaded y) :
    ∃ bs, (drain true size val loaded o).out = ⟨o.written ++ bs, o.count + bs.length⟩ ∧
      Drains size y (val.toNat + 2 ^ loaded * y) bs (drain true size val loaded o) := by
  fun_induction drain true size val loaded o with
  | case1 val loaded o byte loaded' val' more o₁ hmore ih =>
    have hval' : val'.toNat = val.toNat / 128 := toNat_ushiftRight_7 val
    have hsplit : 2 ^ loaded = 128 * 2 ^ loaded' := two_pow_split hl
    have hlt : val'.toNat < 2 ^ loaded' := by omega
    have hlong : 7 < loaded := by
      have : 7 ≤ loaded - 7 := hmore.2
      omega
    have habove : Above size val'.toNat loaded' y := hval' ▸ above_shift hy hlong
    obtain ⟨bs, hout, hdrains⟩ := ih hmore.2 (Nat.sub_lt_of_lt hl') hlt habove
    obtain ⟨b, hb⟩ : ∃ b, (if more then byte ||| 0x80#64 else byte).setWidth 8 = b := ⟨_, rfl⟩
    have hbyte : b.toNat = val.toNat % 128 + 128 := by
      rw [← hb, hmore.1]
      exact toNat_byte val true
    have ho₁ : o₁ = ⟨o.written ++ [b], o.count + 1⟩ := by
      rw [← hb]
      rfl
    refine ⟨b :: bs, ?_, ?_⟩
    · rw [hout, ho₁, List.append_assoc, List.length_cons, Nat.add_assoc, Nat.add_comm 1]
      rfl
    · rw [split_value y hl, ← hval']
      exact hdrains.cons hbyte
  | case2 val loaded o byte loaded' val' more o₁ hmore =>
    have hval' : val'.toNat = val.toNat / 128 := toNat_ushiftRight_7 val
    have hsplit : 2 ^ loaded = 128 * 2 ^ loaded' := two_pow_split hl
    have hlt : val'.toNat < 2 ^ loaded' := by omega
    have hwidth : loaded' < 64 := Nat.sub_lt_of_lt hl'
    obtain ⟨b, hb⟩ : ∃ b, (if more then byte ||| 0x80#64 else byte).setWidth 8 = b := ⟨_, rfl⟩
    have hbyte : b.toNat = val.toNat % 128 + if more then 128 else 0 := hb ▸ toNat_byte val more
    refine ⟨[b], by rw [← hb]; rfl, ?_, ?_⟩
    · intro hd
      obtain ⟨hsize, htest⟩ : size = 0 ∧
          val' = (if byte &&& 0x40#64 = 0 then 0 else (1 : Vma) <<< loaded' - 1) := by
        simpa [more] using hd
      have hlast := (left_eq_iff val hwidth).mp htest
      have hmoreF : more = false := hd
      rw [hmoreF, if_neg Bool.false_ne_true, Nat.add_zero] at hbyte
      have hend : b.toNat < 128 := hbyte ▸ Nat.mod_lt _ (by decide)
      refine ⟨hsize, fun rest => ?_⟩
      rw [List.singleton_append, decodeSigned_last hend, hbyte, last_eq hy hsize hl hv hlast]
    · intro hd
      have hmoreT : more = true := hd
      have hpos : size = 0 → 0 < loaded' := by
        intro hsize
        have htest : val' ≠ (if byte &&& 0x40#64 = 0 then 0 else (1 : Vma) <<< loaded' - 1) := by
          simpa [more, hsize] using hd
        apply Nat.pos_of_ne_zero
        intro hzero
        apply htest
        apply (left_eq_iff val hwidth).mpr
        have : val.toNat / 128 = 0 := by
          rw [hzero] at hlt
          omega
        rw [this, hzero]
        split <;> rfl
      have hshort : ¬ 7 ≤ loaded' := fun h => hmore ⟨hmoreT, h⟩
      refine ⟨Nat.lt_of_not_le hshort, hlt, ?_, hpos, ?_⟩
      · intro hsize
        have hlong : 7 < loaded := by
          have : 0 < loaded - 7 := hpos hsize
          omega
        rw [hval']
        exact above_shift hy hlong hsize
      · rw [hmoreT, if_pos rfl] at hbyte
        rw [split_value y hl, ← hval']
        intro data rest hdata
        exact decodeSigned_more hbyte hdata

theorem Carries.drains {bs bs' : List BfdByte} {x x' y : Int} {d : Drained} (h : Carries bs x x')
    (hd : Drains 0 y x' bs' d) : Drains 0 y x (bs ++ bs') d where
  last hlast := by
    refine ⟨rfl, fun rest => ?_⟩
    rw [List.append_assoc]
    exact h _ _ ((hd.last hlast).2 rest)
  more hmore := by
    obtain ⟨hl, hv, hy, hpos, hbs⟩ := hd.more hmore
    refine ⟨hl, hv, hy, hpos, fun data rest hdata => ?_⟩
    rw [List.append_assoc]
    exact h _ _ (hbs data rest hdata)

theorem load_lt {v l : Nat} (n : Littlenum) (h : v < 2 ^ l) : v + 2 ^ l * n.toNat < 2 ^ (l + 16) := by
  have hle : 2 ^ l * (n.toNat + 1) ≤ 2 ^ l * 2 ^ 16 := Nat.mul_le_mul_left _ n.isLt
  rw [Nat.pow_add]
  linarith

/-- The sign of the word is that of the littlenum it has taken last. -/
theorem load_sign {v l : Nat} (n : Littlenum) (h : v < 2 ^ l) :
    ((v + 2 ^ l * n.toNat : Nat) : Int) +
        2 ^ (l + 16) * (if 2 * (v + 2 ^ l * n.toNat) < 2 ^ (l + 16) then 0 else -1) =
      v + 2 ^ l * n.toInt := by
  have hiff : 2 * (v + 2 ^ l * n.toNat) < 2 ^ (l + 16) ↔ 2 * n.toNat < 2 ^ 16 := by
    rw [Nat.pow_add]
    constructor
    · intro hlt
      have hlt' : 2 ^ l * (2 * n.toNat) < 2 ^ l * 2 ^ 16 := by linarith
      exact Nat.lt_of_mul_lt_mul_left hlt'
    · intro hlt
      have hle : 2 ^ l * (n.toNat + 1) ≤ 2 ^ l * 2 ^ 15 := Nat.mul_le_mul_left _ (by omega)
      linarith
  rw [BitVec.toInt_eq_toNat_cond]
  by_cases hlt : 2 * n.toNat < 2 ^ 16
  · rw [if_pos hlt, if_pos (hiff.mpr hlt)]
    push_cast
    ring
  · rw [if_neg hlt, if_neg fun h => hlt (hiff.mp h)]
    push_cast
    ring

/-- The outer loop, where there is a buffer. -/
theorem slebLoop_spec (hne : nums ≠ []) (hl : loaded < 7) (hv : val.toNat < 2 ^ loaded) :
    ∃ d bs y, slebLoop true nums val loaded o = some d ∧
      d.out = ⟨o.written ++ bs, o.count + bs.length⟩ ∧
      Drains 0 y (val.toNat + 2 ^ loaded * signedValue nums) bs d := by
  induction nums generalizing val loaded o with
  | nil => exact absurd rfl hne
  | cons n nums ih =>
    have hload := toNat_load n hv (by omega)
    have hlt : (val ||| n.setWidth 64 <<< loaded).toNat < 2 ^ (loaded + 16) :=
      hload ▸ load_lt n hv
    cases nums with
    | nil =>
      obtain ⟨bs, hout, hd⟩ := drain_spec (o := o) (Nat.le_add_left_of_le (by decide)) (by omega)
        hlt (fun _ => rfl)
      rw [hload, load_sign n hv, ← signedValue_singleton] at hd
      exact ⟨_, bs, _, rfl, hout, hd⟩
    | cons n' nums =>
      have hne' : n' :: nums ≠ [] := List.cons_ne_nil _ _
      have habove : Above (n' :: nums).length (val ||| n.setWidth 64 <<< loaded).toNat (loaded + 16)
          (signedValue (n' :: nums)) := fun h => absurd h (Nat.succ_ne_zero _)
      obtain ⟨bs, hout, hd⟩ := drain_spec (o := o) (Nat.le_add_left_of_le (by decide)) (by omega)
        hlt habove
      -- the word is drained, for littlenums are left
      have hmore : (drain true (n' :: nums).length (val ||| n.setWidth 64 <<< loaded)
          (loaded + 16) o).more = true := by
        apply Bool.eq_true_of_not_eq_false
        intro hlast
        exact absurd (hd.last hlast).1 (Nat.succ_ne_zero _)
      obtain ⟨hl', hv', -, -, hcarries⟩ := hd.more hmore
      obtain ⟨d, bs', y, hloop, hout', hd'⟩ := ih hne' hl' hv'
      have hx : ((val.toNat + 2 ^ loaded * n.toNat : Nat) : Int) +
          2 ^ (loaded + 16) * signedValue (n' :: nums) =
            val.toNat + 2 ^ loaded * signedValue (n :: n' :: nums) := by
        rw [signedValue_cons (by decide) n hne', pow_add]
        push_cast
        ring
      rw [hload, hx] at hcarries
      refine ⟨d, bs ++ bs', y, hloop, ?_, hcarries.drains hd'⟩
      rw [hout', hout, List.append_assoc, List.length_append, Nat.add_assoc]

/-! The left-over bits and the strips. -/

theorem toNat_mopUp {v l : Nat} (hl : l < 7) (hpos : 0 < l) (hv : v < 2 ^ l) :
    (mopUp (.ofNat 64 v) l).toNat = v + if 2 * v < 2 ^ l then 0 else 128 - 2 ^ l := by
  have hall : ∀ l < 7, 0 < l → ∀ v < 2 ^ l,
      (mopUp (.ofNat 64 v) l).toNat = v + if 2 * v < 2 ^ l then 0 else 128 - 2 ^ l := by
    decide +kernel
  exact hall l hl hpos v hv

theorem decodeSigned_mopUp {y : Int} (rest : List BfdByte) (hl : loaded < 7) (hpos : 0 < loaded)
    (hv : val.toNat < 2 ^ loaded) (hy : Above 0 val.toNat loaded y) :
    decodeSigned (mopUp val loaded :: rest) = some (val.toNat + 2 ^ loaded * y, rest) := by
  have hbyte := toNat_mopUp hl hpos hv
  have h64 : 2 ^ loaded ≤ 2 ^ 6 := Nat.pow_le_pow_right (by decide) (by omega)
  rw [BitVec.ofNat_toNat, BitVec.setWidth_eq] at hbyte
  rw [hy rfl]
  by_cases hlt : 2 * val.toNat < 2 ^ loaded
  · rw [if_pos hlt, Nat.add_zero] at hbyte
    rw [if_pos hlt, decodeSigned_last (by omega), hbyte, if_pos (by omega), mul_zero, add_zero]
  · rw [if_neg hlt] at hbyte
    have hcast : ((2 ^ loaded : Nat) : Int) = 2 ^ loaded := by push_cast; rfl
    rw [if_neg hlt, decodeSigned_last (by omega), hbyte, if_neg (by omega)]
    congr 2
    omega

theorem stripTop_ne_nil (h : nums ≠ []) : stripTop nums ≠ [] := by
  fun_induction stripTop nums with
  | case1 top next nums hsign ih => exact ih (List.cons_ne_nil _ _)
  | case2 top next nums hsign => exact List.cons_ne_nil _ _
  | case3 nums hshort => exact h

theorem signedValue_stripTop : signedValue (stripTop nums).reverse = signedValue nums.reverse := by
  fun_induction stripTop nums with
  | case1 top next nums hsign ih =>
    obtain ⟨rfl, hnext⟩ := hsign
    have hneg : next.toInt < 0 := by
      have hge : 0x7fff < next.toNat := hnext
      have hlt := next.isLt
      rw [BitVec.toInt_eq_toNat_cond, if_neg (by omega)]
      omega
    have hstrip : signedValue (nums.reverse ++ [next, BitVec.allOnes 16]) =
        signedValue (nums.reverse ++ [next]) := signedValue_sign_word (by decide) next hneg
    rw [ih, List.reverse_cons, List.reverse_cons, List.reverse_cons, List.append_assoc]
    exact hstrip.symm
  | case2 top next nums hsign => rfl
  | case3 nums hshort => rfl

theorem signedValue_stripSigns (nums : List Littlenum) :
    signedValue (stripSigns nums) = signedValue nums := by
  rw [stripSigns, signedValue_stripTop, List.reverse_reverse]

theorem stripSigns_ne_nil (h : nums ≠ []) : stripSigns nums ≠ [] := by
  intro hnil
  have hrev : nums.reverse ≠ [] := fun hz => h (List.reverse_eq_nil_iff.mp hz)
  exact stripTop_ne_nil hrev (List.reverse_eq_nil_iff.mp hnil)

theorem value_stripZeros (nums : List Littlenum) : value (stripZeros nums) = value nums := by
  have hdrop (r : List Littlenum) : value (r.dropWhile (· == 0)).reverse = value r.reverse := by
    induction r with
    | nil => rfl
    | cons n r ih =>
      rw [List.dropWhile_cons]
      split
      · next hzero =>
        rw [ih, List.reverse_cons, eq_of_beq hzero]
        exact (value_append_zeros 1).symm
      · rfl
  rw [stripZeros, hdrop, List.reverse_reverse]

/-- The signed bytes denote the number in two's complement. -/
theorem outputBigSleb128_spec (hne : nums ≠ []) :
    ∃ bs, outputBigSleb128 true nums = some ⟨bs, bs.length⟩ ∧
      ∀ rest, decodeSigned (bs ++ rest) = some (signedValue nums, rest) := by
  have hzero : (0 : Vma).toNat < 2 ^ 0 := by decide
  obtain ⟨d, bs, y, hloop, hout, hd⟩ :=
    slebLoop_spec (o := .start) (stripSigns_ne_nil hne) (show 0 < 7 by decide) hzero
  have hx : ((0 : Vma).toNat : Int) + 2 ^ 0 * signedValue (stripSigns nums) = signedValue nums := by
    rw [signedValue_stripSigns]
    exact (zero_add _).trans (one_mul _)
  rw [hx] at hd
  rw [outputBigSleb128, hloop]
  cases hmore : d.more with
  | false =>
    refine ⟨bs, ?_, (hd.last hmore).2⟩
    simp [hmore, hout, Out.start]
  | true =>
    obtain ⟨hl, hv, hy, hpos, hcarries⟩ := hd.more hmore
    refine ⟨bs ++ [mopUp d.val d.loaded], ?_, fun rest => ?_⟩
    · simp [hmore, hout, Out.start, Out.put]
    · rw [List.append_assoc]
      exact hcarries _ _ (decodeSigned_mopUp rest hl (hpos rfl) hv hy)

/-- The unsigned bytes denote the number. -/
theorem outputBigUleb128_spec (nums : List Littlenum) :
    ∃ bs, outputBigUleb128 true nums = ⟨bs, bs.length⟩ ∧
      ∀ rest, decodeUnsigned (bs ++ rest) = some (value nums, rest) := by
  have hzero : stripZeros nums ≠ [] → (0 : Vma).toNat < 2 ^ 0 := fun _ => by decide
  obtain ⟨bs, hout, hdec⟩ := ulebLoop_spec (o := .start) hzero
  refine ⟨bs, ?_, fun rest => ?_⟩
  · rw [outputBigUleb128, hout]
    simp [Out.start]
  · rw [hdec, value_stripZeros]
    simp

/-! Without a buffer. -/

/-- Two runs that differ in the buffer only. -/
structure Alike (d d' : Drained) : Prop where
  val : d.val = d'.val
  loaded : d.loaded = d'.loaded
  more : d.more = d'.more
  count : d.out.count = d'.out.count

theorem drain_alike {real real' : Bool} {size : Nat} (h : o.count = o'.count) :
    Alike (drain real size val loaded o) (drain real' size val loaded o') := by
  fun_induction drain real size val loaded o generalizing o' with
  | case1 val loaded o byte loaded' val' more o₁ hmore =>
    rename_i ih
    obtain ⟨b, hb⟩ : ∃ b, (if more then byte ||| 0x80#64 else byte).setWidth 8 = b := ⟨_, rfl⟩
    have hput : o₁.count = (o'.put real' b).count := congrArg (· + 1) h
    have hnext : drain real' size val loaded o' = drain real' size val' loaded' (o'.put real' b) := by
      rw [drain.eq_def]
      exact (if_pos hmore).trans (by rw [← hb]; rfl)
    rw [hnext]
    exact ih hput
  | case2 val loaded o byte loaded' val' more o₁ =>
    rename_i hmore
    obtain ⟨b, hb⟩ : ∃ b, (if more then byte ||| 0x80#64 else byte).setWidth 8 = b := ⟨_, rfl⟩
    have hlast : drain real' size val loaded o' = ⟨val', loaded', more, o'.put real' b⟩ := by
      rw [drain.eq_def]
      exact (if_neg hmore).trans (by rw [← hb]; rfl)
    rw [hlast]
    exact ⟨rfl, rfl, rfl, congrArg (· + 1) h⟩

theorem slebLoop_alike {real real' : Bool} {d : Drained} (h : o.count = o'.count)
    (hd : slebLoop real nums val loaded o = some d) :
    ∃ d', slebLoop real' nums val loaded o' = some d' ∧ Alike d d' := by
  induction nums generalizing val loaded o o' with
  | nil => cases hd
  | cons n nums ih =>
    have halike :
        Alike (drain real nums.length (val ||| n.setWidth 64 <<< loaded) (loaded + 16) o)
          (drain real' nums.length (val ||| n.setWidth 64 <<< loaded) (loaded + 16) o') :=
      drain_alike h
    cases nums with
    | nil =>
      rw [slebLoop, Option.some.injEq] at hd
      exact ⟨_, rfl, hd ▸ halike⟩
    | cons n' nums =>
      rw [slebLoop] at hd ⊢
      simp only [← halike.val, ← halike.loaded]
      exact ih halike.count hd

theorem outputBigSleb128_count {real real' : Bool} {out : Out}
    (h : outputBigSleb128 real nums = some out) :
    ∃ out', outputBigSleb128 real' nums = some out' ∧ out'.count = out.count := by
  rw [outputBigSleb128] at h ⊢
  obtain ⟨d, hd, hout⟩ := Option.bind_eq_some_iff.mp h
  obtain ⟨d', hd', halike⟩ :
      ∃ d', slebLoop real' (stripSigns nums) 0 0 .start = some d' ∧ Alike d d' :=
    slebLoop_alike rfl hd
  refine ⟨_, by rw [hd']; rfl, ?_⟩
  have hout : (if d.more then d.out.put real (mopUp d.val d.loaded) else d.out) = out :=
    Option.some.inj hout
  rw [← hout, ← halike.more]
  cases d.more with
  | false => exact halike.count.symm
  | true => exact congrArg (· + 1) halike.count.symm

/-! `emit_leb128_expr`. -/

/-- Convert `O_constant` expression `exp` into the equivalent `O_big` representation: a sequence of
sign bits is added if the top bit of `X_add_number` is not the sign of the original value. -/
def convertToBignum (exp : ExprS) (sign : Bool) : List Littlenum :=
  let nums := (List.range 4).map fun i => (exp.addNumber >>> (16 * i)).setWidth 16
  if exp.addNumber.slt 0 = !sign then nums ++ [if sign then 0xffff#16 else 0] else nums

/-- Where data goes. -/
structure NowSeg where
  absolute : Bool
  bss : Bool
  name : String
  deriving DecidableEq

/-- What `emit_leb128_expr` adds: bytes with the size of their room, a variable frag, or a step of
`abs_section_offset`. -/
inductive Emitted where
  | bytes (size : Nat) (bs : List BfdByte)
  | leb128 (exp : ExprS) (sign : Bool)
  | absolute
  deriving DecidableEq

/-- The littlenums that are written: a 0 on top of 0xffff says that there is no sign. -/
def prependZero (unsigned : Bool) (nums : List Littlenum) : List Littlenum :=
  if unsigned ∧ nums.length < sizeOfLargeNumber ∧ nums.getLast? = some 0xffff#16 then nums ++ [0]
  else nums

/-- The expression as data: what is no number stands for zero. `O_big` without any littlenum is a
floating point number. -/
def dataOperand (exp : ExprS) (nums : List Littlenum) : ExprS × List Msg :=
  let zero := { exp with op := .constant, addNumber := 0 }
  if exp.op = .absent ∨ exp.op = .illegal then
    (zero, [.warn "zero assumed for missing expression"])
  else if exp.op = .big ∧ nums = [] then (zero, [.bad "floating point number invalid"])
  else if exp.op = .register then
    ({ exp with op := .constant }, [.warn "register value used as expression"])
  else (exp, [])

/-- The operand of a LEB128 directive, with its littlenums. -/
def lebOperand (exp : ExprS) (nums : List Littlenum) (sign : Bool) :
    ExprS × List Littlenum × List Msg :=
  if exp.op = .constant ∧ sign ∧ exp.addNumber.slt 0 = !exp.extrabit then
    -- the sign of the number does not reflect the sign of the original value
    let nums := convertToBignum exp exp.extrabit
    ({ exp with op := .big, addNumber := .ofNat 64 nums.length }, nums, [])
  else
    let r := dataOperand exp nums
    (r.1, nums, r.2)

/-- `emit_leb128_expr`; `nums` are the littlenums that `X_add_number` counts for `O_big`. -/
def emitLeb128Expr (seg : NowSeg) (exp : ExprS) (nums : List Littlenum) (sign : Bool) :
    Option (Emitted × List Msg) := do
  let (exp, nums, msgs) := lebOperand exp nums sign
  let isZero := exp.op = .constant ∧ exp.addNumber = 0
  if seg.absolute then
    let text := "attempt to store value in absolute section"
    return (.absolute, if isZero then msgs else msgs ++ [.bad text])
  else
    let text := "attempt to store non-zero value in section `" ++ seg.name ++ "'"
    let msgs := if ¬ isZero ∧ seg.bss then msgs ++ [.bad text] else msgs
    match exp.op with
    | .constant =>
      return (.bytes (sizeofLeb128 exp.addNumber sign) (outputLeb128 exp.addNumber sign), msgs)
    | .big =>
      let nums := prependZero exp.unsigned nums
      let sized ← outputBigLeb128 false nums sign
      let out ← outputBigLeb128 true nums sign
      if sized.count < out.count then none else return (.bytes sized.count out.written, msgs)
    | _ => return (.leb128 exp sign, msgs)

/-- What the claims of the source about bignums come to, for one array. -/
structure Denotes (nums : List Littlenum) : Prop where
  unsigned : ∃ bs, outputBigLeb128 true nums false = some ⟨bs, bs.length⟩ ∧
    (∃ out, outputBigLeb128 false nums false = some out ∧ out.count = bs.length) ∧
    ∀ rest, decodeUnsigned (bs ++ rest) = some (value nums, rest)
  signed : ∃ bs, outputBigLeb128 true nums true = some ⟨bs, bs.length⟩ ∧
    (∃ out, outputBigLeb128 false nums true = some out ∧ out.count = bs.length) ∧
    ∀ rest, decodeSigned (bs ++ rest) = some (signedValue nums, rest)
  literal : ∀ seg exp, seg.absolute = false → exp.op = .big → exp.unsigned = true →
    ∃ bs msgs, emitLeb128Expr seg exp nums true = some (.bytes bs.length bs, msgs) ∧
      ∀ rest, decodeSigned (bs ++ rest) = some ((value nums : Int), rest)

theorem outputBigLeb128_signed (hne : nums ≠ []) :
    ∃ bs, outputBigLeb128 true nums true = some ⟨bs, bs.length⟩ ∧
      (∃ out, outputBigLeb128 false nums true = some out ∧ out.count = bs.length) ∧
      ∀ rest, decodeSigned (bs ++ rest) = some (signedValue nums, rest) := by
  obtain ⟨bs, hout, hdec⟩ := outputBigSleb128_spec hne
  exact ⟨bs, hout, outputBigSleb128_count hout, hdec⟩

theorem outputBigLeb128_unsigned (nums : List Littlenum) :
    ∃ bs, outputBigLeb128 true nums false = some ⟨bs, bs.length⟩ ∧
      (∃ out, outputBigLeb128 false nums false = some out ∧ out.count = bs.length) ∧
      ∀ rest, decodeUnsigned (bs ++ rest) = some (value nums, rest) := by
  obtain ⟨bs, hout, hdec⟩ := outputBigUleb128_spec nums
  have hcount : (outputBigUleb128 false nums).count = (outputBigUleb128 true nums).count :=
    ulebLoop_count rfl
  refine ⟨bs, congrArg some hout, ⟨_, rfl, ?_⟩, hdec⟩
  rw [hcount, hout]

theorem prependZero_ne_nil (unsigned : Bool) (hne : nums ≠ []) : prependZero unsigned nums ≠ [] := by
  rw [prependZero]
  split
  · simp
  · exact hne

/-- The bytes of a bignum denote it in two's complement, after the 0 that it may have got. -/
theorem emitLeb128Expr_big {seg : NowSeg} {exp : ExprS} (hseg : seg.absolute = false)
    (hop : exp.op = .big) (hne : nums ≠ []) :
    ∃ bs msgs, emitLeb128Expr seg exp nums true = some (.bytes bs.length bs, msgs) ∧
      ∀ rest, decodeSigned (bs ++ rest) =
        some (signedValue (prependZero exp.unsigned nums), rest) := by
  obtain ⟨bs, hout, ⟨out, hsized, hcount⟩, hdec⟩ :=
    outputBigLeb128_signed (prependZero_ne_nil exp.unsigned hne)
  have hoperand : lebOperand exp nums true = (exp, nums, []) := by
    simp [lebOperand, dataOperand, hop, hne]
  obtain ⟨msgs, hemit⟩ : ∃ msgs,
      emitLeb128Expr seg exp nums true = some (.bytes bs.length bs, msgs) := by
    rw [emitLeb128Expr, hoperand]
    simp only [hseg, Bool.false_eq_true, if_false, hop, hsized, hout, hcount,
      Option.bind_eq_bind, Option.bind_some, lt_irrefl]
    exact ⟨_, rfl⟩
  exact ⟨bs, msgs, hemit, hdec⟩

/-- The top littlenum has no bit that looks like a sign, or it is one that a 0 is put on. -/
def PlainTop (nums : List Littlenum) : Prop :=
  ∃ top ∈ nums.getLast?,
    top < 0x8000#16 ∨ top = 0xffff#16 ∧ nums.length < sizeOfLargeNumber

theorem toInt_eq_toNat_iff (n : Littlenum) : n.toInt = n.toNat ↔ n < 0x8000#16 := by
  have hlt : n < 0x8000#16 ↔ n.toNat < 0x8000 := Iff.rfl
  rw [BitVec.toInt_eq_toNat_cond, hlt]
  split <;> omega

theorem signedValue_prependZero (hne : nums ≠ []) :
    signedValue (prependZero true nums) = value nums ↔ PlainTop nums := by
  obtain ⟨low, top, rfl⟩ : ∃ low top, nums = low ++ [top] :=
    ⟨_, _, (List.dropLast_append_getLast hne).symm⟩
  have hplain : PlainTop (low ++ [top]) ↔
      top < 0x8000#16 ∨ top = 0xffff#16 ∧ (low ++ [top]).length < sizeOfLargeNumber := by
    simp [PlainTop]
  rw [hplain, prependZero]
  by_cases hprepend : (low ++ [top]).length < sizeOfLargeNumber ∧ top = 0xffff#16
  · have hcond : true ∧ (low ++ [top]).length < sizeOfLargeNumber ∧
        (low ++ [top]).getLast? = some 0xffff#16 := ⟨rfl, hprepend.1, by simp [hprepend.2]⟩
    rw [if_pos hcond, signedValue_concat (by decide)]
    simp only [BitVec.ofNat_eq_ofNat, BitVec.toInt_zero, mul_zero, add_zero, true_iff]
    exact .inr ⟨hprepend.2, hprepend.1⟩
  · have hcond : ¬ (true ∧ (low ++ [top]).length < sizeOfLargeNumber ∧
        (low ++ [top]).getLast? = some 0xffff#16) := by
      rintro ⟨-, hlen, hlast⟩
      exact hprepend ⟨hlen, by simpa using hlast⟩
    rw [if_neg hcond, signedValue_concat_eq_iff (by decide), toInt_eq_toNat_iff]
    constructor
    · exact .inl
    · rintro (hlow | ⟨htop, hlen⟩)
      · exact hlow
      · exact absurd ⟨hlen, htop⟩ hprepend

/-- What is written for a literal is read as its number only if the two agree. -/
theorem Denotes.signedValue_eq (h : Denotes nums) (hne : nums ≠ []) :
    signedValue (prependZero true nums) = value nums := by
  let exp : ExprS := ⟨.big, none, none, 0, true, false⟩
  let seg : NowSeg := ⟨false, false, ".data"⟩
  obtain ⟨bs, msgs, hemit, hdec⟩ := h.literal seg exp rfl rfl rfl
  obtain ⟨bs', msgs', hemit', hdec'⟩ := @emitLeb128Expr_big nums seg exp rfl rfl hne
  have hbs : bs' = bs := by
    rw [hemit'] at hemit
    simp only [Option.some.injEq, Prod.mk.injEq, Emitted.bytes.injEq] at hemit
    exact hemit.1.2
  have hboth := (hdec' []).symm.trans (hbs ▸ hdec [])
  simp only [Option.some.injEq, Prod.mk.injEq, and_true] at hboth
  exact hboth

/-- All three promises hold of an array just when its top littlenum is plain. The bytes of both
forms always denote it; what a positive literal needs is a top that looks positive. -/
theorem denotes_iff_plainTop (nums : List Littlenum) : Denotes nums ↔ PlainTop nums := by
  constructor
  · intro h
    have hne : nums ≠ [] := by
      rintro rfl
      obtain ⟨bs, hout, -⟩ := h.signed
      cases hout
    exact (signedValue_prependZero hne).mp (h.signedValue_eq hne)
  · intro h
    have hne : nums ≠ [] := by
      obtain ⟨top, htop, -⟩ := h
      rintro rfl
      cases htop
    refine ⟨outputBigLeb128_unsigned nums, outputBigLeb128_signed hne, ?_⟩
    intro seg exp hseg hop hunsigned
    have hbytes := emitLeb128Expr_big hseg hop hne
    rwa [hunsigned, (signedValue_prependZero hne).mpr h] at hbytes

/-- The literal 0x80000000000000000000 is written as a negative number. -/
theorem positive_literal_negative : ¬ Denotes [0, 0, 0, 0, 0x8000] := by
  intro h
  have heq := h.signedValue_eq (List.cons_ne_nil _ _)
  exact absurd heq (by decide)

end FusionBinutils.Gas.BigLeb
