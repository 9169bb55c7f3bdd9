import Mathlib.Tactic.IntervalCases

/-! Numbers as hexadecimal text. -/
namespace FusionBinutils.Hex

/-- The digit of the low four bits. -/
def digit (n : Nat) : Char :=
  ['0', '1', '2', '3', '4', '5', '6', '7', '8', '9', 'A', 'B', 'C', 'D', 'E', 'F'].getD (n % 16) '0'

/-- The value of a digit of either case. -/
def value (c : Char) : Option Nat :=
  if '0' ≤ c ∧ c ≤ '9' then some (c.toNat - 48)
  else if 'A' ≤ c ∧ c ≤ 'F' then some (c.toNat - 55)
  else if 'a' ≤ c ∧ c ≤ 'f' then some (c.toNat - 87)
  else none

/-- The two digits of a byte. -/
def two (v : Nat) : List Char := [digit (v / 16), digit v]

/-- The byte of two digits. -/
def byte (hi lo : Char) : Option Nat := do
  let h ← value hi
  let l ← value lo
  some (h * 16 + l)

/-- The bytes of pairs of digits; a digit left over counts for nothing. -/
def bytes : List Char → Option (List (BitVec 8))
  | hi :: lo :: rest => do
    let b ← byte hi lo
    let bs ← bytes rest
    some (.ofNat 8 b :: bs)
  | _ => some []

/-- The digits of some bytes. -/
def text (bs : List (BitVec 8)) : List Char := bs.flatMap fun b => two b.toNat

theorem value_digit (n : Nat) : value (digit n) = some (n % 16) := by
  have h : ∀ k < 16, value (digit k) = some k := by decide
  have hn := h (n % 16) (Nat.mod_lt _ (by decide))
  rwa [digit, Nat.mod_mod] at hn

theorem byte_two (v : Nat) : byte (digit (v / 16)) (digit v) = some (v % 256) := by
  rw [byte, value_digit, value_digit]
  simp only [Option.bind_eq_bind, Option.bind_some, Option.some.injEq]
  omega

@[simp]
theorem length_two (v : Nat) : (two v).length = 2 := rfl

@[simp]
theorem length_text (bs : List (BitVec 8)) : (text bs).length = bs.length * 2 := by
  induction bs with
  | nil => rfl
  | cons b bs ih =>
    rw [text, List.flatMap_cons, List.length_append, ← text, ih, length_two, List.length_cons]
    omega

theorem text_append (bs bs' : List (BitVec 8)) : text (bs ++ bs') = text bs ++ text bs' :=
  List.flatMap_append

/-- Bytes come back from their digits. -/
theorem bytes_text (bs : List (BitVec 8)) : bytes (text bs) = some bs := by
  induction bs with
  | nil => rfl
  | cons b bs ih =>
    rw [text, List.flatMap_cons, ← text]
    have hb : BitVec.ofNat 8 (b.toNat % 256) = b := by
      rw [Nat.mod_eq_of_lt b.isLt, BitVec.ofNat_toNat, BitVec.setWidth_eq]
    simp [two, bytes, byte_two, ih, hb]

end FusionBinutils.Hex
