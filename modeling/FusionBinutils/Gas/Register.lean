import FusionBinutils.Lib.Decimal
import FusionBinutils.Opcode.Encoding

/-! Register operands in the text of a line (gas/config/tc-fusion.c). -/
namespace FusionBinutils.Gas

open Decimal (isDigit)

/-- A character of the source. -/
def ch (c : Char) : BfdByte := .ofNat 8 c.toNat

/-- A string in memory, from a pointer on: there is a NUL, and anything may follow it. -/
structure CString where
  mem : Nat → BfdByte
  len : Nat
  nul : mem len = 0

/-- `SKIP_SPACE_TABS`: how far it moves, in at most `n` steps. -/
def skipSpaceTabs (mem : Nat → BfdByte) : Nat → Nat → Nat
  | 0, p => p
  | n + 1, p => if mem p = ch ' ' ∨ mem p = ch '\t' then skipSpaceTabs mem n (p + 1) else p

/-- The blanks before the operand. The NUL is none. -/
def CString.blanks (t : CString) : Nat := skipSpaceTabs t.mem t.len 0

/-- The text from the operand on, the local `s`. -/
def CString.operand (t : CString) (i : Nat) : BfdByte := t.mem (t.blanks + i)

def fusionGpregName : List (List Char) :=
  [['z', 'e', 'r', 'o'], ['s', 'p'], ['f', 'p'], ['g', 'p'], ['r', 'a'], ['a', 'r', 'g', '0'],
   ['a', 'r', 'g', '1'], ['a', 'r', 'g', '2'], ['a', 'r', 'g', '3'], ['r', 'v', 'a', 'l', '0'],
   ['r', 'v', 'a', 'l', '1'], ['g', 'r', '0'], ['g', 'r', '1'], ['g', 'r', '2'], ['g', 'r', '3'],
   ['g', 'r', '4'], ['g', 'r', '5'], ['g', 'r', '6'], ['g', 'r', '7'], ['g', 'r', '8'],
   ['g', 'r', '9'], ['g', 'r', '1', '0'], ['t', 'm', 'p', '0'], ['t', 'm', 'p', '1'],
   ['t', 'm', 'p', '2'], ['t', 'm', 'p', '3'], ['t', 'm', 'p', '4'], ['t', 'm', 'p', '5'],
   ['t', 'm', 'p', '6'], ['t', 'm', 'p', '7'], ['h', 'i', '0'], ['l', 'o', 'w', '0']]

/-- `c - '0'` for a `char`, which is signed. -/
def digitValue (b : BfdByte) : Int := b.toInt - 48

/-- An `as_bad`: its format and where the text for it starts. -/
structure Complaint where
  format : String
  text : Option Nat
  deriving DecidableEq

/-- What `parse_register_operand` does: its answer, how far it moves the caller's pointer, the
memory afterwards, the complaints, and whether it calls `ignore_rest_of_line`. -/
structure RegParse where
  reg : Int
  advance : Nat
  mem : Nat → BfdByte
  errors : List Complaint
  ignored : Bool

namespace CString

variable (t : CString)

def fail (format : String) (text : Option Nat) (ignored : Bool) : RegParse :=
  ⟨-1, 0, t.mem, [⟨format, text⟩], ignored⟩

/-- A register found by its name: the complaint is made and forgotten. -/
def found (reg : Int) (len : Nat) (ok : Bool) (format : String) : RegParse :=
  ⟨reg, len, t.mem, if ok then [] else [⟨format, some t.blanks⟩], false⟩

/-- The characters of the operand begin with a word. -/
def starts (word : List Char) : Bool :=
  word.zipIdx.all fun (c, i) => t.operand i == ch c

/-- The number of a `$` register. The units are taken from the third character, whether or not
the second one was the only digit. -/
def numberValue : Int :=
  (if isDigit (t.operand 2) then digitValue (t.operand 1) * 10 else 0) + digitValue (t.operand 2)

def numberRegister : RegParse :=
  if 31 < t.numberValue then t.fail "Your register number is too damn high: %s" (some t.blanks) false
  else ⟨t.numberValue, 0, t.mem, [], false⟩

/-- The characters that most names may be followed by. -/
def ends (i : Nat) : Bool :=
  t.operand i = ch ' ' || t.operand i = ch '\t' || t.operand i = ch ',' || t.operand i = 0

/-- With the closing parenthesis, which only some of the names allow. -/
def endsParen (i : Nat) : Bool :=
  t.operand i = ch ' ' || t.operand i = ch '\t' || t.operand i = ch ',' || t.operand i = ch ')' ||
    t.operand i = 0

/-- The third test of `gp` is an assignment, so it writes the comma and is true. -/
def gpRegister : RegParse :=
  if t.operand 2 = ch ' ' ∨ t.operand 2 = ch '\t' then ⟨3, 2, t.mem, [], false⟩
  else ⟨3, 2, Function.update t.mem (t.blanks + 2) (ch ','), [], false⟩

def argRegister : RegParse :=
  let reg := digitValue (t.operand 3)
  if reg < 0 ∨ 3 < reg then t.fail "illegal argument register" none true
  else ⟨reg + 5, 4, t.mem, [], false⟩

def rvalRegister : RegParse :=
  let reg := digitValue (t.operand 4)
  let late : List Complaint := if t.ends 5 then [] else [⟨"not a real register: %s", some t.blanks⟩]
  if reg < 0 ∨ 1 < reg then
    ⟨-1, 0, t.mem, late ++ [⟨"illegal return value regsiter", none⟩], true⟩
  else ⟨reg + 9, 5, t.mem, late, false⟩

def grRegister : RegParse :=
  let reg := digitValue (t.operand 2)
  if reg < 0 ∨ 9 < reg then t.fail "illegal general use register" none true
  else if t.operand 2 = ch '1' ∧ t.operand 3 = ch '0' then ⟨21, 4, t.mem, [], false⟩
  else ⟨reg + 11, 3, t.mem, [], false⟩

def tmpRegister : RegParse :=
  let reg := digitValue (t.operand 3)
  let late : List Complaint :=
    if t.endsParen 4 then [] else [⟨"illegal temporary use register: %s", some t.blanks⟩]
  if reg < 0 ∨ 8 < reg then
    ⟨-1, 0, t.mem, late ++ [⟨"illegal temporary use register", none⟩], true⟩
  else ⟨reg + 22, 4, t.mem, late, false⟩

/-- The cascade over the names. -/
def namedRegister : RegParse :=
  if t.starts ['z', 'e', 'r', 'o'] then t.found 0 4 (t.endsParen 4) "not a real register: %s"
  else if t.starts ['s', 'p'] then t.found 1 2 (t.ends 2) "not a real register: %s"
  else if t.starts ['f', 'p'] then t.found 2 2 (t.ends 2) "not a real register: %s"
  else if t.starts ['g', 'p'] then t.gpRegister
  else if t.starts ['r', 'a'] then t.found 4 2 (t.ends 2) "not a real register: %s"
  else if t.starts ['a', 'r', 'g'] then t.argRegister
  else if t.starts ['r', 'v', 'a', 'l'] then t.rvalRegister
  else if t.starts ['g', 'r'] then t.grRegister
  else if t.starts ['t', 'm', 'p'] then t.tmpRegister
  else if t.starts ['h', 'i', '0'] then t.found 30 3 (t.ends 3) "not a real register: %s"
  else if t.starts ['l', 'o', 'w', '0'] then t.found 31 4 (t.ends 4) "not a real register: %s"
  else t.fail "expecting register, unknown operand:%s" (some 0) true

/-- `parse_register_operand`. Only the names move the pointer, and they count from the blanks. -/
def parseRegisterOperand : RegParse :=
  if t.operand 0 ≠ ch '$' ∧ (isDigit (t.operand 1) ∨ t.operand 1 = ch 'R') then
    t.fail "number regsiters require '$' or 'R': %s" (some t.blanks) true
  else if t.operand 0 = ch '$' ∧ isDigit (t.operand 1) then t.numberRegister
  else if t.operand 0 = ch '$' ∧ t.operand 1 = ch 'R' then t.numberRegister
  else if t.operand 0 = ch '$' ∧ ¬ isDigit (t.operand 1) then
    t.fail "'$' is for number registers only: %s" (some t.blanks) true
  else t.namedRegister

/-! The names of the registers, as they are meant to be written. -/

def numberName (n : Nat) : List Char :=
  if n < 10 then ['$', Char.ofNat (48 + n)]
  else ['$', Char.ofNat (48 + n / 10), Char.ofNat (48 + n % 10)]

/-- The operand begins with the name of register `k`, which is `len` characters long. -/
def Named (k len : Nat) : Prop :=
  ∃ name, (name, k) ∈ fusionGpregName.zipIdx ∧ len = name.length ∧ t.starts name = true

/-- The operand begins with the number of register `k`. -/
def Numbered (k len : Nat) : Prop :=
  k < 32 ∧ len = (numberName k).length ∧ t.starts (numberName k) = true

/-- The operand is a name or a number, and ends there. -/
def Spelled (k len : Nat) : Prop := (t.Named k len ∨ t.Numbered k len) ∧ t.endsParen len = true

/-- A register is recognised, passed over and left as it is; anything else is an error. -/
def ParsesRight : Prop :=
  (∀ k len, t.Spelled k len →
      t.parseRegisterOperand.reg = k ∧ t.parseRegisterOperand.errors = [] ∧
        t.parseRegisterOperand.advance = t.blanks + len ∧ t.parseRegisterOperand.mem = t.mem) ∧
    ((∀ k len, ¬ t.Spelled k len) → t.parseRegisterOperand.errors ≠ [])

/-- Two digits that are more than 31, a digit behind the `R`, or one character before something
whose code is well above the digits'. -/
def TooHigh : Prop :=
  if isDigit (t.operand 2) then
    t.operand 1 = ch 'R' ∨ (ch '3').toInt < (t.operand 1).toInt ∨
      t.operand 1 = ch '3' ∧ (ch '1').toInt < (t.operand 2).toInt
  else (ch 'O').toInt < (t.operand 2).toInt

/-- The texts that are treated right. -/
structure RegisterFits : Prop where
  /-- no number register is, and what only looks like one is noticed if it is too high -/
  number : t.operand 0 = ch '$' → isDigit (t.operand 1) = true ∨ t.operand 1 = ch 'R' → t.TooHigh
  /-- a name stands at the pointer, and only some of them stand before a parenthesis -/
  named : ∀ k len, t.Named k len → t.endsParen len = true →
    t.blanks = 0 ∧ (t.operand len = ch ')' → k ∉ [1, 2, 3, 4, 9, 10, 30, 31]) ∧
      (k = 3 → t.operand len ≠ 0)
  /-- the names that may be followed by anything -/
  loose : ∀ k len, t.Named k len → k ∈ [3, 5, 6, 7, 8, 11, 12, 13, 14, 15, 16, 17, 18, 19, 20, 21] →
    t.endsParen len = true ∨ k = 12 ∧ t.operand 3 = ch '0'
  tmp8 : t.starts ['t', 'm', 'p', '8'] = true → t.endsParen 4 = false

end CString

end FusionBinutils.Gas
