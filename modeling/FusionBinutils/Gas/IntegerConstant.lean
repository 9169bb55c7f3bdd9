import FusionBinutils.Gas.Frags
import FusionBinutils.Lib.Hex
import FusionBinutils.Lib.Limbs

/-! Integer literals (`integer_constant` of gas/expr.c). Text ends at a NUL, which is also what the
end of a list of characters stands for; numbers with a suffix for the radix are off in this port. -/
namespace FusionBinutils.Gas.Integer

open Limbs

abbrev Littlenum := BitVec 16

/-- `SIZE_OF_LARGE_NUMBER`. -/
def sizeOfLargeNumber : Nat := 20

/-- The bits of `valueT`. -/
def valuesize : Nat := 64

/-- `hex_value`, which is 99 for what is no digit. -/
def hexValue (c : Char) : Nat := (Hex.value c).getD 99

def isEndOfLine (c : Char) : Bool := c == '\x00' || c == '\n' || c == ';'

def maxdig : Nat → Nat
  | 2 => 2
  | 8 => 8
  | 16 => 16
  | 10 => 10
  | _ => 0

def tooManyDigits : Nat → Nat
  | 2 => valuesize + 1
  | 8 => (valuesize + 2) / 3 + 1
  | 16 => (valuesize + 3) / 4 + 1
  | 10 => (valuesize + 11) / 4
  | _ => 0

/-- Digits in a word: the number, how many there were, and the text after them. -/
structure Digits where
  number : Vma
  ndigit : Nat
  rest : List Char
  deriving DecidableEq, Repr

def scanDigits (radix : Nat) : List Char → Vma → Nat → Digits
  | [], number, n => ⟨number, n, []⟩
  | c :: cs, number, n =>
    if hexValue c < maxdig radix then
      scanDigits radix cs (number * .ofNat 64 radix + .ofNat 64 (hexValue c)) (n + 1)
    else ⟨number, n, c :: cs⟩

/-- A number that has been read: in `number`, or in `generic_bignum`. -/
inductive Number where
  | small (number : Vma)
  | big (nums : List Littlenum)
  deriving DecidableEq, Repr

/-- A number with the messages on the way and the text after it. -/
structure Reading where
  number : Number
  msgs : List Msg
  rest : List Char
  deriving DecidableEq, Repr

/-- One littlenum more below a number. -/
def pushLow (x : Vma) (n : Littlenum) : Vma := x <<< 16 ||| n.setWidth 64

def genericBignumToInt32 (nums : List Littlenum) : Vma :=
  pushLow ((nums.getD 1 0).setWidth 64) (nums.getD 0 0) &&& 0xffffffff#64

def genericBignumToInt64 (nums : List Littlenum) : Vma :=
  pushLow (pushLow (pushLow ((nums.getD 3 0).setWidth 64) (nums.getD 2 0)) (nums.getD 1 0))
    (nums.getD 0 0)

/-- The `count` littlenums of `generic_bignum`, in a word where they fit. -/
def ofLittlenums (nums : List Littlenum) (count : Nat) : Number :=
  if count ≤ 2 then .small (genericBignumToInt32 nums)
  else if count ≤ 4 then .small (genericBignumToInt64 nums)
  else .big (nums.take count)

/-! Hexadecimal words with underscores between them. -/

theorem length_scanDigits_le (radix : Nat) (text : List Char) (number : Vma) (n : Nat) :
    (scanDigits radix text number n).rest.length ≤ text.length := by
  induction text generalizing number n with
  | nil => exact Nat.le_refl 0
  | cons c cs ih =>
    rw [scanDigits]
    split
    · exact (ih _ _).trans (Nat.le_succ _)
    · exact Nat.le_refl _

/-- `generic_bignum` with its littlenums so far, how many were stored, and the messages. -/
structure Words where
  nums : List Littlenum
  count : Nat
  msgs : List Msg
  rest : List Char

def tooLongWord : Msg :=
  .bad "a bignum with underscores may not have more than 8 hex digits in any word"

/-- The loop over the words: each one moves the ones before it up. -/
def readWords (text : List Char) (nums : List Littlenum) (count : Nat) (msgs : List Msg) : Words :=
  let d := scanDigits 16 text 0 0
  let msgs := if 8 < d.ndigit then msgs ++ [tooLongWord] else msgs
  let nums :=
    (d.number.setWidth 16 :: (d.number >>> 16).setWidth 16 :: nums).take sizeOfLargeNumber
  match h : d.rest with
  | '_' :: text' => readWords text' nums (count + 2) msgs
  | rest => ⟨nums, count + 2, msgs, rest⟩
termination_by text.length
decreasing_by
  have hle := length_scanDigits_le 16 text 0 0
  have hrest : (scanDigits 16 text 0 0).rest.length = text'.length + 1 := congrArg List.length h
  omega

/-- The littlenums without the zeros on top; the lowest one always stays. -/
def trimmed (nums : List Littlenum) : Nat → Nat
  | 0 => 0
  | count + 1 => if nums.getD count 0 = 0 ∧ 1 < count + 1 then trimmed nums count else count + 1

def wordsConstant (text : List Char) : Reading :=
  let ws := readWords text [] 0 []
  let count := min ws.count (sizeOfLargeNumber - 1)
  let msgs := if count ≠ 8 then
      ws.msgs ++ [.bad "a bignum with underscores must have exactly 4 words"]
    else ws.msgs
  ⟨ofLittlenums ws.nums (trimmed ws.nums count), msgs, ws.rest⟩

/-! Bignums from many digits. -/

/-- One digit more; a carry out of a full array is dropped. -/
def pushDigit (radix digit : Nat) (nums : List Littlenum) : List Littlenum :=
  let r := mulAdd radix digit nums
  if r.2 ≠ 0 ∧ nums.length < sizeOfLargeNumber then r.1 ++ [.ofNat 16 r.2] else r.1

def bigDigits (radix : Nat) : List Char → List Littlenum → List Littlenum × List Char
  | [], nums => (nums, [])
  | c :: cs, nums =>
    if hexValue c < maxdig radix then bigDigits radix cs (pushDigit radix (hexValue c) nums)
    else (nums, c :: cs)

/-- We saw a lot of digits. -/
def bigConstant (radix : Nat) (text : List Char) : Reading :=
  let r := bigDigits radix text [0]
  ⟨ofLittlenums r.1 r.1.length, [], r.2⟩

/-! The literal. -/

inductive LabelKind where
  | backward | forward | dollar
  deriving DecidableEq, Repr

/-- What `integer_constant` leaves in the expression: with `O_big` the littlenums, with a reference
to a local label the number in its name. -/
inductive Literal where
  | absent
  | constant (number : Vma)
  | big (nums : List Littlenum)
  | label (kind : LabelKind) (number : Vma)
  deriving DecidableEq, Repr

structure Parsed where
  literal : Literal
  msgs : List Msg
  rest : List Char
  deriving DecidableEq, Repr

/-- A `U`, and then any number of `L`, count for nothing. -/
def skipSuffix : List Char → List Char
  | 'U' :: cs => cs.dropWhile fun c => c == 'L' || c == 'l'
  | 'u' :: cs => cs.dropWhile fun c => c == 'L' || c == 'l'
  | cs => cs.dropWhile fun c => c == 'L' || c == 'l'

/-- The label that a small number with this text after it refers to. -/
def labelKind : List Char → Option LabelKind
  | 'b' :: _ => some .backward
  | 'f' :: _ => some .forward
  | '$' :: _ => some .dollar
  | _ => none

def Reading.finish (r : Reading) : Parsed :=
  let rest := skipSuffix r.rest
  match r.number with
  | .big nums => ⟨.big nums, r.msgs, rest⟩
  | .small number =>
    match labelKind rest with
    | some kind => ⟨.label kind number, r.msgs, rest.tail⟩
    | none => ⟨.constant number, r.msgs, rest⟩

/-- `integer_constant`. -/
def integerConstant (radix : Nat) (text : List Char) : Parsed :=
  if isEndOfLine (text.headD '\x00') then ⟨.absent, [], text⟩
  else
    let d := scanDigits radix text 0 0
    if radix = 16 ∧ d.rest.headD '\x00' = '_' then (wordsConstant text).finish
    else if d.ndigit < tooManyDigits radix then (Reading.mk (.small d.number) [] d.rest).finish
    else (bigConstant radix text).finish

/-! What digits denote. -/

variable {radix v : Nat} {ds rest : List Char} {nums : List Littlenum}

/-- The number that some digits make behind `v`. -/
def digitsFrom (radix v : Nat) (ds : List Char) : Nat :=
  ds.foldl (fun v c => v * radix + hexValue c) v

/-- The characters are digits of the radix, and the text after them does not go on. -/
structure IsLiteral (radix : Nat) (ds rest : List Char) : Prop where
  ne_nil : ds ≠ []
  digits : ∀ c ∈ ds, hexValue c < radix
  ends : ¬ hexValue (rest.headD '\x00') < radix
  /-- no underscore, which would make the digits the first word of another kind of literal -/
  word : radix = 16 → rest.headD '\x00' ≠ '_'
  /-- no letter that would make them a reference to a local label -/
  label : labelKind (skipSuffix rest) = none

theorem digitsFrom_cons (c : Char) :
    digitsFrom radix v (c :: ds) = digitsFrom radix (v * radix + hexValue c) ds := rfl

theorem digitsFrom_lt (h : ∀ c ∈ ds, hexValue c < radix) :
    digitsFrom radix v ds < (v + 1) * radix ^ ds.length := by
  induction ds generalizing v with
  | nil => simp [digitsFrom]
  | cons c ds ih =>
    rcases List.forall_mem_cons.mp h with ⟨hc, hds⟩
    have hstep : v * radix + hexValue c + 1 ≤ (v + 1) * radix := by linarith
    rw [digitsFrom_cons, List.length_cons, Nat.pow_succ']
    calc _ < (v * radix + hexValue c + 1) * radix ^ ds.length := ih hds
      _ ≤ (v + 1) * radix * radix ^ ds.length := Nat.mul_le_mul_right _ hstep
      _ = _ := by ring

theorem maxdig_eq (h : radix ∈ [2, 8, 10, 16]) : maxdig radix = radix := by
  simp only [List.mem_cons, List.not_mem_nil, or_false] at h
  rcases h with rfl | rfl | rfl | rfl <;> rfl

theorem ofNat_push (v d : Nat) :
    BitVec.ofNat 64 v * BitVec.ofNat 64 radix + BitVec.ofNat 64 d =
      BitVec.ofNat 64 (v * radix + d) := by
  rw [BitVec.ofNat_mul_ofNat, BitVec.ofNat_add_ofNat]

/-- The first loop: the number is right as long as the word holds it. -/
theorem scanDigits_append (hm : maxdig radix = radix) (hds : ∀ c ∈ ds, hexValue c < radix)
    (hrest : ¬ hexValue (rest.headD '\x00') < radix) (n : Nat) :
    scanDigits radix (ds ++ rest) (.ofNat 64 v) n =
      ⟨.ofNat 64 (digitsFrom radix v ds), n + ds.length, rest⟩ := by
  induction ds generalizing v n with
  | nil =>
    cases rest with
    | nil => rfl
    | cons c rest =>
      have hc : ¬ hexValue c < radix := hrest
      rw [List.nil_append, scanDigits, hm, if_neg hc]
      rfl
  | cons c ds ih =>
    rcases List.forall_mem_cons.mp hds with ⟨hc, hds⟩
    rw [List.cons_append, scanDigits, hm, if_pos hc, ofNat_push, ih hds, digitsFrom_cons,
      List.length_cons, Nat.add_right_comm, Nat.add_assoc]

/-! The array while digits go in. -/

/-- The littlenums are those of `v` as far as the array holds them, and none is there too early. -/
structure Holds (nums : List Littlenum) (v : Nat) : Prop where
  value_eq : value nums = v % 2 ^ (16 * sizeOfLargeNumber)
  pos : 1 ≤ nums.length
  le : nums.length ≤ sizeOfLargeNumber
  top : 2 ≤ nums.length → 2 ^ (16 * (nums.length - 1)) ≤ v

theorem holds_zero : Holds [0] 0 where
  value_eq := (Nat.zero_mod _).symm
  pos := Nat.le_refl 1
  le := by decide
  top h := absurd h (by decide)

theorem length_pushDigit_le {d : Nat} (h : nums.length ≤ sizeOfLargeNumber) :
    (pushDigit radix d nums).length ≤ sizeOfLargeNumber := by
  rw [pushDigit]
  split
  · next hgrow =>
    rw [List.length_append, length_mulAdd]
    exact hgrow.2
  · rwa [length_mulAdd]

theorem value_pushDigit {d : Nat} (hr : radix ≤ 16) (hd : d < radix)
    (h : nums.length ≤ sizeOfLargeNumber) :
    value (pushDigit radix d nums) =
      (radix * value nums + d) % 2 ^ (16 * sizeOfLargeNumber) := by
  have hval := value_mulAdd radix d nums
  have hcarry : (mulAdd radix d nums).2 < radix := mulAdd_lt hd
  have hle : (pushDigit radix d nums).length ≤ sizeOfLargeNumber := length_pushDigit_le h
  have hlt : value (pushDigit radix d nums) < 2 ^ (16 * sizeOfLargeNumber) :=
    (value_lt _).trans_le (Nat.pow_le_pow_right (by decide) (Nat.mul_le_mul_left 16 hle))
  rw [← Nat.mod_eq_of_lt hlt, ← hval, pushDigit]
  by_cases hgrow : (mulAdd radix d nums).2 ≠ 0 ∧ nums.length < sizeOfLargeNumber
  · have hone : value [BitVec.ofNat 16 (mulAdd radix d nums).2] = (mulAdd radix d nums).2 := by
      rw [value_cons, value_nil, BitVec.toNat_ofNat, Nat.mod_eq_of_lt (by omega), Nat.mul_zero,
        Nat.add_zero]
    rw [if_pos hgrow, value_append, length_mulAdd, hone]
  · rw [if_neg hgrow]
    rcases Decidable.not_and_iff_not_or_not.mp hgrow with hzero | hfull
    · rw [Decidable.not_not.mp hzero, Nat.mul_zero, Nat.add_zero]
    · -- the carry that is dropped counts multiples of the whole array
      rw [show nums.length = sizeOfLargeNumber by omega, Nat.add_mul_mod_self_left]

theorem holds_pushDigit {d : Nat} (hr : 1 ≤ radix) (hr16 : radix ≤ 16) (hd : d < radix)
    (h : Holds nums v) : Holds (pushDigit radix d nums) (v * radix + d) := by
  have hmul : v * 1 ≤ v * radix := Nat.mul_le_mul_left v hr
  refine ⟨?_, ?_, length_pushDigit_le h.le, ?_⟩
  · rw [value_pushDigit hr16 hd h.le, h.value_eq, Nat.mul_comm v, Nat.add_mod, Nat.mul_mod_mod,
      ← Nat.add_mod]
  · rw [pushDigit]
    split <;> simp [h.pos]
  · have hval := value_mulAdd radix d nums
    intro hlen
    rw [pushDigit] at hlen ⊢
    split at hlen
    · next hgrow =>
      -- the carry counts what the array without it cannot hold
      have hpow : 2 ^ (16 * nums.length) * 1 ≤
          2 ^ (16 * nums.length) * (mulAdd radix d nums).2 :=
        Nat.mul_le_mul_left _ (Nat.one_le_iff_ne_zero.mpr hgrow.1)
      have hle : radix * value nums ≤ radix * v := by
        rw [h.value_eq]
        exact Nat.mul_le_mul_left _ (Nat.mod_le _ _)
      rw [if_pos hgrow, List.length_append, length_mulAdd, List.length_singleton,
        Nat.add_sub_cancel, Nat.mul_comm v]
      omega
    · next hkeep =>
      rw [length_mulAdd] at hlen
      have htop := h.top hlen
      rw [if_neg hkeep, length_mulAdd]
      omega

/-- The second loop. -/
theorem bigDigits_append (hm : maxdig radix = radix) (hr : 1 ≤ radix) (hr16 : radix ≤ 16)
    (hds : ∀ c ∈ ds, hexValue c < radix) (hrest : ¬ hexValue (rest.headD '\x00') < radix)
    (h : Holds nums v) :
    ∃ nums', bigDigits radix (ds ++ rest) nums = (nums', rest) ∧
      Holds nums' (digitsFrom radix v ds) := by
  induction ds generalizing v nums with
  | nil =>
    refine ⟨nums, ?_, h⟩
    cases rest with
    | nil => rfl
    | cons c rest =>
      have hc : ¬ hexValue c < radix := hrest
      rw [List.nil_append, bigDigits, hm, if_neg hc]
  | cons c ds ih =>
    rcases List.forall_mem_cons.mp hds with ⟨hc, hds⟩
    rw [List.cons_append, bigDigits, hm, if_pos hc, digitsFrom_cons]
    exact ih hds (holds_pushDigit hr hr16 hc h)

/-! Small bignums. -/

theorem toNat_pushLow {x : Vma} (n : Littlenum) (hx : x.toNat < 2 ^ 48) :
    (pushLow x n).toNat = n.toNat + 2 ^ 16 * x.toNat := by
  have hn := n.isLt
  rw [pushLow, BitVec.toNat_or, BitVec.toNat_shiftLeft, BitVec.toNat_setWidth,
    Nat.mod_eq_of_lt (show n.toNat < 2 ^ 64 by omega), Nat.shiftLeft_eq,
    Nat.mod_eq_of_lt (by omega), ← Nat.shiftLeft_eq, ← Nat.shiftLeft_add_eq_or_of_lt hn,
    Nat.shiftLeft_eq]
  omega

theorem toNat_genericBignumToInt64 (nums : List Littlenum) :
    (genericBignumToInt64 nums).toNat =
      value [nums.getD 0 0, nums.getD 1 0, nums.getD 2 0, nums.getD 3 0] := by
  have h0 := (nums.getD 0 0).isLt
  have h1 := (nums.getD 1 0).isLt
  have h2 := (nums.getD 2 0).isLt
  have h3 := (nums.getD 3 0).isLt
  have hset : ((nums.getD 3 0).setWidth 64).toNat = (nums.getD 3 0).toNat := by
    rw [BitVec.toNat_setWidth, Nat.mod_eq_of_lt (by omega)]
  have hthree := toNat_pushLow (x := (nums.getD 3 0).setWidth 64) (nums.getD 2 0) (by omega)
  have htwo := toNat_pushLow (x := pushLow ((nums.getD 3 0).setWidth 64) (nums.getD 2 0))
    (nums.getD 1 0) (by rw [hthree]; omega)
  have hone := toNat_pushLow
    (x := pushLow (pushLow ((nums.getD 3 0).setWidth 64) (nums.getD 2 0)) (nums.getD 1 0))
    (nums.getD 0 0) (by rw [htwo, hthree]; omega)
  rw [genericBignumToInt64, hone, htwo, hthree, hset]
  simp only [value_cons, value_nil, Nat.mul_zero, Nat.add_zero]

theorem toNat_genericBignumToInt32 (nums : List Littlenum) :
    (genericBignumToInt32 nums).toNat = value [nums.getD 0 0, nums.getD 1 0] := by
  have h0 := (nums.getD 0 0).isLt
  have h1 := (nums.getD 1 0).isLt
  have hset : ((nums.getD 1 0).setWidth 64).toNat = (nums.getD 1 0).toNat := by
    rw [BitVec.toNat_setWidth, Nat.mod_eq_of_lt (by omega)]
  have hone := toNat_pushLow (x := (nums.getD 1 0).setWidth 64) (nums.getD 0 0) (by omega)
  have hmask : ((0xffffffff#64 : Vma)).toNat = 2 ^ 32 - 1 := rfl
  rw [genericBignumToInt32, BitVec.toNat_and, hone, hset, hmask, Nat.and_two_pow_sub_one_eq_mod]
  simp only [value_cons, value_nil, Nat.mul_zero, Nat.add_zero]
  omega

/-- A bignum that is short enough goes into a word as it is. -/
theorem ofLittlenums_small (h : nums.length ≤ 4) :
    ∃ number : Vma, ofLittlenums nums nums.length = .small number ∧ number.toNat = value nums := by
  rw [ofLittlenums]
  split
  · refine ⟨_, rfl, ?_⟩
    rw [toNat_genericBignumToInt32]
    match nums with
    | [] => rfl
    | [n] => simp [value_cons]
    | [n, n'] => rfl
  · next hlong =>
    refine ⟨_, rfl, ?_⟩
    rw [toNat_genericBignumToInt64]
    match nums with
    | [] | [_] | [_, _] => simp at hlong
    | [n, n', n''] => simp [value_cons]
    | [n, n', n'', n'''] => rfl

theorem ofLittlenums_big (h : 4 < nums.length) : ofLittlenums nums nums.length = .big nums := by
  rw [ofLittlenums, if_neg (by omega), if_neg (by omega), List.take_length]

/-! The literal and its value. -/

/-- The literal stands for the number: a constant where a word holds it, otherwise a bignum. -/
def Denotes : Literal → Nat → Prop
  | .constant number, v => v < 2 ^ valuesize ∧ number.toNat = v
  | .big nums, v => 2 ^ valuesize ≤ v ∧ value nums = v
  | _, _ => False

/-- A number that `generic_bignum` has room for is denoted, and any other one is complained of. -/
def Exact (p : Parsed) (v : Nat) : Prop :=
  if v < 2 ^ (16 * sizeOfLargeNumber) then Denotes p.literal v else p.msgs ≠ []

theorem pow_le_room {k : Nat} (h : k ≤ 320) : 2 ^ k ≤ 2 ^ (16 * sizeOfLargeNumber) :=
  Nat.pow_le_pow_right (by decide) h

theorem isEndOfLine_digit {c : Char} (h : hexValue c < 16) : isEndOfLine c = false := by
  simp only [isEndOfLine, Bool.or_eq_false_iff, beq_eq_false_iff_ne]
  refine ⟨⟨?_, ?_⟩, ?_⟩
  all_goals
    rintro rfl
    exact absurd h (by decide)

theorem radix_bounds (h : radix ∈ [2, 8, 10, 16]) : 1 ≤ radix ∧ radix ≤ 16 := by
  simp only [List.mem_cons, List.not_mem_nil, or_false] at h
  omega

theorem finish_small {r : Reading} {number : Vma} (hr : r.number = .small number)
    (hlabel : labelKind (skipSuffix r.rest) = none) :
    r.finish = ⟨.constant number, r.msgs, skipSuffix r.rest⟩ := by
  simp only [Reading.finish, hr, hlabel]

theorem finish_big {r : Reading} (hr : r.number = .big nums) :
    r.finish = ⟨.big nums, r.msgs, skipSuffix r.rest⟩ := by
  simp only [Reading.finish, hr]

theorem msgs_finish (r : Reading) : r.finish.msgs = r.msgs := by
  rw [Reading.finish]
  cases r.number with
  | big nums => rfl
  | small number => cases labelKind (skipSuffix r.rest) <;> rfl

theorem integerConstant_literal (hradix : radix ∈ [2, 8, 10, 16]) (h : IsLiteral radix ds rest) :
    integerConstant radix (ds ++ rest) =
      if ds.length < tooManyDigits radix then
        (Reading.mk (.small (.ofNat 64 (digitsFrom radix 0 ds))) [] rest).finish
      else (bigConstant radix (ds ++ rest)).finish := by
  have hscan := scanDigits_append (v := 0) (maxdig_eq hradix) h.digits h.ends 0
  have hhead : isEndOfLine ((ds ++ rest).headD '\x00') = false := by
    rcases List.exists_cons_of_ne_nil h.ne_nil with ⟨c, cs, rfl⟩
    have hc := h.digits c List.mem_cons_self
    exact isEndOfLine_digit (hc.trans_le (radix_bounds hradix).2)
  have hword : ¬ (radix = 16 ∧ rest.headD '\x00' = '_') := fun hw => h.word hw.1 hw.2
  rw [integerConstant, hhead, if_neg Bool.false_ne_true]
  simp only [show (0 : Vma) = BitVec.ofNat 64 0 from rfl, hscan, if_neg hword, Nat.zero_add]

/-- Up to the limit of its radix a number fits the word, but for octal ones. -/
theorem digitsFrom_small (hradix : radix ∈ [2, 8, 10, 16]) (h : ∀ c ∈ ds, hexValue c < radix)
    (hlen : ds.length < tooManyDigits radix) :
    digitsFrom radix 0 ds < 2 ^ valuesize ∨ radix = 8 ∧ digitsFrom radix 0 ds < 2 ^ 66 := by
  have hlt := digitsFrom_lt (v := 0) h
  have hpow {k : Nat} (hk : ds.length ≤ k) (hr : 0 < radix) :
      digitsFrom radix 0 ds < radix ^ k := by
    rw [Nat.zero_add, Nat.one_mul] at hlt
    exact hlt.trans_le (Nat.pow_le_pow_right hr hk)
  simp only [List.mem_cons, List.not_mem_nil, or_false] at hradix
  rcases hradix with rfl | rfl | rfl | rfl
  · exact .inl (hpow (k := 64) (Nat.le_of_lt_succ hlen) (by decide))
  · exact .inr ⟨rfl, hpow (k := 22) (Nat.le_of_lt_succ hlen) (by decide)⟩
  · exact .inl ((hpow (k := 17) (Nat.le_of_lt_succ hlen) (by decide)).trans (by decide))
  · exact .inl (hpow (k := 16) (Nat.le_of_lt_succ hlen) (by decide))

theorem bigConstant_exact (hradix : radix ∈ [2, 8, 10, 16]) (h : IsLiteral radix ds rest) :
    Exact (bigConstant radix (ds ++ rest)).finish (digitsFrom radix 0 ds) ↔
      digitsFrom radix 0 ds < 2 ^ (16 * sizeOfLargeNumber) := by
  rcases radix_bounds hradix with ⟨hr, hr16⟩
  obtain ⟨nums, hbig, hholds⟩ :=
    bigDigits_append (maxdig_eq hradix) hr hr16 h.digits h.ends holds_zero
  have hval := hholds.value_eq
  have hmsgs : (bigConstant radix (ds ++ rest)).finish.msgs = [] := msgs_finish _
  rw [Exact, hmsgs]
  by_cases hroom : digitsFrom radix 0 ds < 2 ^ (16 * sizeOfLargeNumber)
  · rw [if_pos hroom, iff_true_right hroom, bigConstant, hbig]
    rw [Nat.mod_eq_of_lt hroom] at hval
    rcases Nat.lt_or_ge 4 nums.length with hlong | hshort
    · rw [finish_big (ofLittlenums_big hlong)]
      have htop := hholds.top (by omega)
      have hpow : 2 ^ valuesize ≤ 2 ^ (16 * (nums.length - 1)) :=
        Nat.pow_le_pow_right (by decide) (by rw [valuesize]; omega)
      exact ⟨hpow.trans htop, hval⟩
    · obtain ⟨number, hnumber, hto⟩ := ofLittlenums_small hshort
      rw [finish_small hnumber h.label]
      have hlt := number.isLt
      exact ⟨by rw [← hval, ← hto]; exact hlt, hto.trans hval⟩
  · rw [if_neg hroom, iff_false_right hroom]
    intro hne
    exact hne rfl

/-- The digits denote their number unless the array is too small for it, or they are octal, few
enough to be left in a word, and the word is too small. -/
theorem integerConstant_exact_iff (hradix : radix ∈ [2, 8, 10, 16])
    (h : IsLiteral radix ds rest) :
    Exact (integerConstant radix (ds ++ rest)) (digitsFrom radix 0 ds) ↔
      digitsFrom radix 0 ds < 2 ^ (16 * sizeOfLargeNumber) ∧
        ¬ (radix = 8 ∧ ds.length ≤ 22 ∧ 2 ^ valuesize ≤ digitsFrom radix 0 ds) := by
  rw [integerConstant_literal hradix h]
  by_cases hlen : ds.length < tooManyDigits radix
  · have hsmall := digitsFrom_small hradix h.digits hlen
    have hroom : digitsFrom radix 0 ds < 2 ^ (16 * sizeOfLargeNumber) := by
      have h66 : 2 ^ 66 ≤ 2 ^ (16 * sizeOfLargeNumber) := pow_le_room (by decide)
      have h64 : 2 ^ valuesize ≤ 2 ^ 66 := by decide
      omega
    rw [if_pos hlen, finish_small rfl h.label, Exact, if_pos hroom, Denotes, BitVec.toNat_ofNat]
    constructor
    · rintro ⟨hlt, -⟩
      exact ⟨hroom, fun hoct => absurd hoct.2.2 (by omega)⟩
    · rintro ⟨-, hoct⟩
      rcases hsmall with hlt | ⟨rfl, -⟩
      · exact ⟨hlt, Nat.mod_eq_of_lt hlt⟩
      · have hlt : digitsFrom 8 0 ds < 2 ^ valuesize := by
          apply Nat.lt_of_not_le
          intro hge
          exact hoct ⟨rfl, Nat.le_of_lt_succ hlen, hge⟩
        exact ⟨hlt, Nat.mod_eq_of_lt hlt⟩
  · rw [if_neg hlen, bigConstant_exact hradix h, iff_self_and]
    rintro - ⟨rfl, hle, -⟩
    exact hlen (Nat.lt_succ_of_le hle)

theorem isLiteral_decimal : IsLiteral 10 ('1' :: .replicate 20 '0') [';'] where
  ne_nil := by decide
  digits := by
    intro c hc
    rcases List.mem_cons.mp hc with rfl | hc
    · decide
    · rw [List.eq_of_mem_replicate hc]
      decide
  ends := by decide
  word h := absurd h (by decide)
  label := by decide

/-- A number of more than a word. -/
theorem ten_pow_20_exact :
    Exact (integerConstant 10 (('1' :: .replicate 20 '0') ++ [';']))
      (digitsFrom 10 0 ('1' :: .replicate 20 '0')) := by
  have hvalue : digitsFrom 10 0 ('1' :: .replicate 20 '0') < 2 ^ 67 := by decide
  have hroom := hvalue.trans_le (pow_le_room (by decide))
  have hiff := integerConstant_exact_iff (by decide) isLiteral_decimal
  apply hiff.mpr
  refine ⟨hroom, ?_⟩
  rintro ⟨hradix, -⟩
  exact absurd hradix (by decide)

theorem isLiteral_octal : IsLiteral 8 (.replicate 22 '7') ['\n'] where
  ne_nil := by decide
  digits := by
    intro c hc
    rw [List.eq_of_mem_replicate hc]
    decide
  ends := by decide
  word h := absurd h (by decide)
  label := by decide

/-- These 22 octal digits are not many enough for the array, and two bits of their number are
lost. -/
theorem octal_digits_lost :
    IsLiteral 8 (.replicate 22 '7') ['\n'] ∧
      digitsFrom 8 0 (.replicate 22 '7') < 2 ^ (16 * sizeOfLargeNumber) ∧
      ¬ Exact (integerConstant 8 (.replicate 22 '7' ++ ['\n'])) (digitsFrom 8 0 (.replicate 22 '7')) := by
  have hvalue : digitsFrom 8 0 (.replicate 22 '7') = 2 ^ 66 - 1 := by decide
  have hroom : 2 ^ 66 - 1 < 2 ^ (16 * sizeOfLargeNumber) :=
    Nat.lt_of_lt_of_le (show 2 ^ 66 - 1 < 2 ^ 66 by decide) (pow_le_room (by decide))
  refine ⟨isLiteral_octal, hvalue ▸ hroom, ?_⟩
  rw [integerConstant_literal (by decide) isLiteral_octal, if_pos (by decide),
    finish_small rfl isLiteral_octal.label, hvalue, Exact, if_pos hroom]
  rintro ⟨-, h⟩
  exact absurd h (by decide)

end FusionBinutils.Gas.Integer
