import Mathlib.Data.Nat.Digits.Defs
import Mathlib.Data.Nat.Digits.Lemmas
import FusionBinutils.Lib.Table

/-! Local labels, the forward and backward ones and the dollar ones (gas/symbols.c). -/
namespace FusionBinutils.Gas.LocalLabel

/-- The characters of a symbol name. -/
abbrev Name := List Nat

def dollarLabelChar : Nat := 1

def localLabelChar : Nat := 2

/-! Names. -/

/-- The digits of a number, built up backwards behind a zero in `symbol_name_temporary`; `room` is
what is left there. -/
def digitsBackwards : Nat → Int → Option (List Nat)
  | 0, i => if i = 0 then some [] else none
  | room + 1, i =>
    if i = 0 then some []
    else do
      let rest ← digitsBackwards room (i.tdiv 10)
      some ((i.tmod 10 + 48).toNat :: rest)

/-- "The mth occurrence of label n: is turned into the symbol Ln^Bm", in a buffer of 24 characters
with a zero at the end. What does not fit is written past one of the arrays. -/
def labelName (char : Nat) (n : Int) (m : Nat) : Option Name := do
  let number ← digitsBackwards 19 n
  let instanceNumber ← digitsBackwards 19 m
  let name := 76 :: number.reverse ++ char :: instanceNumber.reverse
  if name.length < 24 then some name else none

/-- What `decode_local_label_name` finds in a name. -/
structure Decoded where
  labelNumber : Int
  instanceNumber : Int
  type : String
  deriving DecidableEq, Repr

def Decoded.message (d : Decoded) : String :=
  "\"" ++ toString d.labelNumber ++ "\" (instance number " ++ toString d.instanceNumber ++
    " of a " ++ d.type ++ " label)"

def isDigit (c : Nat) : Bool := 48 ≤ c && c ≤ 57

/-- The number at the start of a text, in an `int`. -/
def number (s : Name) : Int :=
  (s.takeWhile isDigit).foldl (fun (n : Int) (c : Nat) => Int.bmod (10 * n + c - 48) (2 ^ 32)) 0

/-- `decode_local_label_name`, without a `LOCAL_LABEL_PREFIX`; a name that was not generated here is
returned unaltered. -/
def decodeLocalLabelName : Name → Option Decoded
  | [] => none
  | c :: s =>
    if c ≠ 76 then none
    else
      match s.dropWhile isDigit with
      | [] => none
      | c :: t =>
        if c = dollarLabelChar then some ⟨number s, number t, "dollar"⟩
        else if c = localLabelChar then some ⟨number s, number t, "fb"⟩
        else none

/-! Forward and backward labels. -/

/-- `FB_LABEL_SPECIAL`. -/
def fbLabelSpecial : Nat := 10

/-- `fb_low_counter`, and `fb_labels` with `fb_label_instances` from `FB_LABEL_SPECIAL` on. -/
structure FbLabels where
  low : Fin fbLabelSpecial → Nat
  labels : Table Int Nat

/-- `fb_label_init`. -/
def FbLabels.init : FbLabels := ⟨fun _ => 0, []⟩

def fbLabelInstanceInc (st : FbLabels) (label : Int) : FbLabels :=
  if h : 0 ≤ label ∧ label.toNat < fbLabelSpecial then
    { st with low := Function.update st.low ⟨label.toNat, h.2⟩ (st.low ⟨label.toNat, h.2⟩ + 1) }
  else { st with labels := st.labels.upsert (fun c => c.getD 0 + 1) label }

def fbLabelInstance (st : FbLabels) (label : Int) : Nat :=
  if h : 0 ≤ label ∧ label.toNat < fbLabelSpecial then st.low ⟨label.toNat, h.2⟩
  else (st.labels.get? label).getD 0

def fbLabelName (st : FbLabels) (n : Int) (augend : Nat) : Option Name :=
  labelName localLabelChar n (fbLabelInstance st n + augend)

/-- What the source says about forward and backward labels: `n:`, `nb` and `nf`. -/
inductive Fb where
  | defn (n : Nat)
  | back (n : Nat)
  | forw (n : Nat)
  deriving DecidableEq, Repr

def Fb.number : Fb → Nat
  | .defn n | .back n | .forw n => n

def Fb.exec (st : FbLabels) : Fb → FbLabels
  | .defn n => fbLabelInstanceInc st (Int.bmod n (2 ^ 32))
  | .back _ | .forw _ => st

/-- The name that is built: `read_a_source_file` reads the number of a definition into an `int`,
`integer_constant` casts that of a reference to `int`, if it is not a bignum. -/
def Fb.name (st : FbLabels) : Fb → Option Name
  | .defn n => fbLabelName ((Fb.defn n).exec st) (Int.bmod n (2 ^ 32)) 0
  | .back n => if n < 2 ^ 64 then fbLabelName st (Int.bmod n (2 ^ 32)) 0 else none
  | .forw n => if n < 2 ^ 64 then fbLabelName st (Int.bmod n (2 ^ 32)) 1 else none

/-- The counters after some source. -/
def Fb.run (pre : List Fb) : FbLabels := pre.foldl Fb.exec FbLabels.init

/-! Dollar labels. -/

/-- `dollar_labels`, with `dollar_label_instances` and `dollar_label_defines`. -/
abbrev DollarLabels := Table Int (Nat × Bool)

def dollarLabelDefined (st : DollarLabels) (label : Int) : Bool :=
  ((st.get? label).map Prod.snd).getD false

def dollarLabelInstance (st : DollarLabels) (label : Int) : Nat :=
  ((st.get? label).map Prod.fst).getD 0

def dollarLabelClear (st : DollarLabels) : DollarLabels := st.map fun e => (e.1, (e.2.1, false))

def defineDollarLabel (st : DollarLabels) (label : Int) : DollarLabels :=
  st.upsert (fun e => ((e.map Prod.fst).getD 0 + 1, true)) label

def dollarLabelName (st : DollarLabels) (n : Int) (augend : Nat) : Option Name :=
  labelName dollarLabelChar n (dollarLabelInstance st n + augend)

/-- What the source says about dollar labels: `n$:`, `n$`, and a label that is not local. -/
inductive Dollar where
  | defn (n : Nat)
  | ref (n : Nat)
  | clear
  deriving DecidableEq, Repr

def Dollar.number : Dollar → Option Nat
  | .defn n | .ref n => some n
  | .clear => none

/-- A label that is redefined in its scope is fatal. -/
def Dollar.exec (st : DollarLabels) : Dollar → Option DollarLabels
  | .defn n =>
    if dollarLabelDefined st (Int.bmod n (2 ^ 32)) then none
    else some (defineDollarLabel st (Int.bmod n (2 ^ 32)))
  | .ref _ => some st
  | .clear => some (dollarLabelClear st)

/-- The name that is built; `integer_constant` casts the number of a reference to `long`. -/
def Dollar.name (st : DollarLabels) : Dollar → Option Name
  | .defn n =>
    dollarLabelName (defineDollarLabel st (Int.bmod n (2 ^ 32))) (Int.bmod n (2 ^ 32)) 0
  | .ref n =>
    if n < 2 ^ 64 then
      dollarLabelName st (Int.bmod n (2 ^ 64))
        (if dollarLabelDefined st (Int.bmod n (2 ^ 64)) then 0 else 1)
    else none
  | .clear => none

def Dollar.run (pre : List Dollar) : Option DollarLabels := pre.foldlM Dollar.exec []

end FusionBinutils.Gas.LocalLabel
