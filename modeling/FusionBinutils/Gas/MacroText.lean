import FusionBinutils.Gas.Cond
import FusionBinutils.Lib.Outcome

/-! The texts of a call of a user's macro: tokens and strings (gas/macro.c). A read of a text at or
above its length stops the run. -/
namespace FusionBinutils.Gas.Macro

open Cond (Text isNameBeginner isPartOfName)
open Outcome (iterate)

/-- How a run stops before its end; none of these is an answer of the source. -/
inductive Stop
  /-- a read outside the text -/
  | outside
  /-- the loop goes on -/
  | endless
  /-- a null pointer -/
  | null
  deriving DecidableEq

/-- `macro_alternate`, `macro_mri` and `macro_strip_at` -/
structure Modes where
  macroAlternate : Bool
  macroMri : Bool
  macroStripAt : Bool

/-- The syntax without `.altmacro` and `.mri`. -/
def defaultSyntax : Modes := ⟨false, false, false⟩

/-- `in->ptr[idx]` -/
def charAt (l : Text) (idx : Nat) : Except Stop Char :=
  match l[idx]? with
  | some c => .ok c
  | none => .error .outside

/-- `idx < in->len && p (in->ptr[idx])` -/
def isAt (l : Text) (idx : Nat) (p : Char → Bool) : Bool :=
  match l[idx]? with
  | some c => p c
  | none => false

/-- What `while (idx < in->len && p (in->ptr[idx]))` goes over. -/
def run (p : Char → Bool) (l : Text) (idx : Nat) : Text := (l.drop idx).takeWhile p

/-- `ISWHITE` -/
def isWhite (c : Char) : Bool := c = ' ' || c = '\t'

def isSep (m : Modes) (c : Char) : Bool :=
  c = ' ' || c = '\t' || c = ',' || c = '"' || c = ';' || c = ')' || c = '(' ||
    ((m.macroAlternate || m.macroMri) && (c = '<' || c = '>'))

def isBase (c : Char) : Bool :=
  c = 'b' || c = 'B' || c = 'q' || c = 'Q' || c = 'h' || c = 'H' || c = 'd' || c = 'D'

def sbSkipWhite (idx : Nat) (l : Text) : Nat := idx + (run isWhite l idx).length

def sbSkipComma (idx : Nat) (l : Text) : Nat :=
  let idx := sbSkipWhite idx l
  let idx := if isAt l idx (· = ',') then idx + 1 else idx
  sbSkipWhite idx l

/-- `get_token`: the index behind the token and the token. -/
def getToken (m : Modes) (idx : Nat) (l : Text) : Nat × Text :=
  let name :=
    if isAt l idx isNameBeginner then
      (l.drop idx).take 1 ++ run isPartOfName l (idx + 1)
    else []
  let idx := idx + name.length
  (if m.macroAlternate && isAt l idx (· = '&') then idx + 1 else idx, name)

/-- `get_apost_token` -/
def getApostToken (m : Modes) (idx : Nat) (l : Text) (kind : Char) : Nat × Text :=
  let (idx, name) := getToken m idx l
  if isAt l idx (· = kind) && (!m.macroMri || m.macroStripAt) &&
      (!m.macroStripAt || kind = '@') then
    (idx + 1, name)
  else (idx, name)

/-! `getstring` -/

/-- The loop of `getstring` over a bracketed string: the index, the nesting and the text. -/
def angleStep (l : Text) : Nat × Nat × Text → Except Stop ((Nat × Nat × Text) ⊕ (Nat × Text))
  | (idx, nest, acc) => do
    let c ← charAt l idx
    if c = '>' ∧ nest = 0 then return .inr (idx + 1, acc)
    else if c = '!' then
      let c ← charAt l (idx + 1)
      return .inl (idx + 2, nest, acc ++ [c])
    else
      let nest := if c = '>' then nest - 1 else nest
      let nest := if c = '<' then nest + 1 else nest
      return .inl (idx + 1, nest, acc ++ [c])

/-- The loop of `getstring` over a string in quotes: the index, `escaped` and the text. -/
def quoteStep (m : Modes) (l : Text) (tchar : Char) :
    Nat × Bool × Text → Except Stop ((Nat × Bool × Text) ⊕ (Nat × Text))
  | (idx, escaped, acc) => do
    if l.length ≤ idx then return .inr (idx, acc)
    let before ← charAt l (idx - 1)
    let escaped := if before = '\\' then !escaped else false
    let c ← charAt l idx
    if m.macroAlternate ∧ c = '!' then
      let c ← charAt l (idx + 1)
      return .inl (idx + 2, escaped, acc ++ [c])
    else if escaped ∧ c = tchar then return .inl (idx + 1, escaped, acc ++ [tchar])
    else
      let idx := if c = tchar then idx + 1 else idx
      if c = tchar ∧ !isAt l idx (· = tchar) then return .inr (idx, acc)
      else
        let c ← charAt l idx
        return .inl (idx + 1, escaped, acc ++ [c])

/-- The test of the outer loop of `getstring`. -/
def beginsString (m : Modes) (c : Char) : Bool :=
  c = '"' || (c = '<' && (m.macroAlternate || m.macroMri)) || (c = '\'' && m.macroAlternate)

/-- The outer loop of `getstring`. -/
def stringStep (m : Modes) (fuel : Nat) (l : Text) :
    Nat × Text → Except Stop ((Nat × Text) ⊕ (Nat × Text))
  | (idx, acc) => do
    if !isAt l idx (beginsString m) then return .inr (idx, acc)
    else
      let c ← charAt l idx
      if c = '<' then
        let s ← iterate (angleStep l) .endless fuel (idx + 1, 0, acc)
        return .inl s
      else
        let s ← iterate (quoteStep m l c) .endless fuel (idx + 1, false, acc)
        return .inl s

/-- `getstring`: the index behind the strings and the text. -/
def getstring (m : Modes) (fuel idx : Nat) (l acc : Text) : Except Stop (Nat × Text) :=
  iterate (stringStep m fuel l) .endless fuel (idx, acc)

/-! `get_any_string` -/

/-- The loop over a number with its base. -/
def baseStep (m : Modes) (l : Text) : Nat × Text → Except Stop ((Nat × Text) ⊕ (Nat × Text))
  | (idx, out) => do
    let c ← charAt l idx
    if isSep m c then return .inr (idx, out) else return .inl (idx + 1, out ++ [c])

/-- The test of the loop over other text. -/
def staysInside (m : Modes) (brackets : List Char) (c : Char) : Bool :=
  (brackets ≠ [] || (c ≠ ' ' && c ≠ '\t')) && c ≠ ',' &&
    (c ≠ '<' || (!m.macroAlternate && !m.macroMri))

/-- The open brackets behind a character. -/
def bracketsBehind (brackets : List Char) (tchar : Char) : List Char :=
  if tchar = '(' ∨ tchar = '[' then tchar :: brackets
  else if tchar = ')' ∧ brackets.head? = some '(' then brackets.tail
  else if tchar = ']' ∧ brackets.head? = some '[' then brackets.tail
  else brackets

/-- The loop over other text: the index, the open brackets and the text. -/
def otherStep (m : Modes) (l : Text) :
    Nat × List Char × Text → Except Stop ((Nat × List Char × Text) ⊕ (Nat × Text))
  | (idx, brackets, out) => do
    if !isAt l idx (staysInside m brackets) then return .inr (idx, out)
    else
      let tchar ← charAt l idx
      if tchar = '"' ∨ tchar = '\'' then
        let inside := run (· ≠ tchar) l (idx + 1)
        let idx := idx + 1 + inside.length
        let out := out ++ [tchar] ++ inside
        if idx = l.length then return .inr (idx, out)
        else return .inl (idx + 1, brackets, out ++ [tchar])
      else return .inl (idx + 1, bracketsBehind brackets tchar, out ++ [tchar])

/-- `macro_expr`: the index behind an expression and its value. -/
abbrev MacroExpr := Nat → Text → Nat × Int

/-- `get_any_string`: the index behind the argument and the argument. -/
def getAnyString (m : Modes) (macroExpr : MacroExpr) (fuel idx : Nat) (l : Text) :
    Except Stop (Nat × Text) := do
  let idx := sbSkipWhite idx l
  if l.length ≤ idx then return (idx, [])
  else
    let c ← charAt l idx
    if idx + 2 < l.length ∧ isAt l (idx + 1) (· = '\'') ∧ isBase c then
      iterate (baseStep m l) .endless fuel (idx, [])
    else if c = '%' ∧ m.macroAlternate then
      let (idx, val) := macroExpr (idx + 1) l
      return (idx, (toString val).toList)
    else if beginsString m c then
      if m.macroAlternate ∧ !m.macroStripAt ∧ c ≠ '<' then
        -- Keep the quotes.
        let (idx, out) ← getstring m fuel idx l ['"']
        return (idx, out ++ ['"'])
      else getstring m fuel idx l []
    else iterate (otherStep m l) .endless fuel (idx, [], [])

end FusionBinutils.Gas.Macro
