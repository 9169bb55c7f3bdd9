import FusionBinutils.Gas.MacroText

/-! `macro_expand_body` (gas/macro.c): the body of a macro with its parameters put in. -/
namespace FusionBinutils.Gas.Macro

open Cond (Text isNameBeginner isPartOfName)
open Outcome (iterate)

inductive FormalType
  | optional
  | required
  | vararg
  deriving DecidableEq

/-- `formal_entry` -/
structure Formal where
  name : Text
  default : Text
  actual : Text
  index : Int
  type : FormalType
  /-- `formal_hash` has the entry under its name -/
  hashed : Bool

/-- What takes the place of the formal. -/
def Formal.value (f : Formal) : Text := if f.actual ≠ [] then f.actual else f.default

/-- The surroundings of the expansion of a body. -/
structure Setting where
  modes : Modes
  formals : List Formal
  /-- `macro` is not null: the body is that of a macro and not of an `irp` -/
  ofMacro : Bool
  macroNumber : Nat

/-- The variables of the loop. -/
structure Body where
  src : Nat
  out : Text
  inquote : Bool
  macroLine : Nat
  /-- the formals that `LOCAL` has put into the hash table -/
  loclist : List Formal
  loccnt : Nat
  err : Option String
  /-- the messages of `as_bad_where`, with `macro_line` -/
  reports : List (Nat × String)

/-- `hash_find (formal_hash, name)` -/
def hashFind (s : Setting) (b : Body) (name : Text) : Option Formal :=
  (b.loclist ++ s.formals).find? fun f => f.hashed && f.name = name

/-- The character before the place, unless the place is the given one. -/
def charBefore (l : Text) (start src : Nat) : Except Stop (Option Char) :=
  if src = start then .ok none else some <$> charAt l (src - 1)

/-- `sub_actual` -/
def subActual (s : Setting) (l : Text) (b : Body) (start : Nat) (kind : Char)
    (copyifnotthere : Bool) : Except Stop Body := do
  let (src, t) := getApostToken s.modes start l kind
  -- the last character of the token, where there is one
  let last ← charBefore l start src
  let ptr :=
    if s.modes.macroStripAt ∧ kind = '@' ∧ last ≠ some '@' then none else hashFind s b t
  let text :=
    match ptr with
    | some f => f.value
    | none =>
      if kind = '&' then '&' :: t ++ if last = some '&' then ['&'] else []
      else if copyifnotthere then t
      else '\\' :: t
  return { b with src, out := b.out ++ text }

/-- The characters `sprintf` makes of the count for a local label. -/
def localName (loccnt : Nat) : Text :=
  let digits := Nat.toDigits 16 loccnt
  ".LL".toList ++ List.replicate (4 - digits.length) '0' ++ digits

/-- The loop of `LOCAL` over its names. -/
def localStep (s : Setting) (l : Text) (b : Body) : Except Stop (Body ⊕ Body) := do
  let c ← charAt l b.src
  if c = '\n' then return .inr b
  else
    let (src, name) := getToken s.modes b.src l
    let b :=
      match hashFind s b name with
      | none =>
        let f : Formal := ⟨name, [], localName (b.loccnt + 1), -3, .optional, true⟩
        { b with loclist := f :: b.loclist, loccnt := b.loccnt + 1 }
      | some _ =>
        { b with
          reports := b.reports ++ [(b.macroLine, "`" ++ String.ofList name ++
            "' was already used as parameter (or another local) name")] }
    return .inl { b with src := sbSkipComma src l }

/-- What follows an `&` in the body. -/
def ampersand (s : Setting) (l : Text) (b : Body) : Except Stop Body :=
  if s.modes.macroMri then
    if isAt l (b.src + 1) (· = '&') then subActual s l b (b.src + 2) '\'' true
    else .ok { b with src := b.src + 1, out := b.out ++ ['&'] }
  else subActual s l b (b.src + 1) '&' false

/-- The parameter of the given number, in the syntax of MRI. -/
def numbered (s : Setting) (c : Char) : Text :=
  let ind : Int :=
    if c.isDigit then (c.toNat : Int) - '0'.toNat
    else if c.isUpper then (c.toNat : Int) - 'A'.toNat + 10
    else (c.toNat : Int) - 'a'.toNat + 10
  match s.formals.find? (·.index = ind - 1) with
  | some f => f.value
  | none => []

/-- What follows a backslash in the body. -/
def backslash (s : Setting) (l : Text) (b : Body) : Except Stop Body := do
  let src := b.src + 1
  if isAt l src (· = '(') then
    -- Sub in till the next ')' literally.
    let text := run (· ≠ ')') l (src + 1)
    let b := { b with src := src + 1 + text.length, out := b.out ++ text }
    if b.src < l.length then return { b with src := b.src + 1 }
    else if s.ofMacro then return { b with reports := b.reports ++ [(b.macroLine, "missing `)'")] }
    else return { b with err := some "missing `)'" }
  else if isAt l src (· = '@') then
    return { b with src := src + 1, out := b.out ++ Nat.toDigits 10 s.macroNumber }
  else if isAt l src (· = '&') then
    return { b with src := src + 1, out := b.out ++ ['\\', '&'] }
  else if s.modes.macroMri ∧ isAt l src Char.isAlphanum then
    let c ← charAt l src
    return { b with src := src + 1, out := b.out ++ numbered s c }
  else subActual s l { b with src } src '\'' false

/-- A name in the body, in the syntaxes that take names without a mark. -/
def nameInBody (s : Setting) (fuel : Nat) (l : Text) (b : Body) : Except Stop Body :=
  if !s.ofMacro ∨ l.length ≤ b.src + 5 ∨
      ((l.drop b.src).take 5).map Char.toLower ≠ ['l', 'o', 'c', 'a', 'l'] ∨
      !isAt l (b.src + 5) isWhite ∨ b.inquote then
    subActual s l b b.src (if s.modes.macroStripAt && b.inquote then '@' else '\'') true
  else
    iterate (localStep s l) .endless fuel { b with src := sbSkipWhite (b.src + 5) l }

/-- `==` in the syntax of MRI. -/
def equalSigns (s : Setting) (l : Text) (b : Body) : Body :=
  let (src, t) := getToken s.modes (b.src + 2) l
  let text :=
    match hashFind s b t with
    | none => '=' :: '=' :: t
    | some f => if f.actual ≠ [] then ['-', '1'] else ['0']
  { b with src, out := b.out ++ text }

/-- The loop body of `macro_expand_body`. -/
def bodyStep (s : Setting) (fuel : Nat) (l : Text) (b : Body) : Except Stop (Body ⊕ Body) :=
  if l.length ≤ b.src ∨ b.err ≠ none then .ok (.inr b)
  else do
    let c ← charAt l b.src
    let before ← charBefore l 0 b.src
    if c = '&' then return .inl (← ampersand s l b)
    else if c = '\\' then return .inl (← backslash s l b)
    else if (s.modes.macroAlternate ∨ s.modes.macroMri) ∧ isNameBeginner c ∧
        (!b.inquote ∨ !s.modes.macroStripAt ∨ before = some '@') then
      return .inl (← nameInBody s fuel l b)
    else if c = '"' ∨ (s.modes.macroMri ∧ c = '\'') then
      return .inl { b with src := b.src + 1, out := b.out ++ [c], inquote := !b.inquote }
    else if c = '@' ∧ s.modes.macroStripAt then
      if isAt l (b.src + 1) (· = '@') then
        return .inl { b with src := b.src + 2, out := b.out ++ ['@'] }
      else return .inl { b with src := b.src + 1 }
    else if s.modes.macroMri ∧ c = '=' ∧ isAt l (b.src + 1) (· = '=') then
      return .inl (equalSigns s l b)
    else
      return .inl { b with
        src := b.src + 1
        out := b.out ++ [c]
        macroLine := if c = '\n' then b.macroLine + 1 else b.macroLine }

def Body.start (loccnt : Nat) : Body := ⟨0, [], false, 0, [], loccnt, none, []⟩

/-- `macro_expand_body` -/
def macroExpandBody (s : Setting) (fuel : Nat) (l : Text) (loccnt : Nat) : Except Stop Body :=
  iterate (bodyStep s fuel l) .endless fuel (.start loccnt)

end FusionBinutils.Gas.Macro
