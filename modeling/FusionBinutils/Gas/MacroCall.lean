import FusionBinutils.Gas.MacroBody

/-! `macro_expand` (gas/macro.c): the arguments of a call and the expansion of the body. -/
namespace FusionBinutils.Gas.Macro

open Cond (Text)
open Outcome (iterate)

/-- `macro_entry` -/
structure MacroEntry where
  name : Text
  formals : List Formal
  sub : Text

/-- `QUAL_INDEX` -/
def qualIndex : Int := -1

/-- `new_formal` -/
def newFormal (index : Int) : Formal := ⟨[], [], [], index, .optional, false⟩

/-- The variables of the loop over the arguments. -/
structure Call where
  idx : Nat
  formals : List Formal
  /-- `f`: the place of the next formal by position, at the end of the list where there is none -/
  f : Nat
  isKeyword : Bool
  narg : Nat
  err : Option String
  /-- the messages of `as_bad` and `as_warn` -/
  reports : List String

/-- `while (f != NULL && f->index < 0) f = f->next;` -/
def nextFormal (formals : List Formal) (f : Nat) : Nat :=
  f + ((formals.drop f).takeWhile (·.index < 0)).length

/-- Whether the argument has the form of a keyword argument. -/
def isKeywordForm (m : Modes) (l : Text) (idx : Nat) : Bool :=
  let scan := idx + (run (fun c => !isSep m c && !(m.macroMri && c = '\'') &&
    (!m.macroAlternate && c ≠ '=')) l idx).length
  !m.macroAlternate && isAt l scan (· = '=')

/-- What the loop finds at an argument. -/
inductive Argument
  | err (text : String)
  /-- the value of a formal begins at the index; without a formal it is thrown away -/
  | value (idx : Nat) (formal : Option Nat)
  /-- the rest of the line goes to the formal -/
  | vararg (formal : Nat)

/-- The index of a formal behind the others. -/
def freshIndex (formals : List Formal) : Int :=
  let c := formals.foldl (fun c f => if c ≤ f.index then f.index + 1 else c) (-1 : Int)
  if c = -1 then 0 else c

/-- The head of the loop over the arguments: which argument follows. -/
def findArgument (m : Modes) (entry : MacroEntry) (l : Text) (c : Call) :
    Except Stop (Call × Argument) := do
  if isKeywordForm m l c.idx then
    let c := { c with isKeyword := true }
    let (idx, t) := getToken m c.idx l
    let sign ← charAt l idx
    if sign ≠ '=' then return (c, .err "confusion in formal parameters")
    else
      match c.formals.findIdx? fun f => f.hashed && f.name = t with
      | none =>
        let text := "Parameter named `" ++ String.ofList t ++ "' does not exist for macro `" ++
          String.ofList entry.name ++ "'"
        return ({ c with reports := c.reports ++ [text] }, .value (idx + 1) none)
      | some k =>
        let text := "Value for parameter `" ++ String.ofList t ++ "' of macro `" ++
          String.ofList entry.name ++ "' was already specified"
        let given := c.formals[k]?.any (·.actual ≠ [])
        return ({ c with reports := c.reports ++ if given then [text] else [] },
          .value (idx + 1) (some k))
  else if c.isKeyword then return (c, .err "can't mix positional and keyword arguments")
  else
    match c.formals[c.f]? with
    | none =>
      if !m.macroMri then return (c, .err "too many positional arguments")
      else
        let formals := c.formals ++ [newFormal (freshIndex c.formals)]
        return ({ c with formals }, .value c.idx (some c.f))
    | some f =>
      if f.type ≠ .vararg then return (c, .value c.idx (some c.f)) else return (c, .vararg c.f)

/-- The formal gets its actual and is counted. -/
def assign (c : Call) (idx : Nat) (actual : Text) : Option Nat → Call
  | none => { c with idx }
  | some k =>
    { c with
      idx
      formals := c.formals.modify k ({ · with actual })
      narg := if actual ≠ [] then c.narg + 1 else c.narg
      f := if c.isKeyword then c.f else nextFormal c.formals (k + 1) }

/-- What is between an argument and the next; in the syntax of MRI white space ends the call. -/
def separate (m : Modes) (l : Text) (c : Call) : Except Stop (Call ⊕ Call) := do
  if !m.macroMri then return .inl { c with idx := sbSkipComma c.idx l }
  else
    let ch ← charAt l c.idx
    let idx := if ch = ',' then c.idx + 1 else c.idx
    let ch ← charAt l idx
    if isWhite ch then return .inr { c with idx } else return .inl { c with idx }

/-- The loop over the arguments. -/
def argumentStep (m : Modes) (macroExpr : MacroExpr) (fuel : Nat) (entry : MacroEntry) (l : Text)
    (c : Call) : Except Stop (Call ⊕ Call) :=
  if l.length ≤ c.idx then .ok (.inr c)
  else do
    let (c, arg) ← findArgument m entry l c
    match arg with
    | .err text => return .inr { c with err := some text }
    | .value start formal =>
      let (idx, actual) ← getAnyString m macroExpr fuel start l
      separate m l (assign c idx actual formal)
    | .vararg formal => separate m l (assign c l.length (l.drop c.idx) (some formal))

/-- The qualifier of a call in the syntax of MRI. -/
def qualifier (m : Modes) (macroExpr : MacroExpr) (fuel : Nat) (l : Text) (c : Call) :
    Except Stop Call := do
  if m.macroMri && isAt l c.idx (· = '.') then
    let c := { c with idx := c.idx + 1 }
    if isAt l c.idx (!isWhite ·) then
      let (idx, actual) ← getAnyString m macroExpr fuel c.idx l
      return { c with
        idx
        formals := { newFormal qualIndex with actual } :: c.formals
        f := c.f + 1 }
    else return c
  else return c

/-- The start of the loop, with no formal having an actual. -/
def Call.start (idx : Nat) (formals : List Formal) : Call :=
  let formals := formals.map ({ · with actual := [] })
  ⟨idx, formals, nextFormal formals 0, false, 0, none, []⟩

/-- The actuals of a call. -/
def actuals (m : Modes) (macroExpr : MacroExpr) (fuel idx : Nat) (l : Text) (entry : MacroEntry) :
    Except Stop Call := do
  let c ← qualifier m macroExpr fuel l (.start idx entry.formals)
  iterate (argumentStep m macroExpr fuel entry l) .endless fuel
    { c with idx := sbSkipWhite c.idx l }

/-- The messages about required parameters without a value. -/
def missingValues (entry : MacroEntry) (formals : List Formal) : List String :=
  (formals.filter fun f => f.type = .required && f.actual = []).map fun f =>
    "Missing value for required parameter `" ++ String.ofList f.name ++ "' of macro `" ++
      String.ofList entry.name ++ "'"

/-- The name of the parameter that has the number of arguments. -/
def nargName (m : Modes) : Text :=
  if m.macroStripAt then ['$', 'N', 'A', 'R', 'G'] else ['N', 'A', 'R', 'G']

/-- The formals with the number of arguments among them. -/
def countArguments (m : Modes) (c : Call) : Except Stop (List Formal) :=
  if m.macroMri then
    match c.formals.findIdx? fun f => f.hashed && f.name = nargName m with
    | none => .error .null
    | some k =>
      .ok (c.formals.modify k fun f => { f with actual := f.actual ++ Nat.toDigits 10 c.narg })
  else .ok c.formals

/-- What a call leaves. -/
structure Expansion where
  out : Text
  formals : List Formal
  macroNumber : Nat
  loccnt : Nat
  err : Option String
  reports : List String
  /-- the messages of the body, with `macro_line` -/
  bodyReports : List (Nat × String)

/-- `macro_expand` -/
def macroExpand (m : Modes) (macroExpr : MacroExpr) (fuel idx : Nat) (l : Text)
    (entry : MacroEntry) (macroNumber loccnt : Nat) : Except Stop Expansion := do
  let c ← actuals m macroExpr fuel idx l entry
  -- Discard any unnamed formal arguments.
  let named (formals : List Formal) : List Formal :=
    if m.macroMri then formals.filter (·.name ≠ []) else formals
  match c.err with
  | some err => return ⟨[], named c.formals, macroNumber, loccnt, some err, c.reports, []⟩
  | none =>
    let formals ← countArguments m c
    let b ← macroExpandBody ⟨m, formals, true, macroNumber⟩ fuel entry.sub loccnt
    return ⟨b.out, named formals, if b.err = none then macroNumber + 1 else macroNumber, b.loccnt,
      b.err, c.reports ++ missingValues entry c.formals, b.reports⟩

end FusionBinutils.Gas.Macro
