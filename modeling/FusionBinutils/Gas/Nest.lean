import FusionBinutils.Gas.Cond
import FusionBinutils.Lib.Nesting

/-! The bodies of macros and repeats: `buffer_and_nest` (gas/macro.c). -/
namespace FusionBinutils.Gas.Nest

open Cond (Text isNameBeginner isPartOfName)

/-- `ISWHITE` -/
def isWhite (c : Char) : Bool := c = ' ' || c = '\t'

/-- `is_name_ender`: no class of the port's `lex_type` ends a name. -/
def isNameEnder (_ : Char) : Bool := false

/-- A line as `get_line` adds it to the buffer. -/
structure Line where
  text : Text
  /-- the character that ended it, which `get_line` returns; it returns 0 at the end of the input -/
  more : { c : Char // c ≠ '\x00' }
  /-- what the memory of the buffer holds past the end of the line -/
  past : Nat → Char

/-- The characters from a place in the line on, as a pointer sees them. -/
def pointer (rest : Text) (past : Nat → Char) (j : Nat) : Char :=
  rest.getD j (past (j - rest.length))

/-- `strncasecmp (s, word, strlen (word)) == 0` -/
def begins (s : Nat → Char) : Text → Bool
  | [] => true
  | c :: word => (s 0).toLower == c.toLower && begins (fun j => s (j + 1)) word

/-- The test that a word of `len` characters is whole. -/
def wholeWord (rest : Text) (past : Nat → Char) (len : Nat) : Bool :=
  rest.length == len ||
    !(isPartOfName (pointer rest past len) || isNameEnder (pointer rest past len))

/-- Skip over a name and what ends it. -/
def skipName (rest : Text) : Text :=
  let rest := rest.tail.dropWhile isPartOfName
  if isNameEnder (rest.headD ' ') then rest.tail else rest

/-- The loop over the labels of a line: the text before `line_start`, the text from there on and
the text from `i` on. -/
def skipLabels : Nat → Text → Text → Text → Text × Text
  | 0, start, _, rest => (start, rest)
  | fuel + 1, start, here, rest =>
    if isNameBeginner (rest.headD '\x00') then
      let rest := (skipName rest).dropWhile isWhite
      if rest.headD '\x00' = ':' then
        skipLabels fuel (start ++ here.take (here.length - rest.tail.length)) rest.tail rest.tail
      else (start, here)
    else (start, rest)

/-- The words that repeat, in the order in which they are tried. -/
def repeatWords : List Text :=
  ["IRPC".toList, "IRP".toList, "IREPC".toList, "IREP".toList, "REPT".toList, "REP".toList]

/-- The text from a word of the line on opens a level. -/
def opens (fromWord : Option Text) (rest : Text) (past : Nat → Char) : Bool :=
  match fromWord with
  | some word => begins (pointer rest past) word && wholeWord rest past word.length
  | none =>
    match repeatWords.find? (begins (pointer rest past)) with
    | some word => wholeWord rest past word.length
    | none => false

/-- The text from a word of the line on closes a level. -/
def closes (toWord rest : Text) (past : Nat → Char) : Bool :=
  begins (pointer rest past) toWord && wholeWord rest past toWord.length

/-- What becomes of a line: it ends the body, of which the text before `line_start` is left, or it
goes into the buffer and the depth changes. -/
inductive Step where
  | ends (start : Text)
  | goesOn (kept : Text) (depth : Nat)

/-- The loop body. -/
def nestLine (macroMri : Bool) (fromWord : Option Text) (toWord : Text) (depth : Nat)
    (line : Line) : Step :=
  let (start, rest) := skipLabels (line.text.length + 1) [] line.text (line.text.dropWhile isWhite)
  let rest := rest.dropWhile isWhite
  if rest ≠ [] ∧ (rest.headD '\x00' = '.' ∨ macroMri) then
    let rest := if rest.headD '\x00' = '.' then rest.tail else rest
    let depth := if opens fromWord rest line.past then depth + 1 else depth
    let closed := closes toWord rest line.past
    let depth := if closed then depth - 1 else depth
    if closed ∧ depth = 0 then .ends start
    -- `s_app_line` takes the directive, and the line goes
    else if begins (pointer rest line.past) "linefile".toList then .goesOn start depth
    else .goesOn line.text depth
  else .goesOn line.text depth

def nestLines (macroMri : Bool) (fromWord : Option Text) (toWord : Text) :
    Nat → Text → List Line → Bool × Text
  | depth, ptr, [] => (depth == 0, ptr)
  | depth, ptr, line :: lines =>
    match nestLine macroMri fromWord toWord depth line with
    | .ends start => (true, ptr ++ start)
    | .goesOn kept depth =>
      nestLines macroMri fromWord toWord depth (ptr ++ kept ++ [line.more.1]) lines

/-- `buffer_and_nest`: whether it succeeds, and the buffer. `fromWord` is NULL only with `ENDR`. -/
def bufferAndNest (macroMri : Bool) (fromWord : Option Text) (toWord ptr : Text)
    (lines : List Line) : Bool × Text :=
  let fromWord := if toWord.map Char.toLower = "endr".toList then none else fromWord
  nestLines macroMri fromWord toWord 1 ptr lines

end FusionBinutils.Gas.Nest
