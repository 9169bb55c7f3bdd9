import FusionBinutils.Gas.IntegerConstant

/-! Conditional assembly (gas/cond.c) and the loop of `read_a_source_file` around it. Text ends at a
NUL, which is also what the end of a list of characters stands for. The listing is left out. -/
namespace FusionBinutils.Gas.Cond

open Integer (isEndOfLine)

abbrev Text := List Char

structure FileLine where
  file : String
  line : Nat
  deriving DecidableEq, Repr

/-- A message of `as_bad`, `as_warn` or `as_bad_where`. -/
structure Report where
  place : Option FileLine
  text : String
  deriving DecidableEq, Repr

/-- `struct conditional_frame`. The frames behind it are the rest of the list that it stands in. -/
structure Frame where
  ifFileLine : FileLine
  elseFileLine : Option FileLine
  elseSeen : Bool
  ignoring : Bool
  deadTree : Bool
  macroNest : Nat
  deriving DecidableEq, Repr

/-- `current_cframe` with what is behind it, and whether the object that `cond_obstack` is growing
holds a byte. -/
structure Stack where
  frames : List Frame
  stray : Bool
  deriving DecidableEq, Repr

/-- What `expression_and_evaluate` reads. -/
structure Operand where
  number : Int
  constant : Bool
  reports : List Report
  rest : Text

/-- What becomes of a line that is no conditional directive: the text after it, and the macro nesting
that an `.exitm` in it gives to `cond_exit_macro`. -/
structure Other where
  rest : Text
  exits : Option Nat
  reports : List Report

/-- The assembler around the conditionals at one statement. -/
structure Env where
  place : FileLine
  macroNest : Nat
  defined : Text → Bool
  expression : Text → Operand
  other : Text → Other
  nextBuffer : Text

def Env.report (env : Env) (text : String) : Report := ⟨some env.place, text⟩

/-! The line (gas/read.c). -/

/-- `*input_line_pointer` -/
def cur (text : Text) : Char := text.headD '\x00'

/-- `SKIP_WHITESPACE` -/
def skipWhitespace (text : Text) : Text := if cur text = ' ' then text.tail else text

def toEndOfLine (text : Text) : Text := text.dropWhile (!isEndOfLine ·)

def ignoreRestOfLine (text : Text) : Text := (toEndOfLine text).tail

/-- `ISPRINT` -/
def isPrint (c : Char) : Bool := 32 ≤ c.toNat && c.toNat < 127

def junkMessage (c : Char) : String :=
  -- a `char` is signed
  let value := if c.toNat < 128 then c.toNat else c.toNat + 0xffffff00
  if isPrint c then "junk at end of line, first unrecognized character is `" ++ c.toString ++ "'"
  else "junk at end of line, first unrecognized character valued 0x" ++
    String.ofList (Nat.toDigits 16 value)

def demandEmptyRestOfLine (env : Env) (text : Text) : List Report × Text :=
  let text := skipWhitespace text
  if isEndOfLine (cur text) then ([], text.tail)
  else ([env.report (junkMessage (cur text))], ignoreRestOfLine text)

def isNameBeginner (c : Char) : Bool :=
  c.isAlpha || c = '_' || c = '.' || c = '$' || 128 ≤ c.toNat

def isPartOfName (c : Char) : Bool := isNameBeginner c || c.isDigit

/-- A name between quotes up to the quote, which a backslash takes away, or to a NUL. -/
def scanQuoted : Bool → Text → Text × Text
  | _, [] => ([], [])
  | backslashSeen, c :: text =>
    if c = '\x00' || (c = '"' && !backslashSeen) then ([], c :: text)
    else
      let (name, rest) := scanQuoted (c = '\\') text
      (c :: name, rest)

/-- A name and the text from its delimiter on. -/
structure SymbolName where
  name : Text
  rest : Text
  reports : List Report

def getSymbolName (env : Env) (text : Text) : SymbolName :=
  let part (c : Char) := isPartOfName c || c = '\x01'
  if isNameBeginner (cur text) || cur text = '\x01' then
    ⟨cur text :: text.tail.takeWhile part, text.tail.dropWhile part, []⟩
  else if cur text = '"' then
    let (name, rest) := scanQuoted false text.tail
    ⟨name, rest, if cur rest = '\x00' then [env.report "missing closing '\"'"] else []⟩
  else ⟨[], text, []⟩

/-- `restore_line_pointer`, which goes past a closing quote. -/
def restoreLinePointer (rest : Text) : Text := if cur rest = '"' then rest.tail else rest

/-! Operands. -/

/-- The quoted form of `get_mri_string` after its first quote, copied to where it stands. -/
def mriQuoted : Text → Text × Text
  | [] => ([], [])
  | c :: text =>
    if isEndOfLine c then ([], c :: text)
    else if c ≠ '\'' then
      let (string, rest) := mriQuoted text
      (c :: string, rest)
    else
      match text with
      | '\'' :: text =>
        let (string, rest) := mriQuoted text
        (c :: string, rest)
      | text => ([c], text)

def getMriString (terminator : Char) (text : Text) : Text × Text :=
  let text := skipWhitespace text
  if cur text = '\'' then
    let (string, rest) := mriQuoted text.tail
    ('\'' :: string, skipWhitespace rest)
  else
    let inside (c : Char) := c ≠ terminator && !isEndOfLine c
    let string := text.takeWhile inside
    (string.rdropWhile (fun c => c = ' ' || c = '\t'), text.dropWhile inside)

/-- `strncmp (s1, s2, len) == 0` on strings of that length. -/
def sameString (s1 s2 : Text) : Bool :=
  s1.length = s2.length && s1.takeWhile (· ≠ '\x00') = s2.takeWhile (· ≠ '\x00')

/-- Up to three digits of an escape in a string. -/
def octalEscape : Nat → Nat → Text → Nat × Text
  | 0, number, text => (number, text)
  | i + 1, number, text =>
    if (cur text).isDigit then octalEscape i (number * 8 + ((cur text).toNat - 48)) text.tail
    else (number, text)

def hexEscape : Nat → Text → Nat × Text
  | number, [] => (number, [])
  | number, c :: text =>
    match Hex.value c with
    | some digit => hexEscape (number * 16 + digit) text
    | none => (number, c :: text)

/-- The escape behind a backslash of a string; a NUL there ends the string. -/
def escape (env : Env) (text : Text) : Option Char × List Report × Text :=
  let c := cur text
  if c = 'b' then (some '\x08', [], text.tail)
  else if c = 'f' then (some '\x0c', [], text.tail)
  else if c = 'n' then (some '\n', [], text.tail)
  else if c = 'r' then (some '\r', [], text.tail)
  else if c = 't' then (some '\t', [], text.tail)
  else if c = 'v' then (some '\x0b', [], text.tail)
  else if c.isDigit then
    let (number, rest) := octalEscape 3 0 text
    (some (.ofNat (number % 256)), [], rest)
  else if c = 'x' || c = 'X' then
    let (number, rest) := hexEscape 0 text.tail
    (some (.ofNat (number % 256)), [], rest)
  else if c = '\n' then
    (some '\n', [env.report "unterminated string; newline inserted"], text.tail)
  else if c = '\x00' then (none, [], text)
  else (some c, [], text.tail)

/-- `next_char_of_string`; nothing for `NOT_A_CHAR`. -/
def nextCharOfString (env : Env) (text : Text) : Option Char × List Report × Text :=
  let c := cur text
  if c = '\x00' then (none, [], text)
  else if c = '"' then (none, [], text.tail)
  else if c = '\n' then
    (some '\n', [env.report "unterminated string; newline inserted"], text.tail)
  else if c = '\\' then escape env text.tail
  else (some c, [], text.tail)

/-- A string that was read, nothing for a null pointer with the length 0. -/
structure Copied where
  string : Option Text
  reports : List Report
  rest : Text

/-- The loop of `demand_copy_string`. Each character takes one of the text at least. -/
def copyChars (env : Env) : Nat → Text → Text × List Report × Text
  | 0, text => ([], [], text)
  | n + 1, text =>
    let (c, reports, rest) := nextCharOfString env text
    match c with
    | none => ([], reports, rest)
    | some c =>
      let (string, more, rest) := copyChars env n rest
      (c :: string, reports ++ more, rest)

def demandCopyString (env : Env) (text : Text) : Copied :=
  let text := skipWhitespace text
  if cur text = '"' then
    let (string, reports, rest) := copyChars env text.length text.tail
    ⟨some string, reports, rest⟩
  else ⟨none, [env.report "missing string"], ignoreRestOfLine text⟩

/-- `demand_copy_C_string`, whose loop looks at the first character only. -/
def demandCopyCString (env : Env) (text : Text) : Copied :=
  let copied := demandCopyString env text
  if copied.string.any fun s => s.head? = some '\x00' then
    { copied with string := none,
                  reports := copied.reports ++ [env.report "this string may not contain '\\0'"] }
  else copied

/-! The directives. -/

/-- The comparison of an `.if` with zero. -/
inductive Test where
  | eq | ne | lt | le | ge | gt
  deriving DecidableEq, Repr

def Test.holds : Test → Int → Bool
  | .eq, n => n = 0
  | .ne, n => n ≠ 0
  | .lt, n => n < 0
  | .le, n => n ≤ 0
  | .ge, n => 0 ≤ n
  | .gt, n => 0 < n

/-- Whether a current conditional ignores its lines. -/
def Stack.ignoring (stack : Stack) : Bool := stack.frames.head?.any (·.ignoring)

def initializeCframe (env : Env) (stack : Stack) : Frame where
  ifFileLine := env.place
  elseFileLine := none
  elseSeen := false
  ignoring := false
  deadTree := stack.ignoring
  macroNest := env.macroNest

/-- `obstack_copy` of a frame. Behind a byte that was left there the frame would be read one byte
off. -/
def Stack.push (frame : Frame) (stack : Stack) : Option Stack :=
  if stack.stray then none else some { stack with frames := frame :: stack.frames }

/-- What a directive leaves: the frames, the messages and the text after it. -/
structure Outcome where
  stack : Stack
  reports : List Report
  rest : Text

/-- The end of every directive that opens a conditional, with what the operand gave. -/
def openFrame (env : Env) (stack : Stack) (t : Bool) (reports : List Report)
    (line : List Report × Text) : Option Outcome := do
  let cframe := initializeCframe env stack
  let stack ← stack.push { cframe with ignoring := cframe.deadTree || !t }
  return ⟨stack, reports ++ line.1, line.2⟩

def sIfdef (testDefined : Bool) (env : Env) (stack : Stack) (text : Text) : Option Outcome :=
  let text := skipWhitespace text
  if !isNameBeginner (cur text) && cur text ≠ '"' then
    some ⟨{ stack with stray := true }, [env.report "invalid identifier for \".ifdef\""],
      ignoreRestOfLine text⟩
  else
    let symbol := getSymbolName env text
    openFrame env stack (testDefined ^^ env.defined symbol.name) symbol.reports
      (demandEmptyRestOfLine env (restoreLinePointer symbol.rest))

/-- The operand of `.if`, which is not looked at where it is ignored. -/
def ifOperand (env : Env) (ignored : Bool) (text : Text) : Operand :=
  if ignored then ⟨0, true, [], toEndOfLine text⟩ else env.expression text

def nonConstant (env : Env) (directive : String) (operand : Operand) : List Report :=
  if operand.constant then []
  else [env.report ("non-constant expression in \"" ++ directive ++ "\" statement")]

def sIf (arg : Test) (env : Env) (stack : Stack) (text : Text) : Option Outcome :=
  let operand := ifOperand env stack.ignoring (skipWhitespace text)
  openFrame env stack (arg.holds operand.number)
    (operand.reports ++ nonConstant env ".if" operand) (demandEmptyRestOfLine env operand.rest)

def sIfb (testBlank : Bool) (env : Env) (stack : Stack) (text : Text) : Option Outcome :=
  let text := if stack.ignoring then text else skipWhitespace text
  openFrame env stack (testBlank == isEndOfLine (cur text)) [] ([], ignoreRestOfLine text)

def sIfc (arg : Bool) (env : Env) (stack : Stack) (text : Text) : Option Outcome :=
  let s1 := getMriString ',' text
  let reports := if cur s1.2 = ',' then [] else [env.report "bad format for ifc or ifnc"]
  let s2 := getMriString ';' (if cur s1.2 = ',' then s1.2.tail else s1.2)
  openFrame env stack (sameString s1.1 s2.1 ^^ arg) reports (demandEmptyRestOfLine env s2.2)

def sIfeqs (arg : Bool) (env : Env) (stack : Stack) (text : Text) : Option Outcome :=
  let s1 := demandCopyCString env text
  let text := skipWhitespace s1.rest
  if cur text ≠ ',' then
    some ⟨stack, s1.reports ++ [env.report ".ifeqs syntax error"], ignoreRestOfLine text⟩
  else
    let s2 := demandCopyCString env text.tail
    openFrame env stack (sameString (s1.string.getD []) (s2.string.getD []) ^^ arg)
      (s1.reports ++ s2.reports) (demandEmptyRestOfLine env s2.rest)

/-- The messages of an `.elseif` or a second `.else` behind an `.else`. -/
def afterElse (env : Env) (text : String) (cframe : Frame) : List Report :=
  [env.report text, ⟨cframe.elseFileLine, "here is the previous \".else\""⟩,
    ⟨some cframe.ifFileLine, "here is the previous \".if\""⟩]

def sElseif (arg : Test) (env : Env) (stack : Stack) (text : Text) : Outcome :=
  match stack.frames with
  | [] => ⟨stack, [env.report "\".elseif\" without matching \".if\""], toEndOfLine text⟩
  | cframe :: previous =>
    let reports :=
      if cframe.elseSeen then afterElse env "\".elseif\" after \".else\"" cframe else []
    let dead := cframe.deadTree || !cframe.ignoring
    let cframe := if cframe.elseSeen then cframe
      else { cframe with elseFileLine := some env.place, deadTree := dead, ignoring := dead }
    if cframe.ignoring then
      let line := demandEmptyRestOfLine env (toEndOfLine text)
      ⟨{ stack with frames := cframe :: previous }, reports ++ line.1, line.2⟩
    else
      let operand := env.expression (skipWhitespace text)
      let cframe := { cframe with ignoring := cframe.deadTree || !arg.holds operand.number }
      let line := demandEmptyRestOfLine env operand.rest
      ⟨{ stack with frames := cframe :: previous },
        reports ++ operand.reports ++ nonConstant env ".elseif" operand ++ line.1, line.2⟩

/-- `s_endif`. Freeing the frame also frees what was growing behind it. -/
def sEndif (env : Env) (stack : Stack) (text : Text) : Outcome :=
  let line := demandEmptyRestOfLine env text
  match stack.frames with
  | [] => ⟨stack, env.report "\".endif\" without \".if\"" :: line.1, line.2⟩
  | _ :: previous => ⟨⟨previous, false⟩, line.1, line.2⟩

def sElse (env : Env) (stack : Stack) (text : Text) : Outcome :=
  let line := demandEmptyRestOfLine env text
  match stack.frames with
  | [] => ⟨stack, env.report "\".else\" without matching \".if\"" :: line.1, line.2⟩
  | cframe :: previous =>
    if cframe.elseSeen then
      ⟨stack, afterElse env "duplicate \".else\"" cframe ++ line.1, line.2⟩
    else
      let cframe := { cframe with
        elseFileLine := some env.place
        ignoring := cframe.deadTree || !cframe.ignoring
        elseSeen := true }
      ⟨{ stack with frames := cframe :: previous }, line.1, line.2⟩

/-- `cond_exit_macro` -/
def condExitMacro (nest : Nat) (stack : Stack) : Stack :=
  let frames := stack.frames.dropWhile (nest ≤ ·.macroNest)
  ⟨frames, stack.stray && frames.length = stack.frames.length⟩

/-- A conditional pseudo-op with its argument in the table. -/
inductive Directive where
  | sIf (arg : Test)
  | sIfdef (testDefined : Bool)
  | sIfb (testBlank : Bool)
  | sIfc (arg : Bool)
  | sIfeqs (arg : Bool)
  | sElseif (arg : Test)
  | sElse
  | sEndif
  deriving DecidableEq, Repr

/-- The conditional pseudo-ops of `potable`. -/
def potable : List (String × Directive) :=
  [("else", .sElse), ("elsec", .sElse), ("elseif", .sElseif .ne), ("endc", .sEndif),
    ("endif", .sEndif), ("if", .sIf .ne), ("ifb", .sIfb true), ("ifc", .sIfc false),
    ("ifdef", .sIfdef false), ("ifeq", .sIf .eq), ("ifeqs", .sIfeqs false), ("ifge", .sIf .ge),
    ("ifgt", .sIf .gt), ("ifle", .sIf .le), ("iflt", .sIf .lt), ("ifnb", .sIfb false),
    ("ifnc", .sIfc true), ("ifndef", .sIfdef true), ("ifne", .sIf .ne), ("ifnes", .sIfeqs true),
    ("ifnotdef", .sIfdef true)]

/-- The handler of a directive. -/
def Directive.handle (d : Directive) (env : Env) (stack : Stack) (text : Text) : Option Outcome :=
  match d with
  | .sIf arg => Cond.sIf arg env stack text
  | .sIfdef testDefined => Cond.sIfdef testDefined env stack text
  | .sIfb testBlank => Cond.sIfb testBlank env stack text
  | .sIfc arg => Cond.sIfc arg env stack text
  | .sIfeqs arg => Cond.sIfeqs arg env stack text
  | .sElseif arg => some (Cond.sElseif arg env stack text)
  | .sElse => some (Cond.sElse env stack text)
  | .sEndif => some (Cond.sEndif env stack text)

/-! Statements. -/

/-- `strncasecmp` with a text in lower case, over its length. -/
def beginsWith (key : String) (text : Text) : Bool :=
  key.toList.isPrefixOf (text.map Char.toLower)

/-- "We cannot ignore certain pseudo ops." The text starts one character before the pointer. -/
def cannotIgnore (text : Text) : Bool :=
  cur text = '.' &&
    (beginsWith "if" text.tail || beginsWith "ifdef" text.tail || beginsWith "ifndef" text.tail ||
      beginsWith "else" text.tail || beginsWith "endif" text.tail || beginsWith "endc" text.tail)

/-- `ignore_input` -/
def ignoreInput (stack : Stack) (text : Text) : Bool := !cannotIgnore text && stack.ignoring

/-- `find_end_of_line`: whether it ends inside of quotes, and the text from there. -/
def findEndOfLine : Bool → Bool → Text → Bool × Text
  | inquote, _, [] => (inquote, [])
  | inquote, inescape, c :: text =>
    -- in quotes only a control character ends the line
    if isEndOfLine c && !(inquote && c = ';') then (inquote, c :: text)
    else if inescape then findEndOfLine inquote false text
    else if c = '\\' then findEndOfLine inquote true text
    else findEndOfLine (inquote ^^ (c = '"')) false text

/-- `HANDLE_CONDITIONAL_ASSEMBLY` on a line that is ignored. -/
def skipLine (env : Env) (text : Text) : List Report × Text :=
  let line := findEndOfLine false false text
  (if line.1 then [env.report "missing closing `\"'"] else [], line.2.tail)

/-- `TC_START_LABEL`, on the text after a name. -/
def startsLabel (rest : Text) : Bool := cur rest = ':'

def startsEquals (rest : Text) : Bool :=
  cur rest = '=' || ((cur rest = ' ' || cur rest = '\t') && cur rest.tail = '=')

/-- The pseudo-op that a name is, if it is one of the conditional ones. -/
def pseudoOp (name : Text) : Option Directive :=
  if cur name ≠ '.' then none
  else (potable.find? fun row => row.1.toList = name.tail.map Char.toLower).map Prod.snd

/-- The blank that separates a keyword from its operands. -/
def operands (rest : Text) : Text :=
  if cur rest = ' ' || cur rest = '\t' then rest.tail else rest

/-- The conditional directive at the start of a statement, with the text of its operands. -/
def directiveAt (env : Env) (text : Text) : Option (Directive × Text) :=
  if isNameBeginner (cur text) || cur text = '"' then
    let symbol := getSymbolName env text
    let rest := restoreLinePointer symbol.rest
    if startsLabel rest || startsEquals rest then none
    else (pseudoOp symbol.name).map (·, operands rest)
  else none

structure State where
  text : Text
  stack : Stack

/-- A turn of the loop: what is left, the messages, and for a line that `ignore_input` was asked
about, whether it lets it through. -/
structure Turn where
  state : State
  reports : List Report
  through : Option Bool

/-- The statement that starts at a text, with the messages about its name. -/
def statement (env : Env) (stack : Stack) (text : Text) : Option Turn :=
  match directiveAt env text with
  | some (directive, operand) => do
    let out ← directive.handle env stack operand
    return ⟨⟨out.rest, out.stack⟩, (getSymbolName env text).reports ++ out.reports, some true⟩
  | none =>
    let other := env.other text
    let stack := match other.exits with
      | some nest => condExitMacro nest stack
      | none => stack
    some ⟨⟨other.rest, stack⟩, other.reports, some true⟩

def skipBlanks (text : Text) : Text := text.dropWhile fun c => c = '\t' || c = ' ' || c = '\x0c'

/-- A turn of the loop of `read_a_source_file`, which gets the next buffer where one is at its end.
Without a value a frame is read that was not put where it is looked for. -/
def step (env : Env) (s : State) : Option Turn :=
  if s.text = [] then some ⟨{ s with text := env.nextBuffer }, [], none⟩
  else
    let text := skipBlanks s.text
    if isEndOfLine (cur text) then some ⟨{ s with text := text.tail }, [], none⟩
    else if cur text = '#' then
      let app := "APP\n".toList.isPrefixOf text.tail
      let rest := if app then (env.other text).rest else ignoreRestOfLine text
      some ⟨{ s with text := rest }, [], none⟩
    else if ignoreInput s.stack text then
      let line := skipLine env text
      some ⟨{ s with text := line.2 }, line.1, some false⟩
    else statement env s.stack text

end FusionBinutils.Gas.Cond
