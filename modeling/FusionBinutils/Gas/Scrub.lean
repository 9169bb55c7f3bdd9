import Mathlib.Data.List.Basic

/-! The scrubber (gas/app.c), which takes comments and blanks out of the text that it reads. A step
is one turn of an inner loop of `do_scrub_chars`, or what it does between two such loops. -/
namespace FusionBinutils.Gas.Scrub

abbrev Text := List Char

inductive Lex where
  | other
  | symbolComponent
  | whitespace
  | lineSeparator
  | commentStart
  | lineCommentStart
  | twocharComment1st
  | stringquote
  | colon
  | newline
  | onecharQuote
  deriving DecidableEq, Repr

def commentChars : Text := ['#']

def lineCommentChars : Text := ['#']

def lineSeparatorChars : Text := [';']

def symbolChars : Text :=
  "$._ABCDEFGHIJKLMNOPQRSTUVWXYZabcdefghijklmnopqrstuvwxyz0123456789".toList

/-- `lex` after `do_scrub_begin`; what that sets last is looked at first. -/
def lex (c : Char) : Lex :=
  if c ∈ lineSeparatorChars then .lineSeparator
  else if c ∈ lineCommentChars then .lineCommentStart
  else if c ∈ commentChars then .commentStart
  else if c ∈ symbolChars ∨ 128 ≤ c.toNat then .symbolComponent
  else if c = ' ' ∨ c = '\t' ∨ c = '\r' then .whitespace
  else if c = '\n' then .newline
  else if c = ':' then .colon
  else if c = '"' then .stringquote
  else if c = '\'' then .onecharQuote
  else if c = '/' then .twocharComment1st
  else .other

/-- `state`, with the source's number of each. -/
inductive State where
  | outString      -- -1
  | flushComment   -- -2
  | lineStart      -- 0
  | lineWhite      -- 1
  | opcode         -- 2
  | operands       -- 3
  | linefile       -- 4
  | string         -- 5
  | escape         -- 6
  | symbol         -- 9
  | symbolWhite    -- 10
  | label          -- 11
  deriving DecidableEq, Repr

/-- Where the scrubber stands, with the character that it has in `ch`; none is `EOF`. -/
inductive Point where
  | top
  | recycle (ch : Option Char)
  | white
  | blockText
  | blockStars
  | flushText
  | flushStars
  | lineBlanks (ch : Option Char)
  | lineRest (ch : Option Char)
  | cppBlanks (startch : Char)
  | cppRest (ch : Option Char)
  | commentRest
  | returned
  | badCase
  deriving DecidableEq, Repr

/-- What one call of `get` reads; it reads nothing at the end of the file only. -/
structure Chunk where
  first : Char
  rest : Text
  deriving DecidableEq, Repr

def Chunk.text (chunk : Chunk) : Text := chunk.first :: chunk.rest

/-- The saved state of the scrubber and the variables of `do_scrub_chars`: `input` is the text from
`from` up to `fromend`, `buffer` what this call has put at `tostart`, `sent` what the calls before
it have put out. -/
structure Scrubber where
  point : Point
  state : State
  oldState : State
  outString : Text
  quotechar : Char
  addNewlines : Nat
  input : Text
  chunks : List Chunk
  sent : Text
  buffer : Text
  tolen : Nat
  warnings : List String
  deriving DecidableEq, Repr

namespace Scrubber

def goto (p : Point) (s : Scrubber) : Scrubber := { s with point := p }

def warn (text : String) (s : Scrubber) : Scrubber := { s with warnings := s.warnings ++ [text] }

/-- `GET` -/
def get (s : Scrubber) : Option Char × Scrubber :=
  match s.input, s.chunks with
  | ch :: input, _ => (some ch, { s with input := input })
  | [], chunk :: chunks => (some chunk.first, { s with input := chunk.rest, chunks := chunks })
  | [], [] => (none, s)

/-- `UNGET` -/
def unget (ch : Char) (s : Scrubber) : Scrubber := { s with input := ch :: s.input }

/-- `UNGET` of what is not `EOF`. -/
def ungetIf (ch : Option Char) (s : Scrubber) : Scrubber :=
  match ch with
  | some ch => s.unget ch
  | none => s

def emit (ch : Char) (s : Scrubber) : Scrubber := { s with buffer := s.buffer ++ [ch] }

/-- `PUT`, and what comes after it when the buffer is not full. -/
def put (ch : Char) (next : Scrubber → Scrubber) (s : Scrubber) : Scrubber :=
  let s := s.emit ch
  if s.tolen ≤ s.buffer.length then s.goto .returned else next s

/-- `PUT`, and the `while` loop again. -/
def putTop (ch : Char) (s : Scrubber) : Scrubber := s.put ch (goto .top)

/-- `memcpy` of `len` characters to the buffer. -/
def copy (len : Nat) (s : Scrubber) : Scrubber :=
  { s with buffer := s.buffer ++ s.input.take len, input := s.input.drop len }

end Scrubber

open Scrubber

/-- What `PUT` stores of `EOF`. -/
def eofChar : Char := '\xff'

def processEscape (ch : Char) : Char :=
  match ch with
  | 'b' => '\x08'
  | 'f' => '\x0c'
  | 'n' => '\n'
  | 'r' => '\r'
  | 't' => '\t'
  | ch => ch

/-! The states that read no ordinary text. -/

def outStringChar (s : Scrubber) : Scrubber :=
  let ch := s.outString.headD '\x00'
  let s := { s with outString := s.outString.tail }
  let s := if s.outString = [] then { s with state := s.oldState, oldState := .operands } else s
  s.putTop ch

def flushText (s : Scrubber) : Scrubber :=
  match s.get with
  | (none, s) => (s.warn "end of file in comment").goto .returned
  | (some ch, s) =>
    if ch = '\n' then s.put '\n' (goto .flushText)
    else if ch = '*' then s.goto .flushStars
    else s.goto .flushText

def flushStars (s : Scrubber) : Scrubber :=
  match s.get with
  | (none, s) => (s.warn "end of file in comment").goto .returned
  | (some ch, s) =>
    if ch = '*' then s.goto .flushStars
    else if ch = '/' then ({ s with state := s.oldState }.unget ' ').goto .top
    else (s.unget ch).goto .flushText

def linefile (s : Scrubber) : Scrubber :=
  match s.get with
  | (none, s) => s.goto .returned
  | (some ch, s) => if ch.isDigit then s.putTop ch else s.goto (.lineBlanks (some ch))

def lineBlanks (ch : Option Char) (s : Scrubber) : Scrubber :=
  match ch with
  | none => s.goto (.lineRest none)
  | some ch =>
    if lex ch = .whitespace then
      let (ch, s) := s.get
      s.goto (.lineBlanks ch)
    else if ch = '"' then
      { s with quotechar := ch, state := .string, oldState := .operands }.putTop ch
    else s.goto (.lineRest (some ch))

def lineRest (ch : Option Char) (s : Scrubber) : Scrubber :=
  match ch with
  | none => { s with state := .lineStart }.putTop eofChar
  | some ch =>
    if ch = '\n' then { s with state := .lineStart }.putTop ch
    else
      let (ch, s) := s.get
      s.goto (.lineRest ch)

def stringWarning (s : Scrubber) : String :=
  "end of file in string; '" ++ s.quotechar.toString ++ "' inserted"

def stringChar (s : Scrubber) : Scrubber :=
  let run := s.input.takeWhile fun ch => ch ≠ '\\' ∧ ch ≠ s.quotechar ∧ ch ≠ '\n'
  let len := min run.length (s.tolen - s.buffer.length)
  let s := s.copy len
  if 0 < len ∧ s.tolen ≤ s.buffer.length then s.goto .returned
  else
    match s.get with
    | (none, s) =>
      -- `from` and `fromend` are put behind a buffer of one character
      let s := { s.warn (stringWarning s) with state := s.oldState, input := [] }
      (s.unget '\n').putTop s.quotechar
    | (some ch, s) =>
      if ch = s.quotechar then { s with state := s.oldState }.putTop ch
      else if ch = '\\' then { s with state := .escape }.putTop ch
      else s.putTop ch

def escape (s : Scrubber) : Scrubber :=
  let s := { s with state := .string }
  match s.get with
  | (none, s) => (s.warn (stringWarning s)).putTop s.quotechar
  | (some ch, s) =>
    -- a string goes on in the next line
    if ch = '\n' then ({ s with addNewlines := s.addNewlines + 1 }.unget 'n').putTop '\\'
    else s.putTop ch

/-! The characters of ordinary text, case by case. -/

def white (s : Scrubber) : Scrubber :=
  match s.get with
  | (none, s) => s.goto .returned
  | (some ch, s) =>
    if lex ch = .whitespace then s.goto .white
    else if s.state = .lineStart then ({ s with state := .lineWhite }.unget ch).putTop ' '
    else if lex ch = .commentStart ∨ ch = '/' ∨ lex ch = .lineSeparator then
      s.goto (.recycle (some ch))
    else if (s.state = .opcode ∨ s.state = .label) ∧ lex ch = .colon then
      { s with state := .lineWhite }.putTop ch
    else
      match s.state with
      | .lineWhite => s.goto (.recycle (some ch))
      | .opcode =>
        let s := { s with state := .operands }
        if s.buffer.length + 1 < s.tolen then s.put ' ' (goto (.recycle (some ch)))
        else (s.unget ch).putTop ' '
      | .operands => s.goto (.recycle (some ch))
      | .symbol | .symbolWhite => { s with state := .symbolWhite }.goto (.recycle (some ch))
      | .label => ({ s with state := .operands }.unget ch).putTop ' '
      | _ => s.goto .badCase

/-- The states 9 and 10 are left for 3 at a character that goes into no symbol. -/
def afterSymbol (state : State) : State :=
  if state = .symbol ∨ state = .symbolWhite then .operands else state

def twochar (ch : Char) (s : Scrubber) : Scrubber :=
  let (ch2, s) := s.get
  if ch2 = some '*' then s.goto .blockText
  else { s.ungetIf ch2 with state := afterSymbol s.state }.putTop ch

def blockText (s : Scrubber) : Scrubber :=
  match s.get with
  | (none, s) => (s.warn "end of file in multiline comment").goto (.recycle (some ' '))
  | (some ch, s) =>
    if ch = '*' then s.goto .blockStars
    else if lex ch = .newline then { s with addNewlines := s.addNewlines + 1 }.goto .blockText
    else s.goto .blockText

def blockStars (s : Scrubber) : Scrubber :=
  match s.get with
  | (none, s) => (s.warn "end of file in multiline comment").goto (.recycle (some ' '))
  | (some ch, s) =>
    if ch = '*' then s.goto .blockStars
    else if ch = '/' then s.goto (.recycle (some ' '))
    else (s.unget ch).goto .blockText

def stringquote (ch : Char) (s : Scrubber) : Scrubber :=
  let s := { s with quotechar := ch }
  if s.state = .symbolWhite then
    ({ s with state := .operands }.unget ch).put ' ' fun s =>
      let (ch, s) := s.get
      { s with state := .string, oldState := .operands }.putTop (ch.getD eofChar)
  else
    { s with state := .string, oldState := afterSymbol s.state }.putTop ch

/-- The character after a one-character quote. -/
def charConstant (s : Scrubber) : Char × Scrubber :=
  match s.get with
  | (none, s) => ('\x00', s.warn "end of file after a one-character quote; \\0 inserted")
  | (some ch, s) =>
    if ch = '\\' then
      match s.get with
      | (none, s) => ('\\', s.warn "end of file in escape character")
      | (some ch, s) => (processEscape ch, s)
    else (ch, s)

def onecharQuote (ch : Char) (s : Scrubber) : Scrubber :=
  if s.state = .symbolWhite then ({ s with state := .operands }.unget ch).putTop ' '
  else
    let (value, s) := charConstant s
    let outBuf := Nat.toDigits 10 (value.toNat % 256)
    let s :=
      match s.get with
      | (ch, s) => if ch = some '\'' then s else s.ungetIf ch
    if outBuf.length = 1 then s.putTop (outBuf.headD '\x00')
    else
      { s with
        oldState := afterSymbol s.state
        state := .outString
        outString := outBuf.tail }.putTop (outBuf.headD '\x00')

def colon (ch : Char) (s : Scrubber) : Scrubber :=
  let state :=
    if s.state = .symbol ∨ s.state = .symbolWhite then .operands
    else if s.state ≠ .operands then .lineWhite
    else s.state
  { s with state := state }.putTop ch

def newline (ch : Char) (s : Scrubber) : Scrubber :=
  -- newlines from inside comments are rolled out
  let s := if s.addNewlines = 0 then s else { s with addNewlines := s.addNewlines - 1 }.unget ch
  { s with state := .lineStart }.putTop ch

def lineSeparator (ch : Char) (s : Scrubber) : Scrubber := { s with state := .lineStart }.putTop ch

/-- `de_fault` -/
def deFault (ch : Char) (s : Scrubber) : Scrubber :=
  match s.state with
  | .lineStart => { s with state := .label }.putTop ch
  | .lineWhite => { s with state := .opcode }.putTop ch
  | .symbol =>
    if lex ch = .symbolComponent then s.putTop ch else { s with state := .operands }.putTop ch
  | .symbolWhite =>
    if ch = '\\' then
      if s.tolen ≤ s.buffer.length + 1 then (s.unget ch).goto .returned
      else ({ s with state := .operands }.emit ' ').putTop ch
    else { s with state := .operands }.putTop ch
  | _ => s.putTop ch

def symbolComponent (ch : Char) (s : Scrubber) : Scrubber :=
  if s.state = .symbolWhite then ({ s with state := .operands }.unget ch).putTop ' '
  else
    let s := if s.state = .operands then { s with state := .symbol } else s
    let run := s.input.takeWhile fun ch => lex ch = .other ∨ lex ch = .symbolComponent
    -- the last character of the run is left to `de_fault`
    let len := min (run.length - 1) (s.tolen - s.buffer.length - 1)
    if s.buffer.length + 1 < s.tolen ∧ 0 < len then
      let s := (s.emit ch).copy len
      if s.tolen ≤ s.buffer.length then s.goto .returned
      else
        let (ch, s) := s.get
        deFault (ch.getD eofChar) s
    else deFault ch s

def commentStart (s : Scrubber) : Scrubber := s.goto .commentRest

def commentRest (s : Scrubber) : Scrubber :=
  match s.get with
  | (none, s) =>
    let s := s.warn "end of file in comment; newline inserted"
    { s with state := .lineStart }.putTop '\n'
  | (some ch, s) =>
    if lex ch = .newline then { s with state := .lineStart }.putTop '\n' else s.goto .commentRest

def lineCommentStart (ch : Char) (s : Scrubber) : Scrubber :=
  let (slashed, s) :=
    if ch = '/' then
      let (ch2, s) := s.get
      if ch2 = some '*' then (true, s) else (false, s.ungetIf ch2)
    else (false, s)
  if slashed then { s with oldState := .operands, state := .flushComment }.goto .top
  else if s.state = .lineStart ∨ s.state = .lineWhite then s.goto (.cppBlanks ch)
  else if ch ∈ commentChars then commentStart s
  else deFault ch s

def cppBlanks (startch : Char) (s : Scrubber) : Scrubber :=
  match s.get with
  | (none, s) => (s.warn "end of file in comment; newline inserted").putTop '\n'
  | (some ch, s) =>
    if lex ch = .whitespace then s.goto (.cppBlanks startch)
    else if ¬ ch.isDigit ∨ s.state ≠ .lineStart ∨ startch ≠ '#' then s.goto (.cppRest (some ch))
    else
      -- `# 123 "filename"' from cpp
      { s.unget ch with
        oldState := .linefile
        state := .outString
        outString := ".linefile ".toList }.putTop '\t'

def cppRest (ch : Option Char) (s : Scrubber) : Scrubber :=
  match ch with
  | none =>
    (s.warn "end of file in comment; newline inserted").put '\n' fun s =>
      { s with state := .lineStart }.goto .top
  | some ch =>
    if lex ch = .newline then { s.unget ch with state := .lineStart }.goto .top
    else
      let (ch, s) := s.get
      s.goto (.cppRest ch)

/-- `recycle` -/
def recycle (ch : Option Char) (s : Scrubber) : Scrubber :=
  match ch with
  | none =>
    if s.state = .lineStart then s.goto .returned
    else
      let s := s.warn "end of file not at end of a line; newline inserted"
      { s with state := .lineStart }.put '\n' (goto .returned)
  | some ch =>
    match lex ch with
    | .whitespace => s.goto .white
    | .twocharComment1st => twochar ch s
    | .stringquote => stringquote ch s
    | .onecharQuote => onecharQuote ch s
    | .colon => colon ch s
    | .newline => newline ch s
    | .lineSeparator => lineSeparator ch s
    | .lineCommentStart => lineCommentStart ch s
    | .commentStart => commentStart s
    | .symbolComponent => symbolComponent ch s
    | .other => deFault ch s

/-- One turn of the `while` loop. -/
def top (s : Scrubber) : Scrubber :=
  match s.state with
  | .outString => outStringChar s
  | .flushComment => s.goto .flushText
  | .linefile => linefile s
  | .string => stringChar s
  | .escape => escape s
  | _ =>
    let (ch, s) := s.get
    s.goto (.recycle ch)

def step (s : Scrubber) : Scrubber :=
  match s.point with
  | .top => top s
  | .recycle ch => recycle ch s
  | .white => white s
  | .blockText => blockText s
  | .blockStars => blockStars s
  | .flushText => flushText s
  | .flushStars => flushStars s
  | .lineBlanks ch => lineBlanks ch s
  | .lineRest ch => lineRest ch s
  | .cppBlanks startch => cppBlanks startch s
  | .cppRest ch => cppRest ch s
  | .commentRest => commentRest s
  | .returned | .badCase => s

/-- A new call of `do_scrub_chars`, up to its loop. -/
def call (tolen : Nat) (s : Scrubber) : Scrubber :=
  let s := { s with sent := s.sent ++ s.buffer, buffer := [], tolen := tolen }
  match s.input, s.chunks with
  | _ :: _, _ => s.goto .top
  | [], chunk :: chunks => { s with input := chunk.text, chunks := chunks }.goto .top
  | [], [] => s

end FusionBinutils.Gas.Scrub
