import FusionBinutils.Gas.Scrub

/-! The newlines that a step of the scrubber reads, and those that it puts out. -/
namespace FusionBinutils.Gas.Scrub

def lines (text : Text) : Nat := text.count '\n'

/-- The character that the scrubber has read and not dealt with. -/
def Point.held : Point → Text
  | .recycle ch | .lineBlanks ch | .lineRest ch | .cppRest ch => ch.toList
  | _ => []

/-- The states of ordinary text, which `recycle` is for. -/
def State.normal : State → Bool
  | .lineStart | .lineWhite | .opcode | .operands | .symbol | .symbolWhite | .label => true
  | _ => false

namespace Scrubber

/-- The input that is not read, or that is put back. -/
def rest (s : Scrubber) : Text := s.input ++ s.chunks.flatMap Chunk.text

/-- The newlines that are put out, that `add_newlines` keeps and that are to come. -/
def kept (s : Scrubber) : Nat := lines s.sent + lines s.buffer + s.addNewlines + lines s.rest

def count (s : Scrubber) : Nat := s.kept + lines s.point.held

/-- The state to go back to is one of ordinary text, and what is put out before has no newline. -/
def Resumes (s : Scrubber) : Prop :=
  match s.state with
  | .outString => (s.oldState.normal = true ∨ s.oldState = .linefile) ∧ '\n' ∉ s.outString
  | .string | .escape => s.oldState.normal = true ∧ s.quotechar ≠ '\n'
  | .flushComment => s.oldState.normal = true
  | _ => True

/-- A point at which the scrubber can be. -/
def Admits (s : Scrubber) (p : Point) : Prop :=
  match p with
  | .recycle none | .cppRest none => s.state.normal = true ∧ s.rest = []
  | .recycle (some _) | .white | .blockText | .blockStars | .commentRest | .cppRest (some _) =>
    s.state.normal = true
  | .cppBlanks startch => s.state.normal = true ∧ startch = '#'
  | .flushText | .flushStars => s.state = .flushComment
  | _ => True

structure Formed (s : Scrubber) : Prop where
  resumes : s.Resumes
  admits : s.Admits s.point

/-- The scrubber has inserted a newline at the end of the file: it has it in `ch`, has it put back,
or is done with it. -/
inductive Ended (s : Scrubber) : Prop
  | returned : s.rest = [] → s.point = .returned → Ended s
  | idle : s.rest = [] → s.state = .lineStart → s.point = .top ∨ s.point = .recycle none → Ended s
  | owed : s.input = ['\n'] → s.chunks = [] → s.state.normal = true →
      s.point = .top ∨ s.point = .returned → Ended s
  | read : s.rest = [] → s.state.normal = true → s.point = .recycle (some '\n') → Ended s

/-- All of `n` newlines are there, or one more that was inserted. -/
structure Leaves (n : Nat) (s : Scrubber) : Prop where
  formed : s.Formed
  counts : s.count = n ∨ s.count = n + 1 ∧ s.Ended

/-- What is next does not lose or add a newline: a character constant that is a newline, plain or
behind a backslash, is lost; after a `#` in a line that began with blanks, only blanks up to the end
of the file bring a second newline there, unless the first one fills the buffer. -/
structure KeepsLines (s : Scrubber) : Prop where
  constant : s.point = .recycle (some '\'') → s.state ≠ .symbolWhite →
    s.rest.head? ≠ some '\n' ∧ s.rest.take 2 ≠ ['\\', '\n']
  comment : s.point = .cppBlanks '#' → s.rest = [] →
    s.state = .lineStart ∨ s.tolen ≤ s.buffer.length + 1

end Scrubber

open Scrubber

variable {s : Scrubber} {ch : Char} {n : Nat} {text : Text}

theorem lines_append (a b : Text) : lines (a ++ b) = lines a + lines b := List.count_append

theorem lines_cons (ch : Char) (text : Text) : lines (ch :: text) = lines [ch] + lines text :=
  lines_append [ch] text

@[simp] theorem lines_nil : lines [] = 0 := rfl

@[simp] theorem lines_newline : lines ['\n'] = 1 := rfl

theorem lines_ne (h : ch ≠ '\n') : lines [ch] = 0 := List.count_eq_zero.mpr (by simpa using h.symm)

theorem lines_eq_zero (h : '\n' ∉ text) : lines text = 0 := List.count_eq_zero.mpr h

theorem lines_headD (h : '\n' ∉ text) : lines [text.headD '\x00'] = 0 := by
  apply lines_ne
  cases text with
  | nil => decide
  | cons ch text =>
    rintro rfl
    exact h List.mem_cons_self

theorem lex_newline : lex '\n' = .newline := by decide

theorem lines_lex (h : lex ch ≠ .newline) : lines [ch] = 0 := by
  apply lines_ne
  rintro rfl
  exact h lex_newline

theorem eq_of_lex_newline (h : lex ch = .newline) : ch = '\n' := by
  rw [lex] at h
  split_ifs at h
  assumption

/-! What the scrubber's macros do to the count. -/

theorem kept_unget (ch : Char) (s : Scrubber) : (s.unget ch).kept = s.kept + lines [ch] := by
  have hlines : lines (s.unget ch).rest = lines [ch] + lines s.rest := lines_cons ch s.rest
  simp only [kept, hlines]
  simp only [unget]
  omega

theorem kept_ungetIf (ch : Option Char) (s : Scrubber) :
    (s.ungetIf ch).kept = s.kept + lines ch.toList := by
  cases ch with
  | none => rfl
  | some ch => exact kept_unget ch s

theorem kept_emit (ch : Char) (s : Scrubber) : (s.emit ch).kept = s.kept + lines [ch] := by
  have hrest : (s.emit ch).rest = s.rest := rfl
  simp only [kept, hrest]
  simp only [emit, lines_append]
  omega

theorem kept_copy (len : Nat) (s : Scrubber) : (s.copy len).kept = s.kept := by
  have hinput : lines s.input = lines (s.input.take len) + lines (s.input.drop len) := by
    rw [← lines_append, List.take_append_drop]
  simp only [kept, rest, copy, lines_append, hinput]
  omega

theorem get_cases (s : Scrubber) :
    (s.get = (none, s) ∧ s.rest = []) ∨
      ∃ ch input chunks, s.get = (some ch, { s with input := input, chunks := chunks }) ∧
        s.rest = ch :: { s with input := input, chunks := chunks }.rest := by
  cases hi : s.input with
  | cons ch input =>
    refine .inr ⟨ch, input, s.chunks, ?_, ?_⟩
    · simp only [Scrubber.get, hi]
    · simp only [rest, hi, List.cons_append]
  | nil =>
    cases hc : s.chunks with
    | cons chunk chunks =>
      refine .inr ⟨chunk.first, chunk.rest, chunks, ?_, ?_⟩
      · simp only [Scrubber.get, hi, hc]
      · simp only [rest, hi, hc, List.flatMap_cons, Chunk.text, List.nil_append, List.cons_append]
    | nil =>
      refine .inl ⟨?_, ?_⟩
      · simp only [Scrubber.get, hi, hc]
      · simp only [rest, hi, hc, List.flatMap_nil, List.append_nil]

theorem kept_of_rest {input : Text} {chunks : List Chunk}
    (h : s.rest = ch :: { s with input := input, chunks := chunks }.rest) :
    s.kept = { s with input := input, chunks := chunks }.kept + lines [ch] := by
  simp only [kept, h, lines_cons ch { s with input := input, chunks := chunks }.rest]
  omega

theorem kept_get (s : Scrubber) : s.get.2.kept + lines s.get.1.toList = s.kept := by
  rcases get_cases s with ⟨hget, -⟩ | ⟨ch, input, chunks, hget, hrest⟩
  · rw [hget]
    rfl
  · rw [hget]
    exact (kept_of_rest hrest).symm

/-- `GET` changes nothing but the input. -/
theorem get_same (s : Scrubber) :
    s.get.2 = { s with input := s.get.2.input, chunks := s.get.2.chunks } := by
  rcases get_cases s with ⟨hget, -⟩ | ⟨ch, input, chunks, hget, -⟩ <;> rw [hget]

theorem input_of_rest (h : s.rest = []) : s.input = [] ∧ s.chunks = [] := by
  obtain ⟨hinput, hchunks⟩ := List.append_eq_nil_iff.mp h
  refine ⟨hinput, ?_⟩
  cases hc : s.chunks with
  | nil => rfl
  | cons chunk chunks => simp [hc, Chunk.text] at hchunks

theorem resumes_of_normal (h : s.state.normal = true) : s.Resumes := by
  rw [Resumes]
  cases hs : s.state <;> simp_all [State.normal]

theorem leaves_goto {p : Point} (hr : s.Resumes) (ha : s.Admits p)
    (hc : s.kept + lines p.held = n) : Leaves n (s.goto p) :=
  ⟨⟨hr, ha⟩, .inl hc⟩

theorem leaves_put {next : Scrubber → Scrubber} (hr : s.Resumes) (hc : s.kept + lines [ch] = n)
    (hnext : Leaves n (next (s.emit ch))) : Leaves n (s.put ch next) := by
  simp only [Scrubber.put]
  split
  · exact leaves_goto hr trivial ((kept_emit ch s).trans hc)
  · exact hnext

theorem length_emit (ch : Char) (s : Scrubber) :
    (s.emit ch).buffer.length = s.buffer.length + 1 := List.length_append

/-- A character that does not fill the buffer. -/
theorem leaves_put_room {next : Scrubber → Scrubber} (h : s.buffer.length + 1 < s.tolen)
    (hnext : Leaves n (next (s.emit ch))) : Leaves n (s.put ch next) := by
  have hroom : ¬ s.tolen ≤ (s.emit ch).buffer.length := by
    rw [length_emit]
    omega
  rw [Scrubber.put]
  exact (if_neg hroom).symm ▸ hnext

/-- The newline that is put out at the end of the file. -/
theorem leaves_inserted {next : Scrubber → Scrubber} (hr : s.Resumes) (hrest : s.rest = [])
    (hc : s.kept = n)
    (hnext : s.buffer.length + 1 < s.tolen → Leaves n (next (s.emit '\n'))) :
    Leaves n (s.put '\n' next) := by
  have hkept : (s.emit '\n').kept = n + 1 := (kept_emit _ _).trans (congrArg (· + 1) hc)
  by_cases hroom : s.buffer.length + 1 < s.tolen
  · exact leaves_put_room hroom (hnext hroom)
  · have hfull : s.tolen ≤ (s.emit '\n').buffer.length := by
      rw [length_emit]
      omega
    rw [Scrubber.put]
    exact (if_pos hfull).symm ▸ ⟨⟨hr, trivial⟩, .inr ⟨hkept, .returned hrest rfl⟩⟩

/-- The newline that is put back at the end of the file. -/
theorem leaves_owed (hs : s.state.normal = true) (hinput : s.input = ['\n'])
    (hchunks : s.chunks = []) (hc : s.kept + lines [ch] = n + 1) : Leaves n (s.putTop ch) := by
  have hkept : (s.emit ch).kept = n + 1 := (kept_emit ch s).trans hc
  have hr : s.Resumes := resumes_of_normal hs
  simp only [Scrubber.putTop, Scrubber.put]
  split
  · exact ⟨⟨hr, trivial⟩, .inr ⟨hkept, .owed hinput hchunks hs (.inr rfl)⟩⟩
  · exact ⟨⟨hr, trivial⟩, .inr ⟨hkept, .owed hinput hchunks hs (.inl rfl)⟩⟩

theorem leaves_putTop (hr : s.Resumes) (hc : s.kept + lines [ch] = n) : Leaves n (s.putTop ch) :=
  leaves_put hr hc (leaves_goto hr trivial ((kept_emit ch s).trans hc))

/-! The states that read no ordinary text. -/

theorem outStringChar_leaves (hs : s.state = .outString) (hr : s.Resumes) (hc : s.kept = n) :
    Leaves n (outStringChar s) := by
  have hstring : (s.oldState.normal = true ∨ s.oldState = .linefile) ∧ '\n' ∉ s.outString := by
    rw [Resumes, hs] at hr
    exact hr
  obtain ⟨hold, hline⟩ := hstring
  have htail : '\n' ∉ s.outString.tail := fun h => hline (List.mem_of_mem_tail h)
  have hput : s.kept + lines [s.outString.headD '\x00'] = n := by
    rw [lines_headD hline]
    exact hc
  rw [outStringChar]
  split
  next =>
    refine leaves_putTop ?_ hput
    rcases hold with hnormal | hlinefile
    · exact resumes_of_normal hnormal
    · rw [Resumes, hlinefile]
      trivial
  next =>
    refine leaves_putTop ?_ hput
    rw [Resumes, hs]
    exact ⟨hold, htail⟩

theorem flushText_leaves (hs : s.state = .flushComment) (hr : s.Resumes) (hc : s.kept = n) :
    Leaves n (flushText s) := by
  rcases get_cases s with ⟨hget, -⟩ | ⟨ch, input, chunks, hget, hrest⟩
  · simp only [flushText, hget]
    exact leaves_goto hr trivial hc
  · have hk := (kept_of_rest hrest).symm.trans hc
    simp only [flushText, hget]
    split_ifs with hnewline hstar
    · subst hnewline
      exact leaves_put hr hk (leaves_goto hr hs ((kept_emit _ _).trans hk))
    · rw [lines_ne hnewline] at hk
      exact leaves_goto hr hs hk
    · rw [lines_ne hnewline] at hk
      exact leaves_goto hr hs hk

theorem flushStars_leaves (hs : s.state = .flushComment) (hr : s.Resumes) (hc : s.kept = n) :
    Leaves n (flushStars s) := by
  have hold : s.oldState.normal = true := by
    rw [Resumes, hs] at hr
    exact hr
  rcases get_cases s with ⟨hget, -⟩ | ⟨ch, input, chunks, hget, hrest⟩
  · simp only [flushStars, hget]
    exact leaves_goto hr trivial hc
  · have hk := (kept_of_rest hrest).symm.trans hc
    simp only [flushStars, hget]
    split_ifs with hstar hslash
    · subst hstar
      exact leaves_goto hr hs hk
    · subst hslash
      exact leaves_goto (resumes_of_normal hold) trivial ((kept_unget _ _).trans hk)
    · exact leaves_goto hr hs ((kept_unget _ _).trans hk)

theorem linefile_leaves (hr : s.Resumes) (hc : s.kept = n) :
    Leaves n (linefile s) := by
  rcases get_cases s with ⟨hget, -⟩ | ⟨ch, input, chunks, hget, hrest⟩
  · simp only [linefile, hget]
    exact leaves_goto hr trivial hc
  · have hk := (kept_of_rest hrest).symm.trans hc
    simp only [linefile, hget]
    split_ifs with hdigit
    · exact leaves_putTop hr hk
    · exact leaves_goto hr trivial hk

theorem get_leaves {p : Option Char → Point} (hr : s.Resumes)
    (hnone : s.rest = [] → s.Admits (p none))
    (hsome : ∀ ch input chunks, { s with input := input, chunks := chunks }.Admits (p (some ch)))
    (hp : ∀ ch, (p ch).held = ch.toList) (hc : s.kept = n) :
    Leaves n (s.get.2.goto (p s.get.1)) := by
  rcases get_cases s with ⟨hget, hrest⟩ | ⟨ch, input, chunks, hget, hrest⟩
  · rw [hget]
    refine leaves_goto hr (hnone hrest) ?_
    rw [hp]
    exact hc
  · rw [hget]
    refine leaves_goto hr (hsome ch input chunks) ?_
    rw [hp]
    exact (kept_of_rest hrest).symm.trans hc

theorem lineBlanks_leaves {ch : Option Char} (hr : s.Resumes) (hc : s.kept + lines ch.toList = n) :
    Leaves n (lineBlanks ch s) := by
  cases ch with
  | none => exact leaves_goto hr trivial hc
  | some ch =>
    rw [lineBlanks]
    split_ifs with hwhite hquote
    · refine get_leaves hr (fun _ => trivial) (fun _ _ _ => trivial) (fun _ => rfl) ?_
      rw [← hc]
      exact (congrArg (s.kept + ·) (lines_lex (by rw [hwhite]; decide))).symm
    · subst hquote
      have hquotechar : '"' ≠ '\n' := by decide
      exact leaves_putTop ⟨rfl, hquotechar⟩ hc
    · exact leaves_goto hr trivial hc

theorem lineRest_leaves {ch : Option Char} (hr : s.Resumes) (hc : s.kept + lines ch.toList = n) :
    Leaves n (lineRest ch s) := by
  cases ch with
  | none => exact leaves_putTop trivial hc
  | some ch =>
    rw [lineRest]
    split_ifs with hnewline
    · exact leaves_putTop trivial hc
    · refine get_leaves hr (fun _ => trivial) (fun _ _ _ => trivial) (fun _ => rfl) ?_
      rw [← hc]
      exact (congrArg (s.kept + ·) (lines_ne hnewline)).symm

theorem stringChar_leaves (hs : s.state = .string) (hr : s.Resumes) (hc : s.kept = n) :
    Leaves n (stringChar s) := by
  have hstring : s.oldState.normal = true ∧ s.quotechar ≠ '\n' := by
    rw [Resumes, hs] at hr
    exact hr
  obtain ⟨hold, hquote⟩ := hstring
  rw [stringChar]
  generalize hlen : min _ (s.tolen - s.buffer.length) = len
  have hcopy : (s.copy len).kept = n := (kept_copy len s).trans hc
  split_ifs with hfull
  · exact leaves_goto hr trivial hcopy
  rcases get_cases (s.copy len) with ⟨hget, hrest⟩ | ⟨ch, input, chunks, hget, hrest⟩
  · -- the newline that is put back was not read
    simp only [hget]
    obtain ⟨hinput, hchunks⟩ := input_of_rest hrest
    refine leaves_owed hold rfl hchunks ?_
    have hempty : ((s.copy len).unget '\n').kept = n + 1 :=
      (kept_unget _ _).trans (congrArg (· + 1) hcopy)
    have hsame : (s.copy len).unget '\n' = { s.copy len with input := ['\n'] } := by
      rw [unget, hinput]
    rw [hsame] at hempty
    have hput : { s.copy len with input := ['\n'] }.kept + lines [s.quotechar] = n + 1 := by
      rw [lines_ne hquote]
      exact hempty
    exact hput
  · have hk := (kept_of_rest hrest).symm.trans hcopy
    simp only [hget]
    split_ifs with hend hback
    · exact leaves_putTop (resumes_of_normal hold) hk
    · exact leaves_putTop ⟨hold, hquote⟩ hk
    · exact leaves_putTop hr hk

theorem escape_leaves (hs : s.state = .escape) (hr : s.Resumes) (hc : s.kept = n) :
    Leaves n (escape s) := by
  have hstring : s.oldState.normal = true ∧ s.quotechar ≠ '\n' := by
    rw [Resumes, hs] at hr
    exact hr
  rcases get_cases { s with state := .string } with ⟨hget, -⟩ | ⟨ch, input, chunks, hget, hrest⟩
  · simp only [escape, hget]
    have hput : s.kept + lines [s.quotechar] = n := by
      rw [lines_ne hstring.2]
      exact hc
    exact leaves_putTop hstring hput
  · have hk := (kept_of_rest hrest).symm.trans hc
    simp only [escape, hget]
    split_ifs with hnewline
    · subst hnewline
      refine leaves_putTop hstring ?_
      rw [kept_unget, lines_ne (show 'n' ≠ '\n' by decide), lines_ne (show '\\' ≠ '\n' by decide)]
      rw [← hk]
      simp only [kept, rest, lines_newline]
      omega
    · exact leaves_putTop hstring hk

/-! The cases of ordinary text. -/

theorem white_leaves (hs : s.state.normal = true) (hc : s.kept = n) : Leaves n (white s) := by
  have hr : s.Resumes := resumes_of_normal hs
  rcases get_cases s with ⟨hget, -⟩ | ⟨ch, input, chunks, hget, hrest⟩
  · simp only [white, hget]
    exact leaves_goto hr trivial hc
  have hk := (kept_of_rest hrest).symm.trans hc
  have hunget : ∀ t : Scrubber, t.kept + lines [ch] = n → (t.unget ch).kept + lines [' '] = n :=
    fun t ht => (kept_unget ch t).trans ht
  simp only [white, hget]
  by_cases hwhite : lex ch = .whitespace
  · rw [if_pos hwhite]
    rw [lines_lex (by rw [hwhite]; decide)] at hk
    exact leaves_goto hr hs hk
  rw [if_neg hwhite]
  by_cases hstart : s.state = .lineStart
  · rw [if_pos hstart]
    exact leaves_putTop trivial (hunget _ hk)
  rw [if_neg hstart]
  split
  · exact leaves_goto hr hs hk
  split
  · exact leaves_putTop trivial hk
  cases hstate : s.state with
  | lineWhite | operands => exact leaves_goto trivial rfl hk
  | opcode =>
    simp only
    split
    next hroom =>
      have hspace : lines [' '] = 0 := rfl
      refine leaves_put_room hroom (leaves_goto trivial rfl ?_)
      rw [kept_emit, hspace]
      exact hk
    next => exact leaves_putTop trivial (hunget _ hk)
  | symbol | symbolWhite => exact leaves_goto trivial rfl hk
  | label => exact leaves_putTop trivial (hunget _ hk)
  | lineStart => exact absurd hstate hstart
  | outString | flushComment | linefile | string | escape =>
    rw [hstate] at hs
    cases hs

theorem afterSymbol_normal {state : State} (h : state.normal = true) :
    (afterSymbol state).normal = true := by
  rw [afterSymbol]
  split
  · rfl
  · exact h

theorem twochar_leaves (hs : s.state.normal = true) (hne : ch ≠ '\n')
    (hc : s.kept + lines [ch] = n) : Leaves n (twochar ch s) := by
  rw [lines_ne hne] at hc
  have hk := (kept_get s).trans hc
  rw [twochar]
  rcases get_cases s with ⟨hget, -⟩ | ⟨ch2, input, chunks, hget, hrest⟩
  · simp only [hget]
    refine leaves_putTop (resumes_of_normal (afterSymbol_normal hs)) ?_
    rw [lines_ne hne]
    exact hc
  · rw [hget] at hk
    simp only [hget]
    split_ifs with hstar
    · cases hstar
      exact leaves_goto (resumes_of_normal hs) hs hk
    · refine leaves_putTop (resumes_of_normal (afterSymbol_normal hs)) ?_
      rw [lines_ne hne]
      exact (kept_unget ch2 _).trans hk

theorem blockText_leaves (hs : s.state.normal = true) (hc : s.kept = n) :
    Leaves n (blockText s) := by
  have hr : s.Resumes := resumes_of_normal hs
  rcases get_cases s with ⟨hget, -⟩ | ⟨ch, input, chunks, hget, hrest⟩
  · simp only [blockText, hget]
    exact leaves_goto hr hs hc
  · have hk := (kept_of_rest hrest).symm.trans hc
    simp only [blockText, hget]
    split_ifs with hstar hnewline
    · subst hstar
      exact leaves_goto hr hs hk
    · refine leaves_goto hr hs ?_
      rw [eq_of_lex_newline hnewline] at hk
      rw [← hk]
      simp only [kept, rest, lines_newline, Point.held, lines_nil]
      omega
    · rw [lines_lex hnewline] at hk
      exact leaves_goto hr hs hk

theorem blockStars_leaves (hs : s.state.normal = true) (hc : s.kept = n) :
    Leaves n (blockStars s) := by
  have hr : s.Resumes := resumes_of_normal hs
  rcases get_cases s with ⟨hget, -⟩ | ⟨ch, input, chunks, hget, hrest⟩
  · simp only [blockStars, hget]
    exact leaves_goto hr hs hc
  · have hk := (kept_of_rest hrest).symm.trans hc
    simp only [blockStars, hget]
    split_ifs with hstar hslash
    · subst hstar
      exact leaves_goto hr hs hk
    · subst hslash
      exact leaves_goto hr hs hk
    · exact leaves_goto hr hs ((kept_unget _ _).trans hk)

theorem stringquote_leaves (hs : s.state.normal = true) (hne : ch ≠ '\n')
    (hc : s.kept + lines [ch] = n) : Leaves n (stringquote ch s) := by
  simp only [stringquote]
  split
  · refine leaves_put trivial ((kept_unget _ _).trans hc) ?_
    have hspace : lines [' '] = 0 := rfl
    refine leaves_putTop ⟨rfl, hne⟩ ?_
    have hk := kept_emit ' ' s
    rw [hspace] at hk
    exact (congrArg (· + lines [ch]) hk).trans hc
  · exact leaves_putTop ⟨afterSymbol_normal hs, hne⟩ hc

theorem charConstant_kept (hline : s.rest.head? ≠ some '\n')
    (hback : s.rest.take 2 ≠ ['\\', '\n']) :
    (charConstant s).2.kept = s.kept := by
  rcases get_cases s with ⟨hget, -⟩ | ⟨ch, input, chunks, hget, hrest⟩
  · simp only [charConstant, hget]
    rfl
  have hk := kept_of_rest hrest
  have hch : ch ≠ '\n' := by
    rintro rfl
    rw [hrest] at hline
    exact hline rfl
  rw [lines_ne hch] at hk
  simp only [charConstant, hget]
  split
  next hslash =>
    rcases get_cases { s with input := input, chunks := chunks } with
      ⟨hget', -⟩ | ⟨ch', input', chunks', hget', hrest'⟩
    · simp only [hget']
      exact hk.symm
    · have hk' := kept_of_rest hrest'
      have hch' : ch' ≠ '\n' := by
        rintro rfl
        rw [hrest, hslash, hrest'] at hback
        exact hback rfl
      rw [lines_ne hch'] at hk'
      simp only [hget']
      exact (hk.trans hk').symm
  next => exact hk.symm

theorem charConstant_state (s : Scrubber) : (charConstant s).2.state = s.state := by
  rcases get_cases s with ⟨hget, -⟩ | ⟨ch, input, chunks, hget, -⟩
  · simp only [charConstant, hget]
    rfl
  simp only [charConstant, hget]
  split
  · rcases get_cases { s with input := input, chunks := chunks } with
      ⟨hget', -⟩ | ⟨ch', input', chunks', hget', -⟩ <;> simp only [hget']
    rfl
  · rfl

theorem line_not_mem_toDigits (k : Nat) : '\n' ∉ Nat.toDigits 10 k := by
  intro h
  have hdigit := Nat.isDigit_of_mem_toDigits (by decide) (by decide) h
  cases hdigit

/-- `GET` once more, for a closing quote that need not be there. -/
theorem closeQuote_kept (s : Scrubber) :
    (if s.get.1 = some '\'' then s.get.2 else s.get.2.ungetIf s.get.1).kept = s.kept ∧
      (if s.get.1 = some '\'' then s.get.2 else s.get.2.ungetIf s.get.1).state = s.state := by
  have hk := kept_get s
  split
  next hquote =>
    rw [hquote] at hk
    exact ⟨hk, by rw [get_same s]⟩
  next =>
    refine ⟨(kept_ungetIf _ _).trans hk, ?_⟩
    rw [get_same s]
    cases s.get.1 <;> rfl

theorem onecharQuote_leaves (hs : s.state.normal = true) (hne : ch ≠ '\n')
    (hconst : s.state ≠ .symbolWhite →
      s.rest.head? ≠ some '\n' ∧ s.rest.take 2 ≠ ['\\', '\n'])
    (hc : s.kept + lines [ch] = n) : Leaves n (onecharQuote ch s) := by
  simp only [onecharQuote]
  split
  next => exact leaves_putTop trivial ((kept_unget _ _).trans hc)
  next hwhite =>
    obtain ⟨hline, hback⟩ := hconst hwhite
    rw [lines_ne hne] at hc
    obtain ⟨hkept, hstate⟩ := closeQuote_kept (charConstant s).2
    rw [charConstant_kept hline hback] at hkept
    rw [charConstant_state] at hstate
    generalize hclosed : (if (charConstant s).2.get.1 = some '\'' then (charConstant s).2.get.2
      else (charConstant s).2.get.2.ungetIf (charConstant s).2.get.1) = closed at hkept hstate ⊢
    have hdigits := line_not_mem_toDigits ((charConstant s).1.toNat % 256)
    generalize Nat.toDigits 10 ((charConstant s).1.toNat % 256) = outBuf at hdigits ⊢
    have hput : closed.kept + lines [outBuf.headD '\x00'] = n := by
      rw [lines_headD hdigits, hkept]
      exact hc
    split
    · exact leaves_putTop (resumes_of_normal (by rw [hstate]; exact hs)) hput
    · refine leaves_putTop ⟨.inl (afterSymbol_normal (by rw [hstate]; exact hs)), ?_⟩ hput
      exact fun h => hdigits (List.mem_of_mem_tail h)

theorem colon_leaves (hs : s.state.normal = true) (hc : s.kept + lines [ch] = n) :
    Leaves n (colon ch s) := by
  refine leaves_putTop (resumes_of_normal ?_) hc
  simp only
  split_ifs
  · rfl
  · rfl
  · exact hs

/-- A newline of `add_newlines` goes back to the input. -/
theorem kept_rolled (h : s.addNewlines ≠ 0) :
    ({ s with addNewlines := s.addNewlines - 1 }.unget '\n').kept = s.kept := by
  rw [kept_unget]
  simp only [kept, rest, lines_newline]
  omega

theorem newline_leaves (hc : s.kept + 1 = n) : Leaves n (newline '\n' s) := by
  simp only [newline]
  split
  next => exact leaves_putTop trivial hc
  next hadd =>
    exact leaves_putTop trivial ((congrArg (· + 1) (kept_rolled hadd)).trans hc)

theorem deFault_leaves (hs : s.state.normal = true) (hc : s.kept + lines [ch] = n) :
    Leaves n (deFault ch s) := by
  have hspace : lines [' '] = 0 := rfl
  have hr : s.Resumes := resumes_of_normal hs
  rw [deFault]
  split
  · exact leaves_putTop trivial hc
  · exact leaves_putTop trivial hc
  · split
    · exact leaves_putTop hr hc
    · exact leaves_putTop trivial hc
  · split
    · split
      · exact leaves_goto hr trivial ((kept_unget ch s).trans hc)
      · refine leaves_putTop trivial ?_
        rw [kept_emit, hspace]
        exact hc
    · exact leaves_putTop trivial hc
  · exact leaves_putTop hr hc

theorem symbolComponent_leaves (hs : s.state.normal = true) (hc : s.kept + lines [ch] = n) :
    Leaves n (symbolComponent ch s) := by
  simp only [symbolComponent]
  split
  next => exact leaves_putTop trivial ((kept_unget _ _).trans hc)
  next =>
    have hsymbol : ∀ t : Scrubber,
        t = (if s.state = .operands then { s with state := .symbol } else s) →
          t.state.normal = true ∧ t.kept = s.kept := by
      rintro t rfl
      split
      · exact ⟨rfl, rfl⟩
      · exact ⟨hs, rfl⟩
    generalize hst : (if s.state = .operands then { s with state := .symbol } else s) = t
    obtain ⟨hnormal, hkept⟩ := hsymbol t hst.symm
    rw [← hkept] at hc
    generalize min _ (t.tolen - t.buffer.length - 1) = len
    split
    · have hcopy : ((t.emit ch).copy len).kept = n := by
        rw [kept_copy, kept_emit]
        exact hc
      split
      · exact leaves_goto (resumes_of_normal hnormal) trivial hcopy
      · have hk := (kept_get ((t.emit ch).copy len)).trans hcopy
        have hstate : ((t.emit ch).copy len).get.2.state = t.state := by
          rw [get_same]
          rfl
        refine deFault_leaves (by rw [hstate]; exact hnormal) ?_
        cases hget : ((t.emit ch).copy len).get.1 with
        | none =>
          rw [hget] at hk
          exact hk
        | some c =>
          rw [hget] at hk
          exact hk
    · exact deFault_leaves hnormal hc

theorem commentRest_leaves (hs : s.state.normal = true) (hc : s.kept = n) :
    Leaves n (commentRest s) := by
  rcases get_cases s with ⟨hget, hrest⟩ | ⟨ch, input, chunks, hget, hrest⟩
  · simp only [commentRest, hget]
    refine leaves_inserted trivial hrest hc fun _ => ?_
    have hkept := (kept_emit '\n' s).trans (congrArg (· + 1) hc)
    exact ⟨⟨trivial, trivial⟩, .inr ⟨hkept, .idle hrest rfl (.inl rfl)⟩⟩
  · have hk := (kept_of_rest hrest).symm.trans hc
    simp only [commentRest, hget]
    split
    next hnewline =>
      rw [eq_of_lex_newline hnewline] at hk
      exact leaves_putTop trivial hk
    next hnewline =>
      rw [lines_lex hnewline] at hk
      exact leaves_goto (resumes_of_normal hs) hs hk

theorem lineCommentStart_leaves (hs : s.state.normal = true) (hch : lex ch = .lineCommentStart)
    (hc : s.kept + lines [ch] = n) : Leaves n (lineCommentStart ch s) := by
  -- so the `/` of `case LEX_IS_LINE_COMMENT_START` does not come here
  have hsharp : ch = '#' := by
    rw [lex] at hch
    split_ifs at hch with _ hline
    exact List.mem_singleton.mp hline
  subst hsharp
  have hr : s.Resumes := resumes_of_normal hs
  by_cases hstart : s.state = .lineStart ∨ s.state = .lineWhite
  · have hstep : lineCommentStart '#' s = s.goto (.cppBlanks '#') := if_pos hstart
    rw [hstep]
    exact leaves_goto hr ⟨hs, rfl⟩ hc
  · have hstep : lineCommentStart '#' s = s.goto .commentRest := if_neg hstart
    rw [hstep]
    exact leaves_goto hr hs hc

theorem cppBlanks_leaves (hs : s.state.normal = true)
    (hend : s.rest = [] → s.state = .lineStart ∨ s.tolen ≤ s.buffer.length + 1)
    (hc : s.kept = n) : Leaves n (cppBlanks '#' s) := by
  have hr : s.Resumes := resumes_of_normal hs
  rcases get_cases s with ⟨hget, hrest⟩ | ⟨ch, input, chunks, hget, hrest⟩
  · simp only [cppBlanks, hget]
    refine leaves_inserted hr hrest hc fun hroom => ?_
    have hkept := (kept_emit '\n' s).trans (congrArg (· + 1) hc)
    rcases hend hrest with hstart | hfull
    · exact ⟨⟨hr, trivial⟩, .inr ⟨hkept, .idle hrest hstart (.inl rfl)⟩⟩
    · exact absurd hroom (Nat.not_lt.mpr hfull)
  · have hk := (kept_of_rest hrest).symm.trans hc
    simp only [cppBlanks, hget]
    split_ifs with hwhite hother
    · rw [lines_lex (by rw [hwhite]; decide)] at hk
      exact leaves_goto hr ⟨hs, rfl⟩ hk
    · exact leaves_goto hr hs hk
    · have hline : '\n' ∉ ".linefile ".toList := by decide
      exact leaves_putTop ⟨.inr rfl, hline⟩ ((kept_unget _ _).trans hk)

theorem cppRest_leaves {ch : Option Char} (hs : s.state.normal = true)
    (hend : ch = none → s.rest = []) (hc : s.kept + lines ch.toList = n) :
    Leaves n (cppRest ch s) := by
  cases ch with
  | none =>
    have hkept := (kept_emit '\n' s).trans (congrArg (· + 1) hc)
    rw [cppRest]
    refine leaves_inserted (resumes_of_normal hs) (hend rfl) hc fun _ => ?_
    exact ⟨⟨trivial, trivial⟩, .inr ⟨hkept, .idle (hend rfl) rfl (.inl rfl)⟩⟩
  | some ch =>
    rw [cppRest]
    split
    next => exact leaves_goto trivial trivial ((kept_unget _ _).trans hc)
    next hnewline =>
      refine get_leaves (resumes_of_normal hs) (fun hrest => ⟨hs, hrest⟩) (fun _ _ _ => hs)
        (fun _ => rfl) ?_
      rw [← hc]
      exact (congrArg (s.kept + ·) (lines_lex hnewline)).symm

/-! A step. -/

theorem recycle_leaves {ch : Option Char} (hs : s.state.normal = true)
    (hend : ch = none → s.rest = [])
    (hconst : ch = some '\'' → s.state ≠ .symbolWhite →
      s.rest.head? ≠ some '\n' ∧ s.rest.take 2 ≠ ['\\', '\n'])
    (hc : s.kept + lines ch.toList = n) : Leaves n (recycle ch s) := by
  have hr : s.Resumes := resumes_of_normal hs
  cases ch with
  | none =>
    rw [recycle]
    split
    · exact leaves_goto hr trivial hc
    · have hkept := (kept_emit '\n' s).trans (congrArg (· + 1) hc)
      refine leaves_inserted trivial (hend rfl) hc fun _ => ?_
      exact ⟨⟨trivial, trivial⟩, .inr ⟨hkept, .returned (hend rfl) rfl⟩⟩
  | some ch =>
    have hne : lex ch ≠ .newline → ch ≠ '\n' := by
      rintro hlex rfl
      exact hlex lex_newline
    simp only [recycle]
    cases hlex : lex ch with
    | whitespace =>
      have hk : lines [ch] = 0 := lines_lex (by rw [hlex]; decide)
      exact leaves_goto hr hs ((congrArg (s.kept + ·) hk.symm).trans hc)
    | twocharComment1st => exact twochar_leaves hs (hne (by rw [hlex]; decide)) hc
    | stringquote => exact stringquote_leaves hs (hne (by rw [hlex]; decide)) hc
    | onecharQuote =>
      have hquote : ch = '\'' := by
        rw [lex] at hlex
        split_ifs at hlex
        assumption
      exact onecharQuote_leaves hs (hne (by rw [hlex]; decide)) (hconst (congrArg some hquote)) hc
    | colon => exact colon_leaves hs hc
    | newline =>
      rw [eq_of_lex_newline hlex] at hc ⊢
      exact newline_leaves hc
    | lineSeparator => exact leaves_putTop trivial hc
    | lineCommentStart => exact lineCommentStart_leaves hs hlex hc
    | commentStart =>
      have hk : lines [ch] = 0 := lines_lex (by rw [hlex]; decide)
      exact leaves_goto hr hs ((congrArg (s.kept + ·) hk.symm).trans hc)
    | symbolComponent => exact symbolComponent_leaves hs hc
    | other => exact deFault_leaves hs hc

theorem top_normal (hs : s.state.normal = true) : top s = s.get.2.goto (.recycle s.get.1) := by
  rw [top]
  cases hstate : s.state with
  | lineStart | lineWhite | opcode | operands | symbol | symbolWhite | label => rfl
  | outString | flushComment | linefile | string | escape =>
    rw [hstate] at hs
    cases hs

theorem top_leaves (hr : s.Resumes) (hc : s.kept = n) : Leaves n (top s) := by
  cases hs : s.state with
  | outString =>
    rw [top, hs]
    exact outStringChar_leaves hs hr hc
  | flushComment =>
    rw [top, hs]
    exact leaves_goto hr hs hc
  | linefile =>
    rw [top, hs]
    exact linefile_leaves hr hc
  | string =>
    rw [top, hs]
    exact stringChar_leaves hs hr hc
  | escape =>
    rw [top, hs]
    exact escape_leaves hs hr hc
  | lineStart | lineWhite | opcode | operands | symbol | symbolWhite | label =>
    have hnormal : s.state.normal = true := by
      rw [hs]
      rfl
    rw [top_normal hnormal]
    exact get_leaves hr (fun hrest => ⟨hnormal, hrest⟩) (fun _ _ _ => hnormal) (fun _ => rfl) hc

theorem step_leaves (hf : s.Formed) (hk : s.KeepsLines) (hc : s.count = n) : Leaves n (step s) := by
  obtain ⟨hr, ha⟩ := hf
  rw [count] at hc
  rw [step]
  cases hp : s.point with
  | top =>
    rw [hp] at hc
    exact top_leaves hr hc
  | recycle ch =>
    rw [hp] at hc ha
    have hch : s.state.normal = true ∧ (ch = none → s.rest = []) := by
      cases ch with
      | none => exact ⟨ha.1, fun _ => ha.2⟩
      | some ch => exact ⟨ha, fun h => (by cases h)⟩
    refine recycle_leaves hch.1 hch.2 ?_ hc
    rintro rfl hwhite
    exact hk.constant hp hwhite
  | white =>
    rw [hp] at hc ha
    exact white_leaves ha hc
  | blockText =>
    rw [hp] at hc ha
    exact blockText_leaves ha hc
  | blockStars =>
    rw [hp] at hc ha
    exact blockStars_leaves ha hc
  | flushText =>
    rw [hp] at hc ha
    exact flushText_leaves ha hr hc
  | flushStars =>
    rw [hp] at hc ha
    exact flushStars_leaves ha hr hc
  | lineBlanks ch =>
    rw [hp] at hc
    exact lineBlanks_leaves hr hc
  | lineRest ch =>
    rw [hp] at hc
    exact lineRest_leaves hr hc
  | cppBlanks startch =>
    rw [hp] at hc ha
    obtain ⟨hs, rfl⟩ := ha
    exact cppBlanks_leaves hs (hk.comment hp) hc
  | cppRest ch =>
    rw [hp] at hc ha
    have hch : s.state.normal = true ∧ (ch = none → s.rest = []) := by
      cases ch with
      | none => exact ⟨ha.1, fun _ => ha.2⟩
      | some ch => exact ⟨ha, fun h => (by cases h)⟩
    exact cppRest_leaves hch.1 hch.2 hc
  | commentRest =>
    rw [hp] at hc ha
    exact commentRest_leaves ha hc
  | returned | badCase =>
    refine ⟨⟨hr, ha⟩, .inl ?_⟩
    rw [count]
    exact hc

end FusionBinutils.Gas.Scrub
