import Mathlib.Data.List.Basic

/-! Argument vectors as text (libiberty/argv.c). A string is the list of its characters, without
the null character that ends it. -/
namespace FusionBinutils.Libiberty

/-- `ISSPACE` -/
def isSpace (c : Char) : Bool :=
  c = ' ' || c = '\t' || c = '\n' || c = '\r' || c = '\x0b' || c = '\x0c'

/-- The three modes of `buildargv`. -/
structure Quotes where
  squote : Bool
  dquote : Bool
  bsquote : Bool
  deriving DecidableEq, Repr

def unquoted : Quotes := ⟨false, false, false⟩

/-- A character of an argument: what it does to the modes, and what is copied of it. -/
def argChar (q : Quotes) (c : Char) : Quotes × List Char :=
  if q.bsquote then ({ q with bsquote := false }, [c])
  else if c = '\\' then ({ q with bsquote := true }, [])
  else if q.squote then (if c = '\'' then ({ q with squote := false }, []) else (q, [c]))
  else if q.dquote then (if c = '"' then ({ q with dquote := false }, []) else (q, [c]))
  else if c = '\'' then ({ q with squote := true }, [])
  else if c = '"' then ({ q with dquote := true }, [])
  else (q, [c])

/-- "Begin scanning arg": the argument, the modes behind it and the rest of the input. -/
def scanArg (q : Quotes) : List Char → List Char × Quotes × List Char
  | [] => ([], q, [])
  | c :: input =>
    if isSpace c && !q.squote && !q.dquote && !q.bsquote then ([], q, c :: input)
    else
      let (q, copied) := argChar q c
      let (arg, q, input) := scanArg q input
      (copied ++ arg, q, input)

def consumeWhitespace (input : List Char) : List Char := input.dropWhile isSpace

/-- The loop of `buildargv`, which "always" is executed once. The modes live outside of it. -/
def buildLoop : Nat → Quotes → List Char → List (List Char)
  | 0, _, _ => []
  | n + 1, q, input =>
    let (arg, q, input) := scanArg q (consumeWhitespace input)
    let input := consumeWhitespace input
    arg :: if input = [] then [] else buildLoop n q input

/-- `buildargv`; every turn of the loop but the last takes a character. -/
def buildargv (input : List Char) : List (List Char) :=
  buildLoop (input.length + 1) unquoted input

/-- A character as `writeargv` puts it. -/
def escapeChar (c : Char) : List Char :=
  if isSpace c ∨ c = '\\' ∨ c = '\'' ∨ c = '"' then ['\\', c] else [c]

/-- `writeargv` -/
def writeargv (argv : List (List Char)) : List Char :=
  argv.flatMap fun arg => arg.flatMap escapeChar ++ ['\n']

/-! Reading what was written. -/

variable {args : List (List Char)} {arg p : List Char} {c : Char}

theorem writeargv_cons : writeargv (arg :: args) = arg.flatMap escapeChar ++ '\n' :: writeargv args := by
  rw [writeargv, List.flatMap_cons, List.append_assoc]
  rfl

/-- Outside of quotes, an escaped character is read as the character. -/
theorem scanArg_escapeChar (c : Char) (p : List Char) :
    scanArg unquoted (escapeChar c ++ p) =
      (c :: (scanArg unquoted p).1, (scanArg unquoted p).2) := by
  by_cases h : isSpace c = true ∨ c = '\\' ∨ c = '\'' ∨ c = '"'
  · rw [escapeChar, if_pos h]
    simp [scanArg, argChar, unquoted, isSpace]
  · rw [escapeChar, if_neg h]
    obtain ⟨hspace, hback, hsingle, hdouble⟩ : ¬ isSpace c = true ∧ c ≠ '\\' ∧ c ≠ '\'' ∧ c ≠ '"' := by
      simpa only [not_or] using h
    have hchar : argChar unquoted c = (unquoted, [c]) := by
      simp [argChar, unquoted, hback, hsingle, hdouble]
    simp only [List.singleton_append, scanArg, hspace, Bool.false_and, Bool.false_eq_true, if_false,
      hchar]

/-- An argument is read up to the end of its line. -/
theorem scanArg_written (arg p : List Char) :
    scanArg unquoted (arg.flatMap escapeChar ++ '\n' :: p) = (arg, unquoted, '\n' :: p) := by
  induction arg with
  | nil => rfl
  | cons c arg ih =>
    rw [List.flatMap_cons, List.append_assoc, scanArg_escapeChar, ih]

theorem consumeWhitespace_escapeChar (c : Char) (p : List Char) :
    consumeWhitespace (escapeChar c ++ p) = escapeChar c ++ p := by
  by_cases h : isSpace c = true ∨ c = '\\' ∨ c = '\'' ∨ c = '"'
  · rw [escapeChar, if_pos h]
    rfl
  · rw [escapeChar, if_neg h]
    have hspace : ¬ isSpace c = true := fun hc => h (.inl hc)
    rw [consumeWhitespace, List.singleton_append, List.dropWhile_cons_of_neg hspace]

/-- The lines of empty arguments are white space, and nothing else at the start of a line is. -/
theorem consumeWhitespace_writeargv (args : List (List Char)) :
    consumeWhitespace (writeargv args) = writeargv (args.dropWhile (· = [])) := by
  induction args with
  | nil => rfl
  | cons arg args ih =>
    cases arg with
    | nil =>
      rw [List.dropWhile_cons_of_pos (by simp), ← ih, writeargv_cons]
      rfl
    | cons c arg =>
      rw [List.dropWhile_cons_of_neg (by simp), writeargv_cons, List.flatMap_cons, List.append_assoc,
        consumeWhitespace_escapeChar]

/-- The arguments that are left of some that were written. -/
def kept (args : List (List Char)) : List (List Char) :=
  let args := args.filter (· ≠ [])
  if args = [] then [[]] else args

theorem filter_dropWhile (args : List (List Char)) :
    (args.dropWhile (· = [])).filter (· ≠ []) = args.filter (· ≠ []) := by
  induction args with
  | nil => rfl
  | cons arg args ih =>
    by_cases h : arg = []
    · rw [List.dropWhile_cons_of_pos (by simpa using h), List.filter_cons_of_neg (by simpa using h), ih]
    · rw [List.dropWhile_cons_of_neg (by simpa using h)]

/-- What is left begins with the first argument that has characters. -/
theorem filter_of_dropWhile {rest : List (List Char)} (h : args.dropWhile (· = []) = arg :: rest) :
    args.filter (· ≠ []) = arg :: rest.filter (· ≠ []) := by
  have hhead := List.head_dropWhile_not (· = []) (by rw [h]; exact List.cons_ne_nil _ _)
  have hne : arg ≠ [] := by simpa only [h, List.head_cons, decide_eq_false_iff_not] using hhead
  rw [← filter_dropWhile, h, List.filter_cons_of_pos (by simpa using hne)]

theorem kept_of_filter {l : List (List Char)} (h : args.filter (· ≠ []) = arg :: l) :
    kept args = arg :: l := by
  rw [kept, h]
  exact if_neg (List.cons_ne_nil _ _)

theorem buildLoop_writeargv {n : Nat} (hn : (writeargv args).length < n) :
    buildLoop n unquoted (writeargv args) = kept args := by
  induction n generalizing args with
  | zero => exact absurd hn (Nat.not_lt_zero _)
  | succ n ih =>
    rw [buildLoop, consumeWhitespace_writeargv]
    have hlength (args : List (List Char)) :
        (writeargv (args.dropWhile (· = []))).length ≤ (writeargv args).length := by
      rw [← consumeWhitespace_writeargv]
      exact (List.dropWhile_sublist isSpace).length_le
    cases hargs : args.dropWhile (· = []) with
    | nil =>
      rw [kept, ← filter_dropWhile, hargs]
      rfl
    | cons arg rest =>
      have hspace : consumeWhitespace ('\n' :: writeargv rest) =
          writeargv (rest.dropWhile (· = [])) := by
        rw [← consumeWhitespace_writeargv]
        rfl
      rw [kept_of_filter (filter_of_dropWhile hargs), writeargv_cons, scanArg_written]
      simp only [hspace]
      congr 1
      -- the loop goes on while an argument with characters is left
      cases hrest : rest.dropWhile (· = []) with
      | nil =>
        rw [← filter_dropWhile, hrest]
        rfl
      | cons next rest' =>
        have hlt : (writeargv (next :: rest')).length < n := by
          have hle := hlength args
          have hle' := hlength rest
          rw [hargs, writeargv_cons, List.length_append, List.length_cons] at hle
          rw [hrest] at hle'
          omega
        have hkept : kept (next :: rest') = rest.filter (· ≠ []) := by
          rw [filter_of_dropWhile hrest]
          apply kept_of_filter
          rw [← hrest, filter_dropWhile, filter_of_dropWhile hrest]
        rw [if_neg (by rw [writeargv_cons]; simp), ih hlt, hkept]

/-- An empty argument is lost in the text, unless it is the only one. -/
theorem buildargv_writeargv (args : List (List Char)) : buildargv (writeargv args) = kept args :=
  buildLoop_writeargv (Nat.lt_succ_self _)

theorem writeargv_reads_back_iff (hne : args ≠ []) :
    buildargv (writeargv args) = args ↔ args = [[]] ∨ [] ∉ args := by
  rw [buildargv_writeargv, kept]
  constructor
  · intro h
    by_cases hfilter : args.filter (· ≠ []) = []
    · rw [if_pos hfilter] at h
      exact .inl h.symm
    · rw [if_neg hfilter] at h
      right
      intro hmem
      rw [← h] at hmem
      simpa using List.of_mem_filter hmem
  · rintro (rfl | hmem)
    · rfl
    · have hfilter : args.filter (· ≠ []) = args := by
        rw [List.filter_eq_self]
        intro arg harg
        have hnil : arg ≠ [] := fun h => hmem (h ▸ harg)
        simpa using hnil
      rw [hfilter, if_neg hne]

/-- Blanks, quotes and backslashes. -/
def quotedArgs : List (List Char) := [[' '], ['"', '\\', 'a'], ['\'', '\t', 'b']]

theorem writeargv_reads_back_quotedArgs : buildargv (writeargv quotedArgs) = quotedArgs :=
  (writeargv_reads_back_iff (List.cons_ne_nil _ _)).mpr (.inr (by decide))

theorem empty_argument_lost : ¬ buildargv (writeargv [['a'], []]) = [['a'], []] := by
  decide

end FusionBinutils.Libiberty
