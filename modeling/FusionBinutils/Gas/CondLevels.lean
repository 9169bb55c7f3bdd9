import FusionBinutils.Gas.Cond

/-! What conditional directives are for: a line counts where every conditional around it selects the
branch that the line is in. The frames of gas/cond.c simulate that, as long as the statements are
written so that `ignore_input` and the directives take them for what they are. -/
namespace FusionBinutils.Gas.Cond

open Integer (isEndOfLine)

/-- A conditional that is open: whether it selects the branch that is being read, whether it has
selected one so far, and whether its `.else` has been seen. -/
structure Level where
  selects : Bool
  taken : Bool
  elseSeen : Bool
  macroNest : Nat
  deriving DecidableEq, Repr

def active (levels : List Level) : Bool := levels.all (·.selects)

def enter (macroNest : Nat) (value : Bool) (levels : List Level) : List Level :=
  let selects := active levels && value
  ⟨selects, selects, false, macroNest⟩ :: levels

/-- The next branch of the innermost conditional, with its condition. -/
def alternative (isElse value : Bool) : List Level → List Level
  | [] => []
  | level :: outer =>
    let selects := active outer && !level.taken && value
    ⟨selects, level.taken || selects, isElse, level.macroNest⟩ :: outer

/-- The condition of a directive; an `.else` has none. -/
def Directive.value (env : Env) (operand : Text) : Directive → Bool
  | .sIf arg => arg.holds (env.expression (skipWhitespace operand)).number
  | .sIfdef testDefined =>
    testDefined ^^ env.defined (getSymbolName env (skipWhitespace operand)).name
  | .sIfb testBlank => testBlank == isEndOfLine (cur (skipWhitespace operand))
  | .sIfc arg =>
    let s1 := getMriString ',' operand
    sameString s1.1 (getMriString ';' (if cur s1.2 = ',' then s1.2.tail else s1.2)).1 ^^ arg
  | .sIfeqs arg =>
    let s1 := demandCopyCString env operand
    let s2 := demandCopyCString env (skipWhitespace s1.rest).tail
    sameString (s1.string.getD []) (s2.string.getD []) ^^ arg
  | .sElseif arg => arg.holds (env.expression (skipWhitespace operand)).number
  | .sElse => true
  | .sEndif => false

/-- The directives that open a conditional. -/
def Directive.opens : Directive → Bool
  | .sElseif _ | .sElse | .sEndif => false
  | _ => true

def Directive.move (env : Env) (operand : Text) (levels : List Level) (d : Directive) : List Level :=
  match d with
  | .sElseif _ => alternative false (d.value env operand) levels
  | .sElse => alternative true (d.value env operand) levels
  | .sEndif => levels.tail
  | _ => enter env.macroNest (d.value env operand) levels

/-- The conditionals that are open after a line that is no directive. A macro that is left closes
those that it opened. -/
def leave (exits : Option Nat) (levels : List Level) : List Level :=
  match exits with
  | some nest => levels.dropWhile (nest ≤ ·.macroNest)
  | none => levels

/-- Whether a statement stands at a text, and not an empty one or a comment. -/
def isStatement (text : Text) : Bool := !isEndOfLine (cur text) && cur text ≠ '#'

/-- The conditionals that are open after what stands at a text. -/
def follow (env : Env) (text : Text) (levels : List Level) : List Level :=
  match directiveAt env text with
  | some (d, operand) => d.move env operand levels
  | none =>
    if isStatement text && active levels then leave (env.other text).exits levels else levels

/-- The text behind a label at the start of a statement. -/
def behindLabel (env : Env) (text : Text) : Option Text :=
  if isNameBeginner (cur text) || cur text = '"' then
    let rest := restoreLinePointer (getSymbolName env text).rest
    if startsLabel rest then some (skipBlanks rest.tail) else none
  else
    let rest := text.dropWhile Char.isDigit
    if rest.length = text.length then none
    else if cur rest = '$' && cur rest.tail = ':' then some (skipBlanks rest.tail.tail)
    else if cur rest = ':' then some (skipBlanks rest.tail)
    else none

/-- A statement on the line that starts at a text, behind labels. -/
inductive OnLine (env : Env) : Text → Text → Prop where
  | here (text : Text) : OnLine env text text
  | label {text rest u : Text} (h : behindLabel env text = some rest) (hu : OnLine env rest u) :
      OnLine env text u

/-- A line with a conditional directive. -/
def ConditionalLine (env : Env) (text : Text) : Prop :=
  ∃ u, OnLine env text u ∧ (directiveAt env u).isSome = true

/-- Whether a statement is inside of a skipped block. For the directives that go on with a
conditional or end it, the block is what that conditional stands in. -/
def skippedAt (levels : List Level) : Option (Directive × Text) → Bool
  | some (d, _) => if d.opens then !active levels else !active levels.tail
  | none => !active levels

/-- What conditional assembly promises of one turn of the loop. -/
structure Follows (env : Env) (s : State) (levels : List Level) (turn : Turn) : Prop where
  through : ∀ b, turn.through = some b →
    (b = true ↔ active levels = true ∨ ConditionalLine env (skipBlanks s.text))
  opens : ∀ d operand, directiveAt env (skipBlanks s.text) = some (d, operand) → d.opens = true →
    ∃ frame, turn.state.stack.frames = frame :: s.stack.frames
  closes : ∀ operand, directiveAt env (skipBlanks s.text) = some (.sEndif, operand) →
    turn.state.stack.frames = s.stack.frames.tail
  keeps : ∀ d operand, directiveAt env (skipBlanks s.text) = some (d, operand) → d.opens = false →
    d ≠ .sEndif → turn.state.stack.frames.length = s.stack.frames.length
  skips : active levels = false → directiveAt env (skipBlanks s.text) = none →
    turn.state.stack = s.stack
  quiet : skippedAt levels (directiveAt env (skipBlanks s.text)) = true → turn.reports = []

/-- What conditional assembly promises of a run: every turn goes through, and does what the
conditionals that are open by then say. -/
def FollowsAll : List Env → State → List Level → Prop
  | [], _, _ => True
  | env :: envs, s, levels => ∃ turn, step env s = some turn ∧ Follows env s levels turn ∧
      FollowsAll envs turn.state (follow env (skipBlanks s.text) levels)

/-! How a statement has to be written. -/

/-- At most a blank is left of the statement. -/
def EndsHere (text : Text) : Prop := isEndOfLine (cur (skipWhitespace text)) = true

/-- The rest of a string, and whether the next character is escaped: no newline is in it. -/
def closes : Bool → Text → Bool
  | _, [] => true
  | inescape, c :: text =>
    if c = '\x00' then true
    else if c = '\n' then false
    else if inescape then closes false text
    else if c = '"' then true
    else closes (c = '\\') text

/-- A string without a newline, which does not start with a NUL. -/
structure CString (env : Env) (text : Text) : Prop where
  quote : cur (skipWhitespace text) = '"'
  line : closes false (skipWhitespace text).tail = true
  null : (demandCopyString env text).string.bind List.head? ≠ some '\x00'

/-- What the operand of a directive that opens a conditional has to be. In a skipped block, nothing
may be wrong with it; elsewhere, the frame has to be reached. -/
def Operands (env : Env) (ignored : Bool) (operand : Text) : Directive → Prop
  | .sIfdef _ =>
    let name := skipWhitespace operand
    (isNameBeginner (cur name) = true ∨ cur name = '"') ∧
      (ignored = true → (cur name = '"' → cur (getSymbolName env name).rest = '"') ∧
        EndsHere (restoreLinePointer (getSymbolName env name).rest))
  | .sIfc _ =>
    ignored = true →
      cur (getMriString ',' operand).2 = ',' ∧
        EndsHere (getMriString ';' (getMriString ',' operand).2.tail).2
  | .sIfeqs _ =>
    let s1 := demandCopyCString env operand
    let second := (skipWhitespace s1.rest).tail
    cur (skipWhitespace s1.rest) = ',' ∧
      (ignored = true → CString env operand ∧ CString env second ∧
        EndsHere (demandCopyCString env second).rest)
  | _ => True

/-- What a conditional directive has to be, in a conditional or not. -/
def Proper (env : Env) (stack : Stack) (operand : Text) (d : Directive) : Prop :=
  match d with
  | .sElseif _ => ∀ cframe, stack.frames.head? = some cframe → cframe.elseSeen = false
  | .sElse =>
    (∀ cframe, stack.frames.head? = some cframe → cframe.elseSeen = false) ∧
      ((⟨stack.frames.tail, false⟩ : Stack).ignoring = true → EndsHere operand)
  | .sEndif => (⟨stack.frames.tail, false⟩ : Stack).ignoring = true → EndsHere operand
  | _ => Operands env stack.ignoring operand d

/-- The condition on a turn: its directive is proper; and of a line that is skipped, that it starts
like a directive only if it is one, that it has none behind a label or in quotes, and that its quotes
are closed. -/
structure Meets (env : Env) (s : State) : Prop where
  proper : ∀ d operand, directiveAt env (skipBlanks s.text) = some (d, operand) →
    Proper env s.stack operand d
  starts : s.stack.ignoring = true → cannotIgnore (skipBlanks s.text) = true →
    (directiveAt env (skipBlanks s.text)).isSome = true
  plain : s.stack.ignoring = true → ∀ u, OnLine env (skipBlanks s.text) u →
    (directiveAt env u).isSome = true → u = skipBlanks s.text ∧ cur u ≠ '"'
  quotes : s.stack.ignoring = true → directiveAt env (skipBlanks s.text) = none →
    (findEndOfLine false false (skipBlanks s.text)).1 = false

/-- The condition on a run. -/
def MeetsAll : List Env → State → Prop
  | [], _ => True
  | env :: envs, s => Meets env s ∧ ∀ turn, step env s = some turn → MeetsAll envs turn.state

/-! The frames stand for the conditionals. -/

/-- The frames of the conditionals that are open. Behind an `.else`, nothing is asked of
`dead_tree`, which no directive uses any more. -/
inductive Stands : List Level → List Frame → Prop where
  | nil : Stands [] []
  | cons {level : Level} {frame : Frame} {outer : List Level} {previous : List Frame}
      (rest : Stands outer previous)
      (inside : level.taken = true → active outer = true)
      (selected : level.selects = true → level.taken = true)
      (ignoring : frame.ignoring = !level.selects)
      (elseSeen : frame.elseSeen = level.elseSeen)
      (deadTree : frame.elseSeen = false →
        frame.deadTree = (!active outer || (level.taken && !level.selects)))
      (macroNest : frame.macroNest = level.macroNest) :
      Stands (level :: outer) (frame :: previous)

variable {env : Env} {levels : List Level} {frames : List Frame} {stack : Stack} {text : Text}

theorem Stands.ignoring (h : Stands levels frames) (stray : Bool) :
    (⟨frames, stray⟩ : Stack).ignoring = !active levels := by
  cases h with
  | nil => rfl
  | @cons level frame outer _ rest inside selected ignoring =>
    have hactive : active (level :: outer) = level.selects := by
      cases hselects : level.selects with
      | false => simp [active, hselects]
      | true =>
        have houter := inside (selected hselects)
        rw [active] at houter
        simp [active, hselects, houter]
    rw [hactive, ← ignoring]
    rfl

theorem Stands.tail (h : Stands levels frames) : Stands levels.tail frames.tail := by
  cases h with
  | nil => exact .nil
  | cons rest => exact rest

theorem Stands.dropWhile (h : Stands levels frames) (nest : Nat) :
    Stands (levels.dropWhile (nest ≤ ·.macroNest)) (frames.dropWhile (nest ≤ ·.macroNest)) := by
  induction h with
  | nil => exact .nil
  | cons rest inside selected ignoring elseSeen deadTree macroNest ih =>
    rw [List.dropWhile_cons, List.dropWhile_cons, macroNest]
    split
    · exact ih
    · exact .cons rest inside selected ignoring elseSeen deadTree macroNest

/-- A frame that is opened, where the condition counts only in an active block. -/
theorem Stands.enter (h : Stands levels frames) {t value : Bool}
    (hvalue : active levels = true → t = value) :
    Stands (enter env.macroNest value levels)
      ({ initializeCframe env ⟨frames, false⟩ with
          ignoring := (initializeCframe env ⟨frames, false⟩).deadTree || !t } :: frames) := by
  have hdead : (initializeCframe env ⟨frames, false⟩).deadTree = !active levels := h.ignoring false
  apply Stands.cons h
  · intro htaken
    exact (Bool.and_eq_true_iff.mp htaken).1
  · exact id
  · rw [hdead]
    cases hactive : active levels with
    | false => simp
    | true => simp [hvalue hactive]
  · rfl
  · intro _
    rw [hdead]
    cases active levels <;> simp
  · rfl

/-- A frame that goes on with the next branch, unless it has been told that no branch is left. -/
theorem Stands.alternative {frame : Frame} (h : Stands levels (frame :: frames))
    (helse : frame.elseSeen = false) {cframe : Frame} {isElse value : Bool}
    (hignoring : cframe.ignoring = (frame.deadTree || !frame.ignoring || !value))
    (hseen : cframe.elseSeen = isElse)
    (hdead : isElse = false → cframe.deadTree = (frame.deadTree || !frame.ignoring))
    (hnest : cframe.macroNest = frame.macroNest) :
    Stands (alternative isElse value levels) (cframe :: frames) := by
  cases h with
  | @cons level _ outer _ rest inside selected ignoring elseSeen deadTree macroNest =>
    have hleft : (frame.deadTree || !frame.ignoring) = (!active outer || level.taken) := by
      rw [deadTree helse, ignoring]
      cases hselects : level.selects with
      | false => simp
      | true => simp [selected hselects]
    apply Stands.cons rest
    · intro htaken
      rcases Bool.or_eq_true_iff.mp htaken with htaken | hselects
      · exact inside htaken
      · exact (Bool.and_eq_true_iff.mp (Bool.and_eq_true_iff.mp hselects).1).1
    · intro hselects
      exact Bool.or_eq_true_iff.mpr (.inr hselects)
    · rw [hignoring, hleft]
      simp [Bool.not_and]
    · exact hseen
    · intro hopen
      rw [hdead (hseen.symm.trans hopen), hleft]
      cases active outer <;> cases level.taken <;> cases value <;> rfl
    · exact hnest.trans macroNest

end FusionBinutils.Gas.Cond
