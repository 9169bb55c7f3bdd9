import FusionBinutils.Gas.CondLevels

/-! Runs through text with conditionals (gas/cond.c). -/
namespace FusionBinutils.Gas.Cond

open Integer (isEndOfLine)

variable {env : Env} {levels : List Level} {stack : Stack} {text operand : Text} {d : Directive}

/-! A string that is closed in its line is read without a message. -/

theorem closes_of_digit {c : Char} (h : c.isDigit = true ∨ (Hex.value c).isSome = true) :
    closes false (c :: text) = closes false text := by
  have hne : c ≠ '\x00' ∧ c ≠ '\n' ∧ c ≠ '"' ∧ c ≠ '\\' := by
    refine ⟨?_, ?_, ?_, ?_⟩
    all_goals
      rintro rfl
      revert h
      decide
  simp [closes, hne]

theorem octalEscape_closes (i number : Nat) (text : Text) :
    closes false (octalEscape i number text).2 = closes false text := by
  induction i generalizing number text with
  | zero => rfl
  | succ i ih =>
    rw [octalEscape]
    split
    next h =>
      rw [ih]
      cases text with
      | nil => rfl
      | cons c text => exact (closes_of_digit (.inl h)).symm
    next => rfl

theorem hexEscape_closes (number : Nat) (text : Text) :
    closes false (hexEscape number text).2 = closes false text := by
  induction text generalizing number with
  | nil => rfl
  | cons c text ih =>
    cases hc : Hex.value c with
    | none => simp only [hexEscape, hc]
    | some digit =>
      rw [closes_of_digit (.inr (by rw [hc]; rfl)), ← ih (number * 16 + digit)]
      simp only [hexEscape, hc]

theorem escape_quiet (env : Env) (h : closes true text = true) :
    (escape env text).2.1 = [] ∧ closes false (escape env text).2.2 = true := by
  cases text with
  | nil => exact ⟨rfl, rfl⟩
  | cons c text =>
    by_cases hnull : c = '\x00'
    · subst hnull
      exact ⟨rfl, rfl⟩
    have hline : c ≠ '\n' := by
      rintro rfl
      cases h
    have hrest : closes false text = true := by simpa [closes, hnull, hline] using h
    by_cases hdigit : c.isDigit = true
    · have hcur : (cur (c :: text)).isDigit = true := hdigit
      have hletters : c ≠ 'b' ∧ c ≠ 'f' ∧ c ≠ 'n' ∧ c ≠ 'r' ∧ c ≠ 't' ∧ c ≠ 'v' := by
        refine ⟨?_, ?_, ?_, ?_, ?_, ?_⟩
        all_goals
          rintro rfl
          cases hdigit
      have hescape : escape env (c :: text) =
          (some (.ofNat ((octalEscape 3 0 (c :: text)).1 % 256)), [],
            (octalEscape 3 0 (c :: text)).2) := by
        simp [escape, cur, hletters, hdigit]
      rw [hescape]
      refine ⟨rfl, ?_⟩
      rw [octalEscape_closes, closes_of_digit (.inl hdigit)]
      exact hrest
    · simp only [escape, cur, List.headD_cons, List.tail_cons, hdigit, hline, hnull, if_false,
        Bool.or_eq_true, Bool.false_eq_true]
      split_ifs <;> simp [hrest, hexEscape_closes]

theorem nextCharOfString_quiet (env : Env) (h : closes false text = true) :
    (nextCharOfString env text).2.1 = [] ∧
      ((nextCharOfString env text).1.isSome = true →
        closes false (nextCharOfString env text).2.2 = true) := by
  cases text with
  | nil => exact ⟨rfl, fun hsome => (by cases hsome)⟩
  | cons c text =>
    have hline : c ≠ '\n' := by
      rintro rfl
      cases h
    by_cases hnull : c = '\x00'
    · subst hnull
      exact ⟨rfl, fun hsome => (by cases hsome)⟩
    by_cases hquote : c = '"'
    · subst hquote
      exact ⟨rfl, fun hsome => (by cases hsome)⟩
    by_cases hback : c = '\\'
    · subst hback
      have hescape := escape_quiet env h
      exact ⟨hescape.1, fun _ => hescape.2⟩
    · have hchar : nextCharOfString env (c :: text) = (some c, [], text) :=
        (if_neg hnull).trans ((if_neg hquote).trans ((if_neg hline).trans (if_neg hback)))
      rw [hchar]
      exact ⟨rfl, fun _ => by simpa [closes, hnull, hline, hquote, hback] using h⟩

theorem copyChars_quiet (n : Nat) (h : closes false text = true) :
    (copyChars env n text).2.1 = [] := by
  induction n generalizing text with
  | zero => rfl
  | succ n ih =>
    have hnext := nextCharOfString_quiet env h
    cases hc : (nextCharOfString env text).1 with
    | none => simpa only [copyChars, hc] using hnext.1
    | some c =>
      simp only [copyChars, hc]
      rw [hnext.1, ih (hnext.2 (by rw [hc]; rfl))]
      rfl

theorem CString.quiet (h : CString env text) : (demandCopyCString env text).reports = [] := by
  have hcopied : (demandCopyString env text).reports = [] := by
    simp only [demandCopyString, if_pos h.quote]
    exact copyChars_quiet _ h.line
  have hnull : ((demandCopyString env text).string.any fun s => s.head? = some '\x00') = false := by
    have hnull := h.null
    cases hstring : (demandCopyString env text).string with
    | none => rfl
    | some s => simpa [hstring] using hnull
  rw [demandCopyCString]
  simpa [hnull] using hcopied

/-! The directives. -/

theorem demandEmptyRestOfLine_quiet (h : EndsHere text) :
    (demandEmptyRestOfLine env text).1 = [] := by
  have hend : isEndOfLine (cur (skipWhitespace text)) = true := h
  simp only [demandEmptyRestOfLine, hend, if_true]

theorem endsHere_toEndOfLine (text : Text) : EndsHere (toEndOfLine text) := by
  have hend : isEndOfLine (cur (toEndOfLine text)) = true := by
    cases h : toEndOfLine text with
    | nil => rfl
    | cons c rest =>
      rw [toEndOfLine] at h
      have hhead := List.head_dropWhile_not (fun c => !isEndOfLine c) (l := text)
        (by rw [h]; exact List.cons_ne_nil _ _)
      simpa only [h, List.head_cons, Bool.not_eq_false', cur, List.headD_cons] using hhead
  have hblank : cur (toEndOfLine text) ≠ ' ' := by
    intro hblank
    rw [hblank] at hend
    cases hend
  rw [EndsHere, skipWhitespace, if_neg hblank]
  exact hend

theorem getSymbolName_quiet (h : cur text = '"' → cur (getSymbolName env text).rest = '"') :
    (getSymbolName env text).reports = [] := by
  by_cases hname : (isNameBeginner (cur text) || cur text = '\x01') = true
  · rw [getSymbolName, if_pos hname]
  · by_cases hquote : cur text = '"'
    · have hclosed := h hquote
      simp only [getSymbolName, if_neg hname, if_pos hquote] at hclosed ⊢
      rw [hclosed]
      rfl
    · rw [getSymbolName, if_neg hname, if_neg hquote]

theorem sIfdef_of_name {testDefined : Bool}
    (h : isNameBeginner (cur (skipWhitespace text)) = true ∨ cur (skipWhitespace text) = '"') :
    sIfdef testDefined env stack text =
      openFrame env stack ((Directive.sIfdef testDefined).value env text)
        (getSymbolName env (skipWhitespace text)).reports
        (demandEmptyRestOfLine env
          (restoreLinePointer (getSymbolName env (skipWhitespace text)).rest)) := by
  have hbegins : (!isNameBeginner (cur (skipWhitespace text)) &&
      cur (skipWhitespace text) ≠ '"') = false := by
    rcases h with h | h <;> simp [h]
  simp only [sIfdef]
  rw [if_neg (by rw [hbegins]; exact Bool.false_ne_true)]
  rfl

theorem sIfeqs_of_comma {arg : Bool}
    (h : cur (skipWhitespace (demandCopyCString env text).rest) = ',') :
    sIfeqs arg env stack text =
      openFrame env stack ((Directive.sIfeqs arg).value env text)
        ((demandCopyCString env text).reports ++
          (demandCopyCString env (skipWhitespace (demandCopyCString env text).rest).tail).reports)
        (demandEmptyRestOfLine env
          (demandCopyCString env (skipWhitespace (demandCopyCString env text).rest).tail).rest) := by
  simp only [sIfeqs]
  rw [if_neg (not_not_intro h)]
  rfl

/-- What a directive that opens a conditional comes to. In a skipped block it gives no message, and
elsewhere its condition is the one of its operand. -/
theorem handle_opens (hopens : d.opens = true) (h : Operands env stack.ignoring operand d) :
    ∃ t reports line, d.handle env stack operand = openFrame env stack t reports line ∧
      (stack.ignoring = false → t = d.value env operand) ∧
      (stack.ignoring = true → reports = [] ∧ line.1 = []) := by
  cases d with
  | sIf arg =>
    refine ⟨_, _, _, rfl, ?_, ?_⟩
    · intro hactive
      rw [hactive]
      rfl
    · intro hskipped
      rw [hskipped]
      exact ⟨rfl, demandEmptyRestOfLine_quiet (endsHere_toEndOfLine _)⟩
  | sIfdef testDefined =>
    obtain ⟨hname, hquiet⟩ := h
    refine ⟨_, _, _, sIfdef_of_name hname, fun _ => rfl, ?_⟩
    intro hskipped
    obtain ⟨hclosed, hend⟩ := hquiet hskipped
    exact ⟨getSymbolName_quiet hclosed, demandEmptyRestOfLine_quiet hend⟩
  | sIfb testBlank =>
    refine ⟨_, _, _, rfl, ?_, fun _ => ⟨rfl, rfl⟩⟩
    intro hactive
    rw [hactive]
    rfl
  | sIfc arg =>
    refine ⟨_, _, _, rfl, fun _ => rfl, ?_⟩
    intro hskipped
    obtain ⟨hcomma, hend⟩ := h hskipped
    rw [if_pos hcomma, if_pos hcomma]
    exact ⟨rfl, demandEmptyRestOfLine_quiet hend⟩
  | sIfeqs arg =>
    obtain ⟨hcomma, hquiet⟩ := h
    refine ⟨_, _, _, sIfeqs_of_comma hcomma, fun _ => rfl, ?_⟩
    intro hskipped
    obtain ⟨hfirst, hsecond, hend⟩ := hquiet hskipped
    rw [hfirst.quiet, hsecond.quiet]
    exact ⟨rfl, demandEmptyRestOfLine_quiet hend⟩
  | sElseif arg => cases hopens
  | sElse => cases hopens
  | sEndif => cases hopens

/-! What each directive does to the frames. -/

variable {frames : List Frame}

theorem active_tail (h : active levels = true) : active levels.tail = true := by
  cases levels with
  | nil => rfl
  | cons level outer =>
    rw [active, List.all_cons, Bool.and_eq_true] at h
    exact h.2

theorem opener_stands (hopens : d.opens = true) (h : Stands levels frames)
    (hp : Operands env (⟨frames, false⟩ : Stack).ignoring operand d) :
    ∃ out frame, d.handle env ⟨frames, false⟩ operand = some out ∧
      out.stack = ⟨frame :: frames, false⟩ ∧
      Stands (enter env.macroNest (d.value env operand) levels) (frame :: frames) ∧
      (active levels = false → out.reports = []) := by
  obtain ⟨t, reports, line, heq, hvalue, hquiet⟩ := handle_opens hopens hp
  rw [h.ignoring] at hvalue hquiet
  refine ⟨_, _, heq, rfl, h.enter ?_, ?_⟩
  · intro hactive
    exact hvalue (by rw [hactive]; rfl)
  · intro hskipped
    obtain ⟨hreports, hline⟩ := hquiet (by rw [hskipped]; rfl)
    rw [hreports, hline]
    rfl

theorem sElse_stands (h : Stands levels frames) (hp : Proper env ⟨frames, false⟩ operand .sElse) :
    ∃ frames', (sElse env ⟨frames, false⟩ operand).stack = ⟨frames', false⟩ ∧
      frames'.length = frames.length ∧ Stands (alternative true true levels) frames' ∧
      (active levels.tail = false → (sElse env ⟨frames, false⟩ operand).reports = []) := by
  obtain ⟨hseen, hend⟩ := hp
  have htail := h.tail.ignoring false
  cases frames with
  | nil =>
    cases h
    exact ⟨[], rfl, rfl, .nil, fun hskipped => (by cases hskipped)⟩
  | cons cframe previous =>
    have hopen : cframe.elseSeen = false := hseen cframe rfl
    have helse : sElse env ⟨cframe :: previous, false⟩ operand =
        ⟨⟨{ cframe with
            elseFileLine := some env.place
            ignoring := cframe.deadTree || !cframe.ignoring
            elseSeen := true } :: previous, false⟩,
          (demandEmptyRestOfLine env operand).1, (demandEmptyRestOfLine env operand).2⟩ := by
      simp only [sElse, hopen, Bool.false_eq_true, if_false]
    rw [helse]
    refine ⟨_, rfl, rfl, ?_, ?_⟩
    · apply h.alternative hopen
      · exact (Bool.or_false _).symm
      · rfl
      · intro hfalse
        cases hfalse
      · rfl
    · intro hskipped
      apply demandEmptyRestOfLine_quiet
      apply hend
      rw [htail, hskipped]
      rfl

theorem sElseif_stands {arg : Test} (h : Stands levels frames)
    (hp : Proper env ⟨frames, false⟩ operand (.sElseif arg)) :
    ∃ frames', (sElseif arg env ⟨frames, false⟩ operand).stack = ⟨frames', false⟩ ∧
      frames'.length = frames.length ∧
      Stands (alternative false ((Directive.sElseif arg).value env operand) levels) frames' ∧
      (active levels.tail = false → (sElseif arg env ⟨frames, false⟩ operand).reports = []) := by
  cases frames with
  | nil =>
    cases h
    exact ⟨[], rfl, rfl, .nil, fun hskipped => (by cases hskipped)⟩
  | cons cframe previous =>
    have hopen : cframe.elseSeen = false := hp cframe rfl
    cases hdead : cframe.deadTree || !cframe.ignoring with
    | true =>
      -- a branch has been taken, or none may be
      have helseif : sElseif arg env ⟨cframe :: previous, false⟩ operand =
          ⟨⟨{ cframe with
              elseFileLine := some env.place, deadTree := true, ignoring := true } :: previous, false⟩,
            (demandEmptyRestOfLine env (toEndOfLine operand)).1,
            (demandEmptyRestOfLine env (toEndOfLine operand)).2⟩ := by
        simp only [sElseif, hopen, hdead, Bool.false_eq_true, if_false, if_true, List.nil_append]
      rw [helseif]
      refine ⟨_, rfl, rfl, ?_, fun _ => demandEmptyRestOfLine_quiet (endsHere_toEndOfLine _)⟩
      apply h.alternative hopen
      · rw [hdead]
        rfl
      · exact hopen
      · intro _
        exact hdead.symm
      · rfl
    | false =>
      have helseif : sElseif arg env ⟨cframe :: previous, false⟩ operand =
          ⟨⟨{ cframe with
              elseFileLine := some env.place, deadTree := false,
              ignoring := !arg.holds (env.expression (skipWhitespace operand)).number } :: previous,
              false⟩,
            (env.expression (skipWhitespace operand)).reports ++
              nonConstant env ".elseif" (env.expression (skipWhitespace operand)) ++
              (demandEmptyRestOfLine env (env.expression (skipWhitespace operand)).rest).1,
            (demandEmptyRestOfLine env (env.expression (skipWhitespace operand)).rest).2⟩ := by
        simp only [sElseif, hopen, hdead, Bool.false_eq_true, if_false, List.nil_append,
          Bool.false_or]
      rw [helseif]
      refine ⟨_, rfl, rfl, ?_, ?_⟩
      · apply h.alternative hopen
        · rw [hdead]
          rfl
        · exact hopen
        · intro _
          exact hdead.symm
        · rfl
      · -- in a skipped block the frame is dead
        intro hskipped
        cases h with
        | cons rest inside selected ignoring elseSeen deadTree =>
          rw [List.tail_cons] at hskipped
          rw [deadTree hopen, hskipped] at hdead
          cases hdead

theorem sEndif_stands (h : Stands levels frames)
    (hp : Proper env ⟨frames, false⟩ operand .sEndif) :
    (sEndif env ⟨frames, false⟩ operand).stack = ⟨frames.tail, false⟩ ∧
      (active levels.tail = false → (sEndif env ⟨frames, false⟩ operand).reports = []) := by
  have htail := h.tail.ignoring false
  cases frames with
  | nil =>
    cases h
    exact ⟨rfl, fun hskipped => (by cases hskipped)⟩
  | cons cframe previous =>
    refine ⟨rfl, ?_⟩
    intro hskipped
    apply demandEmptyRestOfLine_quiet
    apply hp
    rw [htail, hskipped]
    rfl

/-- Every directive of the table starts with what `ignore_input` looks for. -/
theorem cannotIgnore_of_directiveAt (h : directiveAt env text = some (d, operand))
    (hquote : cur text ≠ '"') : cannotIgnore text = true := by
  have hkeys : ∀ row ∈ potable, "if".toList <+: row.1.toList ∨ "else".toList <+: row.1.toList ∨
      "endif".toList <+: row.1.toList ∨ "endc".toList <+: row.1.toList := by decide
  rw [directiveAt] at h
  by_cases hbegin : isNameBeginner (cur text) = true
  · rw [if_pos (by rw [hbegin]; rfl)] at h
    dsimp only at h
    split at h
    next => cases h
    next =>
      obtain ⟨d', hd, -⟩ := Option.map_eq_some_iff.mp h
      rw [getSymbolName, if_pos (by rw [hbegin]; rfl), pseudoOp] at hd
      split at hd
      next => cases hd
      next hdot =>
        have hdot : cur text = '.' := not_not.mp hdot
        obtain ⟨row, hrow, -⟩ := Option.map_eq_some_iff.mp hd
        have hname := List.find?_some hrow
        rw [decide_eq_true_eq, List.tail_cons] at hname
        have hprefix : row.1.toList <+: text.tail.map Char.toLower := by
          rw [hname]
          exact (List.takeWhile_prefix _).map _
        have hbegins {key : String} (hkey : key.toList <+: row.1.toList) :
            beginsWith key text.tail = true :=
          List.isPrefixOf_iff_prefix.mpr (hkey.trans hprefix)
        rw [cannotIgnore, hdot]
        rcases hkeys row (List.mem_of_find?_eq_some hrow) with hkey | hkey | hkey | hkey <;>
          simp [hbegins hkey]
  · rw [if_neg (by simp [hbegin, hquote])] at h
    cases h

/-! Turns. -/

theorem directiveAt_statement (h : directiveAt env text = some (d, operand)) :
    isStatement text = true := by
  have hbegin : isNameBeginner (cur text) = true ∨ cur text = '"' := by
    rw [directiveAt] at h
    split at h
    next hbegin => simpa using hbegin
    next => cases h
  rw [isStatement, Bool.and_eq_true, decide_eq_true_eq, Bool.not_eq_true']
  rcases hbegin with hbegin | hbegin
  · refine ⟨?_, ?_⟩
    · by_contra hend
      rw [Bool.not_eq_false, isEndOfLine, Bool.or_eq_true, Bool.or_eq_true, beq_iff_eq, beq_iff_eq,
        beq_iff_eq] at hend
      rcases hend with (hend | hend) | hend <;>
        (rw [hend] at hbegin; revert hbegin; decide)
    · intro hcomment
      rw [hcomment] at hbegin
      revert hbegin
      decide
  · rw [hbegin]
    decide

/-- A turn on what is no statement. -/
theorem follows_of_not_statement {s : State} {turn : Turn}
    (h : isStatement (skipBlanks s.text) = false) (hthrough : turn.through = none)
    (hstack : turn.state.stack = s.stack) (hreports : turn.reports = []) :
    Follows env s levels turn ∧ follow env (skipBlanks s.text) levels = levels := by
  have hnone : directiveAt env (skipBlanks s.text) = none := by
    cases hd : directiveAt env (skipBlanks s.text) with
    | none => rfl
    | some found =>
      rw [directiveAt_statement hd] at h
      cases h
  refine ⟨⟨?_, ?_, ?_, ?_, fun _ _ => hstack, fun _ => hreports⟩, ?_⟩
  · intro b hb
    rw [hthrough] at hb
    cases hb
  · intro d operand hd
    rw [hnone] at hd
    cases hd
  · intro operand hd
    rw [hnone] at hd
    cases hd
  · intro d operand hd
    rw [hnone] at hd
    cases hd
  · simp only [follow, hnone, h, Bool.false_and, Bool.false_eq_true, if_false]

/-- What a directive comes to: the frames, and no message in a skipped block. -/
structure Directive.Does (d : Directive) (env : Env) (operand : Text) (levels : List Level)
    (frames : List Frame) (out : Outcome) (frames' : List Frame) : Prop where
  stack : out.stack = ⟨frames', false⟩
  stands : Stands (d.move env operand levels) frames'
  opens : d.opens = true → ∃ frame, frames' = frame :: frames
  closes : d = .sEndif → frames' = frames.tail
  keeps : d.opens = false → d ≠ .sEndif → frames'.length = frames.length
  quiet : skippedAt levels (some (d, operand)) = true → out.reports = []

theorem opener_does (hopens : d.opens = true) (h : Stands levels frames)
    (hp : Proper env ⟨frames, false⟩ operand d) :
    ∃ out frames', d.handle env ⟨frames, false⟩ operand = some out ∧
      d.Does env operand levels frames out frames' := by
  have hoperands : Operands env (⟨frames, false⟩ : Stack).ignoring operand d := by
    cases d <;> first | exact hp | cases hopens
  obtain ⟨out, frame, hout, hstack, hstands, hquiet⟩ := opener_stands hopens h hoperands
  refine ⟨out, frame :: frames, hout, ⟨hstack, ?_, fun _ => ⟨frame, rfl⟩, ?_, ?_, ?_⟩⟩
  · cases d <;> first | exact hstands | cases hopens
  · rintro rfl
    cases hopens
  · intro hnot
    rw [hopens] at hnot
    cases hnot
  · intro hskipped
    rw [skippedAt, if_pos hopens] at hskipped
    exact hquiet (by simpa using hskipped)

/-- One case for each directive that goes on with a conditional or ends it. -/
theorem handle_does (h : Stands levels frames) (hp : Proper env ⟨frames, false⟩ operand d) :
    ∃ out frames', d.handle env ⟨frames, false⟩ operand = some out ∧
      d.Does env operand levels frames out frames' := by
  cases hopens : d.opens with
  | true => exact opener_does hopens h hp
  | false =>
    have hactive (hskipped : skippedAt levels (some (d, operand)) = true) :
        active levels.tail = false := by
      rw [skippedAt, hopens] at hskipped
      simpa using hskipped
    have hnot (hd : d.opens = true) : ∃ frame, frames = frame :: frames := by
      rw [hopens] at hd
      cases hd
    cases d with
    | sElseif arg =>
      obtain ⟨frames', hstack, hlength, hstands, hquiet⟩ := sElseif_stands h hp
      refine ⟨_, frames', rfl, ⟨hstack, hstands, ?_, ?_, fun _ _ => hlength, ?_⟩⟩
      · intro hd
        cases hd
      · intro hd
        cases hd
      · intro hskipped
        exact hquiet (hactive hskipped)
    | sElse =>
      obtain ⟨frames', hstack, hlength, hstands, hquiet⟩ := sElse_stands h hp
      refine ⟨_, frames', rfl, ⟨hstack, hstands, ?_, ?_, fun _ _ => hlength, ?_⟩⟩
      · intro hd
        cases hd
      · intro hd
        cases hd
      · intro hskipped
        exact hquiet (hactive hskipped)
    | sEndif =>
      obtain ⟨hstack, hquiet⟩ := sEndif_stands h hp
      refine ⟨_, frames.tail, rfl, ⟨hstack, h.tail, ?_, fun _ => rfl, ?_, ?_⟩⟩
      · intro hd
        cases hd
      · intro _ hne
        exact absurd rfl hne
      · intro hskipped
        exact hquiet (hactive hskipped)
    | _ => cases hopens

/-- A statement inside of a skipped block is one that is ignored. -/
theorem active_of_skippedAt {found : Option (Directive × Text)} (h : skippedAt levels found = true) :
    active levels = false := by
  by_contra hactive
  rw [Bool.not_eq_false] at hactive
  cases found with
  | none =>
    rw [skippedAt, hactive] at h
    cases h
  | some found =>
    rw [skippedAt, hactive, active_tail hactive] at h
    split at h <;> cases h

/-- A turn on a directive. -/
theorem follows_of_directive (h : Stands levels frames) (hm : Meets env ⟨text, ⟨frames, false⟩⟩)
    (hd : directiveAt env (skipBlanks text) = some (d, operand)) :
    ∃ turn frames', statement env ⟨frames, false⟩ (skipBlanks text) = some turn ∧
      Follows env ⟨text, ⟨frames, false⟩⟩ levels turn ∧ turn.state.stack = ⟨frames', false⟩ ∧
      Stands (follow env (skipBlanks text) levels) frames' := by
  obtain ⟨out, frames', hout, hdoes⟩ := handle_does h (hm.proper d operand hd)
  have hmove : follow env (skipBlanks text) levels = d.move env operand levels := by
    simp only [follow, hd]
  have hframes : out.stack.frames = frames' := by rw [hdoes.stack]
  refine ⟨⟨⟨out.rest, out.stack⟩, (getSymbolName env (skipBlanks text)).reports ++ out.reports,
    some true⟩, frames', ?_, ⟨?_, ?_, ?_, ?_, ?_, ?_⟩, hdoes.stack, ?_⟩
  · simp only [statement, hd, hout]
    rfl
  · intro b hb
    obtain rfl : true = b := Option.some.inj hb
    exact iff_of_true rfl (.inr ⟨_, .here _, by rw [hd]; rfl⟩)
  · intro d' operand' hd' hopens
    obtain ⟨rfl, rfl⟩ : d = d' ∧ operand = operand' := by simpa [hd] using hd'
    rw [hframes]
    exact hdoes.opens hopens
  · intro operand' hd'
    obtain ⟨hd', -⟩ : d = .sEndif ∧ operand = operand' := by simpa [hd] using hd'
    rw [hframes]
    exact hdoes.closes hd'
  · intro d' operand' hd' hopens hne
    obtain ⟨rfl, rfl⟩ : d = d' ∧ operand = operand' := by simpa [hd] using hd'
    rw [hframes]
    exact hdoes.keeps hopens hne
  · intro _ hnone
    rw [hd] at hnone
    cases hnone
  · intro hskipped
    have hskipped' := hskipped
    rw [hd] at hskipped'
    have hignoring : (⟨frames, false⟩ : Stack).ignoring = true := by
      rw [h.ignoring, active_of_skippedAt hskipped]
      rfl
    have hplain := hm.plain hignoring _ (.here _) (by rw [hd]; rfl)
    have hname : (getSymbolName env (skipBlanks text)).reports = [] :=
      getSymbolName_quiet fun hquote => absurd hquote hplain.2
    rw [hname, hdoes.quiet hskipped']
    rfl
  · rw [hmove]
    exact hdoes.stands

/-- A turn on another statement that is let through. -/
theorem follows_of_other (h : Stands levels frames)
    (hd : directiveAt env (skipBlanks text) = none)
    (hstatement : isStatement (skipBlanks text) = true) (hactive : active levels = true) :
    ∃ turn frames', statement env ⟨frames, false⟩ (skipBlanks text) = some turn ∧
      Follows env ⟨text, ⟨frames, false⟩⟩ levels turn ∧ turn.state.stack = ⟨frames', false⟩ ∧
      Stands (follow env (skipBlanks text) levels) frames' := by
  have hleave : follow env (skipBlanks text) levels = leave (env.other (skipBlanks text)).exits levels := by
    simp only [follow, hd, hstatement, hactive, Bool.and_true, if_true]
  have hfollows (turn : Turn) (hthrough : turn.through = some true) :
      Follows env ⟨text, ⟨frames, false⟩⟩ levels turn := by
    refine ⟨?_, ?_, ?_, ?_, ?_, ?_⟩
    · intro b hb
      obtain rfl : true = b := Option.some.inj (hthrough.symm.trans hb)
      exact iff_of_true rfl (.inl hactive)
    · intro d operand hd'
      rw [hd] at hd'
      cases hd'
    · intro operand hd'
      rw [hd] at hd'
      cases hd'
    · intro d operand hd'
      rw [hd] at hd'
      cases hd'
    · intro hnot
      rw [hactive] at hnot
      cases hnot
    · intro hskipped
      rw [active_of_skippedAt hskipped] at hactive
      cases hactive
  rw [hleave]
  cases hexits : (env.other (skipBlanks text)).exits with
  | none =>
    refine ⟨⟨⟨(env.other (skipBlanks text)).rest, ⟨frames, false⟩⟩,
      (env.other (skipBlanks text)).reports, some true⟩, frames, ?_, hfollows _ rfl, rfl, h⟩
    simp only [statement, hd, hexits]
  | some nest =>
    refine ⟨⟨⟨(env.other (skipBlanks text)).rest, condExitMacro nest ⟨frames, false⟩⟩,
      (env.other (skipBlanks text)).reports, some true⟩,
      frames.dropWhile (nest ≤ ·.macroNest), ?_, hfollows _ rfl, rfl, h.dropWhile nest⟩
    simp only [statement, hd, hexits]

/-- A turn on a line that is ignored. -/
theorem follows_of_ignored (h : Stands levels frames) (hm : Meets env ⟨text, ⟨frames, false⟩⟩)
    (hignore : ignoreInput ⟨frames, false⟩ (skipBlanks text) = true) :
    Follows env ⟨text, ⟨frames, false⟩⟩ levels
        ⟨⟨(skipLine env (skipBlanks text)).2, ⟨frames, false⟩⟩, (skipLine env (skipBlanks text)).1,
          some false⟩ ∧
      follow env (skipBlanks text) levels = levels := by
  rw [ignoreInput, Bool.and_eq_true, Bool.not_eq_true'] at hignore
  obtain ⟨hcannot, hignoring⟩ := hignore
  have hskipped : active levels = false := by
    rw [h.ignoring] at hignoring
    simpa using hignoring
  have hd : directiveAt env (skipBlanks text) = none := by
    cases hd : directiveAt env (skipBlanks text) with
    | none => rfl
    | some found =>
      have hplain := hm.plain hignoring _ (.here _) (by rw [hd]; rfl)
      rw [cannotIgnore_of_directiveAt hd hplain.2] at hcannot
      cases hcannot
  refine ⟨⟨?_, ?_, ?_, ?_, fun _ _ => rfl, ?_⟩, ?_⟩
  · intro b hb
    obtain rfl : false = b := Option.some.inj hb
    refine iff_of_false Bool.false_ne_true ?_
    rintro (hactive | ⟨u, hu, hsome⟩)
    · rw [hskipped] at hactive
      cases hactive
    · have hplain := hm.plain hignoring u hu hsome
      rw [hplain.1, hd] at hsome
      cases hsome
  · intro d operand hd'
    rw [hd] at hd'
    cases hd'
  · intro operand hd'
    rw [hd] at hd'
    cases hd'
  · intro d operand hd'
    rw [hd] at hd'
    cases hd'
  · intro _
    have hquotes := hm.quotes hignoring hd
    simp only [skipLine, hquotes, Bool.false_eq_true, if_false]
  · simp only [follow, hd, hskipped, Bool.and_false, Bool.false_eq_true, if_false]

/-- Where the condition is met, a turn goes through and does what it should, and the frames go on
standing for the conditionals. -/
theorem step_follows (h : Stands levels frames) (hm : Meets env ⟨text, ⟨frames, false⟩⟩) :
    ∃ turn frames', step env ⟨text, ⟨frames, false⟩⟩ = some turn ∧
      Follows env ⟨text, ⟨frames, false⟩⟩ levels turn ∧ turn.state.stack = ⟨frames', false⟩ ∧
      Stands (follow env (skipBlanks text) levels) frames' := by
  have hsilent (rest : Text) (hnot : isStatement (skipBlanks text) = false) :
      ∃ turn frames', some (⟨⟨rest, ⟨frames, false⟩⟩, [], none⟩ : Turn) = some turn ∧
        Follows env ⟨text, ⟨frames, false⟩⟩ levels turn ∧ turn.state.stack = ⟨frames', false⟩ ∧
        Stands (follow env (skipBlanks text) levels) frames' := by
    have hfollows : Follows env ⟨text, ⟨frames, false⟩⟩ levels ⟨⟨rest, ⟨frames, false⟩⟩, [], none⟩ ∧
        follow env (skipBlanks text) levels = levels :=
      follows_of_not_statement hnot rfl rfl rfl
    exact ⟨_, frames, rfl, hfollows.1, rfl, by rw [hfollows.2]; exact h⟩
  by_cases hempty : text = []
  · subst hempty
    exact hsilent env.nextBuffer rfl
  by_cases hend : isEndOfLine (cur (skipBlanks text)) = true
  · simp only [step, hempty, hend, if_true, if_false]
    exact hsilent _ (by rw [isStatement, hend]; rfl)
  by_cases hcomment : cur (skipBlanks text) = '#'
  · simp only [step, hempty, hcomment, if_true, if_false]
    exact hsilent _ (by rw [isStatement, hcomment]; rfl)
  have hstatement : isStatement (skipBlanks text) = true := by
    simp [isStatement, hend, hcomment]
  by_cases hignore : ignoreInput ⟨frames, false⟩ (skipBlanks text) = true
  · simp only [step, hempty, hend, hcomment, hignore, if_true, if_false, Bool.false_eq_true]
    obtain ⟨hfollows, hsame⟩ := follows_of_ignored h hm hignore
    exact ⟨_, frames, rfl, hfollows, rfl, by rw [hsame]; exact h⟩
  have hstep : step env ⟨text, ⟨frames, false⟩⟩ =
      statement env ⟨frames, false⟩ (skipBlanks text) := by
    simp only [step, hempty, hend, hcomment, hignore, if_false, Bool.false_eq_true]
  rw [hstep]
  cases hd : directiveAt env (skipBlanks text) with
  | some found => exact follows_of_directive h hm hd
  | none =>
    -- what only starts like a directive is let through as well
    have hactive : active levels = true := by
      by_contra hskipped
      rw [Bool.not_eq_true] at hskipped
      have hignoring : (⟨frames, false⟩ : Stack).ignoring = true := by
        rw [h.ignoring, hskipped]
        rfl
      have hcannot : cannotIgnore (skipBlanks text) = true := by
        simpa [ignoreInput, hignoring] using hignore
      have hsome := hm.starts hignoring hcannot
      rw [hd] at hsome
      cases hsome
    exact follows_of_other h hd hstatement hactive

theorem run_follows (envs : List Env) (h : Stands levels frames)
    (hm : MeetsAll envs ⟨text, ⟨frames, false⟩⟩) :
    FollowsAll envs ⟨text, ⟨frames, false⟩⟩ levels := by
  induction envs generalizing levels frames text with
  | nil => trivial
  | cons env envs ih =>
    obtain ⟨turn, frames', hturn, hfollows, hstack, hstands⟩ := step_follows h hm.1
    refine ⟨turn, hturn, hfollows, ?_⟩
    have hrest := hm.2 turn hturn
    obtain ⟨⟨rest, stack⟩, reports, through⟩ := turn
    obtain rfl : stack = ⟨frames', false⟩ := hstack
    exact ih hstands hrest

/-- The assembler at the start of a file. -/
def start (text : Text) : State := ⟨text, ⟨[], false⟩⟩

/-- Skipped blocks have no effect in a run whose statements are all written as they have to be. -/
theorem skipped_blocks_have_no_effect (envs : List Env) (text : Text)
    (h : MeetsAll envs (start text)) : FollowsAll envs (start text) [] :=
  run_follows envs .nil h

/-- An assembler that knows no symbol, and reads decimal numbers. -/
def bareEnv : Env where
  place := ⟨"a.s", 1⟩
  macroNest := 0
  defined _ := false
  expression text :=
    let digits := text.takeWhile Char.isDigit
    ⟨digits.foldl (fun n c => 10 * n + (c.toNat - 48)) 0, true, [], text.dropWhile Char.isDigit⟩
  other text := ⟨ignoreRestOfLine text, none, []⟩
  nextBuffer := []

/-- `.if 0`, as `bareEnv` leaves it. -/
def ifZero : Frame := ⟨⟨"a.s", 1⟩, none, false, true, false, 0⟩

theorem skipped_blocks_bareEnv :
    FollowsAll [bareEnv, bareEnv, bareEnv] (start ".if 0\nret\n.endif\n".toList) [] := by
  apply skipped_blocks_have_no_effect
  refine ⟨⟨?_, ?_, ?_, ?_⟩, ?_⟩
  · intro d operand hd
    have hif : directiveAt bareEnv ".if 0\nret\n.endif\n".toList =
        some (.sIf .ne, "0\nret\n.endif\n".toList) := rfl
    obtain ⟨rfl, rfl⟩ := Prod.mk.inj (Option.some.inj (hif.symm.trans hd))
    trivial
  · intro hignoring
    cases hignoring
  · intro hignoring
    cases hignoring
  · intro hignoring
    cases hignoring
  intro turn hturn
  have hfirst : step bareEnv (start ".if 0\nret\n.endif\n".toList) =
      some ⟨⟨"ret\n.endif\n".toList, ⟨[ifZero], false⟩⟩, [], some true⟩ := rfl
  obtain rfl := Option.some.inj (hfirst.symm.trans hturn)
  have hret : directiveAt bareEnv "ret\n.endif\n".toList = none := rfl
  refine ⟨⟨?_, ?_, ?_, fun _ _ => rfl⟩, ?_⟩
  · intro d operand hd
    cases hret.symm.trans hd
  · intro _ hcannot
    cases hcannot
  · intro _ u hu hsome
    cases hu with
    | here => cases hsome
    | label h =>
      have hlabel : behindLabel bareEnv "ret\n.endif\n".toList = none := rfl
      cases hlabel.symm.trans h
  intro turn hturn
  have hsecond : step bareEnv ⟨"ret\n.endif\n".toList, ⟨[ifZero], false⟩⟩ =
      some ⟨⟨".endif\n".toList, ⟨[ifZero], false⟩⟩, [], some false⟩ := rfl
  obtain rfl := Option.some.inj (hsecond.symm.trans hturn)
  have hendif : directiveAt bareEnv ".endif\n".toList = some (.sEndif, "\n".toList) := rfl
  refine ⟨⟨?_, fun _ _ => rfl, ?_, ?_⟩, fun _ _ => trivial⟩
  · intro d operand hd
    obtain ⟨rfl, rfl⟩ := Prod.mk.inj (Option.some.inj (hendif.symm.trans hd))
    intro _
    rfl
  · intro _ u hu _
    cases hu with
    | here => exact ⟨rfl, by decide⟩
    | label h =>
      have hlabel : behindLabel bareEnv ".endif\n".toList = none := rfl
      cases hlabel.symm.trans h
  · intro _ hnone
    cases hendif.symm.trans hnone

/-- A directive that is not let through to its frame: nothing is a name here. -/
theorem bad_identifier_not_pushed :
    ¬ FollowsAll [bareEnv, bareEnv] (start ".if 0\n.ifdef 1\n".toList) [] := by
  rintro ⟨turn, hturn, -, turn', hturn', hfollows, -⟩
  have hfirst : step bareEnv (start ".if 0\n.ifdef 1\n".toList) =
      some ⟨⟨".ifdef 1\n".toList, ⟨[ifZero], false⟩⟩, [], some true⟩ := rfl
  obtain rfl := Option.some.inj (hfirst.symm.trans hturn)
  have hsecond : step bareEnv ⟨".ifdef 1\n".toList, ⟨[ifZero], false⟩⟩ =
      some ⟨⟨[], ⟨[ifZero], true⟩⟩,
        [⟨some ⟨"a.s", 1⟩, "invalid identifier for \".ifdef\""⟩], some true⟩ := rfl
  obtain rfl := Option.some.inj (hsecond.symm.trans hturn')
  obtain ⟨frame, hframe⟩ := hfollows.opens (.sIfdef false) "1\n".toList rfl rfl
  have hlength := congrArg List.length hframe
  cases hlength

end FusionBinutils.Gas.Cond
