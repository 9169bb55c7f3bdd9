import FusionBinutils.Gas.MacroCall
import FusionBinutils.Gas.MacroScan

/-! Which texts a call of a macro reads to their end and no further: what is left of a text behind
each of the things that the loops read, and where there is nothing that ends them. -/
namespace FusionBinutils.Gas.Macro

open Cond (Text isNameBeginner isPartOfName)
open Outcome (Meets Round iterate Reached)

/-- The computation comes to an end and reads its texts inside only. -/
def Inside {α : Type} (x : Except Stop α) : Prop := Meets (· = .null) (fun _ => True) x

/-- What is left behind a number with its base; a separator has to end it. -/
def baseRest (m : Modes) : Text → Option Text
  | [] => none
  | c :: l => if isSep m c then some (c :: l) else baseRest m l

/-- The places in a row of strings. -/
inductive Place
  | between
  | angle (nest : Nat)
  /-- behind a `!` in brackets -/
  | angleTaking (nest : Nat)
  | quote (tchar before : Char) (escaped : Bool)
  /-- behind a `!` in quotes -/
  | quoteTaking (tchar : Char) (escaped : Bool)
  /-- behind a quote that ends the string unless it is doubled -/
  | closing (tchar : Char) (escaped : Bool)

/-- The place behind the character that begins a string. -/
def Place.opened (c : Char) : Place := if c = '<' then .angle 0 else .quote c c false

/-- What is left behind a row of strings; the bracket has to be closed, and a `!` needs a character
behind it. -/
def stringRest (m : Modes) : Place → Text → Option Text
  | .between, [] => some []
  | .between, c :: l => if beginsString m c then stringRest m (.opened c) l else some (c :: l)
  | .angle _, [] => none
  | .angle nest, c :: l =>
    if c = '>' ∧ nest = 0 then stringRest m .between l
    else if c = '!' then stringRest m (.angleTaking nest) l
    else
      let nest := if c = '>' then nest - 1 else nest
      stringRest m (.angle (if c = '<' then nest + 1 else nest)) l
  | .angleTaking _, [] => none
  | .angleTaking nest, _ :: l => stringRest m (.angle nest) l
  | .quote .., [] => some []
  | .quote tchar before escaped, c :: l =>
    let escaped := if before = '\\' then !escaped else false
    if m.macroAlternate ∧ c = '!' then stringRest m (.quoteTaking tchar escaped) l
    else if escaped ∧ c = tchar then stringRest m (.quote tchar tchar escaped) l
    else if c = tchar then stringRest m (.closing tchar escaped) l
    else stringRest m (.quote tchar c escaped) l
  | .quoteTaking .., [] => none
  | .quoteTaking tchar escaped, c :: l => stringRest m (.quote tchar c escaped) l
  | .closing .., [] => some []
  | .closing tchar escaped, c :: l =>
    if c = tchar then stringRest m (.quote tchar c escaped) l
    else if beginsString m c then stringRest m (.opened c) l
    else some (c :: l)

/-- What is left behind other text; the character is the quote that is open. -/
def otherRest (m : Modes) : Option Char → List Char → Text → Text
  | _, _, [] => []
  | some tchar, brackets, c :: l => otherRest m (if c = tchar then none else some tchar) brackets l
  | none, brackets, c :: l =>
    if !staysInside m brackets c then c :: l
    else if c = '"' ∨ c = '\'' then otherRest m (some c) brackets l
    else otherRest m none (bracketsBehind brackets c) l

/-- What is left behind the argument at the index. -/
def argumentRest (m : Modes) (macroExpr : MacroExpr) (l : Text) (idx : Nat) : Option Text :=
  let idx := sbSkipWhite idx l
  match l.drop idx with
  | [] => some []
  | c :: r =>
    if idx + 2 < l.length ∧ r.head? = some '\'' ∧ isBase c then baseRest m (c :: r)
    else if c = '%' ∧ m.macroAlternate then some (l.drop (macroExpr (idx + 1) l).1)
    else if beginsString m c then stringRest m .between (c :: r)
    else some (otherRest m none [] (c :: r))

/-! The loops -/

/-- A loop over a text from the index has ended as what is left of the text says. -/
inductive Ends (l : Text) (idx : Nat) : Option Text → Except Stop (Nat × Text) → Prop
  | outside : Ends l idx none (.error .outside)
  | rest {idx' : Nat} {out : Text} (hidx : idx ≤ idx') :
      Ends l idx (some (l.drop idx')) (.ok (idx', out))

theorem Ends.inside_iff {l : Text} {idx : Nat} {rest : Option Text}
    {x : Except Stop (Nat × Text)} (h : Ends l idx rest x) : Inside x ↔ rest.isSome := by
  cases h with
  | outside => exact iff_of_false (nofun : ¬Stop.outside = .null) (nofun : ¬false = true)
  | rest hidx => exact iff_of_true trivial rfl

theorem Ends.mono {l : Text} {idx start : Nat} {rest : Option Text}
    {x : Except Stop (Nat × Text)} (h : Ends l idx rest x) (hstart : start ≤ idx) :
    Ends l start rest x := by
  cases h with
  | outside => exact .outside
  | rest hidx => exact .rest (hstart.trans hidx)

section Loops
variable {m : Modes} {l r : Text} {idx : Nat} {c : Char}

theorem charAt_nil (hr : l.drop idx = []) : charAt l idx = .error .outside := by
  rw [charAt, List.getElem?_eq_none (List.drop_eq_nil_iff.mp hr)]

theorem charAt_cons (hr : l.drop idx = c :: r) : charAt l idx = .ok c :=
  charAt_eq (by rw [hr, List.head?_cons])

theorem drop_succ_of_cons (hr : l.drop idx = c :: r) : l.drop (idx + 1) = r := by
  rw [← List.drop_drop, hr, List.drop_one, List.tail_cons]

theorem isAt_nil (p : Char → Bool) (hr : l.drop idx = []) : isAt l idx p = false := by
  rw [isAt, List.getElem?_eq_none (List.drop_eq_nil_iff.mp hr)]

theorem isAt_cons (p : Char → Bool) (hr : l.drop idx = c :: r) : isAt l idx p = p c := by
  rw [isAt, ← List.head?_drop, hr, List.head?_cons]

theorem lt_of_drop (hr : l.drop idx = c :: r) : idx < l.length := by
  by_contra hge
  rw [List.drop_of_length_le (Nat.le_of_not_lt hge)] at hr
  cases hr

theorem base_ends (n : Nat) : ∀ idx out, l.length - idx < n →
    Ends l idx (baseRest m (l.drop idx)) (iterate (baseStep m l) .endless n (idx, out)) := by
  induction n with
  | zero =>
    intro idx out hn
    exact absurd hn (Nat.not_lt_zero _)
  | succ n ih =>
    intro idx out hn
    cases hr : l.drop idx with
    | nil =>
      have hstep : baseStep m l (idx, out) = .error .outside := by
        rw [baseStep, charAt_nil hr]
        rfl
      rw [iterate, hstep]
      exact .outside
    | cons c r =>
      have hlt := lt_of_drop hr
      have hstep : baseStep m l (idx, out) =
          if isSep m c then .ok (.inr (idx, out)) else .ok (.inl (idx + 1, out ++ [c])) := by
        rw [baseStep, charAt_cons hr]
        rfl
      rw [iterate, hstep, baseRest]
      by_cases hsep : isSep m c
      · rw [if_pos hsep, if_pos hsep, ← hr]
        exact .rest le_rfl
      · rw [if_neg hsep, if_neg hsep, ← drop_succ_of_cons hr]
        exact (ih (idx + 1) (out ++ [c]) (by omega)).mono (Nat.le_succ _)

/-- A loop inside a row of strings has come to a place between two. -/
inductive Continues (m : Modes) (l : Text) (idx : Nat) (rest : Option Text) :
    Except Stop (Nat × Text) → Prop
  | outside (h : rest = none) : Continues m l idx rest (.error .outside)
  | between {idx' : Nat} {acc : Text} (hidx : idx ≤ idx')
      (h : rest = stringRest m .between (l.drop idx')) : Continues m l idx rest (.ok (idx', acc))

theorem Continues.mono {start : Nat} {rest : Option Text} {x : Except Stop (Nat × Text)}
    (h : Continues m l idx rest x) (hstart : start ≤ idx) : Continues m l start rest x := by
  cases h with
  | outside h => exact .outside h
  | between hidx h => exact .between (hstart.trans hidx) h

theorem angle_continues (n : Nat) : ∀ idx nest acc, l.length - idx < n →
    Continues m l idx (stringRest m (.angle nest) (l.drop idx))
      (iterate (angleStep l) .endless n (idx, nest, acc)) := by
  induction n with
  | zero =>
    intro idx nest acc hn
    exact absurd hn (Nat.not_lt_zero _)
  | succ n ih =>
    intro idx nest acc hn
    cases hr : l.drop idx with
    | nil =>
      have hstep : angleStep l (idx, nest, acc) = .error .outside := by
        rw [angleStep, charAt_nil hr]
        rfl
      rw [iterate, hstep]
      exact .outside rfl
    | cons c r =>
      have hlt := lt_of_drop hr
      have hnext := drop_succ_of_cons hr
      rw [iterate, angleStep, charAt_cons hr, stringRest]
      simp only [bind, Except.bind, pure, Except.pure]
      by_cases hclose : c = '>' ∧ nest = 0
      · rw [if_pos hclose, if_pos hclose, ← hnext]
        exact .between (Nat.le_succ _) rfl
      rw [if_neg hclose, if_neg hclose]
      by_cases hmark : c = '!'
      · rw [if_pos hmark, if_pos hmark]
        cases hr' : r with
        | nil =>
          rw [charAt_nil (hnext.trans hr')]
          exact .outside rfl
        | cons d r' =>
          rw [charAt_cons (hnext.trans hr'), stringRest,
            ← drop_succ_of_cons (hnext.trans hr')]
          exact (ih (idx + 2) nest _ (by omega)).mono (by omega)
      · rw [if_neg hmark, if_neg hmark, ← hnext]
        exact (ih (idx + 1) _ _ (by omega)).mono (Nat.le_succ _)

theorem quote_continues {tchar : Char} (n : Nat) : ∀ idx escaped acc before,
    l.length - idx < n → charAt l (idx - 1) = .ok before →
    Continues m l idx (stringRest m (.quote tchar before escaped) (l.drop idx))
      (iterate (quoteStep m l tchar) .endless n (idx, escaped, acc)) := by
  induction n with
  | zero =>
    intro idx escaped acc before hn
    exact absurd hn (Nat.not_lt_zero _)
  | succ n ih =>
    intro idx escaped acc before hn hbefore
    cases hr : l.drop idx with
    | nil =>
      have hend : l.length ≤ idx := List.drop_eq_nil_iff.mp hr
      rw [iterate, quoteStep, if_pos hend]
      refine .between le_rfl ?_
      rw [hr, stringRest, stringRest]
    | cons c r =>
      have hlt := lt_of_drop hr
      have hnext := drop_succ_of_cons hr
      rw [iterate, quoteStep, if_neg (by omega), hbefore, stringRest]
      simp only [bind, Except.bind, pure, Except.pure, charAt_cons hr]
      generalize (if before = '\\' then !escaped else false) = escaped
      by_cases hmark : m.macroAlternate = true ∧ c = '!'
      · rw [if_pos hmark, if_pos hmark]
        cases hr' : r with
        | nil =>
          rw [charAt_nil (hnext.trans hr')]
          exact .outside rfl
        | cons d r' =>
          have hd := charAt_cons (hnext.trans hr')
          rw [hd, stringRest, ← drop_succ_of_cons (hnext.trans hr')]
          exact (ih (idx + 2) escaped _ d (by omega) hd).mono (by omega)
      rw [if_neg hmark, if_neg hmark]
      by_cases hescaped : escaped = true ∧ c = tchar
      · rw [if_pos hescaped, if_pos hescaped, ← hnext]
        refine (ih (idx + 1) escaped _ tchar (by omega) ?_).mono (Nat.le_succ _)
        rw [← hescaped.2]
        exact charAt_cons hr
      rw [if_neg hescaped, if_neg hescaped]
      by_cases hquote : c = tchar
      · simp only [if_pos hquote]
        rw [isAt_eq, hnext]
        cases hr' : r with
        | nil =>
          rw [if_pos ⟨hquote, rfl⟩, ← hr', ← hnext]
          refine .between (Nat.le_succ _) ?_
          rw [hnext, hr', stringRest, stringRest]
        | cons d r' =>
          by_cases hdouble : d = tchar
          · have hd := charAt_cons (hnext.trans hr')
            rw [if_neg (by simp [hdouble]), hd, stringRest, if_pos hdouble,
              ← drop_succ_of_cons (hnext.trans hr')]
            exact (ih (idx + 2) escaped _ d (by omega) hd).mono (by omega)
          · rw [if_pos ⟨hquote, by simp [hdouble]⟩]
            refine .between (Nat.le_succ _) ?_
            rw [hnext, hr', stringRest, stringRest, if_neg hdouble]
      · have hends : ¬(c = tchar ∧ (!isAt l idx fun x => decide (x = tchar)) = true) :=
          fun h => hquote h.1
        simp only [if_neg hquote, if_neg hends, charAt_cons hr]
        rw [← hnext]
        exact (ih (idx + 1) escaped _ c (by omega) (charAt_cons hr)).mono (Nat.le_succ _)

theorem strings_end (fuel : Nat) (hfuel : l.length < fuel) (n : Nat) : ∀ idx acc,
    l.length - idx < n →
    Ends l idx (stringRest m .between (l.drop idx))
      (iterate (stringStep m fuel l) .endless n (idx, acc)) := by
  induction n with
  | zero =>
    intro idx acc hn
    exact absurd hn (Nat.not_lt_zero _)
  | succ n ih =>
    intro idx acc hn
    cases hr : l.drop idx with
    | nil =>
      have hstep : stringStep m fuel l (idx, acc) = .ok (.inr (idx, acc)) := by
        rw [stringStep, isAt_nil _ hr]
        rfl
      rw [iterate, hstep, stringRest, ← hr]
      exact .rest le_rfl
    | cons c r =>
      have hlt := lt_of_drop hr
      have hnext := drop_succ_of_cons hr
      by_cases hbegins : beginsString m c = true
      · -- whichever string it is, the row goes on behind it
        obtain ⟨x, hstep, hx⟩ : ∃ x, stringStep m fuel l (idx, acc) = Except.map .inl x ∧
            Continues m l (idx + 1) (stringRest m (.opened c) r) x := by
          by_cases hangle : c = '<'
          · refine ⟨iterate (angleStep l) .endless fuel (idx + 1, 0, acc), ?_, ?_⟩
            · rw [stringStep, isAt_cons _ hr, charAt_cons hr, hbegins]
              exact if_pos hangle
            · rw [← hnext, Place.opened, if_pos hangle]
              exact angle_continues fuel (idx + 1) 0 acc (by omega)
          · refine ⟨iterate (quoteStep m l c) .endless fuel (idx + 1, false, acc), ?_, ?_⟩
            · rw [stringStep, isAt_cons _ hr, charAt_cons hr, hbegins]
              exact if_neg hangle
            · rw [← hnext, Place.opened, if_neg hangle]
              exact quote_continues fuel (idx + 1) false acc c (by omega) (charAt_cons hr)
        rw [iterate, hstep, stringRest, if_pos hbegins]
        cases hx with
        | outside hrest =>
          rw [hrest]
          exact .outside
        | between hidx hrest =>
          rw [hrest]
          exact (ih _ _ (by omega)).mono (by omega)
      · have hstep : stringStep m fuel l (idx, acc) = .ok (.inr (idx, acc)) := by
          rw [stringStep, isAt_cons _ hr, Bool.eq_false_iff.mpr hbegins]
          rfl
        rw [iterate, hstep, stringRest, if_neg hbegins, ← hr]
        exact .rest le_rfl

theorem otherRest_quoted (tchar : Char) (brackets : List Char) (r : Text) :
    otherRest m (some tchar) brackets r =
      otherRest m none brackets (r.drop ((r.takeWhile (· ≠ tchar)).length + 1)) := by
  induction r with
  | nil => simp [otherRest]
  | cons c r ih =>
    rw [otherRest]
    by_cases hc : c = tchar
    · rw [if_pos hc, List.takeWhile_cons_of_neg (by simpa using hc), List.length_nil,
        List.drop_one, List.tail_cons]
    · rw [if_neg hc, ih, List.takeWhile_cons_of_pos (by simpa using hc), List.length_cons,
        List.drop_succ_cons]

theorem other_ends (n : Nat) : ∀ idx brackets out, l.length - idx < n →
    Ends l idx (some (otherRest m none brackets (l.drop idx)))
      (iterate (otherStep m l) .endless n (idx, brackets, out)) := by
  induction n with
  | zero =>
    intro idx brackets out hn
    exact absurd hn (Nat.not_lt_zero _)
  | succ n ih =>
    intro idx brackets out hn
    cases hr : l.drop idx with
    | nil =>
      have hstep : otherStep m l (idx, brackets, out) = .ok (.inr (idx, out)) := by
        rw [otherStep, isAt_nil _ hr]
        rfl
      rw [iterate, hstep, otherRest, ← hr]
      exact .rest le_rfl
    | cons c r =>
      have hlt := lt_of_drop hr
      have hnext := drop_succ_of_cons hr
      rw [iterate, otherStep, isAt_cons _ hr, charAt_cons hr, otherRest]
      simp only [bind, Except.bind, pure, Except.pure]
      by_cases hstays : staysInside m brackets c = true
      · have hgoes : ¬(!staysInside m brackets c) = true := by simp [hstays]
        rw [if_neg hgoes, if_neg hgoes]
        by_cases hquote : c = '"' ∨ c = '\''
        · rw [if_pos hquote, if_pos hquote, otherRest_quoted, run, hnext]
          by_cases hend : idx + 1 + (r.takeWhile (· ≠ c)).length = l.length
          · have hdrop : r.drop ((r.takeWhile (· ≠ c)).length + 1) = [] := by
              rw [← hnext, List.drop_drop, List.drop_eq_nil_iff, hnext]
              omega
            rw [if_pos hend, hdrop, otherRest, ← List.drop_length (l := l), ← hend]
            exact .rest (by omega)
          · rw [if_neg hend, ← hnext, List.drop_drop, hnext]
            exact (ih _ _ _ (by omega)).mono (by omega)
        · rw [if_neg hquote, if_neg hquote, ← hnext]
          exact (ih (idx + 1) _ _ (by omega)).mono (Nat.le_succ _)
      · have hends : (!staysInside m brackets c) = true := by simp [hstays]
        rw [if_pos hends, if_pos hends, ← hr]
        exact .rest le_rfl

/-- `getstring` from the index. -/
theorem getstring_ends {fuel : Nat} (hfuel : l.length < fuel) (idx : Nat) (acc : Text) :
    Ends l idx (stringRest m .between (l.drop idx)) (getstring m fuel idx l acc) :=
  strings_end fuel hfuel fuel idx acc (by omega)

theorem baseRest_length {rest : Text} (h : baseRest m r = some rest) :
    rest.length ≤ r.length := by
  induction r with
  | nil => cases h
  | cons c r ih =>
    rw [baseRest] at h
    split at h
    · cases h
      exact le_rfl
    · exact (ih h).trans (Nat.le_succ _)

theorem stringRest_length {p : Place} {rest : Text} (h : stringRest m p r = some rest) :
    rest.length ≤ r.length := by
  induction r generalizing p with
  | nil =>
    cases p <;> cases h <;> exact le_rfl
  | cons c r ih =>
    have hle {p : Place} (h : stringRest m p r = some rest) : rest.length ≤ (c :: r).length :=
      (ih h).trans (Nat.le_succ _)
    cases p with
    | between =>
      rw [stringRest] at h
      split at h
      · exact hle h
      · cases h
        exact le_rfl
    | angle nest =>
      rw [stringRest] at h
      split_ifs at h <;> exact hle h
    | angleTaking nest => exact hle h
    | quote tchar before escaped =>
      rw [stringRest] at h
      generalize (if before = '\\' then !escaped else false) = escaped at h
      split_ifs at h <;> exact hle h
    | quoteTaking tchar escaped => exact hle h
    | closing tchar escaped =>
      rw [stringRest] at h
      split_ifs at h
      · exact hle h
      · exact hle h
      · cases h
        exact le_rfl

theorem otherRest_length (open_ : Option Char) (brackets : List Char) :
    (otherRest m open_ brackets r).length ≤ r.length := by
  induction r generalizing open_ brackets with
  | nil => cases open_ <;> exact le_rfl
  | cons c r ih =>
    cases open_ with
    | none =>
      rw [otherRest]
      split_ifs
      · exact le_rfl
      · exact (ih _ _).trans (Nat.le_succ _)
      · exact (ih _ _).trans (Nat.le_succ _)
    | some tchar => exact (ih _ _).trans (Nat.le_succ _)

variable {macroExpr : MacroExpr}

/-- `get_any_string` from the index. -/
theorem getAnyString_ends (hexpr : ∀ idx l, idx ≤ (macroExpr idx l).1) {fuel : Nat}
    (hfuel : l.length < fuel) (idx : Nat) :
    Ends l (sbSkipWhite idx l) (argumentRest m macroExpr l idx)
      (getAnyString m macroExpr fuel idx l) := by
  rw [argumentRest, getAnyString]
  generalize sbSkipWhite idx l = idx
  cases hr : l.drop idx with
  | nil =>
    rw [if_pos (List.drop_eq_nil_iff.mp hr)]
    simp only [← hr]
    exact .rest le_rfl
  | cons c r =>
    have hlt := lt_of_drop hr
    have hquote : isAt l (idx + 1) (· = '\'') = decide (r.head? = some '\'') := by
      rw [isAt_eq, drop_succ_of_cons hr]
    rw [if_neg (by omega), charAt_cons hr]
    simp only [bind, Except.bind, pure, Except.pure, hquote, decide_eq_true_eq]
    by_cases hbase : idx + 2 < l.length ∧ r.head? = some '\'' ∧ isBase c = true
    · rw [if_pos hbase, if_pos hbase, ← hr]
      exact base_ends fuel idx [] (by omega)
    rw [if_neg hbase, if_neg hbase]
    by_cases hpercent : c = '%' ∧ m.macroAlternate = true
    · rw [if_pos hpercent, if_pos hpercent]
      exact .rest ((Nat.le_succ _).trans (hexpr _ _))
    rw [if_neg hpercent, if_neg hpercent]
    by_cases hbegins : beginsString m c = true
    · rw [if_pos hbegins, if_pos hbegins, ← hr]
      split
      · have hstring := getstring_ends (m := m) hfuel idx ['"']
        revert hstring
        generalize stringRest m .between (l.drop idx) = rest
        generalize getstring m fuel idx l ['"'] = x
        intro hstring
        cases hstring with
        | outside => exact .outside
        | rest hidx => exact .rest hidx
      · exact getstring_ends hfuel idx []
    · rw [if_neg hbegins, if_neg hbegins, ← hr]
      exact other_ends fuel idx [] [] (by omega)

theorem drop_takeWhile_length (p : Char → Bool) (t : Text) :
    t.drop (t.takeWhile p).length = t.dropWhile p := by
  have h := List.takeWhile_append_dropWhile (p := p) (l := t)
  calc t.drop (t.takeWhile p).length
      = (t.takeWhile p ++ t.dropWhile p).drop (t.takeWhile p).length := by rw [h]
    _ = t.dropWhile p := List.drop_left

theorem not_white_of_skip (hr : l.drop (sbSkipWhite idx l) = c :: r) : isWhite c = false := by
  rw [sbSkipWhite, run, ← List.drop_drop, drop_takeWhile_length] at hr
  have h := List.head?_dropWhile_not isWhite (l.drop idx)
  rw [hr] at h
  simpa using h

theorem isSep_of_base (h : isBase c = true) : isSep m c = false := by
  simp only [isBase, Bool.or_eq_true, decide_eq_true_eq] at h
  rcases h with ((((((rfl | rfl) | rfl) | rfl) | rfl) | rfl) | rfl) | rfl <;> simp [isSep]

theorem stays_of_other (hwhite : isWhite c = false) (hcomma : c ≠ ',')
    (hbegins : ¬beginsString m c = true) : staysInside m [] c = true := by
  simp only [isWhite, Bool.or_eq_false_iff, decide_eq_false_iff_not] at hwhite
  simp only [beginsString, Bool.or_eq_true, Bool.and_eq_true, decide_eq_true_eq, not_or,
    not_and] at hbegins
  simp only [staysInside, Bool.and_eq_true, Bool.or_eq_true, decide_eq_true_eq, Bool.not_eq_true']
  refine ⟨⟨.inr hwhite, hcomma⟩, ?_⟩
  by_cases hangle : c = '<'
  · right
    obtain ⟨halternate, hmri⟩ := hbegins.1.2 hangle
    exact ⟨Bool.eq_false_iff.mpr halternate, Bool.eq_false_iff.mpr hmri⟩
  · exact .inl hangle

/-- An argument that does not begin with a comma has a character at least. -/
theorem argumentRest_length (hexpr : ∀ idx l, idx ≤ (macroExpr idx l).1) {rest : Text}
    (hr : l.drop (sbSkipWhite idx l) = c :: r) (hcomma : c ≠ ',')
    (h : argumentRest m macroExpr l idx = some rest) : rest.length ≤ r.length := by
  have hwhite := not_white_of_skip hr
  rw [argumentRest] at h
  simp only [hr] at h
  split_ifs at h with hbase hpercent hbegins
  · rw [baseRest, isSep_of_base hbase.2.2] at h
    exact baseRest_length h
  · cases h
    have hnext := congrArg List.length (drop_succ_of_cons hr)
    have hexpr := hexpr (sbSkipWhite idx l + 1) l
    rw [List.length_drop] at hnext ⊢
    omega
  · rw [stringRest, if_pos hbegins] at h
    exact stringRest_length h
  · cases h
    rw [otherRest, stays_of_other hwhite hcomma hbegins]
    simp only [Bool.not_true, Bool.false_eq_true, if_false]
    split_ifs
    · exact otherRest_length _ _
    · exact otherRest_length _ _

end Loops

end FusionBinutils.Gas.Macro
