import FusionBinutils.Gas.MacroBounds

/-! When a call of a macro comes to an end inside its texts. -/
namespace FusionBinutils.Gas.Macro

open Cond (Text isNameBeginner isPartOfName)
open Outcome (Meets Round iterate Reached)

/-- There are only names up to the end of the line, with white space, commas and, in the alternate
syntax, `&` between them. -/
def namesToEnd (m : Modes) : Bool → Text → Bool
  | _, [] => false
  | inName, c :: l =>
    if c = '\n' then true
    else if isNameBeginner c || (inName && isPartOfName c) then namesToEnd m true l
    else if isWhite c || c = ',' || (m.macroAlternate && c = '&') then namesToEnd m false l
    else false

section Names
variable {m : Modes} {l r : Text} {idx : Nat} {c : Char}

theorem partOfName_of_beginner (h : isNameBeginner c = true) : isPartOfName c = true := by
  rw [isPartOfName, h]
  rfl

theorem names_in_name (t : Text) :
    namesToEnd m true t = namesToEnd m false (t.dropWhile isPartOfName) := by
  induction t with
  | nil => rfl
  | cons c t ih =>
    by_cases hpart : isPartOfName c = true
    · have hline : c ≠ '\n' := by
        rintro rfl
        exact absurd hpart (by decide)
      rw [List.dropWhile_cons_of_pos hpart, ← ih, namesToEnd, if_neg hline, hpart]
      simp
    · have hbegin : ¬isNameBeginner c = true := fun h => hpart (partOfName_of_beginner h)
      rw [List.dropWhile_cons_of_neg hpart, namesToEnd, namesToEnd]
      simp [hpart, hbegin]

/-- A name is gone over. -/
theorem names_behind_name (t : Text) :
    namesToEnd m false t = namesToEnd m false (t.drop (nameAt t).length) := by
  cases t with
  | nil => rfl
  | cons c t =>
    rw [nameAt]
    split
    · next hbegin =>
      have hline : c ≠ '\n' := by
        rintro rfl
        exact absurd hbegin (by decide)
      rw [List.length_cons, List.drop_succ_cons, drop_takeWhile_length, ← names_in_name,
        namesToEnd, if_neg hline, hbegin]
      rfl
    · rfl

theorem names_behind_between (hbegin : isNameBeginner c = false) (hline : c ≠ '\n')
    (hbetween : (isWhite c || c = ',' || (m.macroAlternate && c = '&')) = true) :
    namesToEnd m false (c :: r) = namesToEnd m false r := by
  rw [namesToEnd, if_neg hline, hbegin, hbetween]
  rfl

theorem names_behind_white (t : Text) :
    namesToEnd m false t = namesToEnd m false (t.dropWhile isWhite) := by
  induction t with
  | nil => rfl
  | cons c t ih =>
    by_cases hwhite : isWhite c = true
    · rw [List.dropWhile_cons_of_pos hwhite, ← ih]
      have hchar := hwhite
      simp only [isWhite, Bool.or_eq_true, decide_eq_true_eq] at hchar
      apply names_behind_between
      · rcases hchar with rfl | rfl <;> decide
      · rcases hchar with rfl | rfl <;> decide
      · simp [hwhite]
    · rw [List.dropWhile_cons_of_neg hwhite]

theorem drop_sbSkipWhite (idx : Nat) (l : Text) :
    l.drop (sbSkipWhite idx l) = (l.drop idx).dropWhile isWhite := by
  rw [sbSkipWhite, run, ← List.drop_drop, drop_takeWhile_length]

theorem names_behind_comma (idx : Nat) (l : Text) :
    namesToEnd m false (l.drop idx) = namesToEnd m false (l.drop (sbSkipComma idx l)) := by
  rw [sbSkipComma, names_behind_white, ← drop_sbSkipWhite]
  generalize sbSkipWhite idx l = idx
  split
  · next hcomma =>
    rw [drop_sbSkipWhite, ← names_behind_white]
    cases hr : l.drop idx with
    | nil =>
      rw [isAt_nil _ hr] at hcomma
      cases hcomma
    | cons c r =>
      rw [isAt_cons _ hr, decide_eq_true_eq] at hcomma
      subst hcomma
      rw [drop_succ_of_cons hr]
      exact names_behind_between (by decide) (by decide) (by simp)
  · rw [drop_sbSkipWhite, ← names_behind_white]

theorem names_behind_token (idx : Nat) (l : Text) :
    namesToEnd m false (l.drop idx) = namesToEnd m false (l.drop (getToken m idx l).1) := by
  rw [getToken_eq, names_behind_name, List.drop_drop]
  generalize idx + (nameAt (l.drop idx)).length = idx
  simp only [Bool.and_eq_true]
  split
  · next h =>
    obtain ⟨halternate, hamp⟩ := h
    cases hr : l.drop idx with
    | nil =>
      rw [isAt_nil _ hr] at hamp
      cases hamp
    | cons c r =>
      rw [isAt_cons _ hr, decide_eq_true_eq] at hamp
      subst hamp
      rw [drop_succ_of_cons hr]
      exact names_behind_between (by decide) (by decide) (by simp [halternate])
  · rfl

theorem le_sbSkipWhite (idx : Nat) (l : Text) : idx ≤ sbSkipWhite idx l := Nat.le_add_right _ _

theorem le_sbSkipComma (idx : Nat) (l : Text) : idx ≤ sbSkipComma idx l := by
  rw [sbSkipComma]
  refine le_trans ?_ (le_sbSkipWhite _ l)
  have hwhite := le_sbSkipWhite idx l
  split <;> omega

theorem le_getToken (m : Modes) (idx : Nat) (l : Text) : idx ≤ (getToken m idx l).1 := by
  rw [getToken_eq]
  simp only
  split <;> omega

/-- White space and a comma are gone over. -/
theorem lt_sbSkipComma (hr : l.drop idx = c :: r) (hc : (isWhite c || c = ',') = true) :
    idx < sbSkipComma idx l := by
  by_cases hwhite : isWhite c = true
  · have hskip : idx < sbSkipWhite idx l := by
      rw [sbSkipWhite, run, hr, List.takeWhile_cons_of_pos hwhite, List.length_cons]
      omega
    rw [sbSkipComma]
    refine lt_of_lt_of_le hskip (le_trans ?_ (le_sbSkipWhite _ l))
    split <;> omega
  · have hskip : sbSkipWhite idx l = idx := by
      rw [sbSkipWhite, run, hr, List.takeWhile_cons_of_neg hwhite]
      rfl
    have hcomma : isAt l idx (· = ',') = true := by
      rw [isAt_cons _ hr]
      simpa [hwhite] using hc
    rw [sbSkipComma, hskip, if_pos hcomma]
    exact le_sbSkipWhite _ l

theorem lt_getToken (hr : l.drop idx = c :: r) (hbegin : isNameBeginner c = true) :
    idx < (getToken m idx l).1 := by
  have hname : 0 < (nameAt (l.drop idx)).length := by
    rw [hr, nameAt, if_pos hbegin]
    exact Nat.succ_pos _
  rw [getToken_eq]
  simp only
  split <;> omega

/-- A round of the loop of `LOCAL` gets further where there are only names. -/
theorem lt_local (hr : l.drop idx = c :: r) (hline : c ≠ '\n')
    (hnames : namesToEnd m false (l.drop idx) = true) :
    idx < sbSkipComma (getToken m idx l).1 l := by
  by_cases hbegin : isNameBeginner c = true
  · exact lt_of_lt_of_le (lt_getToken hr hbegin) (le_sbSkipComma _ l)
  rw [hr, namesToEnd, if_neg hline, Bool.eq_false_iff.mpr hbegin] at hnames
  have hname : nameAt (l.drop idx) = [] := by rw [hr, nameAt, if_neg hbegin]
  have htoken : (getToken m idx l).1 = if m.macroAlternate && c = '&' then idx + 1 else idx := by
    rw [getToken_eq, hname]
    simp only [List.length_nil, Nat.add_zero, isAt_cons _ hr]
  by_cases hamp : (m.macroAlternate && c = '&') = true
  · rw [htoken, if_pos hamp]
    exact le_sbSkipComma (idx + 1) l
  · have hbetween : (isWhite c = true ∨ c = ',') ∧ namesToEnd m false r = true := by
      simpa [hamp] using hnames
    rw [htoken, if_neg hamp]
    exact lt_sbSkipComma hr (by simpa using hbetween.1)

/-- A round of the loop of `LOCAL`. -/
theorem localStep_goes {s : Setting} {b : Body} (hr : l.drop b.src = c :: r) (hline : c ≠ '\n') :
    ∃ b', localStep s l b = .ok (.inl b') ∧
      b'.src = sbSkipComma (getToken s.modes b.src l).1 l := by
  rw [localStep, charAt_cons hr]
  simp only [bind, Except.bind, pure, Except.pure, if_neg hline]
  exact ⟨_, rfl, rfl⟩

/-- `LOCAL` comes to the end of its line where there are only names up to it. -/
theorem local_ends {s : Setting} (n : Nat) : ∀ b : Body, l.length - b.src < n →
    namesToEnd s.modes false (l.drop b.src) = true →
    ∃ b', iterate (localStep s l) .endless n b = .ok b' ∧ b.src ≤ b'.src := by
  induction n with
  | zero =>
    intro b hn
    exact absurd hn (Nat.not_lt_zero _)
  | succ n ih =>
    intro b hn hnames
    cases hr : l.drop b.src with
    | nil =>
      rw [hr] at hnames
      cases hnames
    | cons c r =>
      rw [iterate]
      by_cases hline : c = '\n'
      · have hstep : localStep s l b = .ok (.inr b) := by
          rw [localStep, charAt_cons hr, hline]
          rfl
        rw [hstep]
        exact ⟨b, rfl, le_rfl⟩
      · have hlt := lt_local hr hline hnames
        have hlen := lt_of_drop hr
        obtain ⟨b', hstep, hsrc⟩ := localStep_goes (s := s) hr hline
        rw [names_behind_token, names_behind_comma, ← hsrc] at hnames
        rw [← hsrc] at hlt
        obtain ⟨b'', hrun, hle⟩ := ih b' (by omega) hnames
        rw [hstep]
        exact ⟨b'', hrun, hlt.le.trans hle⟩

/-- Where there is something else, `LOCAL` goes on for ever or reads behind the body. -/
theorem local_fails {s : Setting} (n : Nat) : ∀ b : Body,
    namesToEnd s.modes false (l.drop b.src) = false →
    ∃ e, e ≠ .null ∧ iterate (localStep s l) .endless n b = .error e := by
  induction n with
  | zero =>
    intro b _
    exact ⟨.endless, nofun, rfl⟩
  | succ n ih =>
    intro b hnames
    cases hr : l.drop b.src with
    | nil =>
      refine ⟨.outside, nofun, ?_⟩
      rw [iterate, localStep, charAt_nil hr]
      rfl
    | cons c r =>
      have hline : c ≠ '\n' := by
        rintro rfl
        rw [hr, namesToEnd, if_pos rfl] at hnames
        cases hnames
      obtain ⟨b', hstep, hsrc⟩ := localStep_goes (s := s) hr hline
      rw [names_behind_token, names_behind_comma, ← hsrc] at hnames
      rw [iterate, hstep]
      exact ih b' hnames

end Names

/-! The body -/

/-- The loop over the body has come to a `LOCAL`. -/
def AtLocal (s : Setting) (l : Text) (b : Body) : Prop :=
  b.err = none ∧ (s.modes.macroAlternate ∨ s.modes.macroMri) ∧ isAt l b.src isNameBeginner ∧
    s.ofMacro ∧ b.src + 5 < l.length ∧
    ((l.drop b.src).take 5).map Char.toLower = ['l', 'o', 'c', 'a', 'l'] ∧
    isAt l (b.src + 5) isWhite ∧ b.inquote = false

/-- Behind each `LOCAL` there are only names up to the end of its line. -/
def LocalFine (s : Setting) (l : Text) (b : Body) : Prop :=
  AtLocal s l b → namesToEnd s.modes false (l.drop (b.src + 5)) = true

section BodyRounds
variable {s : Setting} {l r : Text} {b : Body} {c : Char}

theorem charAt_lt {idx : Nat} (h : idx < l.length) : ∃ c, charAt l idx = .ok c := by
  refine ⟨l[idx], ?_⟩
  rw [charAt, List.getElem?_eq_getElem h]

theorem isAt_of_charAt {idx : Nat} (h : charAt l idx = .ok c) (p : Char → Bool) :
    isAt l idx p = p c := by
  rw [charAt] at h
  rw [isAt]
  cases hc : l[idx]? with
  | none =>
    rw [hc] at h
    cases h
  | some d =>
    rw [hc] at h
    cases h
    rfl

theorem isAt_lt {idx : Nat} {p : Char → Bool} (h : isAt l idx p = true) : idx < l.length := by
  by_contra hge
  rw [isAt, List.getElem?_eq_none (Nat.le_of_not_lt hge)] at h
  cases h

theorem getToken_le (m : Modes) {idx : Nat} (h : (getToken m idx l).1 ≠ idx) :
    (getToken m idx l).1 ≤ l.length := by
  have hname := (nameAt_isInitial (l.drop idx)).length_le
  rw [List.length_drop] at hname
  rw [getToken_eq] at h ⊢
  simp only [Bool.and_eq_true] at h ⊢
  split
  · next hamp =>
    have hlt := isAt_lt hamp.2
    omega
  · next hamp =>
    rw [if_neg hamp] at h
    omega

theorem getApostToken_bounds (m : Modes) (idx : Nat) (l : Text) (kind : Char) :
    (getToken m idx l).1 ≤ (getApostToken m idx l kind).1 ∧
      ((getApostToken m idx l kind).1 ≠ idx → (getApostToken m idx l kind).1 ≤ l.length) := by
  rw [getApostToken]
  simp only
  split
  · next h =>
    simp only [Bool.and_eq_true] at h
    have hlt := isAt_lt h.1.1
    exact ⟨Nat.le_succ _, fun _ => hlt⟩
  · exact ⟨le_rfl, getToken_le m⟩

theorem subActual_goes (start : Nat) (kind : Char) (copyifnotthere : Bool) :
    ∃ b', subActual s l b start kind copyifnotthere = .ok b' ∧
      (getToken s.modes start l).1 ≤ b'.src := by
  obtain ⟨hle, hlen⟩ := getApostToken_bounds s.modes start l kind
  have hstart := le_getToken s.modes start l
  rw [subActual]
  generalize getApostToken s.modes start l kind = token at hle hlen
  obtain ⟨src, t⟩ := token
  simp only at hle hlen
  obtain ⟨last, hlast⟩ := charBefore_ok (l := l) (hstart.trans hle) hlen
  simp only [hlast, bind, Except.bind, pure, Except.pure]
  exact ⟨_, rfl, hle⟩

theorem ampersand_goes : ∃ b', ampersand s l b = .ok b' ∧ b.src < b'.src := by
  rw [ampersand]
  split_ifs
  · obtain ⟨b', hstep, hle⟩ := subActual_goes (s := s) (l := l) (b := b) (b.src + 2) '\'' true
    have hstart := le_getToken s.modes (b.src + 2) l
    exact ⟨b', hstep, by omega⟩
  · exact ⟨_, rfl, Nat.lt_succ_self _⟩
  · obtain ⟨b', hstep, hle⟩ := subActual_goes (s := s) (l := l) (b := b) (b.src + 1) '&' false
    have hstart := le_getToken s.modes (b.src + 1) l
    exact ⟨b', hstep, by omega⟩

theorem backslash_goes : ∃ b', backslash s l b = .ok b' ∧ b.src < b'.src := by
  rw [backslash]
  simp only [bind, Except.bind, pure, Except.pure]
  split_ifs with hopen hclosed hmacro hat hamp hmri
  · exact ⟨_, rfl, by simp only; omega⟩
  · exact ⟨_, rfl, by simp only; omega⟩
  · exact ⟨_, rfl, by simp only; omega⟩
  · exact ⟨_, rfl, by simp only; omega⟩
  · exact ⟨_, rfl, by simp only; omega⟩
  · obtain ⟨c, hc⟩ := charAt_lt (isAt_lt hmri.2)
    rw [hc]
    exact ⟨_, rfl, by simp only; omega⟩
  · obtain ⟨b', hstep, hle⟩ := subActual_goes (s := s) (l := l) (b := { b with src := b.src + 1 })
      (b.src + 1) '\'' false
    have hstart := le_getToken s.modes (b.src + 1) l
    exact ⟨b', hstep, by omega⟩

/-- The test of the branch for `LOCAL`, where the other tests of the branch hold. -/
theorem nameInBody_local (herr : b.err = none)
    (hmode : s.modes.macroAlternate ∨ s.modes.macroMri)
    (hbegin : isAt l b.src isNameBeginner = true) :
    (¬(!s.ofMacro ∨ l.length ≤ b.src + 5 ∨
      ((l.drop b.src).take 5).map Char.toLower ≠ ['l', 'o', 'c', 'a', 'l'] ∨
      !isAt l (b.src + 5) isWhite ∨ b.inquote)) ↔ AtLocal s l b := by
  simp only [AtLocal, herr, hmode, hbegin, not_or, Bool.not_eq_true', Bool.not_eq_false,
    Bool.not_eq_true, Nat.not_le, ne_eq, Decidable.not_not, true_and]

theorem nameInBody_goes {fuel : Nat} (hfuel : l.length < fuel) (herr : b.err = none)
    (hmode : s.modes.macroAlternate ∨ s.modes.macroMri)
    (hbegin : isAt l b.src isNameBeginner = true) (hfine : LocalFine s l b) :
    ∃ b', nameInBody s fuel l b = .ok b' ∧ b.src < b'.src := by
  rw [nameInBody]
  have htest := nameInBody_local herr hmode hbegin
  split
  · obtain ⟨b', hstep, hle⟩ := subActual_goes (s := s) (l := l) (b := b) b.src
      (if s.modes.macroStripAt && b.inquote then '@' else '\'') true
    have hlt : b.src < (getToken s.modes b.src l).1 := by
      cases hr : l.drop b.src with
      | nil =>
        rw [isAt_nil _ hr] at hbegin
        cases hbegin
      | cons c r =>
        rw [isAt_cons _ hr] at hbegin
        exact lt_getToken hr hbegin
    exact ⟨b', hstep, hlt.trans_le hle⟩
  · next hlocal =>
    have hnames := hfine (htest.mp hlocal)
    have hskip := le_sbSkipWhite (b.src + 5) l
    rw [names_behind_white, ← drop_sbSkipWhite] at hnames
    obtain ⟨b', hrun, hle⟩ := local_ends (l := l) fuel
      { b with src := sbSkipWhite (b.src + 5) l } (by simp only; omega) hnames
    exact ⟨b', hrun, by simp only at hle; omega⟩

theorem nameInBody_fails (fuel : Nat) (hlocal : AtLocal s l b)
    (hnames : namesToEnd s.modes false (l.drop (b.src + 5)) = false) :
    ∃ e, e ≠ .null ∧ nameInBody s fuel l b = .error e := by
  have htest := (nameInBody_local hlocal.1 hlocal.2.1 hlocal.2.2.1).mpr hlocal
  rw [nameInBody, if_neg htest]
  rw [names_behind_white, ← drop_sbSkipWhite] at hnames
  exact local_fails fuel { b with src := sbSkipWhite (b.src + 5) l } hnames

/-- A round of the loop over the body gets further, unless a `LOCAL` keeps it. -/
theorem bodyStep_round {fuel : Nat} (hfuel : l.length < fuel) (hfine : LocalFine s l b) :
    Meets (· = Stop.null) (Round (fun _ => True) (fun b => l.length - b.src) (fun _ => True) b)
      (bodyStep s fuel l b) := by
  rw [bodyStep]
  split
  · trivial
  · next hgoes =>
    simp only [not_or, Nat.not_le, ne_eq, Decidable.not_not] at hgoes
    obtain ⟨hlt, herr⟩ := hgoes
    obtain ⟨c, hc⟩ := charAt_lt hlt
    obtain ⟨before, hbefore⟩ := charBefore_ok (Nat.zero_le b.src) fun _ => hlt.le
    have hat : isAt l b.src isNameBeginner = isNameBeginner c := isAt_of_charAt hc _
    -- a branch that gets further
    have hround {x : Except Stop Body} (h : ∃ b', x = .ok b' ∧ b.src < b'.src) :
        Meets (· = Stop.null)
          (Round (fun _ => True) (fun b => l.length - b.src) (fun _ : Body => True) b)
          (x >>= fun b' => .ok (.inl b')) := by
      obtain ⟨b', rfl, hsrc⟩ := h
      refine ⟨trivial, ?_⟩
      simp only
      omega
    simp only [hc, hbefore, bind, Except.bind]
    split_ifs with hamp hback hname hquote hat hdouble hequal
    · exact hround ampersand_goes
    · exact hround backslash_goes
    · exact hround (nameInBody_goes hfuel herr hname.1 (hat.trans hname.2.1) hfine)
    · exact hround ⟨_, rfl, Nat.lt_succ_self _⟩
    · exact hround ⟨_, rfl, by simp only; omega⟩
    · exact hround ⟨_, rfl, Nat.lt_succ_self _⟩
    · refine hround ⟨_, rfl, ?_⟩
      have hskip := le_getToken s.modes (b.src + 2) l
      rw [equalSigns]
      simp only
      omega
    · exact hround ⟨_, rfl, Nat.lt_succ_self _⟩
    · exact hround ⟨_, rfl, Nat.lt_succ_self _⟩

theorem bodyStep_fails {fuel : Nat} (hnot : ¬LocalFine s l b) :
    ∃ e, ¬e = .null ∧ bodyStep s fuel l b = .error e := by
  obtain ⟨hlocal, hnames⟩ := Classical.not_imp.mp hnot
  obtain ⟨e, he, hname⟩ := nameInBody_fails fuel hlocal (Bool.eq_false_iff.mpr hnames)
  obtain ⟨herr, hmode, hbegin, -, -, -, -, hquote⟩ := hlocal
  have hlt := isAt_lt hbegin
  obtain ⟨c, hc⟩ := charAt_lt hlt
  obtain ⟨before, hbefore⟩ := charBefore_ok (Nat.zero_le b.src) fun _ => hlt.le
  rw [isAt_of_charAt hc] at hbegin
  have hamp : c ≠ '&' := by
    rintro rfl
    exact absurd hbegin (by decide)
  have hback : c ≠ '\\' := by
    rintro rfl
    exact absurd hbegin (by decide)
  have hgoes : ¬(l.length ≤ b.src ∨ b.err ≠ none) := by
    rw [herr]
    simp [hlt]
  refine ⟨e, he, ?_⟩
  rw [bodyStep, if_neg hgoes, hc, hbefore]
  simp only [bind, Except.bind, if_neg hamp, if_neg hback]
  rw [if_pos ⟨hmode, hbegin, .inl (by rw [hquote]; rfl)⟩, hname]

end BodyRounds

/-! The arguments -/

/-- What the loop in the syntax of MRI needs behind an argument. -/
def Followed (r : Text) : Prop := ∃ c r', r = c :: r' ∧ (c = ',' → r' ≠ [])

/-- The argument ends in the line: its number has a separator behind it and its strings are closed.
In the syntax of MRI there is more of the line behind it. -/
def ArgumentFine (m : Modes) (macroExpr : MacroExpr) (l : Text) : Argument → Prop
  | .err _ => True
  | .value idx _ => ∃ r, argumentRest m macroExpr l idx = some r ∧ (m.macroMri → Followed r)
  | .vararg _ => m.macroMri = false

/-- The argument that the loop has come to is fine. -/
def CallFine (m : Modes) (macroExpr : MacroExpr) (entry : MacroEntry) (l : Text) (c : Call) :
    Prop :=
  c.idx < l.length → ∀ c' arg, findArgument m entry l c = .ok (c', arg) →
    ArgumentFine m macroExpr l arg

section Arguments
variable {m : Modes} {macroExpr : MacroExpr} {entry : MacroEntry} {l : Text} {c : Call}

theorem length_le_takeWhile {p : Char → Bool} {t u : Text} (hpre : t <+: u)
    (hall : ∀ c ∈ t, p c = true) : t.length ≤ (u.takeWhile p).length := by
  obtain ⟨v, rfl⟩ := hpre
  rw [List.takeWhile_append_of_pos hall, List.length_append]
  exact Nat.le_add_right _ _

theorem not_sep_of_part {ch : Char} (h : isPartOfName ch = true) :
    isSep m ch = false ∧ ch ≠ '\'' ∧ ch ≠ '=' := by
  refine ⟨?_, ?_, ?_⟩
  · rw [Bool.eq_false_iff]
    intro hsep
    simp only [isSep, Bool.or_eq_true, Bool.and_eq_true, decide_eq_true_eq] at hsep
    rcases hsep with ((((((rfl | rfl) | rfl) | rfl) | rfl) | rfl) | rfl) | ⟨-, rfl | rfl⟩ <;>
      exact absurd h (by decide)
  · rintro rfl
    exact absurd h (by decide)
  · rintro rfl
    exact absurd h (by decide)

/-- The name of a keyword argument ends before the equals sign that was seen. -/
theorem token_lt_of_keyword {idx : Nat} (h : isKeywordForm m l idx = true) :
    (getToken m idx l).1 < l.length := by
  rw [isKeywordForm] at h
  simp only [Bool.and_eq_true, Bool.not_eq_true'] at h
  obtain ⟨halternate, hsign⟩ := h
  have hscan := isAt_lt hsign
  have hname := length_le_takeWhile (nameAt_isInitial (l.drop idx))
    (p := fun c => !isSep m c && !(m.macroMri && c = '\'') && (!m.macroAlternate && c ≠ '='))
    fun ch hch => by
      obtain ⟨hsep, hquote, hequal⟩ := not_sep_of_part (m := m) (nameAt_part hch)
      simp [hsep, hquote, hequal, halternate]
  rw [getToken_eq, halternate]
  simp only [Bool.false_and, Bool.false_eq_true, if_false]
  exact (Nat.add_le_add_left hname idx).trans_lt hscan

theorem findArgument_ok (m : Modes) (entry : MacroEntry) (l : Text) (c : Call) :
    ∃ c' arg, findArgument m entry l c = .ok (c', arg) ∧ c'.idx = c.idx ∧
      ∀ start k, arg = .value start k → c.idx ≤ start := by
  rw [findArgument]
  split
  · next hkeyword =>
    have hle := le_getToken m c.idx l
    obtain ⟨ch, hch⟩ := charAt_lt (token_lt_of_keyword hkeyword)
    have hstart {start : Nat} {formal k : Option Nat}
        (h : Argument.value ((getToken m c.idx l).1 + 1) formal = .value start k) :
        c.idx ≤ start := by
      cases h
      omega
    simp only [hch, bind, Except.bind, pure, Except.pure]
    split
    · exact ⟨_, _, rfl, rfl, nofun⟩
    · split
      · exact ⟨_, _, rfl, rfl, fun _ _ => hstart⟩
      · exact ⟨_, _, rfl, rfl, fun _ _ => hstart⟩
  · have hstart {start : Nat} {formal k : Option Nat}
        (h : Argument.value c.idx formal = .value start k) : c.idx ≤ start := by
      cases h
      exact le_rfl
    split
    · exact ⟨_, _, rfl, rfl, nofun⟩
    · split
      · split
        · exact ⟨_, _, rfl, rfl, nofun⟩
        · exact ⟨_, _, rfl, rfl, fun _ _ => hstart⟩
      · split
        · exact ⟨_, _, rfl, rfl, fun _ _ => hstart⟩
        · exact ⟨_, _, rfl, rfl, nofun⟩

/-- The loop gets further with each argument: one that has no character has a comma behind it. -/
theorem argument_progress (hexpr : ∀ idx l, idx ≤ (macroExpr idx l).1) {fuel : Nat}
    (hfuel : l.length < fuel) {idx start idx' : Nat} {out : Text} (hlt : idx < l.length)
    (hstart : idx ≤ start) (h : getAnyString m macroExpr fuel start l = .ok (idx', out)) :
    idx < idx' ∨ (idx' = idx ∧ ∃ r, l.drop idx = ',' :: r) := by
  have hends := getAnyString_ends (m := m) hexpr hfuel start
  have hskip := le_sbSkipWhite start l
  rw [h] at hends
  generalize hrest : argumentRest m macroExpr l start = rest at hends
  cases hends with
  | rest hidx =>
    by_cases hsame : idx' = idx
    · right
      refine ⟨hsame, ?_⟩
      obtain rfl : start = idx := by omega
      have hwhite : sbSkipWhite start l = start := by omega
      cases hr : l.drop start with
      | nil =>
        rw [List.drop_eq_nil_iff] at hr
        omega
      | cons ch r =>
        by_cases hcomma : ch = ','
        · exact ⟨r, by rw [hcomma]⟩
        · have hlen := argumentRest_length hexpr (hwhite.symm ▸ hr) hcomma hrest
          rw [hsame, hr, List.length_cons] at hlen
          omega
    · left
      omega

/-- What is done behind an argument that ends in the line. -/
theorem separate_goes (hmri : m.macroMri = true → Followed (l.drop c.idx)) {idx : Nat}
    (hidx : idx < c.idx ∨ (c.idx = idx ∧ ∃ r, l.drop idx = ',' :: r)) :
    (∃ c', separate m l c = .ok (.inl c') ∧ idx < c'.idx) ∨
      ∃ c', separate m l c = .ok (.inr c') := by
  rw [separate]
  by_cases hm : m.macroMri = true
  · obtain ⟨ch, r, hr, hcomma⟩ := hmri hm
    have hnext : ∃ d, charAt l (if ch = ',' then c.idx + 1 else c.idx) = .ok d := by
      split
      · next h =>
        obtain ⟨d, r', rfl⟩ := List.exists_cons_of_ne_nil (hcomma h)
        exact ⟨d, charAt_cons (drop_succ_of_cons hr)⟩
      · exact ⟨ch, charAt_cons hr⟩
    have hfurther : idx < if ch = ',' then c.idx + 1 else c.idx := by
      rcases hidx with hidx | ⟨hidx, r', hr'⟩
      · split <;> omega
      · rw [hidx, hr'] at hr
        cases hr
        rw [if_pos rfl]
        omega
    obtain ⟨d, hd⟩ := hnext
    rw [if_neg (by simp [hm]), charAt_cons hr]
    simp only [bind, Except.bind, pure, Except.pure, hd]
    split
    · exact .inr ⟨_, rfl⟩
    · exact .inl ⟨_, rfl, hfurther⟩
  · rw [if_pos (by simp [hm])]
    refine .inl ⟨_, rfl, ?_⟩
    rcases hidx with hidx | ⟨hidx, r, hr⟩
    · exact hidx.trans_le (le_sbSkipComma c.idx l)
    · simp only [hidx]
      exact lt_sbSkipComma hr (by simp)

/-- Without more of the line behind the argument the syntax of MRI reads behind the line. -/
theorem separate_fails (hm : m.macroMri = true) (hnot : ¬Followed (l.drop c.idx)) :
    separate m l c = .error .outside := by
  rw [separate, if_neg (by simp [hm])]
  cases hr : l.drop c.idx with
  | nil =>
    rw [charAt_nil hr]
    rfl
  | cons ch r =>
    have hcomma : ch = ',' ∧ r = [] := by
      by_contra hne
      refine hnot ⟨ch, r, hr, fun hch hr => hne ⟨hch, hr⟩⟩
    obtain ⟨rfl, rfl⟩ := hcomma
    simp only [charAt_cons hr, bind, Except.bind, if_true, charAt_nil (drop_succ_of_cons hr)]

theorem assign_idx (c : Call) (idx : Nat) (actual : Text) (formal : Option Nat) :
    (assign c idx actual formal).idx = idx := by
  cases formal <;> rfl

/-- A round of the loop over the arguments gets further where the argument is fine. -/
theorem argumentStep_round (hexpr : ∀ idx l, idx ≤ (macroExpr idx l).1) {fuel : Nat}
    (hfuel : l.length < fuel) (hfine : CallFine m macroExpr entry l c) :
    Meets (· = Stop.null) (Round (fun _ => True) (fun c => l.length - c.idx) (fun _ => True) c)
      (argumentStep m macroExpr fuel entry l c) := by
  rw [argumentStep]
  split
  · trivial
  next hge =>
  have hlt : c.idx < l.length := Nat.lt_of_not_le hge
  obtain ⟨c', arg, hfind, hidx, hstart⟩ := findArgument_ok m entry l c
  have harg := hfine hlt c' arg hfind
  have hround {x : Except Stop (Call ⊕ Call)}
      (h : (∃ c', x = .ok (.inl c') ∧ c.idx < c'.idx) ∨ ∃ c', x = .ok (.inr c')) :
      Meets (· = Stop.null)
        (Round (fun _ => True) (fun c => l.length - c.idx) (fun _ : Call => True) c) x := by
    rcases h with ⟨c', rfl, hidx⟩ | ⟨c', rfl⟩
    · refine ⟨trivial, ?_⟩
      simp only
      omega
    · trivial
  rw [hfind]
  simp only [bind, Except.bind]
  cases arg with
  | err text => trivial
  | value start formal =>
    obtain ⟨rest, hrest, hfollowed⟩ := harg
    have hends := getAnyString_ends (m := m) hexpr hfuel start
    rw [hrest] at hends
    cases hstring : getAnyString m macroExpr fuel start l with
    | error e =>
      rw [hstring] at hends
      cases hends
    | ok res =>
      obtain ⟨idx', out⟩ := res
      have hprogress := argument_progress hexpr hfuel hlt (hstart start formal rfl) hstring
      rw [hstring] at hends
      simp only [hstring]
      refine hround (separate_goes ?_ ?_)
      · intro hm
        rw [assign_idx]
        cases hends
        exact hfollowed hm
      · rw [assign_idx]
        exact hprogress
  | vararg k =>
    refine hround (separate_goes ?_ ?_)
    · intro hm
      rw [show m.macroMri = false from harg] at hm
      cases hm
    · rw [assign_idx]
      exact .inl hlt

/-- And elsewhere it reads behind the line. -/
theorem argumentStep_fails (hexpr : ∀ idx l, idx ≤ (macroExpr idx l).1) {fuel : Nat}
    (hfuel : l.length < fuel) (hnot : ¬CallFine m macroExpr entry l c) :
    ∃ e, ¬e = .null ∧ argumentStep m macroExpr fuel entry l c = .error e := by
  refine ⟨.outside, nofun, ?_⟩
  obtain ⟨hlt, hnot⟩ := Classical.not_imp.mp hnot
  simp only [not_forall] at hnot
  obtain ⟨c', arg, hfind, hnot⟩ := hnot
  rw [argumentStep, if_neg (by omega), hfind]
  simp only [bind, Except.bind]
  cases arg with
  | err text => exact absurd trivial hnot
  | value start formal =>
    have hends := getAnyString_ends (m := m) hexpr hfuel start
    cases hstring : getAnyString m macroExpr fuel start l with
    | error e =>
      rw [hstring] at hends
      simp only [hstring]
      generalize argumentRest m macroExpr l start = rest at hends
      cases hends
      rfl
    | ok res =>
      rw [hstring] at hends
      simp only [hstring]
      generalize hrest : argumentRest m macroExpr l start = rest at hends
      cases hends with
      | @rest idx' out hidx =>
        have hmri : m.macroMri = true ∧ ¬Followed (l.drop idx') := by
          rw [← Classical.not_imp]
          intro hfollowed
          exact hnot ⟨_, hrest, hfollowed⟩
        refine separate_fails hmri.1 ?_
        rw [assign_idx]
        exact hmri.2
  | vararg k =>
    refine separate_fails (Bool.of_not_eq_false hnot) ?_
    rw [assign_idx, List.drop_length]
    rintro ⟨ch, r, hr, -⟩
    cases hr

end Arguments

/-! The call -/

/-- The text of the call and that of the body are read to an end: the qualifier in the syntax of
MRI, each argument that the call comes to, and each `LOCAL` that the expansion comes to. -/
structure ExpandFine (m : Modes) (macroExpr : MacroExpr) (fuel idx : Nat) (l : Text)
    (entry : MacroEntry) (macroNumber loccnt : Nat) : Prop where
  qualifierEnds : m.macroMri → isAt l idx (· = '.') → isAt l (idx + 1) (!isWhite ·) →
    (argumentRest m macroExpr l (idx + 1)).isSome
  argumentsFine (q : Call) : qualifier m macroExpr fuel l (.start idx entry.formals) = .ok q →
    ∀ c, Reached (argumentStep m macroExpr fuel entry l) { q with idx := sbSkipWhite q.idx l } c →
      CallFine m macroExpr entry l c
  bodyFine (c : Call) (formals : List Formal) : actuals m macroExpr fuel idx l entry = .ok c →
    c.err = none → countArguments m c = .ok formals →
    ∀ b, Reached (bodyStep ⟨m, formals, true, macroNumber⟩ fuel entry.sub) (.start loccnt) b →
      LocalFine ⟨m, formals, true, macroNumber⟩ entry.sub b

theorem inside_bind_iff {α β : Type} {x : Except Stop α} {f : α → Except Stop β} :
    Inside (x >>= f) ↔ Inside x ∧ ∀ a, x = .ok a → Inside (f a) := by
  cases x with
  | ok a => simp [Inside, bind, Except.bind]
  | error e => simp [Inside, bind, Except.bind]

section Expand
variable {m : Modes} {macroExpr : MacroExpr} {entry : MacroEntry} {l : Text} {fuel : Nat}

/-- The expansion of a body. -/
theorem body_inside_iff {s : Setting} (hfuel : l.length < fuel) (loccnt : Nat) :
    Inside (macroExpandBody s fuel l loccnt) ↔
      ∀ b, Reached (bodyStep s fuel l) (.start loccnt) b → LocalFine s l b := by
  refine Outcome.iterate_meets_iff (μ := fun b => l.length - b.src) ?_ ?_ nofun ?_
  · intro b _ hfine
    exact bodyStep_round hfuel hfine
  · intro b _ hnot
    exact bodyStep_fails hnot
  · exact (Nat.sub_le _ _).trans_lt hfuel

theorem arguments_inside_iff (hexpr : ∀ idx l, idx ≤ (macroExpr idx l).1)
    (hfuel : l.length < fuel) (c : Call) :
    Inside (iterate (argumentStep m macroExpr fuel entry l) .endless fuel c) ↔
      ∀ c', Reached (argumentStep m macroExpr fuel entry l) c c' →
        CallFine m macroExpr entry l c' := by
  refine Outcome.iterate_meets_iff (μ := fun c => l.length - c.idx) ?_ ?_ nofun ?_
  · intro c _ hfine
    exact argumentStep_round hexpr hfuel hfine
  · intro c _ hnot
    exact argumentStep_fails hexpr hfuel hnot
  · exact (Nat.sub_le _ _).trans_lt hfuel

theorem qualifier_inside_iff (hexpr : ∀ idx l, idx ≤ (macroExpr idx l).1)
    (hfuel : l.length < fuel) (c : Call) :
    Inside (qualifier m macroExpr fuel l c) ↔
      (m.macroMri → isAt l c.idx (· = '.') → isAt l (c.idx + 1) (!isWhite ·) →
        (argumentRest m macroExpr l (c.idx + 1)).isSome) := by
  rw [qualifier]
  by_cases hdot : (m.macroMri && isAt l c.idx (· = '.')) = true
  · obtain ⟨hmri, hat⟩ := Bool.and_eq_true_iff.mp hdot
    by_cases hwhite : isAt l (c.idx + 1) (!isWhite ·) = true
    · simp only [hwhite, hmri, hat, true_implies, Bool.and_self, if_true]
      rw [inside_bind_iff, (getAnyString_ends hexpr hfuel (c.idx + 1)).inside_iff]
      exact and_iff_left fun _ _ => trivial
    · simp only [hdot, hwhite, if_true, Bool.false_eq_true, if_false]
      exact iff_of_true trivial fun _ _ h => h.elim
  · simp only [hdot, Bool.false_eq_true, if_false]
    refine iff_of_true trivial fun hmri hat => absurd ?_ hdot
    exact Bool.and_eq_true_iff.mpr ⟨hmri, hat⟩

theorem countArguments_inside (m : Modes) (c : Call) : Inside (countArguments m c) := by
  rw [countArguments]
  split
  · split
    · rfl
    · trivial
  · trivial

theorem expand_inside_iff (hexpr : ∀ idx l, idx ≤ (macroExpr idx l).1) (hfuel : l.length < fuel)
    (hbody : entry.sub.length < fuel) (idx macroNumber loccnt : Nat) :
    Inside (macroExpand m macroExpr fuel idx l entry macroNumber loccnt) ↔
      ExpandFine m macroExpr fuel idx l entry macroNumber loccnt := by
  have hactuals : Inside (actuals m macroExpr fuel idx l entry) ↔
      (m.macroMri → isAt l idx (· = '.') → isAt l (idx + 1) (!isWhite ·) →
        (argumentRest m macroExpr l (idx + 1)).isSome) ∧
      ∀ q, qualifier m macroExpr fuel l (.start idx entry.formals) = .ok q → ∀ c,
        Reached (argumentStep m macroExpr fuel entry l) { q with idx := sbSkipWhite q.idx l } c →
          CallFine m macroExpr entry l c := by
    rw [actuals, inside_bind_iff, qualifier_inside_iff hexpr hfuel]
    simp only [arguments_inside_iff hexpr hfuel]
    rfl
  rw [macroExpand, inside_bind_iff, hactuals]
  constructor
  · rintro ⟨⟨hqualifier, harguments⟩, hrest⟩
    refine ⟨hqualifier, harguments, ?_⟩
    intro c formals hc herr hcount
    have hexpands := hrest c hc
    simp only [herr, hcount] at hexpands
    have hexpands := (inside_bind_iff.mp hexpands).2 formals rfl
    exact (body_inside_iff hbody loccnt).mp (inside_bind_iff.mp hexpands).1
  · rintro ⟨hqualifier, harguments, hbodyFine⟩
    refine ⟨⟨hqualifier, harguments⟩, ?_⟩
    intro c hc
    cases herr : c.err with
    | some err => trivial
    | none =>
      simp only
      rw [inside_bind_iff]
      refine ⟨countArguments_inside m c, ?_⟩
      intro formals hcount
      rw [inside_bind_iff]
      refine ⟨(body_inside_iff hbody loccnt).mpr (hbodyFine c formals hc herr hcount), ?_⟩
      exact fun _ _ => trivial

/-- The loops over the text of a call and over the body of its macro end inside their texts just
when what they read is ended in them. -/
theorem reads_inside_iff (m : Modes) (macroExpr : MacroExpr) (fuel idx : Nat) (l acc : Text)
    (s : Setting) (entry : MacroEntry) (macroNumber loccnt : Nat)
    (hexpr : ∀ idx l, idx ≤ (macroExpr idx l).1) (hfuel : l.length < fuel)
    (hbody : entry.sub.length < fuel) :
    (Inside (getstring m fuel idx l acc) ↔ (stringRest m .between (l.drop idx)).isSome) ∧
      (Inside (getAnyString m macroExpr fuel idx l) ↔ (argumentRest m macroExpr l idx).isSome) ∧
      (Inside (macroExpandBody s fuel l loccnt) ↔
        ∀ b, Reached (bodyStep s fuel l) (.start loccnt) b → LocalFine s l b) ∧
      (Inside (macroExpand m macroExpr fuel idx l entry macroNumber loccnt) ↔
        ExpandFine m macroExpr fuel idx l entry macroNumber loccnt) := by
  refine ⟨?_, ?_, ?_, ?_⟩
  · exact (getstring_ends hfuel idx acc).inside_iff
  · exact (getAnyString_ends hexpr hfuel idx).inside_iff
  · exact body_inside_iff hfuel loccnt
  · exact expand_inside_iff hexpr hfuel hbody idx macroNumber loccnt

end Expand

/-- The call ` 5,b'1 ` of a macro with two parameters. -/
theorem separated_number_read :
    Inside (macroExpand defaultSyntax (fun idx _ => (idx, 0)) 20 0
      [' ', '5', ',', 'b', '\'', '1', ' ']
      ⟨['m'], [⟨['x'], [], [], 0, .optional, true⟩, ⟨['y'], [], [], 1, .optional, true⟩],
        ['\\', 'x']⟩ 0 0) ∧
      ExpandFine defaultSyntax (fun idx _ => (idx, 0)) 20 0 [' ', '5', ',', 'b', '\'', '1', ' ']
        ⟨['m'], [⟨['x'], [], [], 0, .optional, true⟩, ⟨['y'], [], [], 1, .optional, true⟩],
          ['\\', 'x']⟩ 0 0 := by
  have hreads := reads_inside_iff defaultSyntax (fun idx _ => (idx, 0)) 20 0
    [' ', '5', ',', 'b', '\'', '1', ' '] [] ⟨defaultSyntax, [], true, 0⟩
    ⟨['m'], [⟨['x'], [], [], 0, .optional, true⟩, ⟨['y'], [], [], 1, .optional, true⟩],
      ['\\', 'x']⟩ 0 0 (fun _ _ => le_rfl) (by decide) (by decide)
  have hinside : Inside (macroExpand defaultSyntax (fun idx _ => (idx, 0)) 20 0
      [' ', '5', ',', 'b', '\'', '1', ' ']
      ⟨['m'], [⟨['x'], [], [], 0, .optional, true⟩, ⟨['y'], [], [], 1, .optional, true⟩],
        ['\\', 'x']⟩ 0 0) := trivial
  exact ⟨hinside, hreads.2.2.2.mp hinside⟩

/-- With `b'101` at its end the line of a call is read behind its end. -/
theorem number_at_end_outside :
    macroExpand defaultSyntax (fun idx _ => (idx, 0)) 20 0 [' ', 'b', '\'', '1', '0', '1']
        ⟨['m'], [⟨['x'], [], [], 0, .optional, true⟩], ['\\', 'x']⟩ 0 0 = .error .outside ∧
      ¬Inside (macroExpand defaultSyntax (fun idx _ => (idx, 0)) 20 0
        [' ', 'b', '\'', '1', '0', '1']
        ⟨['m'], [⟨['x'], [], [], 0, .optional, true⟩], ['\\', 'x']⟩ 0 0) := by
  refine ⟨rfl, ?_⟩
  intro h
  cases (h : Stop.outside = .null)

end FusionBinutils.Gas.Macro
