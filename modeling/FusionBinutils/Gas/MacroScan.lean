import FusionBinutils.Gas.MacroBody

/-! The expansion of a body in the default syntax, form by form. -/
namespace FusionBinutils.Gas.Macro

open Cond (Text isNameBeginner isPartOfName)
open Outcome (iterate)

/-- The name that a text begins with. -/
def nameAt : Text → Text
  | [] => []
  | c :: l => if isNameBeginner c then c :: l.takeWhile isPartOfName else []

/-- One, if the character is there to be taken with what is before it. -/
def taken (c : Char) (l : Text) : Nat := if l.head? = some c then 1 else 0

variable (asDesigned : Bool) (value : Text → Option Text) (number : Text)

/-- What takes the place of a backslash with what is behind it, and the length of both. By its
design the expansion leaves `\&` to the preprocessor. -/
def backslashForm (l : Text) : Text × Nat :=
  if l.head? = some '(' then
    if ')' ∈ l then (l.tail.takeWhile (· ≠ ')'), (l.tail.takeWhile (· ≠ ')')).length + 3)
    else (['\\'], 1)
  else if l.head? = some '@' then (number, 2)
  else if l.head? = some '&' ∧ asDesigned then (['\\', '&'], 2)
  else
    match value (nameAt l) with
    | some text =>
      (text, 1 + (nameAt l).length + taken '\'' (l.drop (nameAt l).length))
    | none => ('\\' :: nameAt l, 1 + (nameAt l).length)

/-- What takes the place of an `&` with what is behind it, and the length of both. By its design
the expansion keeps a second `&` behind a name that is no formal with the name. -/
def ampersandForm (l : Text) : Text × Nat :=
  let suffix := taken '&' (l.drop (nameAt l).length)
  match value (nameAt l) with
  | some text => (text, 1 + (nameAt l).length + suffix)
  | none =>
    if asDesigned then
      ('&' :: nameAt l ++ List.replicate suffix '&', 1 + (nameAt l).length + suffix)
    else ('&' :: nameAt l, 1 + (nameAt l).length)

/-- The form that a text begins with: what takes its place, and its length. -/
def form : Text → Text × Nat
  | [] => ([], 0)
  | c :: l =>
    if c = '\\' then backslashForm asDesigned value number l
    else if c = '&' then ampersandForm asDesigned value l
    else ([c], 1)

/-- A text with each of its forms replaced; the number counts what is left of the last form. -/
def scan (f : Text → Text × Nat) : Nat → Text → Text
  | _, [] => []
  | skip + 1, _ :: l => scan f skip l
  | 0, c :: l => (f (c :: l)).1 ++ scan f ((f (c :: l)).2 - 1) l

/-- What holds at every place where a form begins. -/
def AtForms (f : Text → Text × Nat) (P : Text → Prop) : Nat → Text → Prop
  | _, [] => True
  | skip + 1, _ :: l => AtForms f P skip l
  | 0, c :: l => P (c :: l) ∧ AtForms f P ((f (c :: l)).2 - 1) l

/-- A name behind a backslash that is no formal, with a quote behind it. -/
def LosesQuote (l : Text) : Prop :=
  ∃ r, l = '\\' :: r ∧ r.head? ∉ [some '(', some '@', some '&'] ∧ value (nameAt r) = none ∧
    (r.drop (nameAt r).length).head? = some '\''

/-- A parenthesis behind a backslash that is not closed. -/
def Unclosed (l : Text) : Prop := ∃ r, l = '\\' :: '(' :: r ∧ ')' ∉ r

instance decidableAtForms (f : Text → Text × Nat) (P : Text → Prop) [DecidablePred P] :
    ∀ n l, Decidable (AtForms f P n l)
  | 0, [] | _ + 1, [] => .isTrue trivial
  | skip + 1, _ :: l => decidableAtForms f P skip l
  | 0, c :: l => @instDecidableAnd _ _ _ (decidableAtForms f P ((f (c :: l)).2 - 1) l)

instance : DecidablePred (LosesQuote value)
  | [] => .isFalse fun ⟨_, h, _⟩ => nomatch h
  | c :: r =>
    decidable_of_iff (c = '\\' ∧ r.head? ∉ [some '(', some '@', some '&'] ∧
        value (nameAt r) = none ∧ (r.drop (nameAt r).length).head? = some '\'')
      ⟨fun ⟨hc, h⟩ => ⟨r, hc ▸ rfl, h⟩, fun ⟨_, heq, h⟩ => by cases heq; exact ⟨rfl, h⟩⟩

instance : DecidablePred Unclosed
  | [] | [_] => .isFalse fun ⟨_, h, _⟩ => nomatch h
  | c :: d :: r =>
    decidable_of_iff (c = '\\' ∧ d = '(' ∧ ')' ∉ r)
      ⟨fun ⟨hc, hd, h⟩ => ⟨r, hc ▸ hd ▸ rfl, h⟩,
        fun ⟨_, heq, h⟩ => by cases heq; exact ⟨rfl, rfl, h⟩⟩

/-- The value of a name: its formal's actual, or its default when that is empty. -/
def valueOf (formals : List Formal) (name : Text) : Option Text :=
  (formals.find? fun f => f.hashed && f.name = name).map Formal.value

section Scan
variable {f : Text → Text × Nat} {P : Text → Prop} {l : Text}

theorem scan_drop (n : Nat) : scan f n l = scan f 0 (l.drop n) := by
  induction n generalizing l with
  | zero => rfl
  | succ n ih =>
    cases l with
    | nil => simp [scan]
    | cons c l => rw [scan, ih, List.drop_succ_cons]

theorem atForms_drop (n : Nat) : AtForms f P n l ↔ AtForms f P 0 (l.drop n) := by
  induction n generalizing l with
  | zero => rfl
  | succ n ih =>
    cases l with
    | nil => simp [AtForms]
    | cons c l => rw [AtForms, ih, List.drop_succ_cons]

/-- The scan goes form by form. -/
theorem scan_form (hne : l ≠ []) (hpos : 0 < (f l).2) :
    scan f 0 l = (f l).1 ++ scan f 0 (l.drop (f l).2) := by
  obtain ⟨c, l, rfl⟩ := List.exists_cons_of_ne_nil hne
  obtain ⟨n, hn⟩ : ∃ n, (f (c :: l)).2 = n + 1 := ⟨(f (c :: l)).2 - 1, by omega⟩
  rw [scan, scan_drop, hn, List.drop_succ_cons]
  rfl

theorem atForms_form (hne : l ≠ []) (hpos : 0 < (f l).2) :
    AtForms f P 0 l ↔ P l ∧ AtForms f P 0 (l.drop (f l).2) := by
  obtain ⟨c, l, rfl⟩ := List.exists_cons_of_ne_nil hne
  obtain ⟨n, hn⟩ : ∃ n, (f (c :: l)).2 = n + 1 := ⟨(f (c :: l)).2 - 1, by omega⟩
  rw [AtForms, atForms_drop, hn, List.drop_succ_cons]
  rfl

theorem form_pos (asDesigned : Bool) (value : Text → Option Text) (number : Text) (hne : l ≠ []) :
    0 < (form asDesigned value number l).2 := by
  obtain ⟨c, l, rfl⟩ := List.exists_cons_of_ne_nil hne
  have hbackslash : 0 < (backslashForm asDesigned value number l).2 := by
    unfold backslashForm
    split_ifs
    · exact Nat.succ_pos _
    · exact Nat.one_pos
    · exact Nat.two_pos
    · exact Nat.two_pos
    · split <;> simp only <;> omega
  have hampersand : 0 < (ampersandForm asDesigned value l).2 := by
    unfold ampersandForm
    split
    · simp only
      omega
    · split_ifs <;> simp only <;> omega
  rw [form]
  split_ifs
  · exact hbackslash
  · exact hampersand
  · exact Nat.one_pos

end Scan

/-! From indices to what is left of the text -/

theorem isAt_eq (l : Text) (idx : Nat) (c : Char) :
    isAt l idx (· = c) = decide ((l.drop idx).head? = some c) := by
  rw [isAt, List.head?_drop]
  cases l[idx]? with
  | none => rfl
  | some d => simp

theorem nameAt_isInitial (l : Text) : nameAt l <+: l := by
  cases l with
  | nil => exact List.nil_prefix
  | cons c l =>
    rw [nameAt]
    split
    · exact List.cons_prefix_cons.mpr ⟨rfl, List.takeWhile_prefix _⟩
    · exact List.nil_prefix

theorem nameAt_append (l : Text) : nameAt l ++ l.drop (nameAt l).length = l :=
  List.prefix_iff_eq_append.mp (nameAt_isInitial l)

theorem nameAt_part {l : Text} {c : Char} (h : c ∈ nameAt l) : isPartOfName c := by
  cases l with
  | nil => cases h
  | cons d l =>
    rw [nameAt] at h
    split at h
    · next hd =>
      rcases List.mem_cons.mp h with rfl | h
      · rw [isPartOfName, hd]
        rfl
      · exact List.mem_takeWhile_imp h
    · cases h

theorem getToken_eq (m : Modes) (idx : Nat) (l : Text) : getToken m idx l =
    (if m.macroAlternate && isAt l (idx + (nameAt (l.drop idx)).length) (· = '&')
      then idx + (nameAt (l.drop idx)).length + 1 else idx + (nameAt (l.drop idx)).length,
      nameAt (l.drop idx)) := by
  have hname : (if isAt l idx isNameBeginner then
      (l.drop idx).take 1 ++ run isPartOfName l (idx + 1) else []) = nameAt (l.drop idx) := by
    rw [isAt, run, ← List.head?_drop, ← List.tail_drop]
    cases l.drop idx with
    | nil => rfl
    | cons c r => rfl
  simp only [getToken, hname]

theorem getToken_default (idx : Nat) (l : Text) : getToken defaultSyntax idx l =
    (idx + (nameAt (l.drop idx)).length, nameAt (l.drop idx)) := by
  rw [getToken_eq]
  rfl

theorem getApostToken_default (idx : Nat) (l : Text) (kind : Char) :
    getApostToken defaultSyntax idx l kind =
      (idx + (nameAt (l.drop idx)).length +
        taken kind ((l.drop idx).drop (nameAt (l.drop idx)).length), nameAt (l.drop idx)) := by
  rw [getApostToken, getToken_default]
  simp only [isAt_eq, defaultSyntax, taken, List.drop_drop]
  split <;> simp_all

theorem charAt_eq {l : Text} {idx : Nat} {c : Char} (h : (l.drop idx).head? = some c) :
    charAt l idx = .ok c := by
  rw [List.head?_drop] at h
  rw [charAt, h]

theorem charBefore_ok {l : Text} {start src : Nat} (hle : start ≤ src)
    (hlen : src ≠ start → src ≤ l.length) : ∃ before, charBefore l start src = .ok before := by
  rw [charBefore]
  split
  · exact ⟨none, rfl⟩
  · next hne =>
    have hlen := hlen hne
    refine ⟨some l[src - 1], ?_⟩
    rw [charAt, List.getElem?_eq_getElem (by omega)]
    rfl

/-- The character before the place behind a token, where there is a token. -/
theorem last_of_name {l : Text} {start : Nat} (hne : nameAt (l.drop start) ≠ []) :
    ∃ c, isPartOfName c ∧ charAt l (start + (nameAt (l.drop start)).length - 1) = .ok c := by
  obtain ⟨name, c, hname⟩ := (List.eq_nil_or_concat _).resolve_left hne
  rw [List.concat_eq_append] at hname
  refine ⟨c, nameAt_part (l := l.drop start) (by rw [hname]; simp), ?_⟩
  apply charAt_eq
  have happ := nameAt_append (l.drop start)
  rw [hname] at happ ⊢
  have hidx : start + (name ++ [c]).length - 1 = start + name.length := by simp
  rw [hidx, ← List.drop_drop, ← happ]
  simp

section Step
variable {s : Setting} {l : Text} {b : Body}

/-- What `sub_actual` puts out in the default syntax. -/
def substituted (formals : List Formal) (kind : Char) (r : Text) : Text :=
  match valueOf formals (nameAt r) with
  | some text => text
  | none =>
    if kind = '&' then
      '&' :: nameAt r ++ List.replicate (taken '&' (r.drop (nameAt r).length)) '&'
    else '\\' :: nameAt r

/-- `sub_actual` tells by the last character whether the token took the second `&`. -/
theorem last_of_token {kind : Char} (hkind : isPartOfName kind = false) {start src : Nat}
    (hsrc : start + (nameAt (l.drop start)).length +
      taken kind ((l.drop start).drop (nameAt (l.drop start)).length) = src) :
    (src = start ∧ taken kind ((l.drop start).drop (nameAt (l.drop start)).length) = 0) ∨
      (src ≠ start ∧ ∃ c, charAt l (src - 1) = .ok c ∧
        taken kind ((l.drop start).drop (nameAt (l.drop start)).length) =
          if c = kind then 1 else 0) := by
  subst src
  by_cases hhead : ((l.drop start).drop (nameAt (l.drop start)).length).head? = some kind
  · have htaken : taken kind ((l.drop start).drop (nameAt (l.drop start)).length) = 1 :=
      if_pos hhead
    rw [htaken]
    refine .inr ⟨by omega, kind, ?_, (if_pos rfl).symm⟩
    rw [List.drop_drop] at hhead
    rw [Nat.add_sub_cancel, charAt_eq hhead]
  · have htaken : taken kind ((l.drop start).drop (nameAt (l.drop start)).length) = 0 :=
      if_neg hhead
    rw [htaken, Nat.add_zero]
    by_cases hne : nameAt (l.drop start) = []
    · refine .inl ⟨?_, rfl⟩
      rw [hne, List.length_nil, Nat.add_zero]
    · obtain ⟨c, hpart, hc⟩ := last_of_name hne
      have hpos : 0 < (nameAt (l.drop start)).length := List.length_pos_of_ne_nil hne
      refine .inr ⟨by omega, c, hc, (if_neg ?_).symm⟩
      rintro rfl
      rw [hpart] at hkind
      cases hkind

theorem subActual_default (hs : s.modes = defaultSyntax) (hloc : b.loclist = []) (start : Nat)
    (kind : Char) (hkind : isPartOfName kind = false) :
    subActual s l b start kind false = .ok { b with
      src := start + (nameAt (l.drop start)).length +
        taken kind ((l.drop start).drop (nameAt (l.drop start)).length)
      out := b.out ++ substituted s.formals kind (l.drop start) } := by
  have hfind (name : Text) :
      hashFind s b name = s.formals.find? fun f => f.hashed && f.name = name := by
    rw [hashFind, hloc, List.nil_append]
  rw [subActual, hs, getApostToken_default]
  generalize hsrc : start + (nameAt (l.drop start)).length +
    taken kind ((l.drop start).drop (nameAt (l.drop start)).length) = src
  simp only [defaultSyntax, Bool.false_eq_true, false_and, if_false, hfind, substituted, valueOf]
  rcases last_of_token hkind hsrc with ⟨heq, htaken⟩ | ⟨hneq, c, hc, htaken⟩
  · rw [charBefore, if_pos heq]
    cases s.formals.find? fun f => f.hashed && f.name = nameAt (l.drop start) with
    | some f => rfl
    | none =>
      by_cases hk : kind = '&'
      · subst hk
        rw [htaken]
        rfl
      · simp [hk, pure, Except.pure, bind, Except.bind]
  · rw [charBefore, if_neg hneq, hc]
    cases s.formals.find? fun f => f.hashed && f.name = nameAt (l.drop start) with
    | some f => rfl
    | none =>
      by_cases hk : kind = '&'
      · subst hk
        rw [htaken]
        by_cases hc : c = '&' <;> simp [hc, pure, Except.pure, bind, Except.bind]
      · simp [hk, pure, Except.pure, bind, Except.bind]

/-- The loop has gone over a form. -/
structure Advanced (b b' : Body) (p : Text × Nat) : Prop where
  src : b'.src = b.src + p.2
  out : b'.out = b.out ++ p.1
  loclist : b'.loclist = []
  err : b'.err = none
  reports : b'.reports = b.reports

theorem closes_iff (r : Text) : (r.takeWhile (· ≠ ')')).length < r.length ↔ ')' ∈ r := by
  induction r with
  | nil => simp
  | cons c r ih =>
    by_cases hc : c = ')'
    · subst hc
      simp
    · have hne : ')' ≠ c := fun h => hc h.symm
      simpa [List.takeWhile_cons, hc, hne] using ih

theorem isPartOfName_quote : isPartOfName '\'' = false := by decide

theorem isPartOfName_ampersand : isPartOfName '&' = false := by decide

theorem ampersand_default (hs : s.modes = defaultSyntax) (hloc : b.loclist = [])
    (herr : b.err = none) {r : Text} (hr : l.drop (b.src + 1) = r) :
    ∃ b', ampersand s l b = .ok b' ∧
      Advanced b b' (ampersandForm true (valueOf s.formals) r) := by
  have hsub := subActual_default (l := l) hs hloc (b.src + 1) '&' isPartOfName_ampersand
  have hmri : ¬s.modes.macroMri = true := by
    rw [hs]
    exact Bool.false_ne_true
  rw [hr] at hsub
  refine ⟨_, (if_neg hmri).trans hsub, ?_⟩
  rw [ampersandForm, substituted]
  cases valueOf s.formals (nameAt r) with
  | some text => exact ⟨by simp only; omega, rfl, hloc, herr, rfl⟩
  | none => exact ⟨by simp only [if_true]; omega, rfl, hloc, herr, rfl⟩

/-- A backslash before a token. -/
theorem backslash_token (hs : s.modes = defaultSyntax) (hloc : b.loclist = [])
    (herr : b.err = none) {r : Text} (hr : l.drop (b.src + 1) = r)
    (hhead : r.head? ∉ [some '(', some '@', some '&'])
    (hquote : ¬LosesQuote (valueOf s.formals) ('\\' :: r)) (number : Text) :
    ∃ b', backslash s l b = .ok b' ∧
      Advanced b b' (backslashForm true (valueOf s.formals) number r) := by
  have hsub := subActual_default (l := l) (b := { b with src := b.src + 1 }) hs hloc (b.src + 1)
    '\'' isPartOfName_quote
  rw [hr] at hsub
  simp only [List.mem_cons, List.not_mem_nil, or_false, not_or] at hhead
  obtain ⟨hopen, hat, hamp⟩ := hhead
  have hmri : ¬(s.modes.macroMri = true ∧ isAt l (b.src + 1) Char.isAlphanum = true) := by
    rw [hs]
    exact fun h => Bool.false_ne_true h.1
  have hcode : backslash s l b =
      subActual s l { b with src := b.src + 1 } (b.src + 1) '\'' false := by
    rw [backslash]
    simp only [isAt_eq, hr, hopen, hat, hamp, decide_false, Bool.false_eq_true, if_false, hmri]
  refine ⟨_, hcode.trans hsub, ?_⟩
  rw [backslashForm, if_neg hopen, if_neg hat, if_neg (fun h => hamp h.1), substituted]
  cases hvalue : valueOf s.formals (nameAt r) with
  | some text => exact ⟨by simp only; omega, rfl, hloc, herr, rfl⟩
  | none =>
    have htaken : taken '\'' (r.drop (nameAt r).length) = 0 := by
      apply if_neg
      intro hhead
      exact hquote ⟨r, rfl, by simp [hopen, hat, hamp], hvalue, hhead⟩
    rw [htaken]
    exact ⟨by simp only; omega, rfl, hloc, herr, rfl⟩

/-- A backslash before a parenthesis: what is up to the closing one is copied. -/
theorem backslash_literal {r : Text} (hr : l.drop (b.src + 1) = '(' :: r) :
    backslash s l b = .ok
      (if ')' ∈ r then
        { b with
          src := b.src + 3 + (r.takeWhile (· ≠ ')')).length
          out := b.out ++ r.takeWhile (· ≠ ')') }
      else if s.ofMacro then
        { b with
          src := l.length
          out := b.out ++ r
          reports := b.reports ++ [(b.macroLine, "missing `)'")] }
      else
        { b with
          src := l.length
          out := b.out ++ r
          err := some "missing `)'" }) := by
  have hrest : l.drop (b.src + 1 + 1) = r := by
    rw [← List.drop_drop, hr, List.drop_one, List.tail_cons]
  have hlen : l.length = b.src + 1 + 1 + r.length := by
    have hlen := congrArg List.length hr
    simp only [List.length_drop, List.length_cons] at hlen
    omega
  rw [backslash]
  simp only [isAt_eq, hr, List.head?_cons, decide_true, if_true, run, hrest]
  by_cases hmem : ')' ∈ r
  · have hlt := (closes_iff r).mpr hmem
    rw [if_pos hmem, if_pos (by omega)]
    simp only [pure, Except.pure]
    congr 2
    omega
  · have hwhole : r.takeWhile (· ≠ ')') = r := by
      rw [List.takeWhile_eq_self_iff]
      intro c hc
      simp only [ne_eq, decide_not, Bool.not_eq_true', decide_eq_false_iff_not]
      rintro rfl
      exact hmem hc
    rw [if_neg hmem, hwhole, hlen, if_neg (by omega)]
    split <;> rfl

theorem backslash_default (hs : s.modes = defaultSyntax) (hloc : b.loclist = [])
    (herr : b.err = none) {r : Text} (hr : l.drop (b.src + 1) = r)
    (hquote : ¬LosesQuote (valueOf s.formals) ('\\' :: r)) (hclosed : ¬Unclosed ('\\' :: r)) :
    ∃ b', backslash s l b = .ok b' ∧
      Advanced b b'
        (backslashForm true (valueOf s.formals) (Nat.toDigits 10 s.macroNumber) r) := by
  by_cases hopen : r.head? = some '('
  · obtain ⟨r, rfl⟩ : ∃ t, r = '(' :: t := by
      cases r with
      | nil => cases hopen
      | cons c r =>
        cases hopen
        exact ⟨r, rfl⟩
    have hmem : ')' ∈ r := Classical.byContradiction fun h => hclosed ⟨r, rfl, h⟩
    refine ⟨_, backslash_literal hr, ?_⟩
    rw [if_pos hmem, backslashForm, if_pos hopen, if_pos (List.mem_cons_of_mem _ hmem)]
    exact ⟨by simp only [List.tail_cons]; omega, rfl, hloc, herr, rfl⟩
  by_cases hat : r.head? = some '@'
  · refine ⟨{ b with src := b.src + 2, out := b.out ++ Nat.toDigits 10 s.macroNumber }, ?_, ?_⟩
    · rw [backslash]
      simp only [isAt_eq, hr, hat]
      rfl
    · rw [backslashForm, if_neg hopen, if_pos hat]
      exact ⟨rfl, rfl, hloc, herr, rfl⟩
  by_cases hamp : r.head? = some '&'
  · refine ⟨{ b with src := b.src + 2, out := b.out ++ ['\\', '&'] }, ?_, ?_⟩
    · rw [backslash]
      simp only [isAt_eq, hr, hamp]
      rfl
    · rw [backslashForm, if_neg hopen, if_neg hat, if_pos ⟨hamp, rfl⟩]
      exact ⟨rfl, rfl, hloc, herr, rfl⟩
  apply backslash_token hs hloc herr hr ?_ hquote
  simp [hopen, hat, hamp]

/-- A round of the loop in the default syntax. -/
theorem bodyStep_eq (hs : s.modes = defaultSyntax) (herr : b.err = none) (fuel : Nat) {c : Char}
    {r : Text} (hr : l.drop b.src = c :: r) :
    bodyStep s fuel l b =
      if c = '&' then .inl <$> ampersand s l b
      else if c = '\\' then .inl <$> backslash s l b
      else if c = '"' then
        .ok (.inl { b with src := b.src + 1, out := b.out ++ [c], inquote := !b.inquote })
      else
        .ok (.inl { b with
          src := b.src + 1
          out := b.out ++ [c]
          macroLine := if c = '\n' then b.macroLine + 1 else b.macroLine }) := by
  have hlt : b.src < l.length := by
    by_contra hge
    rw [List.drop_of_length_le (Nat.le_of_not_lt hge)] at hr
    cases hr
  have hc : charAt l b.src = .ok c := charAt_eq (by rw [hr, List.head?_cons])
  obtain ⟨before, hbefore⟩ := charBefore_ok (Nat.zero_le b.src) fun _ => hlt.le
  have hgoes : ¬(l.length ≤ b.src ∨ b.err ≠ none) := by
    rw [herr]
    simp [hlt]
  rw [bodyStep, if_neg hgoes, hc, hs]
  simp only [defaultSyntax, Bool.false_eq_true, or_false, false_and, and_false, if_false]
  rw [hbefore]
  rfl

/-- A round of the loop goes over one form. -/
theorem bodyStep_default (hs : s.modes = defaultSyntax) (hloc : b.loclist = [])
    (herr : b.err = none) (fuel : Nat) {r : Text} (hr : l.drop b.src = r) (hne : r ≠ [])
    (hquote : ¬LosesQuote (valueOf s.formals) r) (hclosed : ¬Unclosed r) :
    ∃ b', bodyStep s fuel l b = .ok (.inl b') ∧
      Advanced b b' (form true (valueOf s.formals) (Nat.toDigits 10 s.macroNumber) r) := by
  obtain ⟨c, r, rfl⟩ := List.exists_cons_of_ne_nil hne
  have hnext : l.drop (b.src + 1) = r := by
    rw [← List.drop_drop, hr, List.drop_one, List.tail_cons]
  rw [bodyStep_eq hs herr fuel hr, form]
  by_cases hamp : c = '&'
  · subst hamp
    obtain ⟨b', hstep, hadv⟩ := ampersand_default hs hloc herr hnext
    refine ⟨b', ?_, hadv⟩
    rw [if_pos rfl, hstep]
    rfl
  by_cases hback : c = '\\'
  · subst hback
    obtain ⟨b', hstep, hadv⟩ := backslash_default hs hloc herr hnext hquote hclosed
    refine ⟨b', ?_, hadv⟩
    rw [if_neg hamp, if_pos rfl, hstep]
    rfl
  rw [if_neg hamp, if_neg hback, if_neg hback, if_neg hamp]
  by_cases hquotes : c = '"'
  · rw [if_pos hquotes]
    exact ⟨_, rfl, rfl, rfl, hloc, herr, rfl⟩
  · rw [if_neg hquotes]
    exact ⟨_, rfl, rfl, rfl, hloc, herr, rfl⟩

theorem bodyStep_unclosed (hs : s.modes = defaultSyntax) (herr : b.err = none) (fuel : Nat)
    (hclosed : Unclosed (l.drop b.src)) :
    ∃ b', bodyStep s fuel l b = .ok (.inl b') ∧ b'.src = l.length ∧
      (b'.err ≠ none ∨ b.reports.length < b'.reports.length) := by
  obtain ⟨r, hr, hmem⟩ := hclosed
  have hnext : l.drop (b.src + 1) = '(' :: r := by
    rw [← List.drop_drop, hr, List.drop_one, List.tail_cons]
  have hamp : ¬('\\' = '&') := by decide
  rw [bodyStep_eq hs herr fuel hr, if_neg hamp, if_pos rfl, backslash_literal hnext, if_neg hmem]
  split
  · exact ⟨_, rfl, rfl, .inr (by simp)⟩
  · exact ⟨_, rfl, rfl, .inl (by simp)⟩

/-- At the end of the text the loop is done. -/
theorem bodyStep_end (fuel : Nat) (hend : l.length ≤ b.src) :
    bodyStep s fuel l b = .ok (.inr b) := if_pos (.inl hend)

end Step

/-- The loop over what is left of the body: with each `\(` closed it makes the scan, and else it
reports the first that is not. -/
theorem iterate_default {s : Setting} {l : Text} {f : Text → Text × Nat}
    (hs : s.modes = defaultSyntax)
    (hf : f = form true (valueOf s.formals) (Nat.toDigits 10 s.macroNumber)) (fuel n : Nat) :
    ∀ b : Body, b.loclist = [] → b.err = none → l.length - b.src < n →
      AtForms f (fun r => ¬LosesQuote (valueOf s.formals) r) 0 (l.drop b.src) →
      ∃ b', iterate (bodyStep s fuel l) .endless n b = .ok b' ∧
        (AtForms f (fun r => ¬Unclosed r) 0 (l.drop b.src) →
          b'.err = none ∧ b'.reports = b.reports ∧ b'.out = b.out ++ scan f 0 (l.drop b.src)) ∧
        (¬AtForms f (fun r => ¬Unclosed r) 0 (l.drop b.src) →
          b'.err ≠ none ∨ b.reports.length < b'.reports.length) := by
  induction n with
  | zero =>
    intro b _ _ hn
    exact absurd hn (Nat.not_lt_zero _)
  | succ n ih =>
    intro b hloc herr hn hquotes
    by_cases hend : l.length ≤ b.src
    · refine ⟨b, ?_, ?_, ?_⟩
      · rw [iterate, bodyStep_end fuel hend]
      · intro _
        rw [List.drop_of_length_le hend, scan, List.append_nil]
        exact ⟨herr, rfl, rfl⟩
      · intro hopen
        rw [List.drop_of_length_le hend] at hopen
        exact absurd trivial hopen
    have hne : l.drop b.src ≠ [] := by
      intro hnil
      exact hend (List.drop_eq_nil_iff.mp hnil)
    have hpos : 0 < (f (l.drop b.src)).2 := by
      rw [hf]
      exact form_pos _ _ _ hne
    obtain ⟨hquote, hquotes⟩ := (atForms_form hne hpos).mp hquotes
    by_cases hclosed : Unclosed (l.drop b.src)
    · obtain ⟨b', hstep, hsrc, hreport⟩ := bodyStep_unclosed hs herr fuel hclosed
      have hend : bodyStep s fuel l b' = .ok (.inr b') := bodyStep_end fuel hsrc.ge
      obtain ⟨m, rfl⟩ : ∃ m, n = m + 1 := ⟨n - 1, by omega⟩
      refine ⟨b', ?_, ?_, fun _ => hreport⟩
      · rw [iterate, hstep]
        simp only [iterate, hend]
      · intro hall
        exact absurd hclosed ((atForms_form hne hpos).mp hall).1
    · obtain ⟨b', hstep, hadv⟩ := bodyStep_default hs hloc herr fuel rfl hne hquote hclosed
      rw [← hf] at hadv
      have hdrop : (l.drop b.src).drop (f (l.drop b.src)).2 = l.drop b'.src := by
        rw [List.drop_drop, hadv.src]
      rw [hdrop] at hquotes
      have hsrc := hadv.src
      obtain ⟨b'', hrun, hscan, hreport⟩ := ih b' hadv.loclist hadv.err (by omega) hquotes
      refine ⟨b'', ?_, ?_, ?_⟩
      · rw [iterate, hstep]
        exact hrun
      · intro hall
        obtain ⟨herr, hreports, hout⟩ := hscan (hdrop ▸ ((atForms_form hne hpos).mp hall).2)
        rw [hout, hadv.out, scan_form hne hpos, hdrop, List.append_assoc]
        exact ⟨herr, hreports.trans hadv.reports, rfl⟩
      · intro hopen
        rw [← hadv.reports]
        apply hreport
        intro hall
        exact hopen ((atForms_form hne hpos).mpr ⟨hclosed, hdrop ▸ hall⟩)

/-- In the default syntax the expansion of a body changes the marked formals, `\@` and `\(text)` and
nothing else, and puts each in one time. `\&` stays, and so does the `&` behind a name that is no
formal; a `\(` that is not closed is reported. -/
theorem only_formals_change (s : Setting) (l : Text) (loccnt fuel : Nat)
    (hs : s.modes = defaultSyntax) (hfuel : l.length < fuel)
    (hquotes : AtForms (form true (valueOf s.formals) (Nat.toDigits 10 s.macroNumber))
      (fun r => ¬LosesQuote (valueOf s.formals) r) 0 l) :
    ∃ b, macroExpandBody s fuel l loccnt = .ok b ∧
      (AtForms (form true (valueOf s.formals) (Nat.toDigits 10 s.macroNumber))
          (fun r => ¬Unclosed r) 0 l →
        b.err = none ∧ b.reports = [] ∧
          b.out = scan (form true (valueOf s.formals) (Nat.toDigits 10 s.macroNumber)) 0 l) ∧
      (¬AtForms (form true (valueOf s.formals) (Nat.toDigits 10 s.macroNumber))
          (fun r => ¬Unclosed r) 0 l →
        b.err ≠ none ∨ b.reports ≠ []) := by
  obtain ⟨b, hrun, hscan, hreport⟩ :=
    iterate_default hs rfl fuel fuel (.start loccnt) rfl rfl hfuel hquotes
  refine ⟨b, hrun, hscan, ?_⟩
  intro hopen
  refine (hreport hopen).imp_right ?_
  intro hlt hnil
  rw [hnil] at hlt
  exact Nat.not_lt_zero _ hlt

/-- A body with a marked formal, one between two marks that takes its default, and the number. -/
theorem marked_body_expands :
    ∃ b, macroExpandBody ⟨defaultSyntax, [⟨['x'], [], ['5'], 0, .optional, true⟩,
        ⟨['y'], ['7'], [], 1, .optional, true⟩], true, 3⟩ 20
        ['\\', 'x', '\'', '+', '&', 'y', '&', 'L', '\\', '@'] 0 = .ok b ∧
      b.err = none ∧ b.reports = [] ∧ b.out = ['5', '+', '7', 'L', '3'] := by
  obtain ⟨b, hrun, hscan, -⟩ := only_formals_change ⟨defaultSyntax,
    [⟨['x'], [], ['5'], 0, .optional, true⟩, ⟨['y'], ['7'], [], 1, .optional, true⟩], true, 3⟩
    ['\\', 'x', '\'', '+', '&', 'y', '&', 'L', '\\', '@'] 0 20 rfl (by decide) (by decide)
  obtain ⟨herr, hreports, hout⟩ := hscan (by decide)
  refine ⟨b, hrun, herr, hreports, hout.trans ?_⟩
  decide

/-- `\&x` with `x` a formal stays as it is. -/
theorem preprocessor_name_stays :
    (macroExpandBody ⟨defaultSyntax, [⟨['x'], [], ['5'], 0, .optional, true⟩], true, 3⟩ 20
        ['\\', '&', 'x'] 0).map Body.out = .ok ['\\', '&', 'x'] ∧
      scan (form false (valueOf [⟨['x'], [], ['5'], 0, .optional, true⟩]) ['3']) 0
        ['\\', '&', 'x'] = ['\\', '5'] := by
  decide

end FusionBinutils.Gas.Macro
