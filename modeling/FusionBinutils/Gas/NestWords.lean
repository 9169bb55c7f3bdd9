import FusionBinutils.Gas.Nest

/-! What a line of a body says: its labels and its first word with a dot. -/
namespace FusionBinutils.Gas.Nest

open Cond (Text isNameBeginner isPartOfName)

def White (l : Text) : Prop := ∀ c ∈ l, isWhite c

theorem white_nil : White [] := fun _ hc => absurd hc List.not_mem_nil

/-- The name of a symbol. -/
structure IsName (l : Text) : Prop where
  begins : isNameBeginner (l.headD '\x00')
  parts : ∀ c ∈ l, isPartOfName c

/-- What can stand before the colon of a label. -/
inductive LabelWord : Text → Prop
  | name {l : Text} : IsName l → LabelWord l
  | quoted {l : Text} : '"' ∉ l → LabelWord ('"' :: l ++ ['"'])
  | number {l : Text} : l ≠ [] → (∀ c ∈ l, c.isDigit) → LabelWord l
  | dollar {l : Text} : l ≠ [] → (∀ c ∈ l, c.isDigit) → LabelWord (l ++ ['$'])

/-- A label with its colon and the white space in it. -/
inductive IsLabel : Text → Prop
  | mk {before word after : Text} : White before → LabelWord word → White after →
    IsLabel (before ++ word ++ after ++ [':'])

inductive Labels : Text → Prop
  | nil : Labels []
  | cons {l ls : Text} : IsLabel l → Labels ls → Labels (l ++ ls)

/-- After its labels and white space the line has a dot, which does not begin another label. -/
structure DotAt (line labels tail : Text) : Prop where
  isLabels : Labels labels
  split : ∃ ws, White ws ∧ line = labels ++ ws ++ '.' :: tail
  last : ¬ ∃ l rest, IsLabel l ∧ '.' :: tail = l ++ rest

/-- The word that a text begins with, in small letters. -/
def word (tail : Text) : Text := (tail.takeWhile isPartOfName).map Char.toLower

/-- The first word with a dot after the labels of the line. -/
def DotWord (line labels w : Text) : Prop := ∃ tail, DotAt line labels tail ∧ w = word tail

/-- A text that begins with a name and its colon, with `rest` behind it. -/
def NameLabel (l rest : Text) : Prop :=
  ∃ w after, IsName w ∧ White after ∧ l = w ++ after ++ ':' :: rest

/-- Labels that are names, each right behind the colon of the one before. -/
inductive Adjacent : Text → Prop
  | nil : Adjacent []
  | cons {w after ls : Text} : IsName w → White after → Adjacent ls →
    Adjacent (w ++ after ++ ':' :: ls)

/-- Labels that are names, with white space before the first only. -/
def PlainLabels (l : Text) : Prop :=
  l = [] ∨ ∃ ws ls, White ws ∧ Adjacent ls ∧ ls ≠ [] ∧ l = ws ++ ls

/-- The dot after such labels, which begins another one only behind white space. -/
structure PlainDotAt (line labels tail : Text) : Prop where
  plain : PlainLabels labels
  split : ∃ ws, White ws ∧ line = labels ++ ws ++ '.' :: tail ∧
    (labels = [] ∨ ws = [] → ¬ ∃ rest, NameLabel ('.' :: tail) rest)

/-! Scanning -/

theorem isName_ne_nil {l : Text} (h : IsName l) : l ≠ [] := by
  rintro rfl
  exact absurd h.begins (by decide)

theorem isPartOfName_of_isNameBeginner {c : Char} (h : isNameBeginner c) : isPartOfName c := by
  rw [isPartOfName, h]
  rfl

theorem not_part_of_isWhite {c : Char} (h : isWhite c) : isPartOfName c = false := by
  have hc : c = ' ' ∨ c = '\t' := by simpa [isWhite] using h
  rcases hc with rfl | rfl <;> decide

theorem dropWhile_white {ws rest : Text} (h : White ws) :
    (ws ++ rest).dropWhile isWhite = rest.dropWhile isWhite :=
  List.dropWhile_append_of_pos h

/-- The loop skips a name, white space and a colon where there are such. -/
theorem skipName_name {w after rest : Text} (hw : IsName w) (hafter : White after) :
    (skipName (w ++ after ++ ':' :: rest)).dropWhile isWhite = ':' :: rest := by
  obtain ⟨b, parts, rfl⟩ := List.exists_cons_of_ne_nil (isName_ne_nil hw)
  have hparts : ∀ c ∈ parts, isPartOfName c := fun c hc => hw.parts c (List.mem_cons_of_mem _ hc)
  have hstop : (after ++ ':' :: rest).dropWhile isPartOfName = after ++ ':' :: rest := by
    cases after with
    | nil => rfl
    | cons c after => simp [not_part_of_isWhite (hafter c (by simp))]
  have hname : skipName (b :: parts ++ after ++ ':' :: rest) = after ++ ':' :: rest := by
    simp only [skipName, isNameEnder, List.cons_append, List.tail_cons, List.append_assoc,
      List.dropWhile_append_of_pos hparts, hstop]
    rfl
  rw [hname, dropWhile_white hafter]
  rfl

theorem skipName_nameLabel {l rest : Text} (h : NameLabel l rest) :
    (skipName l).dropWhile isWhite = ':' :: rest := by
  obtain ⟨w, after, hw, hafter, rfl⟩ := h
  exact skipName_name hw hafter

theorem nameLabel_begins {l rest : Text} (h : NameLabel l rest) :
    isNameBeginner (l.headD '\x00') := by
  obtain ⟨w, after, hw, -, rfl⟩ := h
  obtain ⟨b, parts, rfl⟩ := List.exists_cons_of_ne_nil (isName_ne_nil hw)
  exact hw.begins

/-- Where the loop finds a colon there is a label. -/
theorem nameLabel_of_colon {l : Text} (hb : isNameBeginner (l.headD '\x00'))
    (hcolon : ((skipName l).dropWhile isWhite).headD '\x00' = ':') :
    NameLabel l ((skipName l).dropWhile isWhite).tail := by
  cases l with
  | nil => exact absurd hb (by decide)
  | cons b l =>
    have hname : skipName (b :: l) = l.dropWhile isPartOfName := by
      simp [skipName, isNameEnder]
    rw [hname] at hcolon ⊢
    obtain ⟨rest, hrest⟩ : ∃ rest, (l.dropWhile isPartOfName).dropWhile isWhite = ':' :: rest := by
      cases hd : (l.dropWhile isPartOfName).dropWhile isWhite with
      | nil =>
        rw [hd] at hcolon
        exact absurd hcolon (by decide)
      | cons c rest =>
        rw [hd] at hcolon
        exact ⟨rest, by rw [show c = ':' from hcolon]⟩
    refine ⟨b :: l.takeWhile isPartOfName, (l.dropWhile isPartOfName).takeWhile isWhite,
      ⟨hb, ?_⟩, fun c hc => List.mem_takeWhile_imp hc, ?_⟩
    · intro c hc
      rcases List.mem_cons.mp hc with rfl | hc
      · exact isPartOfName_of_isNameBeginner hb
      · exact List.mem_takeWhile_imp hc
    · rw [hrest, List.tail_cons, ← hrest, List.append_assoc, List.takeWhile_append_dropWhile,
        List.cons_append, List.takeWhile_append_dropWhile]

theorem nameLabel_unique {l rest rest' : Text} (h : NameLabel l rest) (h' : NameLabel l rest') :
    rest = rest' := by
  have heq := (skipName_nameLabel h).symm.trans (skipName_nameLabel h')
  exact (List.cons.inj heq).2

/-- Labels that follow each other end where no further one begins. -/
theorem adjacent_unique {ls ls' tail tail' : Text} (h : Adjacent ls) (h' : Adjacent ls')
    (heq : ls ++ tail = ls' ++ tail') (hlast : ¬ ∃ rest, NameLabel tail rest)
    (hlast' : ¬ ∃ rest, NameLabel tail' rest) : ls = ls' ∧ tail = tail' := by
  induction h generalizing ls' with
  | nil =>
    cases h' with
    | nil => exact ⟨rfl, heq⟩
    | @cons w after ls' hw hafter _ =>
      exact absurd ⟨ls' ++ tail', w, after, hw, hafter, by simpa using heq⟩ hlast
  | @cons w after ls hw hafter _ ih =>
    have hl : NameLabel (w ++ after ++ ':' :: ls ++ tail) (ls ++ tail) :=
      ⟨w, after, hw, hafter, by simp⟩
    cases h' with
    | nil =>
      rw [heq] at hl
      exact absurd ⟨ls ++ tail, hl⟩ hlast'
    | @cons w' after' ls' hw' hafter' hls' =>
      have hl' : NameLabel (w ++ after ++ ':' :: ls ++ tail) (ls' ++ tail') :=
        ⟨w', after', hw', hafter', by rw [heq]; simp⟩
      obtain ⟨rfl, rfl⟩ := ih hls' (nameLabel_unique hl hl')
      exact ⟨List.append_cancel_right heq, rfl⟩

/-- What the loop over the labels leaves, from a place that white space leads up to. -/
theorem skipLabels_adjacent (fuel : Nat) (start : Text) {pre rest : Text} (hpre : White pre)
    (hfuel : rest.length < fuel) :
    ∃ ls tail, Adjacent ls ∧ rest = ls ++ tail ∧ (¬ ∃ r, NameLabel tail r) ∧
      (skipLabels fuel start (pre ++ rest) rest).1 =
        (if ls = [] then start else start ++ pre ++ ls) ∧
      (skipLabels fuel start (pre ++ rest) rest).2.dropWhile isWhite = tail.dropWhile isWhite := by
  induction fuel generalizing start pre rest with
  | zero => omega
  | succ fuel ih =>
    rw [skipLabels]
    by_cases hb : isNameBeginner (rest.headD '\x00')
    · rw [if_pos hb]
      by_cases hcolon : ((skipName rest).dropWhile isWhite).headD '\x00' = ':'
      · have hlabel := nameLabel_of_colon hb hcolon
        generalize ((skipName rest).dropWhile isWhite).tail = cs at hlabel
        simp only [skipName_nameLabel hlabel, List.headD_cons, if_true, List.tail_cons]
        obtain ⟨w, after, hw, hafter, rfl⟩ := hlabel
        have htake : (pre ++ (w ++ after ++ ':' :: cs)).take
            ((pre ++ (w ++ after ++ ':' :: cs)).length - cs.length) =
              pre ++ (w ++ after ++ [':']) := by
          rw [show pre ++ (w ++ after ++ ':' :: cs) = pre ++ (w ++ after ++ [':']) ++ cs by simp]
          apply List.take_left'
          simp only [List.length_append, List.length_cons, List.length_nil]
          omega
        have hshort : cs.length < fuel := by
          simp only [List.length_append, List.length_cons] at hfuel
          omega
        obtain ⟨ls, tail, hls, htail, hlast, hstart, hdrop⟩ :=
          ih (start ++ (pre ++ (w ++ after ++ [':']))) white_nil hshort
        rw [List.nil_append] at hstart hdrop
        refine ⟨w ++ after ++ ':' :: ls, tail, .cons hw hafter hls, ?_, hlast, ?_, ?_⟩
        · rw [htail, List.append_assoc (w ++ after), List.cons_append]
        · have hne : w ++ after ++ ':' :: ls ≠ [] := by simp
          rw [htake, hstart, if_neg hne]
          split
          · next hnil => simp [hnil]
          · simp
        · rw [htake, hdrop]
      · simp only [if_neg hcolon]
        refine ⟨[], rest, .nil, rfl, ?_, by simp, dropWhile_white hpre⟩
        rintro ⟨r, hr⟩
        rw [skipName_nameLabel hr] at hcolon
        exact hcolon rfl
    · simp only [if_neg hb]
      refine ⟨[], rest, .nil, rfl, ?_, by simp, rfl⟩
      rintro ⟨r, hr⟩
      exact hb (nameLabel_begins hr)

theorem isWhite_not_begins {c : Char} (h : isWhite c) : isNameBeginner c = false := by
  have hc : c = ' ' ∨ c = '\t' := by simpa [isWhite] using h
  rcases hc with rfl | rfl <;> decide

theorem dropWhile_adjacent {ls rest : Text} (h : Adjacent ls) (hne : ls ≠ []) :
    (ls ++ rest).dropWhile isWhite = ls ++ rest := by
  cases h with
  | nil => exact absurd rfl hne
  | @cons w after ls hw _ _ =>
    obtain ⟨b, parts, rfl⟩ := List.exists_cons_of_ne_nil (isName_ne_nil hw)
    have hb : isWhite b = false := by
      by_contra hwhite
      have hbegins : isNameBeginner b := hw.begins
      rw [isWhite_not_begins (by simpa using hwhite)] at hbegins
      exact absurd hbegins (by decide)
    simp [hb]

/-- No label begins with the white space that leads up to the dot. -/
theorem not_nameLabel_white {ws tail : Text} (h : White ws)
    (hdot : ws = [] → ¬ ∃ rest, NameLabel ('.' :: tail) rest) :
    ¬ ∃ rest, NameLabel (ws ++ '.' :: tail) rest := by
  cases ws with
  | nil => exact hdot rfl
  | cons c ws =>
    rintro ⟨rest, hlabel⟩
    have hbegins : isNameBeginner c := nameLabel_begins hlabel
    rw [isWhite_not_begins (h c (by simp))] at hbegins
    exact absurd hbegins (by decide)

/-- The text before `line_start` and the text from `i` on, when the loop is done. -/
def scanned (line : Text) : Text × Text :=
  skipLabels (line.length + 1) [] line (line.dropWhile isWhite)

/-- The loop over the labels finds the dots that stand behind plain labels, and no others. -/
theorem scanned_iff {line labels tail : Text} :
    (scanned line).1 = labels ∧ (scanned line).2.dropWhile isWhite = '.' :: tail ↔
      PlainDotAt line labels tail := by
  have hscan : ∀ pre rest, White pre → line = pre ++ rest → line.dropWhile isWhite = rest →
      ∃ ls tl, Adjacent ls ∧ rest = ls ++ tl ∧ (¬ ∃ r, NameLabel tl r) ∧
        (scanned line).1 = (if ls = [] then [] else pre ++ ls) ∧
        (scanned line).2.dropWhile isWhite = tl.dropWhile isWhite := by
    intro pre rest hpre hline hrest
    have hlen : rest.length < line.length + 1 := by
      rw [hline, List.length_append]
      omega
    have h := skipLabels_adjacent (line.length + 1) [] hpre hlen
    rw [← hline, ← hrest, List.nil_append] at h
    rw [← hrest]
    exact h
  constructor
  · rintro ⟨rfl, hdot⟩
    have hline := List.takeWhile_append_dropWhile (p := isWhite) (l := line)
    have hpre : White (line.takeWhile isWhite) := fun c hc => List.mem_takeWhile_imp hc
    obtain ⟨ls, tl, hls, hrest, hlast, hstart, hdrop⟩ :=
      hscan (line.takeWhile isWhite) (line.dropWhile isWhite) hpre hline.symm rfl
    rw [hdrop] at hdot
    have htl := List.takeWhile_append_dropWhile (p := isWhite) (l := tl)
    rw [hdot] at htl
    have hws : White (tl.takeWhile isWhite) := fun c hc => List.mem_takeWhile_imp hc
    by_cases hnil : ls = []
    · subst hnil
      have hidem : tl.dropWhile isWhite = tl := by
        rw [List.nil_append] at hrest
        rw [← hrest]
        exact List.dropWhile_idempotent _ _
      rw [hidem] at hdot
      rw [hstart, if_pos rfl]
      refine ⟨.inl rfl, line.takeWhile isWhite, hpre, ?_, ?_⟩
      · rw [List.nil_append, ← hdot, ← List.nil_append tl, ← hrest, hline]
      · intro _
        rwa [hdot] at hlast
    · rw [hstart, if_neg hnil]
      refine ⟨.inr ⟨line.takeWhile isWhite, ls, hpre, hls, hnil, rfl⟩,
        tl.takeWhile isWhite, hws, ?_, ?_⟩
      · rw [List.append_assoc, htl, List.append_assoc, ← hrest, hline]
      · rintro (hempty | hws')
        · exact absurd (List.append_eq_nil_iff.mp hempty).2 hnil
        · rw [hws', List.nil_append] at htl
          rwa [htl]
  · rintro ⟨hplain, ws, hws, hline, hdot⟩
    rcases hplain with rfl | ⟨ws0, ls0, hws0, hls0, hne, rfl⟩
    · have hdrop : line.dropWhile isWhite = '.' :: tail := by
        rw [hline, List.nil_append, dropWhile_white hws]
        rfl
      obtain ⟨ls, tl, hls, hrest, hlast, hstart, hend⟩ := hscan ws ('.' :: tail) hws hline hdrop
      obtain ⟨rfl, rfl⟩ := adjacent_unique hls .nil hrest.symm hlast (hdot (.inl rfl))
      exact ⟨by rw [hstart, if_pos rfl], by rw [hend]; rfl⟩
    · have hdrop : line.dropWhile isWhite = ls0 ++ (ws ++ '.' :: tail) := by
        rw [hline, List.append_assoc, List.append_assoc, dropWhile_white hws0,
          dropWhile_adjacent hls0 hne]
      have hline' : line = ws0 ++ (ls0 ++ (ws ++ '.' :: tail)) := by
        rw [hline]
        simp
      obtain ⟨ls, tl, hls, hrest, hlast, hstart, hend⟩ := hscan ws0 _ hws0 hline' hdrop
      obtain ⟨rfl, rfl⟩ := adjacent_unique hls hls0 hrest.symm hlast
        (not_nameLabel_white hws fun h => hdot (.inr h))
      refine ⟨by rw [hstart, if_neg hne], ?_⟩
      rw [hend, dropWhile_white hws]
      rfl

end FusionBinutils.Gas.Nest
