import FusionBinutils.Gas.NestWords

/-! Where the body of a macro or a repeat ends. -/
namespace FusionBinutils.Gas.Nest

open Cond (Text isNameBeginner isPartOfName)
open Nesting (level EndsAt)

def lower (l : Text) : Text := l.map Char.toLower

/-- A comparison with the word succeeds only with what lies past the end of the line. -/
def Completed (tail : Text) (past : Nat → Char) (w : Text) : Prop :=
  tail.length < w.length ∧ begins (pointer tail past) w

/-- What the words of the source are made of. -/
def Wordy (w : Text) : Prop := w.all isPartOfName

section Words
variable {tail : Text} {past : Nat → Char} {w : Text}

theorem isAlpha_iff (c : Char) :
    c.isAlpha ↔ 65 ≤ c.toNat ∧ c.toNat ≤ 90 ∨ 97 ≤ c.toNat ∧ c.toNat ≤ 122 := by
  simp only [Char.isAlpha, Char.isUpper, Char.isLower, Bool.or_eq_true, Bool.and_eq_true,
    decide_eq_true_eq]
  rfl

theorem isPartOfName_toLower (c : Char) : isPartOfName c.toLower = isPartOfName c := by
  by_cases h : c.val ≥ 'A'.val ∧ c.val ≤ 'Z'.val
  · have hlo : 65 ≤ c.toNat := h.1
    have hhi : c.toNat ≤ 90 := h.2
    have hlower : c.toLower.toNat = c.toNat + 32 := by
      rw [Char.toLower, dif_pos h]
      show (c.val + 32).toNat = c.val.toNat + 32
      rw [UInt32.toNat_add]
      exact Nat.mod_eq_of_lt (by change c.toNat + 32 < _; omega)
    have hc : c.isAlpha := (isAlpha_iff c).mpr (.inl ⟨hlo, hhi⟩)
    have hl : c.toLower.isAlpha := (isAlpha_iff _).mpr (.inr ⟨by omega, by omega⟩)
    simp [isPartOfName, isNameBeginner, hc, hl]
  · rw [Char.toLower, dif_neg h]

theorem Wordy.lower (hw : Wordy w) : ∀ c ∈ lower w, isPartOfName c := by
  intro c hc
  obtain ⟨d, hd, rfl⟩ := List.mem_map.mp hc
  rw [isPartOfName_toLower]
  exact List.all_eq_true.mp hw d hd

theorem pointer_cons (c : Char) (j : Nat) :
    pointer (c :: tail) past (j + 1) = pointer tail past j := by
  simp [pointer]

theorem begins_of_le (h : w.length ≤ tail.length) :
    begins (pointer tail past) w ↔ lower w <+: lower tail := by
  induction w generalizing tail with
  | nil => simp [begins, lower]
  | cons c w ih =>
    cases tail with
    | nil => exact absurd h (by simp)
    | cons d tail =>
      have hshift : (fun j => pointer (d :: tail) past (j + 1)) = pointer tail past :=
        funext (pointer_cons d)
      have hhead : pointer (d :: tail) past 0 = d := rfl
      rw [begins, hshift, hhead, Bool.and_eq_true, ih (by simpa using h), beq_iff_eq]
      simp only [lower, List.map_cons, List.cons_prefix_cons]
      exact and_congr_left' eq_comm

theorem begins_iff (h : ¬ Completed tail past w) :
    begins (pointer tail past) w ↔ lower w <+: lower tail := by
  by_cases hlen : w.length ≤ tail.length
  · exact begins_of_le hlen
  · constructor
    · intro hb
      exact absurd ⟨by omega, hb⟩ h
    · intro hpre
      have hle := hpre.length_le
      simp only [lower, List.length_map] at hle
      omega

theorem wholeWord_iff (hw : Wordy w) (h : lower w <+: lower tail) :
    wholeWord tail past w.length ↔ word tail = lower w := by
  induction w generalizing tail with
  | nil =>
    cases tail with
    | nil => simp [wholeWord, word, lower]
    | cons d tail =>
      by_cases hd : isPartOfName d <;> simp [wholeWord, word, lower, pointer, isNameEnder, hd]
  | cons c w ih =>
    cases tail with
    | nil => exact absurd h (by simp [lower])
    | cons d tail =>
      simp only [lower, List.map_cons, List.cons_prefix_cons] at h
      have hd : isPartOfName d := by
        rw [← isPartOfName_toLower, ← h.1]
        exact hw.lower _ (by simp [Nest.lower])
      have hrest : Wordy w := 
        List.all_eq_true.mpr fun x hx => List.all_eq_true.mp hw x (List.mem_cons_of_mem _ hx)
      have hstep : wholeWord (d :: tail) past (c :: w).length = wholeWord tail past w.length := by
        simp [wholeWord, pointer_cons]
      rw [hstep, ih hrest h.2]
      simp [word, lower, hd, h.1]

theorem word_eq : word tail = (lower tail).takeWhile isPartOfName := by
  rw [word, lower, List.takeWhile_map]
  congr 2
  funext c
  exact (isPartOfName_toLower c).symm

/-- A word that the text begins with begins its first word. -/
theorem prefix_word (hw : Wordy w) (h : lower w <+: lower tail) : lower w <+: word tail := by
  obtain ⟨t, ht⟩ := h
  rw [word_eq, ← ht, List.takeWhile_append_of_pos hw.lower]
  exact List.prefix_append _ _

theorem prefix_of_word (h : word tail = lower w) : lower w <+: lower tail := by
  rw [← h, word_eq]
  exact List.takeWhile_prefix _

theorem closes_iff (hw : Wordy w) (h : ¬ Completed tail past w) :
    closes w tail past ↔ word tail = lower w := by
  rw [closes, Bool.and_eq_true, begins_iff h]
  constructor
  · rintro ⟨hpre, hwhole⟩
    exact (wholeWord_iff hw hpre).mp hwhole
  · intro hword
    have hpre := prefix_of_word hword
    exact ⟨hpre, (wholeWord_iff hw hpre).mpr hword⟩

theorem wordy_repeatWords : ∀ w ∈ repeatWords, Wordy w := by
  intro w hw
  have hall : repeatWords.all fun w => w.all isPartOfName := by decide
  exact List.all_eq_true.mp hall w hw

/-- No word is tried before one that it begins. -/
theorem repeatWords_order : repeatWords.Pairwise fun a b => ¬ lower a <+: lower b := by decide

theorem opens_repeat_iff (h : ∀ w ∈ repeatWords, ¬ Completed tail past w) :
    opens none tail past ↔ word tail ∈ repeatWords.map lower := by
  constructor
  · intro hopens
    simp only [opens] at hopens
    cases hfind : repeatWords.find? (begins (pointer tail past)) with
    | none =>
      rw [hfind] at hopens
      cases hopens
    | some w =>
      rw [hfind] at hopens
      have hmem := List.mem_of_find?_eq_some hfind
      have hpre := (begins_iff (h w hmem)).mp (List.find?_some hfind)
      rw [(wholeWord_iff (wordy_repeatWords w hmem) hpre).mp hopens]
      exact List.mem_map_of_mem hmem
  · intro hword
    obtain ⟨w, hmem, hw⟩ := List.mem_map.mp hword
    have hpre := prefix_of_word hw.symm
    have hbegins := (begins_iff (h w hmem)).mpr hpre
    have hfind : repeatWords.find? (begins (pointer tail past)) = some w := by
      obtain ⟨l, r, hsplit⟩ := List.append_of_mem hmem
      refine List.find?_eq_some_iff_append.mpr ⟨hbegins, l, r, hsplit, ?_⟩
      intro a ha
      have hamem : a ∈ repeatWords := hsplit ▸ List.mem_append_left _ ha
      rw [Bool.not_eq_true']
      by_contra hno
      have hapre := (begins_iff (h a hamem)).mp (by simpa using hno)
      have horder := repeatWords_order
      rw [hsplit] at horder
      refine (List.pairwise_append.mp horder).2.2 a ha w (by simp) ?_
      rw [hw]
      exact prefix_word (wordy_repeatWords a hamem) hapre
    simp only [opens, hfind]
    exact (wholeWord_iff (wordy_repeatWords w hmem) hpre).mpr hw.symm

end Words

/-! Lines -/

/-- The words that open the body that ends at a word. -/
inductive Family : Option Text → Text → List Text → Prop
  | definition : Family (some "MACRO".toList) "ENDM".toList ["MACRO".toList]
  | repetition (fromWord : Option Text) : Family fromWord "ENDR".toList repeatWords

/-- What a line does to the depth: its first word with a dot opens or closes a level. -/
noncomputable def change (openers : List Text) (toWord : Text) (line : Line) : Int :=
  open Classical in
  if ∃ labels w, DotWord line.text labels w ∧ w ∈ openers.map lower then 1
  else if ∃ labels, DotWord line.text labels (lower toWord) then -1
  else 0

/-- The lines that the scan reads as they are meant. -/
structure Readable (openers : List Text) (toWord : Text) (line : Line) : Prop where
  /-- the labels before a word that counts are names, with white space before the first only -/
  names : ∀ labels tail, DotAt line.text labels tail → word tail ∈ (toWord :: openers).map lower →
    PlainDotAt line.text labels tail
  /-- a label behind white space is not spelled like a word that counts -/
  spaced : ∀ labels tail, PlainDotAt line.text labels tail →
    word tail ∈ (toWord :: openers).map lower → DotAt line.text labels tail
  /-- the word is not `.linefile` and does not begin with it -/
  noLinefile : ∀ labels tail, PlainDotAt line.text labels tail →
    ¬ lower "linefile".toList <+: lower tail
  /-- what lies past the end of the line does not complete a word -/
  whole : ∀ labels tail, PlainDotAt line.text labels tail →
    ∀ w ∈ "linefile".toList :: toWord :: openers, ¬ Completed tail line.past w

section Lines
variable {fromWord : Option Text} {toWord : Text} {openers : List Text} {line : Line}
  {labels tail : Text} {depth : Nat}

/-- FROM as the loop uses it. -/
def effectiveFrom (fromWord : Option Text) (toWord : Text) : Option Text :=
  if toWord.map Char.toLower = "endr".toList then none else fromWord

theorem Family.opens_iff (hf : Family fromWord toWord openers) {past : Nat → Char}
    (h : ∀ w ∈ openers, ¬ Completed tail past w) :
    opens (effectiveFrom fromWord toWord) tail past ↔ word tail ∈ openers.map lower := by
  cases hf with
  | definition =>
    have hfrom : effectiveFrom (some "MACRO".toList) "ENDM".toList = some "MACRO".toList := by
      decide
    rw [hfrom]
    simpa [closes, opens] using
      closes_iff (w := "MACRO".toList) (by rw [Wordy]; decide) (h _ (by simp))
  | repetition =>
    have hfrom : effectiveFrom fromWord "ENDR".toList = none := if_pos (by decide)
    rw [hfrom]
    exact opens_repeat_iff h

theorem Family.wordy (hf : Family fromWord toWord openers) : Wordy toWord := by
  rw [Wordy]
  cases hf <;> decide

theorem Family.not_mem (hf : Family fromWord toWord openers) :
    lower toWord ∉ openers.map lower := by
  cases hf <;> decide

theorem nestLine_dot (h : PlainDotAt line.text labels tail) :
    nestLine false fromWord toWord depth line =
      (let depth := if opens fromWord tail line.past then depth + 1 else depth
      let closed := closes toWord tail line.past
      let depth := if closed then depth - 1 else depth
      if closed ∧ depth = 0 then .ends labels
      else if begins (pointer tail line.past) "linefile".toList then .goesOn labels depth
      else .goesOn line.text depth) := by
  obtain ⟨hstart, hdot⟩ := scanned_iff.mpr h
  rw [scanned] at hstart hdot
  simp only [nestLine, hdot, hstart, List.headD_cons, List.tail_cons, true_or, and_true, if_true,
    ne_eq, reduceCtorEq, not_false_eq_true]

theorem nestLine_counted (depth : Nat) {opened closed : Bool} (h : PlainDotAt line.text labels tail)
    (hopened : opens fromWord tail line.past = opened)
    (hclosed : closes toWord tail line.past = closed)
    (hlinefile : begins (pointer tail line.past) "linefile".toList = false) :
    nestLine false fromWord toWord depth line =
      (let depth := if opened then depth + 1 else depth
      let depth := if closed then depth - 1 else depth
      if closed ∧ depth = 0 then .ends labels else .goesOn line.text depth) := by
  rw [nestLine_dot h]
  simp only [hopened, hclosed, hlinefile, Bool.false_eq_true, if_false]

theorem nestLine_noDot (h : ¬ ∃ labels tail, PlainDotAt line.text labels tail) :
    nestLine false fromWord toWord depth line = .goesOn line.text depth := by
  simp only [nestLine]
  rw [if_neg]
  rintro ⟨hne, hhead⟩
  apply h
  obtain ⟨c, tail, hdot⟩ := List.exists_cons_of_ne_nil hne
  rw [hdot] at hhead
  obtain rfl : c = '.' := by simpa using hhead
  exact ⟨_, tail, scanned_iff.mp ⟨rfl, hdot⟩⟩

theorem plainDotAt_unique {labels' tail' : Text} (h : PlainDotAt line.text labels tail)
    (h' : PlainDotAt line.text labels' tail') : labels = labels' ∧ tail = tail' := by
  obtain ⟨hstart, hdot⟩ := scanned_iff.mpr h
  obtain ⟨hstart', hdot'⟩ := scanned_iff.mpr h'
  rw [hstart] at hstart'
  rw [hdot] at hdot'
  exact ⟨hstart', (List.cons.inj hdot').2⟩

/-- A word that counts is the one the loop comes to. -/
theorem Readable.dotWord (hr : Readable openers toWord line) {labels' w : Text}
    (h : PlainDotAt line.text labels tail) (hword : DotWord line.text labels' w)
    (hw : w ∈ (toWord :: openers).map lower) : labels' = labels ∧ w = word tail := by
  obtain ⟨tail', hdot, rfl⟩ := hword
  obtain ⟨rfl, rfl⟩ := plainDotAt_unique (hr.names labels' tail' hdot hw) h
  exact ⟨rfl, rfl⟩

theorem change_opens (hr : Readable openers toWord line) (h : PlainDotAt line.text labels tail)
    (hw : word tail ∈ openers.map lower) : change openers toWord line = 1 :=
  if_pos ⟨labels, word tail, ⟨tail, hr.spaced labels tail h (List.mem_cons_of_mem _ hw), rfl⟩, hw⟩

theorem change_not_opens (hr : Readable openers toWord line) (h : PlainDotAt line.text labels tail)
    (hw : word tail ∉ openers.map lower) :
    ¬ ∃ labels w, DotWord line.text labels w ∧ w ∈ openers.map lower := by
  rintro ⟨labels', w, hword, hmem⟩
  obtain ⟨-, rfl⟩ := hr.dotWord h hword (List.mem_cons_of_mem _ hmem)
  exact hw hmem

theorem change_closes (hr : Readable openers toWord line) (h : PlainDotAt line.text labels tail)
    (hno : word tail ∉ openers.map lower) (hw : word tail = lower toWord) :
    change openers toWord line = -1 ∧ DotWord line.text labels (lower toWord) := by
  have hdot : DotWord line.text labels (lower toWord) :=
    ⟨tail, hr.spaced labels tail h (by simp [hw]), hw.symm⟩
  refine ⟨?_, hdot⟩
  rw [change, if_neg (change_not_opens hr h hno), if_pos ⟨labels, hdot⟩]

theorem change_other (hr : Readable openers toWord line) (h : PlainDotAt line.text labels tail)
    (hno : word tail ∉ openers.map lower) (hw : word tail ≠ lower toWord) :
    change openers toWord line = 0 := by
  rw [change, if_neg (change_not_opens hr h hno), if_neg]
  rintro ⟨labels', hword⟩
  exact hw (hr.dotWord h hword (by simp)).2.symm

theorem change_noDot (hr : Readable openers toWord line)
    (h : ¬ ∃ labels tail, PlainDotAt line.text labels tail) : change openers toWord line = 0 := by
  rw [change, if_neg, if_neg]
  · rintro ⟨labels, tail, hdot, heq⟩
    exact h ⟨labels, tail, hr.names labels tail hdot (by simp [heq])⟩
  · rintro ⟨labels, w, ⟨tail, hdot, rfl⟩, hmem⟩
    exact h ⟨labels, tail, hr.names labels tail hdot (List.mem_cons_of_mem _ hmem)⟩

/-- A line does to the depth what it says: it ends the body, or goes into it as it is. -/
theorem nestLine_step (hf : Family fromWord toWord openers) (hr : Readable openers toWord line)
    (hd : 0 < depth) :
    ((depth : Int) + change openers toWord line = 0 ∧
      ∃ labels, DotWord line.text labels (lower toWord) ∧
        nestLine false (effectiveFrom fromWord toWord) toWord depth line = .ends labels) ∨
    ∃ d : Nat, 0 < d ∧ (d : Int) = depth + change openers toWord line ∧
      nestLine false (effectiveFrom fromWord toWord) toWord depth line = .goesOn line.text d := by
  by_cases hplain : ∃ labels tail, PlainDotAt line.text labels tail
  · obtain ⟨labels, tail, h⟩ := hplain
    have hwhole := hr.whole labels tail h
    have hopens := hf.opens_iff fun w hw =>
      hwhole w (List.mem_cons_of_mem _ (List.mem_cons_of_mem _ hw))
    have hcloses := closes_iff hf.wordy (hwhole toWord (by simp))
    have hlinefile : begins (pointer tail line.past) "linefile".toList = false :=
      Bool.eq_false_of_not_eq_true fun hb =>
        hr.noLinefile labels tail h ((begins_iff (hwhole _ List.mem_cons_self)).mp hb)
    by_cases hop : word tail ∈ openers.map lower
    · have hnc : closes toWord tail line.past = false := by
        apply Bool.eq_false_of_not_eq_true
        rw [hcloses]
        intro heq
        exact hf.not_mem (heq ▸ hop)
      refine .inr ⟨depth + 1, by omega, by rw [change_opens hr h hop]; omega, ?_⟩
      exact nestLine_counted _ h (hopens.mpr hop) hnc hlinefile
    · have hno : opens (effectiveFrom fromWord toWord) tail line.past = false :=
        Bool.eq_false_of_not_eq_true fun ho => hop (hopens.mp ho)
      by_cases hcl : word tail = lower toWord
      · obtain ⟨hchange, hdot⟩ := change_closes hr h hop hcl
        have hcount := nestLine_counted depth h hno (hcloses.mpr hcl) hlinefile
        rw [hchange]
        by_cases hone : depth = 1
        · refine .inl ⟨by omega, labels, hdot, ?_⟩
          rw [hcount]
          exact if_pos ⟨rfl, by simp [hone]⟩
        · refine .inr ⟨depth - 1, by omega, by omega, ?_⟩
          rw [hcount]
          refine if_neg fun hzero => ?_
          have : depth - 1 = 0 := hzero.2
          omega
      · have hnc : closes toWord tail line.past = false :=
          Bool.eq_false_of_not_eq_true fun hc => hcl (hcloses.mp hc)
        refine .inr ⟨depth, hd, by rw [change_other hr h hop hcl]; omega, ?_⟩
        exact nestLine_counted _ h hno hnc hlinefile
  · exact .inr ⟨depth, hd, by rw [change_noDot hr hplain]; omega, nestLine_noDot hplain⟩

end Lines

/-! Bodies -/

/-- The text of the lines with their ends. -/
def body (lines : List Line) : Text := lines.flatMap fun l => l.text ++ [l.more.1]

/-- The lines as far as they are read are such as the scan reads as they are meant. -/
def ReadableTo (openers : List Text) (toWord : Text) (depth : Int) (lines : List Line) : Prop :=
  ∀ before line after, lines = before ++ line :: after →
    (∀ p, p <+: before → level (change openers toWord) depth p ≠ 0) → Readable openers toWord line

theorem ReadableTo.tail {openers : List Text} {toWord : Text} {depth : Int} {line : Line}
    {lines : List Line} (h : ReadableTo openers toWord depth (line :: lines)) (hd : depth ≠ 0) :
    ReadableTo openers toWord (depth + change openers toWord line) lines := by
  intro before l after hsplit hfirst
  apply h (line :: before) l after (by rw [hsplit]; rfl)
  intro p hp
  cases p with
  | nil => simpa using hd
  | cons c p =>
    obtain ⟨rfl, htail⟩ := List.cons_prefix_cons.mp hp
    rw [Nesting.level_cons]
    exact hfirst p htail

/-- The loop stops at the line that takes the level to zero, with what came before it. -/
theorem nestLines_run {fromWord : Option Text} {toWord : Text} {openers : List Text}
    (hf : Family fromWord toWord openers) (depth : Nat) (ptr : Text) {lines : List Line}
    (hd : 0 < depth) (hr : ReadableTo openers toWord depth lines) :
    ((nestLines false (effectiveFrom fromWord toWord) toWord depth ptr lines).1 ↔
      ∃ before line after, EndsAt (change openers toWord) depth lines before line after) ∧
    ∀ before line after, EndsAt (change openers toWord) depth lines before line after →
      ∃ labels, DotWord line.text labels (lower toWord) ∧
        (nestLines false (effectiveFrom fromWord toWord) toWord depth ptr lines).2 =
          ptr ++ body before ++ labels := by
  induction lines generalizing depth ptr with
  | nil =>
    have hne : (depth == 0) = false := beq_false_of_ne (by omega)
    refine ⟨?_, fun before line after h => absurd h Nesting.not_endsAt_nil⟩
    simp only [nestLines, hne, Bool.false_eq_true, false_iff]
    rintro ⟨before, line, after, h⟩
    exact Nesting.not_endsAt_nil h
  | cons line lines ih =>
    have hd0 : (depth : Int) ≠ 0 := by omega
    have hline : Readable openers toWord line := by
      apply hr [] line lines rfl
      intro p hp
      rw [List.prefix_nil.mp hp, Nesting.level_nil]
      exact hd0
    rcases nestLine_step hf hline hd with ⟨hz, labels, hdot, hstep⟩ | ⟨d, hdpos, hdeq, hstep⟩
    · simp only [nestLines, hstep, true_iff]
      refine ⟨⟨[], line, lines, Nesting.endsAt_here hd0 hz⟩, ?_⟩
      intro before l after h
      obtain ⟨rfl, rfl, rfl⟩ := h.eq_here hz
      exact ⟨labels, hdot, by simp [body]⟩
    · have hz : (depth : Int) + change openers toWord line ≠ 0 := by omega
      have hrest := hr.tail hd0
      rw [← hdeq] at hrest
      obtain ⟨hret, htext⟩ := ih d (ptr ++ line.text ++ [line.more.1]) hdpos hrest
      simp only [nestLines, hstep]
      constructor
      · rw [hret]
        constructor
        · rintro ⟨before, l, after, h⟩
          exact ⟨line :: before, l, after,
            (Nesting.endsAt_cons hd0 hz).mpr ⟨before, rfl, hdeq ▸ h⟩⟩
        · rintro ⟨before, l, after, h⟩
          obtain ⟨b, -, hb⟩ := (Nesting.endsAt_cons hd0 hz).mp h
          exact ⟨b, l, after, hdeq ▸ hb⟩
      · intro before l after h
        obtain ⟨b, rfl, hb⟩ := (Nesting.endsAt_cons hd0 hz).mp h
        obtain ⟨labels, hdot, hptr⟩ := htext b l after (hdeq ▸ hb)
        refine ⟨labels, hdot, ?_⟩
        rw [hptr]
        simp [body]

/-- A body ends at the first line at which the words that close exceed those that open by one, with
the lines before it and its labels, where every line is read as it is meant. -/
theorem body_ends {fromWord : Option Text} {toWord : Text} {openers : List Text}
    (hf : Family fromWord toWord openers) (ptr : Text) {lines : List Line}
    (hr : ReadableTo openers toWord 1 lines) :
    ((bufferAndNest false fromWord toWord ptr lines).1 ↔
      ∃ before line after, EndsAt (change openers toWord) 1 lines before line after) ∧
    ∀ before line after, EndsAt (change openers toWord) 1 lines before line after →
      ∃ labels, DotWord line.text labels (lower toWord) ∧
        (bufferAndNest false fromWord toWord ptr lines).2 = ptr ++ body before ++ labels :=
  nestLines_run hf 1 ptr (by decide) hr

/-- A text splits only once at its only dot. -/
theorem dot_once {x tail pre tail' : Text} (hx : '.' ∉ x) (ht : '.' ∉ tail)
    (h : x ++ '.' :: tail = pre ++ '.' :: tail') : pre = x ∧ tail' = tail := by
  induction x generalizing pre with
  | nil =>
    cases pre with
    | nil => exact ⟨rfl, (List.cons.inj h).2.symm⟩
    | cons c pre =>
      have htail := (List.cons.inj h).2
      refine absurd ?_ ht
      rw [htail]
      simp
  | cons a x ih =>
    cases pre with
    | nil =>
      obtain ⟨rfl, -⟩ := List.cons.inj h
      exact absurd List.mem_cons_self hx
    | cons b pre =>
      obtain ⟨rfl, hrest⟩ := List.cons.inj h
      obtain ⟨rfl, rfl⟩ := ih (fun hmem => hx (List.mem_cons_of_mem _ hmem)) hrest
      exact ⟨rfl, rfl⟩

/-- The end of a definition. -/
def endLine : Line := ⟨['.', 'e', 'n', 'd', 'm'], ⟨'\n', by decide⟩, fun _ => '\x00'⟩

/-- The same line behind a local label. -/
def labelledEnd : Line := { endLine with text := '1' :: ':' :: endLine.text }

theorem endLine_dot {labels tail : Text} (h : DotAt endLine.text labels tail) :
    labels = [] ∧ tail = ['e', 'n', 'd', 'm'] := by
  obtain ⟨-, ⟨ws, -, hsplit⟩, -⟩ := h
  have honce := dot_once (x := []) (by decide) (by decide) hsplit
  exact ⟨(List.append_eq_nil_iff.mp honce.1).1, honce.2⟩

theorem colon_mem_label {l : Text} (h : IsLabel l) : ':' ∈ l := by
  cases h
  simp

theorem endLine_plain : PlainDotAt endLine.text [] ['e', 'n', 'd', 'm'] :=
  scanned_iff.mp (by decide)

theorem endLine_last : ¬ ∃ l rest, IsLabel l ∧ '.' :: ['e', 'n', 'd', 'm'] = l ++ rest := by
  rintro ⟨l, rest, hl, heq⟩
  have hmem : ':' ∈ l ++ rest := List.mem_append_left _ (colon_mem_label hl)
  rw [← heq] at hmem
  revert hmem
  decide

theorem endLine_readable : Readable ["MACRO".toList] "ENDM".toList endLine where
  names := by
    intro labels tail h _
    obtain ⟨rfl, rfl⟩ := endLine_dot h
    exact endLine_plain
  spaced := by
    intro labels tail h _
    obtain ⟨rfl, rfl⟩ := plainDotAt_unique endLine_plain h
    exact ⟨.nil, ⟨[], white_nil, rfl⟩, endLine_last⟩
  noLinefile := by
    intro labels tail h
    obtain ⟨-, rfl⟩ := plainDotAt_unique endLine_plain h
    decide
  whole := by
    intro labels tail h w hw
    obtain ⟨-, rfl⟩ := plainDotAt_unique endLine_plain h
    rintro ⟨hlen, hbegins⟩
    rcases List.mem_cons.mp hw with rfl | hw
    · revert hbegins
      decide
    rcases List.mem_cons.mp hw with rfl | hw
    · revert hlen
      decide
    · obtain rfl := List.mem_singleton.mp hw
      revert hbegins
      decide

theorem end_line_ends : ((bufferAndNest false (some "MACRO".toList) "ENDM".toList [] [endLine]).1 ↔
    ∃ before line after,
      EndsAt (change ["MACRO".toList] "ENDM".toList) 1 [endLine] before line after) := by
  refine (body_ends .definition [] ?_).1
  intro before line after hsplit _
  cases before with
  | nil =>
    obtain ⟨rfl, -⟩ := List.cons.inj hsplit
    exact endLine_readable
  | cons b before =>
    have hlen := congrArg List.length hsplit
    simp at hlen

theorem labelledEnd_change : change ["MACRO".toList] "ENDM".toList labelledEnd = -1 := by
  have hdot : DotWord labelledEnd.text ['1', ':'] (lower "ENDM".toList) := by
    refine ⟨['e', 'n', 'd', 'm'], ⟨?_, ⟨[], white_nil, rfl⟩, endLine_last⟩, by decide⟩
    exact .cons (.mk white_nil (.number (l := ['1']) (by simp) (by simp)) white_nil) .nil
  rw [change, if_neg, if_pos ⟨_, hdot⟩]
  rintro ⟨labels, w, ⟨tail, hat, rfl⟩, hmem⟩
  obtain ⟨ws, -, hsplit⟩ := hat.split
  obtain ⟨-, rfl⟩ := dot_once (x := ['1', ':']) (by decide) (by decide) hsplit
  revert hmem
  decide

/-- A definition whose end carries a local label runs on to the end of the input. -/
theorem local_label_runs_on :
    ¬ ((bufferAndNest false (some "MACRO".toList) "ENDM".toList [] [labelledEnd]).1 ↔
      ∃ before line after,
        EndsAt (change ["MACRO".toList] "ENDM".toList) 1 [labelledEnd] before line after) := by
  intro h
  have hends : EndsAt (change ["MACRO".toList] "ENDM".toList) 1 [labelledEnd] [] labelledEnd [] :=
    Nesting.endsAt_here (by decide) (by rw [labelledEnd_change]; rfl)
  have hret := h.mpr ⟨[], labelledEnd, [], hends⟩
  revert hret
  decide

end FusionBinutils.Gas.Nest
