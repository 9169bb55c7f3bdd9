import FusionBinutils.Gas.Register

/-! Which texts `parse_register_operand` treats right. -/
namespace FusionBinutils.Gas.CString

open Decimal (isDigit)

variable {t : CString} {k len : Nat}

/-- Words are compared with the text character by character. -/
theorem starts_iff {word : List Char} : t.starts word = true ↔
    word.map ch = (List.range word.length).map t.operand := by
  rw [starts, List.all_eq_true]
  constructor
  · intro h
    apply List.ext_getElem (by simp)
    intro i hi hi'
    rw [List.length_map] at hi
    have hmem : (word[i], i) ∈ word.zipIdx := by
      rw [List.mem_zipIdx_iff_getElem?]
      exact List.getElem?_eq_getElem hi
    have heq := h _ hmem
    rw [beq_iff_eq] at heq
    rw [List.getElem_map, List.getElem_map, List.getElem_range, heq]
  · rintro h ⟨c, i⟩ hmem
    rw [List.mem_zipIdx_iff_getElem?] at hmem
    have hi : i < word.length := (List.getElem?_eq_some_iff.1 hmem).1
    have hc := (List.getElem?_eq_some_iff.1 hmem).2
    have heq := congrArg (fun l => l[i]?) h
    simp only [List.getElem?_map, List.getElem?_range hi, hmem, Option.map_some,
      Option.some.injEq] at heq
    rw [beq_iff_eq]
    exact heq.symm

/-- Of two words that the text starts with, one starts the other. -/
theorem starts_comparable {u v : List Char} (hu : t.starts u = true) (hv : t.starts v = true) :
    u.map ch <+: v.map ch ∨ v.map ch <+: u.map ch := by
  rw [starts_iff] at hu hv
  rw [hu, hv]
  rcases Nat.le_total u.length v.length with h | h
  · left
    rw [← Nat.add_sub_of_le h, List.range_add, List.map_append]
    exact List.prefix_append ..
  · right
    rw [← Nat.add_sub_of_le h, List.range_add, List.map_append]
    exact List.prefix_append ..

theorem starts_of_prefix {u v : List Char} (h : u <+: v) (hv : t.starts v = true) :
    t.starts u = true := by
  obtain ⟨r, rfl⟩ := h
  rw [starts, List.zipIdx_append, List.all_append, Bool.and_eq_true] at hv
  exact hv.1

set_option maxRecDepth 8000 in
theorem table_comparable : ∀ p ∈ fusionGpregName.zipIdx, ∀ q ∈ fusionGpregName.zipIdx,
    (p.1.map ch).isPrefixOf (q.1.map ch) = true →
      p = q ∨ p = (['g', 'r', '1'], 12) ∧ q = (['g', 'r', '1', '0'], 21) := by decide +kernel

/-- How the names of the table begin. -/
theorem table_heads : ∀ p ∈ fusionGpregName.zipIdx,
    ([p.1.getD 0 ' ', p.1.getD 1 ' '] <+: p.1 ∧ ch (p.1.getD 0 ' ') ≠ ch '$' ∧
      ¬ (isDigit (ch (p.1.getD 1 ' ')) = true ∨ ch (p.1.getD 1 ' ') = ch 'R')) ∧
    ¬ (p.1.map ch <+: [ch 't', ch 'm', ch 'p', ch '8'] ∨
      [ch 't', ch 'm', ch 'p', ch '8'] <+: p.1.map ch) := by decide +kernel

/-- The registers whose names may be followed by anything. -/
def looseRegs : List Nat := [3, 5, 6, 7, 8, 11, 12, 13, 14, 15, 16, 17, 18, 19, 20, 21]

/-- The registers whose names are not expected before a parenthesis. -/
def parenShy : List Nat := [1, 2, 3, 4, 9, 10, 30, 31]

/-- The name of register `k` passes without a complaint. -/
def accepts (t : CString) (k len : Nat) : Bool :=
  if k ∈ looseRegs then true else if k ∈ parenShy then t.ends len else t.endsParen len

theorem named_only {name : List Char} {k₀ : Nat} (hmem : (name, k₀) ∈ fusionGpregName.zipIdx)
    (hs : t.starts name = true) (hgr : k₀ = 12 → t.operand 3 ≠ ch '0') (h : t.Named k len) :
    k = k₀ ∧ len = name.length ∨ k = 12 ∧ len = 3 ∧ t.operand 3 = ch '0' := by
  obtain ⟨name', hmem', rfl, hs'⟩ := h
  have hten : t.starts ['g', 'r', '1', '0'] = true → t.operand 3 = ch '0' := by
    simp only [starts, List.zipIdx_cons, List.zipIdx_nil, List.all_cons, List.all_nil, beq_iff_eq,
      Bool.and_eq_true]
    exact fun h => h.2.2.2.1
  rcases starts_comparable hs hs' with hp | hp
  · rcases table_comparable _ hmem _ hmem' (List.isPrefixOf_iff_prefix.2 hp) with h | ⟨h, h'⟩
    · cases h
      exact .inl ⟨rfl, rfl⟩
    · cases h
      cases h'
      exact absurd (hten hs') (hgr rfl)
  · rcases table_comparable _ hmem' _ hmem (List.isPrefixOf_iff_prefix.2 hp) with h | ⟨h, h'⟩
    · cases h
      exact .inl ⟨rfl, rfl⟩
    · cases h
      cases h'
      exact .inr ⟨rfl, rfl, hten hs⟩

set_option maxRecDepth 4000 in
/-- What is answered for a name. -/
theorem parse_named {name : List Char} (hmem : (name, k) ∈ fusionGpregName.zipIdx)
    (hs : t.starts name = true) (hgr : k = 12 → t.operand 3 ≠ ch '0') :
    t.parseRegisterOperand.reg = k ∧ t.parseRegisterOperand.advance = name.length ∧
      (t.parseRegisterOperand.errors = [] ↔ t.accepts k name.length = true) ∧
      t.parseRegisterOperand.mem =
        if k = 3 ∧ t.operand 2 ≠ ch ' ' ∧ t.operand 2 ≠ ch '\t' then
          Function.update t.mem (t.blanks + 2) (ch ',') else t.mem := by
  simp only [fusionGpregName, List.zipIdx_cons, List.zipIdx_nil, List.mem_cons, Prod.mk.injEq,
    List.not_mem_nil, or_false] at hmem
  rcases hmem with ⟨rfl, rfl⟩ | ⟨rfl, rfl⟩ | ⟨rfl, rfl⟩ | ⟨rfl, rfl⟩ | ⟨rfl, rfl⟩ | ⟨rfl, rfl⟩ |
    ⟨rfl, rfl⟩ | ⟨rfl, rfl⟩ | ⟨rfl, rfl⟩ | ⟨rfl, rfl⟩ | ⟨rfl, rfl⟩ | ⟨rfl, rfl⟩ | ⟨rfl, rfl⟩ |
    ⟨rfl, rfl⟩ | ⟨rfl, rfl⟩ | ⟨rfl, rfl⟩ | ⟨rfl, rfl⟩ | ⟨rfl, rfl⟩ | ⟨rfl, rfl⟩ | ⟨rfl, rfl⟩ |
    ⟨rfl, rfl⟩ | ⟨rfl, rfl⟩ | ⟨rfl, rfl⟩ | ⟨rfl, rfl⟩ | ⟨rfl, rfl⟩ | ⟨rfl, rfl⟩ | ⟨rfl, rfl⟩ |
    ⟨rfl, rfl⟩ | ⟨rfl, rfl⟩ | ⟨rfl, rfl⟩ | ⟨rfl, rfl⟩ | ⟨rfl, rfl⟩ <;>
    simp only [starts, List.zipIdx_cons, List.zipIdx_nil, List.all_cons, List.all_nil, beq_iff_eq,
      Bool.and_eq_true, Nat.zero_add, Nat.reduceAdd, and_true] at hs
  -- each name decides its way through the cascade
  all_goals simp +decide [parseRegisterOperand, namedRegister, starts, found, accepts, gpRegister,
    argRegister, rvalRegister, grRegister, tmpRegister, hs]
  · by_cases h : t.operand 2 = ch ' ' ∨ t.operand 2 = ch '\t'
    · rw [if_pos h, if_neg (by tauto)]
      exact ⟨rfl, rfl, rfl, rfl⟩
    · rw [if_neg h, if_pos (by tauto)]
      exact ⟨rfl, rfl, rfl, rfl⟩
  · rw [if_neg (hgr rfl)]
    exact ⟨rfl, rfl, rfl, rfl⟩

/-- No name is taken for a number. -/
theorem named_head (h : t.Named k len) : t.operand 0 ≠ ch '$' ∧
    ¬ (isDigit (t.operand 1) = true ∨ t.operand 1 = ch 'R') := by
  obtain ⟨name, hmem, -, hs⟩ := h
  obtain ⟨⟨hpre, ha, hb⟩, -⟩ := table_heads _ hmem
  have htwo := starts_of_prefix hpre hs
  simp only [starts, List.zipIdx_cons, List.zipIdx_nil, List.all_cons, List.all_nil, beq_iff_eq,
    Bool.and_eq_true, Nat.zero_add, and_true] at htwo
  rw [htwo.1, htwo.2]
  exact ⟨ha, hb⟩

theorem endsParen_cases (h : t.endsParen len = true) : t.operand len = ch ' ' ∨
    t.operand len = ch '\t' ∨ t.operand len = ch ',' ∨ t.operand len = ch ')' ∨
    t.operand len = 0 := by
  simp only [endsParen, Bool.or_eq_true, decide_eq_true_eq, or_assoc] at h
  exact h

/-- A number register is never too high, and never passed over. -/
theorem numbered_value (h : t.Numbered k len) (hend : t.endsParen len = true) :
    t.operand 0 = ch '$' ∧ isDigit (t.operand 1) = true ∧ t.numberValue ≤ 31 ∧ 0 < len := by
  obtain ⟨hk, rfl, hs⟩ := h
  by_cases hlt : k < 10
  · have hdigit : ∀ k < 10, isDigit (ch (Char.ofNat (48 + k))) = true := by decide
    simp only [numberName, hlt, if_true, starts, List.zipIdx_cons, List.zipIdx_nil, List.all_cons,
      List.all_nil, beq_iff_eq, Bool.and_eq_true, Nat.zero_add, and_true] at hs
    simp only [numberName, hlt, if_true, List.length_cons, List.length_nil, Nat.zero_add,
      Nat.reduceAdd] at hend
    refine ⟨hs.1, by rw [hs.2]; exact hdigit k hlt, ?_, by simp [numberName, hlt]⟩
    -- the units are read off the delimiter
    have hunits : isDigit (t.operand 2) = false ∧ digitValue (t.operand 2) ≤ 31 := by
      rcases endsParen_cases hend with h | h | h | h | h <;> (rw [h]; decide)
    rw [numberValue, hunits.1]
    simpa using hunits.2
  · have hdigits : ∀ k < 32, ¬ k < 10 → isDigit (ch (Char.ofNat (48 + k / 10))) = true ∧
        (if isDigit (ch (Char.ofNat (48 + k % 10))) then
          digitValue (ch (Char.ofNat (48 + k / 10))) * 10 else 0) +
            digitValue (ch (Char.ofNat (48 + k % 10))) ≤ 31 := by decide
    simp only [numberName, hlt, if_false, starts, List.zipIdx_cons, List.zipIdx_nil, List.all_cons,
      List.all_nil, beq_iff_eq, Bool.and_eq_true, Nat.zero_add, Nat.reduceAdd, and_true] at hs
    obtain ⟨h0, h1, h2⟩ := hs
    refine ⟨h0, ?_, ?_, by simp [numberName, hlt]⟩
    · rw [h1]
      exact (hdigits k hk hlt).1
    · rw [numberValue, h1, h2]
      exact (hdigits k hk hlt).2

theorem digit_of_value {b : BfdByte} {n : Nat} (hn : n < 10)
    (h : ¬ (digitValue b < 0 ∨ (n : Int) < digitValue b)) :
    ∃ d ≤ n, b = ch (Char.ofNat (48 + d)) := by
  obtain ⟨d, hd⟩ : ∃ d : Nat, digitValue b = d := Int.eq_ofNat_of_zero_le (by omega)
  refine ⟨d, by omega, BitVec.eq_of_toInt_eq ?_⟩
  have hlt : d < 10 := by omega
  have hval : b.toInt = 48 + d := by
    rw [digitValue] at hd
    omega
  rw [hval]
  interval_cases d <;> rfl

theorem starts_snoc {word : List Char} {c : Char} : t.starts (word ++ [c]) = true ↔
    t.starts word = true ∧ t.operand word.length = ch c := by
  simp [starts, List.zipIdx_append]

/-- Where no name stands, the digit after the word of a family is none of the family's. -/
theorem digit_out_of_family (word : List Char) (base n i : Nat) (hi : word.length = i)
    (hno : ∀ k len, ¬ t.Named k len) (hs : t.starts word = true) (hn : n < 10)
    (hmem : ∀ d ≤ n, (word ++ [Char.ofNat (48 + d)], base + d) ∈ fusionGpregName.zipIdx) :
    digitValue (t.operand i) < 0 ∨ (n : Int) < digitValue (t.operand i) := by
  by_contra h
  obtain ⟨d, hd, hb⟩ := digit_of_value hn h
  exact hno _ _ ⟨_, hmem d hd, rfl, starts_snoc.2 ⟨hs, hi ▸ hb⟩⟩

theorem not_starts_of_starts {u v : List Char} (hu : t.starts u = true)
    (huv : ¬ (u.map ch <+: v.map ch ∨ v.map ch <+: u.map ch)) : ¬ t.starts v = true :=
  fun hv => huv (starts_comparable hu hv)

/-- Without a name, the only word that gets through is `tmp8`. -/
theorem parse_unnamed (hno : ∀ k len, ¬ t.Named k len) (h0 : t.operand 0 ≠ ch '$') :
    t.parseRegisterOperand.errors = [] ↔
      t.starts ['t', 'm', 'p', '8'] = true ∧ t.endsParen 4 = true := by
  have hnot {name : List Char} {k : Nat} (hmem : (name, k) ∈ fusionGpregName.zipIdx) :
      t.starts name = false := by
    rw [← Bool.not_eq_true]
    exact fun hs => hno k name.length ⟨name, hmem, rfl, hs⟩
  have htmp : t.starts ['t', 'm', 'p', '8'] = true ↔
      t.starts ['t', 'm', 'p'] = true ∧ t.operand 3 = ch '8' := by
    simp [starts, and_assoc]
  by_cases h1 : isDigit (t.operand 1) = true ∨ t.operand 1 = ch 'R'
  · have hm : ¬ t.starts ['t', 'm', 'p', '8'] = true := by
      intro hs
      simp only [starts, List.zipIdx_cons, List.all_cons, beq_iff_eq, Bool.and_eq_true,
        Nat.zero_add] at hs
      rw [hs.2.1] at h1
      revert h1
      decide
    simp [parseRegisterOperand, h0, h1, fail, hm]
  · simp only [parseRegisterOperand, h0, h1, and_false, false_and, if_false, namedRegister,
      hnot (show (['z', 'e', 'r', 'o'], 0) ∈ fusionGpregName.zipIdx by decide),
      hnot (show (['s', 'p'], 1) ∈ fusionGpregName.zipIdx by decide),
      hnot (show (['f', 'p'], 2) ∈ fusionGpregName.zipIdx by decide),
      hnot (show (['g', 'p'], 3) ∈ fusionGpregName.zipIdx by decide),
      hnot (show (['r', 'a'], 4) ∈ fusionGpregName.zipIdx by decide),
      hnot (show (['h', 'i', '0'], 30) ∈ fusionGpregName.zipIdx by decide),
      hnot (show (['l', 'o', 'w', '0'], 31) ∈ fusionGpregName.zipIdx by decide),
      Bool.false_eq_true]
    split_ifs with harg hrval hgr htmp'
    · have hd : digitValue (t.operand 3) < 0 ∨ 3 < digitValue (t.operand 3) :=
        digit_out_of_family ['a', 'r', 'g'] 5 3 3 rfl hno harg (by decide) (by decide)
      have hm := not_starts_of_starts (v := ['t', 'm', 'p', '8']) harg (by decide)
      simp only [argRegister, fail]
      rw [if_pos hd]
      simp [hm]
    · have hd : digitValue (t.operand 4) < 0 ∨ 1 < digitValue (t.operand 4) :=
        digit_out_of_family ['r', 'v', 'a', 'l'] 9 1 4 rfl hno hrval (by decide) (by decide)
      have hm := not_starts_of_starts (v := ['t', 'm', 'p', '8']) hrval (by decide)
      simp only [rvalRegister]
      rw [if_pos hd]
      simp [hm]
    · have hd : digitValue (t.operand 2) < 0 ∨ 9 < digitValue (t.operand 2) :=
        digit_out_of_family ['g', 'r'] 11 9 2 rfl hno hgr (by decide) (by decide)
      have hm := not_starts_of_starts (v := ['t', 'm', 'p', '8']) hgr (by decide)
      simp only [grRegister, fail]
      rw [if_pos hd]
      simp [hm]
    · have hd : digitValue (t.operand 3) < 0 ∨ 7 < digitValue (t.operand 3) :=
        digit_out_of_family ['t', 'm', 'p'] 22 7 3 rfl hno htmp' (by decide) (by decide)
      simp only [tmpRegister]
      rw [htmp]
      by_cases h8 : t.operand 3 = ch '8'
      · -- the bound of the code lets through one more
        have hin : ¬ (digitValue (t.operand 3) < 0 ∨ 8 < digitValue (t.operand 3)) := by
          rw [h8]
          decide
        rw [if_neg hin]
        simp [htmp', h8]
      · have hout : digitValue (t.operand 3) < 0 ∨ 8 < digitValue (t.operand 3) := by
          by_contra hin
          obtain ⟨d, hd8, hb⟩ := digit_of_value (n := 8) (by decide) hin
          have hall : ∀ d ≤ 8, digitValue (ch (Char.ofNat (48 + d))) = d := by decide
          rw [hb, hall d hd8] at hd
          have hdeq : d = 8 := by omega
          rw [hdeq] at hb
          exact h8 hb
        rw [if_pos hout]
        simp [h8]
    · have hm : ¬ t.starts ['t', 'm', 'p', '8'] = true :=
        fun hs => htmp' (htmp.1 hs).1
      simp [fail, hm]

/-- A word that does not begin with a dollar is not read off one that does. -/
theorem tmp8_head (h : t.starts ['t', 'm', 'p', '8'] = true) : t.operand 0 ≠ ch '$' := by
  simp only [starts, List.zipIdx_cons, List.all_cons, beq_iff_eq, Bool.and_eq_true] at h
  rw [h.1]
  decide

theorem spelled_dollar (h0 : t.operand 0 = ch '$') (h : t.Spelled k len) : t.Numbered k len :=
  h.1.resolve_left fun hn => (named_head hn).1 h0

theorem spelled_plain (h0 : t.operand 0 ≠ ch '$') (h : t.Spelled k len) : t.Named k len :=
  h.1.resolve_right fun hn => h0 (numbered_value hn h.2).1

theorem numberValue_high_iff (h1 : isDigit (t.operand 1) = true ∨ t.operand 1 = ch 'R') :
    31 < t.numberValue ↔ t.TooHigh := by
  have hall : ∀ a : BfdByte, isDigit a = true ∨ a = ch 'R' → ∀ b : BfdByte,
      (31 < (if isDigit b then digitValue a * 10 else 0) + digitValue b ↔
        if isDigit b then a = ch 'R' ∨ (ch '3').toInt < a.toInt ∨
          a = ch '3' ∧ (ch '1').toInt < b.toInt else (ch 'O').toInt < b.toInt) := by
    decide +kernel
  exact hall _ h1 _

/-- What only holds of names is empty behind a dollar. -/
theorem fits_dollar (h0 : t.operand 0 = ch '$') : t.RegisterFits ↔
    (isDigit (t.operand 1) = true ∨ t.operand 1 = ch 'R' → t.TooHigh) := by
  constructor
  · exact fun h => h.number h0
  · intro h
    refine ⟨fun _ => h, ?_, ?_, ?_⟩
    · intro k len hn
      exact absurd h0 (named_head hn).1
    · intro k len hn
      exact absurd h0 (named_head hn).1
    · intro hm
      exact absurd h0 (tmp8_head hm)

/-- A number register that is accepted is not passed over, and the rest is refused. -/
theorem parses_number (h0 : t.operand 0 = ch '$')
    (h1 : isDigit (t.operand 1) = true ∨ t.operand 1 = ch 'R') :
    t.ParsesRight ↔ 31 < t.numberValue := by
  have hparse : t.parseRegisterOperand = t.numberRegister := by
    rcases h1 with h1 | h1
    · simp [parseRegisterOperand, h0, h1]
    · simp [parseRegisterOperand, h0, h1]
  rw [ParsesRight, hparse, numberRegister]
  by_cases hv : 31 < t.numberValue
  · have hno : ∀ k len, ¬ t.Spelled k len := by
      intro k len hs
      have hle := (numbered_value (spelled_dollar h0 hs) hs.2).2.2.1
      omega
    rw [if_pos hv]
    refine iff_of_true ⟨fun k len hs => absurd hs (hno k len), fun _ => ?_⟩ hv
    simp [fail]
  · rw [if_neg hv]
    refine iff_of_false ?_ hv
    rintro ⟨hright, hwrong⟩
    have hsome : ∃ k len, t.Spelled k len := by
      by_contra hno
      exact hwrong (fun k len hs => hno ⟨k, len, hs⟩) rfl
    obtain ⟨k, len, hs⟩ := hsome
    have hadv : 0 = t.blanks + len := (hright k len hs).2.2.1
    have hpos := (numbered_value (spelled_dollar h0 hs) hs.2).2.2.2
    omega

/-- Any other text behind a dollar is refused. -/
theorem parses_dollar (h0 : t.operand 0 = ch '$')
    (h1 : ¬ (isDigit (t.operand 1) = true ∨ t.operand 1 = ch 'R')) : t.ParsesRight := by
  rw [not_or] at h1
  constructor
  · intro k len hs
    exact absurd (numbered_value (spelled_dollar h0 hs) hs.2).2.1 h1.1
  · intro _
    simp [parseRegisterOperand, h0, h1.1, h1.2, fail]

/-- Where no name stands, `tmp8` is all that goes wrong. -/
theorem parses_unnamed (h0 : t.operand 0 ≠ ch '$') (hno : ∀ k len, ¬ t.Named k len) :
    t.ParsesRight ↔ t.RegisterFits := by
  have hspell : ∀ k len, ¬ t.Spelled k len := fun k len hs => hno k len (spelled_plain h0 hs)
  have hparse := parse_unnamed hno h0
  constructor
  · rintro ⟨-, hwrong⟩
    refine ⟨fun h => absurd h h0, fun k len h => absurd h (hno k len),
      fun k len h => absurd h (hno k len), ?_⟩
    intro hm
    rw [← Bool.not_eq_true]
    exact fun hend => hwrong hspell (hparse.2 ⟨hm, hend⟩)
  · intro hfit
    refine ⟨fun k len hs => absurd hs (hspell k len), fun _ herr => ?_⟩
    obtain ⟨hm, hend⟩ := hparse.1 herr
    rw [hfit.tmp8 hm] at hend
    cases hend

/-- A text that begins with a name begins with one that is not the start of another's. -/
theorem named_longest (h : t.Named k len) : ∃ name k₀, (name, k₀) ∈ fusionGpregName.zipIdx ∧
    t.starts name = true ∧ (k₀ = 12 → t.operand 3 ≠ ch '0') := by
  obtain ⟨name, hmem, -, hs⟩ := h
  by_cases hten : k = 12 ∧ t.operand 3 = ch '0'
  · obtain ⟨rfl, h3⟩ := hten
    refine ⟨['g', 'r', '1'] ++ ['0'], 21, by decide, ?_, by omega⟩
    have hname : name = ['g', 'r', '1'] := by
      have htable : ∀ p ∈ fusionGpregName.zipIdx, p.2 = 12 → p.1 = ['g', 'r', '1'] := by decide
      exact htable _ hmem rfl
    rw [hname] at hs
    exact starts_snoc.2 ⟨hs, h3⟩
  · exact ⟨name, k, hmem, hs, fun hk h3 => hten ⟨hk, h3⟩⟩

theorem tmp8_unnamed (h : t.Named k len) : ¬ t.starts ['t', 'm', 'p', '8'] = true := by
  obtain ⟨name, hmem, -, hs⟩ := h
  exact not_starts_of_starts hs (table_heads _ hmem).2

theorem endsParen_of_ends (h : t.ends len = true) : t.endsParen len = true := by
  simp only [ends, endsParen, Bool.or_eq_true] at h ⊢
  tauto

theorem ends_iff : t.ends len = true ↔ t.endsParen len = true ∧ t.operand len ≠ ch ')' := by
  constructor
  · intro h
    refine ⟨endsParen_of_ends h, fun hp => ?_⟩
    rw [ends, hp] at h
    revert h
    decide
  · rintro ⟨h, hp⟩
    simp only [ends, endsParen, Bool.or_eq_true, decide_eq_true_eq] at h ⊢
    tauto

/-- Before a delimiter, only a parenthesis is complained of. -/
theorem accepts_of_endsParen (hend : t.endsParen len = true) : t.accepts k len = true ↔
    (t.operand len = ch ')' → k ∉ parenShy ∨ k ∈ looseRegs) := by
  rw [accepts]
  split_ifs with hl hp
  · simp [hl]
  · rw [ends_iff]
    simp [hl, hp, hend]
  · simp [hp, hend]

/-- Before anything else, the names that look no further get through. -/
theorem accepts_of_not_endsParen (hend : ¬ t.endsParen len = true) :
    t.accepts k len = true ↔ k ∈ looseRegs := by
  rw [accepts]
  split_ifs with hl hp
  · simp [hl]
  · rw [ends_iff]
    simp [hl, hend]
  · simp [hl, hend]

/-- Writing the comma changes nothing exactly where there is one. -/
theorem comma_written_iff : Function.update t.mem (t.blanks + 2) (ch ',') = t.mem ↔
    t.operand 2 = ch ',' := by
  rw [Function.update_eq_self_iff]
  exact eq_comm

/-- The delimiters that `gp` leaves as they are. -/
theorem gp_kept_iff (hend : t.endsParen 2 = true) :
    (if t.operand 2 ≠ ch ' ' ∧ t.operand 2 ≠ ch '\t' then
        Function.update t.mem (t.blanks + 2) (ch ',') else t.mem) = t.mem ↔
      t.operand 2 ≠ ch ')' ∧ t.operand 2 ≠ 0 := by
  split_ifs with hblank
  · rw [comma_written_iff]
    constructor
    · intro hc
      rw [hc]
      decide
    · rintro ⟨hp, hz⟩
      have hcases := endsParen_cases hend
      tauto
  · refine iff_of_true rfl ?_
    have hb : t.operand 2 = ch ' ' ∨ t.operand 2 = ch '\t' := by tauto
    rcases hb with hb | hb <;> (rw [hb]; decide)

variable {name : List Char} {k₀ : Nat}

theorem spelled_only (hmem : (name, k₀) ∈ fusionGpregName.zipIdx) (hs : t.starts name = true)
    (hgr : k₀ = 12 → t.operand 3 ≠ ch '0') (h : t.Spelled k len) : k = k₀ ∧ len = name.length := by
  have hnamed : t.Named k₀ name.length := ⟨name, hmem, rfl, hs⟩
  rcases named_only hmem hs hgr (spelled_plain (named_head hnamed).1 h) with h' | ⟨-, rfl, h3⟩
  · exact h'
  · rcases endsParen_cases h.2 with h' | h' | h' | h' | h' <;>
      (rw [h3] at h'; exact absurd h' (by decide))

/-- Where a name ends as it should. -/
theorem parses_ended (hmem : (name, k₀) ∈ fusionGpregName.zipIdx) (hs : t.starts name = true)
    (hgr : k₀ = 12 → t.operand 3 ≠ ch '0') (hend : t.endsParen name.length = true) :
    t.ParsesRight ↔ t.blanks = 0 ∧ (t.operand name.length = ch ')' →
      k₀ ∉ [1, 2, 3, 4, 9, 10, 30, 31]) ∧ (k₀ = 3 → t.operand name.length ≠ 0) := by
  have hnamed : t.Named k₀ name.length := ⟨name, hmem, rfl, hs⟩
  have hspell : t.Spelled k₀ name.length := ⟨.inl hnamed, hend⟩
  obtain ⟨hreg, hadv, herr, hmemory⟩ := parse_named hmem hs hgr
  have honly : t.ParsesRight ↔ t.parseRegisterOperand.errors = [] ∧
      t.parseRegisterOperand.advance = t.blanks + name.length ∧
        t.parseRegisterOperand.mem = t.mem := by
    constructor
    · exact fun h => (h.1 _ _ hspell).2
    · intro h
      refine ⟨fun k len hsp => ?_, fun hno => absurd hspell (hno _ _)⟩
      obtain ⟨rfl, rfl⟩ := spelled_only hmem hs hgr hsp
      exact ⟨hreg, h⟩
  have hgp : k₀ = 3 → name.length = 2 := by
    have htable : ∀ p ∈ fusionGpregName.zipIdx, p.2 = 3 → p.1.length = 2 := by decide
    exact htable _ hmem
  rw [honly, herr, accepts_of_endsParen hend, hadv, hmemory]
  have hblanks : name.length = t.blanks + name.length ↔ t.blanks = 0 := by omega
  rw [hblanks]
  by_cases hk : k₀ = 3
  · have hlen := hgp hk
    rw [hlen] at hend ⊢
    have hloose : k₀ ∈ looseRegs := by
      rw [hk]
      decide
    have hin : k₀ ∈ [1, 2, 3, 4, 9, 10, 30, 31] := by
      rw [hk]
      decide
    have hkept := gp_kept_iff hend
    simp only [hk, true_and]
    rw [hkept]
    constructor
    · rintro ⟨-, hb, hp, hz⟩
      exact ⟨hb, fun h => absurd h hp, fun _ => hz⟩
    · rintro ⟨hb, hp, hz⟩
      rw [hk] at hin hloose
      exact ⟨fun _ => .inr hloose, hb, fun h => hp h hin, hz trivial⟩
  · have hloose : k₀ ∈ parenShy → k₀ ∉ looseRegs := by
      have hall : ∀ k ∈ parenShy, k ≠ 3 → k ∉ looseRegs := by decide
      exact fun h => hall _ h hk
    rw [if_neg fun h => hk h.1]
    constructor
    · rintro ⟨hp, hb, -⟩
      exact ⟨hb, fun h hin => (hp h).elim (fun hn => hn hin) (hloose hin), fun h => absurd h hk⟩
    · rintro ⟨hb, hp, -⟩
      exact ⟨fun h => .inl (hp h), hb, rfl⟩

/-- Where something else follows the name. -/
theorem parses_followed (hmem : (name, k₀) ∈ fusionGpregName.zipIdx) (hs : t.starts name = true)
    (hgr : k₀ = 12 → t.operand 3 ≠ ch '0') (hend : ¬ t.endsParen name.length = true) :
    t.ParsesRight ↔ k₀ ∉ looseRegs := by
  have hno : ∀ k len, ¬ t.Spelled k len := by
    intro k len h
    obtain ⟨-, rfl⟩ := spelled_only hmem hs hgr h
    exact hend h.2
  have herr := (parse_named hmem hs hgr).2.2.1
  rw [accepts_of_not_endsParen hend] at herr
  rw [← herr]
  exact ⟨fun h => h.2 hno, fun h => ⟨fun k len hsp => absurd hsp (hno k len), fun _ => h⟩⟩

theorem parses_named (hmem : (name, k₀) ∈ fusionGpregName.zipIdx) (hs : t.starts name = true)
    (hgr : k₀ = 12 → t.operand 3 ≠ ch '0') : t.ParsesRight ↔ t.RegisterFits := by
  have hnamed : t.Named k₀ name.length := ⟨name, hmem, rfl, hs⟩
  have h0 := (named_head hnamed).1
  by_cases hend : t.endsParen name.length = true
  · rw [parses_ended hmem hs hgr hend]
    constructor
    · intro h
      refine ⟨fun hd => absurd hd h0, ?_, ?_, fun hm => absurd hm (tmp8_unnamed hnamed)⟩
      · intro k len hn hlen
        obtain ⟨rfl, rfl⟩ := spelled_only hmem hs hgr ⟨.inl hn, hlen⟩
        exact h
      · intro k len hn _
        rcases named_only hmem hs hgr hn with ⟨rfl, rfl⟩ | ⟨hk, -, h3⟩
        · exact .inl hend
        · exact .inr ⟨hk, h3⟩
    · exact fun h => h.named k₀ _ hnamed hend
  · rw [parses_followed hmem hs hgr hend]
    constructor
    · intro h
      refine ⟨fun hd => absurd hd h0, ?_, ?_, fun hm => absurd hm (tmp8_unnamed hnamed)⟩
      · intro k len hn hlen
        obtain ⟨rfl, rfl⟩ := spelled_only hmem hs hgr ⟨.inl hn, hlen⟩
        exact absurd hlen hend
      · intro k len hn hl
        rcases named_only hmem hs hgr hn with ⟨rfl, rfl⟩ | ⟨hk, -, h3⟩
        · exact absurd hl h
        · exact .inr ⟨hk, h3⟩
    · intro h hl
      rcases h.loose k₀ _ hnamed hl with h' | ⟨hk, h3⟩
      · exact hend h'
      · exact hgr hk h3

/-- The texts of `RegisterFits` are exactly the ones that are treated right. -/
theorem register_operand_iff (t : CString) : t.ParsesRight ↔ t.RegisterFits := by
  by_cases h0 : t.operand 0 = ch '$'
  · rw [fits_dollar h0]
    by_cases h1 : isDigit (t.operand 1) = true ∨ t.operand 1 = ch 'R'
    · rw [parses_number h0 h1, numberValue_high_iff h1]
      exact ⟨fun h _ => h, fun h => h h1⟩
    · exact iff_of_true (parses_dollar h0 h1) fun h => absurd h h1
  · by_cases hno : ∀ k len, ¬ t.Named k len
    · exact parses_unnamed h0 hno
    · push Not at hno
      obtain ⟨k, len, hn⟩ := hno
      obtain ⟨name, k₀, hmem, hs, hgr⟩ := named_longest hn
      exact parses_named hmem hs hgr

/-- The text `$5`: the register is right, and the pointer is left before it. -/
def dollarFive : CString where
  mem i := if i = 0 then ch '$' else if i = 1 then ch '5' else if i = 2 then ch ',' else 0
  len := 3
  nul := rfl

theorem dollarFive_not_passed : ¬ dollarFive.ParsesRight := by
  intro h
  have hs : dollarFive.Spelled 5 2 := by
    refine ⟨.inr ⟨by decide, by decide, by decide⟩, by decide⟩
  have hadv : dollarFive.parseRegisterOperand.advance = dollarFive.blanks + 2 := (h.1 5 2 hs).2.2.1
  revert hadv
  decide

end FusionBinutils.Gas.CString
