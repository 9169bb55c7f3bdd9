import FusionBinutils.Bfd.LineTable
import Mathlib.Data.List.Induction

/-! How the lines of one sequence are kept in order. -/
namespace FusionBinutils.Bfd.LineTable

variable {a b c info : LineInfo} {seq : LineSequence} {l l' : List LineInfo}

/-! The order of lines. -/

theorem sortsAfter_iff : newLineSortsAfter a b = true ↔ b.address < a.address ∨
    (a.address = b.address ∧ (b.opIndex < a.opIndex ∨
      (a.opIndex = b.opIndex ∧ a.endSequence.toNat < b.endSequence.toNat))) := by
  cases ha : a.endSequence <;> cases hb : b.endSequence <;> simp [newLineSortsAfter, ha, hb]

theorem not_sortsAfter_iff : newLineSortsAfter a b = false ↔ a.address < b.address ∨
    (a.address = b.address ∧ (a.opIndex < b.opIndex ∨
      (a.opIndex = b.opIndex ∧ b.endSequence.toNat ≤ a.endSequence.toNat))) := by
  rw [Bool.eq_false_iff, Ne, sortsAfter_iff]
  omega

theorem not_sortsAfter_trans (h₁ : newLineSortsAfter b a = false)
    (h₂ : newLineSortsAfter c b = false) : newLineSortsAfter c a = false := by
  rw [not_sortsAfter_iff] at *
  omega

theorem not_sortsAfter_of_sortsAfter (h : newLineSortsAfter a b = true) :
    newLineSortsAfter b a = false := by
  rw [sortsAfter_iff] at h
  rw [not_sortsAfter_iff]
  omega

theorem address_le_of_not_sortsAfter (h : newLineSortsAfter a b = false) :
    a.address ≤ b.address := by
  rw [not_sortsAfter_iff] at h
  omega

theorem sameLine_iff : sameLine a b = true ↔
    a.address = b.address ∧ a.opIndex = b.opIndex ∧ a.endSequence = b.endSequence := by
  simp [sameLine, and_assoc]

theorem sortsAfter_congr (h : sameLine a b = true) (c : LineInfo) :
    newLineSortsAfter c a = newLineSortsAfter c b := by
  obtain ⟨h₁, h₂, h₃⟩ := sameLine_iff.mp h
  simp only [newLineSortsAfter, h₁, h₂, h₃]

/-- From the highest line down. -/
def Desc (l : List LineInfo) : Prop := l.Pairwise fun a b => newLineSortsAfter b a = false

/-- A line fits between the lines above it and those below. -/
theorem Desc.insert (h : Desc (l ++ l')) (habove : ∀ x ∈ l, newLineSortsAfter info x = false)
    (hbelow : ∀ x ∈ l', newLineSortsAfter x info = false) : Desc (l ++ info :: l') := by
  obtain ⟨h₁, h₂, h₃⟩ := List.pairwise_append.mp h
  refine List.pairwise_append.mpr ⟨h₁, List.pairwise_cons.mpr ⟨hbelow, h₂⟩, ?_⟩
  intro x hx y hy
  rcases List.mem_cons.mp hy with rfl | hy
  · exact habove x hx
  · exact h₃ x hx y hy

theorem hardSplit_append (info li2 : LineInfo) (l : List LineInfo) :
    (hardSplit info li2 l).1 ++ (hardSplit info li2 l).2 = l := by
  induction l generalizing li2 with
  | nil => rfl
  | cons li1 l ih =>
    rw [hardSplit]
    split
    · rfl
    · simp [ih]

theorem hardSplit_fits {li2 : LineInfo} (h : newLineSortsAfter info li2 = false)
    (hd : Desc l) : (∀ x ∈ (hardSplit info li2 l).1, newLineSortsAfter info x = false) ∧
      ∀ x ∈ (hardSplit info li2 l).2, newLineSortsAfter x info = false := by
  induction l generalizing li2 with
  | nil => simp [hardSplit]
  | cons li1 l ih =>
    obtain ⟨hhead, hd⟩ := List.pairwise_cons.mp hd
    rw [hardSplit]
    by_cases hnext : newLineSortsAfter info li1 = true
    · rw [h, hnext, if_pos (by rfl)]
      refine ⟨by simp, fun x hx => ?_⟩
      have hlow := not_sortsAfter_of_sortsAfter hnext
      rcases List.mem_cons.mp hx with rfl | hx
      · exact hlow
      · exact not_sortsAfter_trans hlow (hhead x hx)
    · rw [Bool.not_eq_true] at hnext
      obtain ⟨h₁, h₂⟩ := ih hnext hd
      rw [hnext, Bool.and_false, if_neg Bool.false_ne_true]
      refine ⟨fun x hx => ?_, h₂⟩
      rcases List.mem_cons.mp hx with rfl | hx
      · exact hnext
      · exact h₁ x hx

/-! One row. -/

theorem lclHead_mem (seq : LineSequence) : seq.lclHead ∈ seq.lastLine :: seq.upper :=
  List.getLastD_mem_cons

/-- All lines from `last_line` to `lcl_head` are not below `lcl_head`. -/
theorem lclHead_le (h : Desc seq.lines) : ∀ x ∈ seq.lastLine :: seq.upper,
    newLineSortsAfter seq.lclHead x = false := by
  have hupper : Desc (seq.lastLine :: seq.upper) :=
    (List.pairwise_append.mp h).1
  unfold LineSequence.lclHead
  generalize seq.lastLine = top, seq.upper = upper at hupper ⊢
  induction upper using List.reverseRecOn with
  | nil =>
    intro x hx
    rw [List.mem_singleton.mp hx, List.getLastD_nil, not_sortsAfter_iff]
    omega
  | append_singleton l y _ =>
    intro x hx
    rw [List.getLastD_concat]
    rw [← List.cons_append] at hx hupper
    rcases List.mem_append.mp hx with hx | hx
    · exact (List.pairwise_append.mp hupper).2.2 x hx y (by simp)
    · rw [List.mem_singleton.mp hx, not_sortsAfter_iff]
      omega

/-- The branches of `insert`: where the row goes. -/
theorem insert_cases (seq : LineSequence) (info : LineInfo) :
    (newLineSortsAfter info seq.lastLine = true ∧
      seq.insert info = { seq with lastLine := info, upper := seq.lastLine :: seq.upper }) ∨
    (newLineSortsAfter info seq.lastLine = false ∧ newLineSortsAfter info seq.lclHead = false ∧
      (∀ x, seq.lower.head? = some x → newLineSortsAfter info x = true) ∧
      seq.insert info = { seq with lower := info :: seq.lower }) ∨
    (newLineSortsAfter info seq.lastLine = false ∧
      (newLineSortsAfter info seq.lclHead = true ∨
        ∃ x, seq.lower.head? = some x ∧ newLineSortsAfter info x = false) ∧
      seq.insert info = { seq with
        upper := (hardSplit info seq.lastLine (seq.upper ++ seq.lower)).1
        lower := info :: (hardSplit info seq.lastLine (seq.upper ++ seq.lower)).2
        lowPc := if info.address < seq.lowPc then info.address else seq.lowPc }) := by
  unfold LineSequence.insert
  by_cases h₁ : newLineSortsAfter info seq.lastLine = true
  · rw [if_pos h₁]
    exact .inl ⟨h₁, rfl⟩
  · rw [if_neg h₁]
    rw [Bool.not_eq_true] at h₁
    refine .inr ?_
    by_cases h₂ : newLineSortsAfter info seq.lclHead = true
    · rw [h₂, Bool.not_true, Bool.false_and, if_neg Bool.false_ne_true]
      exact .inr ⟨h₁, .inl rfl, rfl⟩
    · rw [Bool.not_eq_true] at h₂
      rw [h₂, Bool.not_false, Bool.true_and]
      cases hl : seq.lower.head? with
      | none => exact .inl ⟨h₁, rfl, by simp, rfl⟩
      | some x =>
        cases hx : newLineSortsAfter info x with
        | true => exact .inl ⟨h₁, rfl, by simp [hx], by simp [hx]⟩
        | false => exact .inr ⟨h₁, .inr ⟨x, rfl, hx⟩, by simp [hx]⟩

theorem insert_desc (info : LineInfo) (h : Desc seq.lines) :
    Desc (seq.insert info).lines ∧ (seq.insert info).lines.Perm (info :: seq.lines) := by
  obtain ⟨htop, heq⟩ | ⟨htop, hlcl, hlow, heq⟩ | ⟨htop, -, heq⟩ := insert_cases seq info
  · rw [heq]
    refine ⟨List.pairwise_cons.mpr ⟨fun x hx => ?_, h⟩, List.Perm.refl _⟩
    have hle := not_sortsAfter_of_sortsAfter htop
    rcases List.mem_cons.mp hx with rfl | hx
    · exact hle
    · exact not_sortsAfter_trans hle ((List.pairwise_cons.mp h).1 x hx)
  · rw [heq]
    refine ⟨Desc.insert h ?_ ?_, List.perm_middle⟩
    · intro x hx
      exact not_sortsAfter_trans (lclHead_le h x hx) hlcl
    · intro x hx
      cases hl : seq.lower with
      | nil =>
        rw [hl] at hx
        cases hx
      | cons y ys =>
        have hy := not_sortsAfter_of_sortsAfter (hlow y (by rw [hl]; rfl))
        rw [hl] at hx
        rcases List.mem_cons.mp hx with rfl | hx
        · exact hy
        · have hlower : Desc seq.lower := (List.pairwise_append.mp h).2.1
          rw [hl] at hlower
          exact not_sortsAfter_trans hy ((List.pairwise_cons.mp hlower).1 x hx)
  · rw [heq]
    obtain ⟨hhead, hrest⟩ := List.pairwise_cons.mp h
    have hsplit := hardSplit_append info seq.lastLine (seq.upper ++ seq.lower)
    obtain ⟨habove, hbelow⟩ := hardSplit_fits htop hrest
    have hlines : seq.lines = (seq.lastLine ::
        (hardSplit info seq.lastLine (seq.upper ++ seq.lower)).1)
        ++ (hardSplit info seq.lastLine (seq.upper ++ seq.lower)).2 := by
      rw [List.cons_append, hsplit]
      rfl
    refine ⟨Desc.insert (hlines ▸ h) ?_ hbelow, ?_⟩
    · intro x hx
      rcases List.mem_cons.mp hx with rfl | hx
      · exact htop
      · exact habove x hx
    · rw [hlines]
      exact List.perm_middle

/-- A row goes into a sequence that is not closed. -/
def LineSequence.add (seq : LineSequence) (info : LineInfo) : LineSequence :=
  if sameLine seq.lastLine info then { seq with lastLine := info } else seq.insert info

theorem addLineInfo_open {rest : List LineSequence} (h : seq.lastLine.endSequence = false) :
    addLineInfo (seq :: rest) info = seq.add info :: rest := by
  rw [addLineInfo, LineSequence.add, h, if_neg Bool.false_ne_true]
  split <;> rfl

/-- The lines of a sequence are the rows `p`, in order; of rows that are the same only the last is
sure to be there. -/
structure Holds (seq : LineSequence) (p : List LineInfo) : Prop where
  desc : Desc seq.lines
  mem : ∀ x ∈ seq.lines, x ∈ p
  key : ∀ r ∈ p, ∃ x ∈ seq.lines, sameLine x r = true
  lowPc : ∃ r ∈ p, seq.lowPc = r.address

theorem Holds.start (info : LineInfo) : Holds (.start info) [info] :=
  ⟨List.pairwise_singleton _ _, fun _ h => h, fun r h => ⟨r, h, by simp [sameLine]⟩, info,
    by simp, rfl⟩

theorem Desc.replace (h : Desc (a :: l)) (hs : sameLine a info = true) : Desc (info :: l) := by
  obtain ⟨hhead, hl⟩ := List.pairwise_cons.mp h
  refine List.pairwise_cons.mpr ⟨fun x hx => ?_, hl⟩
  rw [← sortsAfter_congr hs]
  exact hhead x hx

theorem add_lowPc (seq : LineSequence) (info : LineInfo) :
    (seq.add info).lowPc = seq.lowPc ∨ (seq.add info).lowPc = info.address := by
  unfold LineSequence.add
  split
  · exact .inl rfl
  · obtain ⟨-, heq⟩ | ⟨-, -, -, heq⟩ | ⟨-, -, heq⟩ := insert_cases seq info
    · exact .inl (by rw [heq])
    · exact .inl (by rw [heq])
    · rw [heq]
      simp only
      split
      · exact .inr rfl
      · exact .inl rfl

theorem Holds.add {p : List LineInfo} (h : Holds seq p) (info : LineInfo) :
    Holds (seq.add info) (p ++ [info]) := by
  have hlow : ∃ r ∈ p ++ [info], (seq.add info).lowPc = r.address := by
    rcases add_lowPc seq info with heq | heq
    · obtain ⟨r, hr, hlow⟩ := h.lowPc
      exact ⟨r, by simp [hr], heq.trans hlow⟩
    · exact ⟨info, by simp, heq⟩
  by_cases hs : sameLine seq.lastLine info = true
  · have heq : seq.add info = { seq with lastLine := info } := if_pos hs
    rw [heq] at hlow ⊢
    refine ⟨Desc.replace h.desc hs, fun x hx => ?_, fun r hr => ?_, hlow⟩
    · rcases List.mem_cons.mp hx with rfl | hx
      · simp
      · exact List.mem_append_left _ (h.mem x (List.mem_cons_of_mem _ hx))
    · rcases List.mem_append.mp hr with hr | hr
      · obtain ⟨x, hx, hxr⟩ := h.key r hr
        rcases List.mem_cons.mp hx with rfl | hx
        · refine ⟨info, List.mem_cons_self, ?_⟩
          rw [sameLine_iff] at *
          exact ⟨hs.1.symm.trans hxr.1, hs.2.1.symm.trans hxr.2.1, hs.2.2.symm.trans hxr.2.2⟩
        · exact ⟨x, List.mem_cons_of_mem _ hx, hxr⟩
      · exact ⟨info, List.mem_cons_self, by simp [List.mem_singleton.mp hr, sameLine]⟩
  · have heq : seq.add info = seq.insert info := if_neg hs
    rw [heq] at hlow ⊢
    obtain ⟨hdesc, hperm⟩ := insert_desc info h.desc
    refine ⟨hdesc, fun x hx => ?_, fun r hr => ?_, hlow⟩
    · rcases List.mem_cons.mp (hperm.mem_iff.mp hx) with rfl | hx
      · simp
      · exact List.mem_append_left _ (h.mem x hx)
    · rcases List.mem_append.mp hr with hr | hr
      · obtain ⟨x, hx, hxr⟩ := h.key r hr
        exact ⟨x, hperm.mem_iff.mpr (List.mem_cons_of_mem _ hx), hxr⟩
      · exact ⟨info, hperm.mem_iff.mpr List.mem_cons_self,
          by simp [List.mem_singleton.mp hr, sameLine]⟩

theorem Holds.feed {p : List LineInfo} (h : Holds seq p) (rows : List LineInfo) :
    Holds (rows.foldl LineSequence.add seq) (p ++ rows) := by
  induction rows generalizing seq p with
  | nil => simpa using h
  | cons r rows ih => simpa using ih (h.add r)

theorem Holds.lastLine_mem {p : List LineInfo} (h : Holds seq p) : seq.lastLine ∈ p :=
  h.mem _ List.mem_cons_self

/-- No row sorts after the last line. -/
theorem Holds.le_lastLine {p : List LineInfo} (h : Holds seq p) :
    ∀ r ∈ p, newLineSortsAfter r seq.lastLine = false := by
  intro r hr
  obtain ⟨x, hx, hxr⟩ := h.key r hr
  have hle : newLineSortsAfter x seq.lastLine = false := by
    rcases List.mem_cons.mp hx with rfl | hx
    · rw [not_sortsAfter_iff]
      omega
    · exact (List.pairwise_cons.mp h.desc).1 x hx
  obtain ⟨h₁, h₂, h₃⟩ := sameLine_iff.mp hxr
  rw [not_sortsAfter_iff] at hle ⊢
  rw [← h₁, ← h₂, ← h₃]
  exact hle

end FusionBinutils.Bfd.LineTable
