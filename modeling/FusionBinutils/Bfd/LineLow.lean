import FusionBinutils.Bfd.LineInsert

/-! The lowest address of a sequence, and when `low_pc` misses it: the easy case of `add_line_info`
does not look at it. -/
namespace FusionBinutils.Bfd.LineTable

variable {a b c info : LineInfo} {seq : LineSequence} {p : List LineInfo} {m : Nat}

/-- In the order in which a compiler should give the rows. -/
def Ascending (p : List LineInfo) : Prop := p.Pairwise fun a b => newLineSortsAfter a b = false

def StrictlyAscending (p : List LineInfo) : Prop :=
  p.Pairwise fun a b => newLineSortsAfter b a = true

def lowest (m : Nat) (p : List LineInfo) : List LineInfo := p.filter fun r => r.address == m

def others (m : Nat) (p : List LineInfo) : List LineInfo := p.filter fun r => r.address != m

/-- The rows do not start at their lowest address `m`, and up to the last row there those of the
address `m` and the others are in order. -/
structure MissedAt (m : Nat) (p : List LineInfo) : Prop where
  min : ∀ r ∈ p, m ≤ r.address
  split : ∃ q s, p = q ++ s ∧ (∃ r ∈ q, r.address = m) ∧ (∀ r ∈ s, m < r.address) ∧
    (∀ f, q.head? = some f → m < f.address) ∧ StrictlyAscending (lowest m q) ∧
    Ascending (others m q)

/-- The lowest address of the rows is missed. -/
def Missed (p : List LineInfo) : Prop := ∃ m, MissedAt m p

theorem sortsAfter_trans_le (h : newLineSortsAfter a b = true)
    (h' : newLineSortsAfter c b = false) : newLineSortsAfter a c = true := by
  rw [sortsAfter_iff] at *
  rw [not_sortsAfter_iff] at h'
  omega

theorem Ascending.snoc (h : Ascending p) (hle : ∀ r ∈ p, newLineSortsAfter r info = false) :
    Ascending (p ++ [info]) := by
  refine List.pairwise_append.mpr ⟨h, List.pairwise_singleton _ _, fun x hx y hy => ?_⟩
  rw [List.mem_singleton.mp hy]
  exact hle x hx

theorem not_ascending_append (h : ¬ Ascending p) (q : List LineInfo) : ¬ Ascending (p ++ q) :=
  fun h' => h (List.pairwise_append.mp h').1

theorem not_ascending_snoc (ha : a ∈ p) (h : newLineSortsAfter a info = true) :
    ¬ Ascending (p ++ [info]) := by
  intro h'
  have := (List.pairwise_append.mp h').2.2 a ha info (by simp)
  rw [h] at this
  cases this

/-- Rows that start above their lowest address are not in order. -/
theorem not_ascending_of_head (hf : p.head? = some a) (hb : b ∈ p) (h : b.address < a.address) :
    ¬ Ascending p := by
  intro hasc
  cases p with
  | nil => cases hf
  | cons x p =>
    cases hf
    rcases List.mem_cons.mp hb with rfl | hb
    · omega
    · have := address_le_of_not_sortsAfter ((List.pairwise_cons.mp hasc).1 b hb)
      omega

theorem others_snoc_of_ne (h : info.address ≠ m) : others m (p ++ [info]) = others m p ++ [info] := by
  simp [others, h]

theorem others_snoc_of_eq (h : info.address = m) : others m (p ++ [info]) = others m p := by
  simp [others, h]

theorem lowest_snoc_of_ne (h : info.address ≠ m) : lowest m (p ++ [info]) = lowest m p := by
  simp [lowest, h]

theorem lowest_snoc_of_eq (h : info.address = m) :
    lowest m (p ++ [info]) = lowest m p ++ [info] := by
  simp [lowest, h]

/-- One more row cannot bring it about, if it is not the lowest. -/
theorem missed_of_snoc (hx : a ∈ p) (hle : a.address ≤ info.address)
    (h : Missed (p ++ [info])) : Missed p := by
  obtain ⟨m, hmin, q, s, hsplit, ⟨r, hr, hrm⟩, hs, hhead, hstrict, hasc⟩ := h
  have hminp : ∀ r ∈ p, m ≤ r.address := fun r hr => hmin r (by simp [hr])
  rcases List.eq_nil_or_concat s with rfl | ⟨s', y, rfl⟩
  · rw [List.append_nil] at hsplit
    subst hsplit
    refine ⟨m, hminp, p, [], by simp, ?_, by simp, ?_, ?_, ?_⟩
    · rcases List.mem_append.mp hr with hr | hr
      · exact ⟨r, hr, hrm⟩
      · rw [List.mem_singleton.mp hr] at hrm
        exact ⟨a, hx, by have := hminp a hx; omega⟩
    · intro f hf
      exact hhead f (by rw [List.head?_append, hf, Option.some_or])
    · exact hstrict.sublist (List.Sublist.filter _ (List.sublist_append_left p [info]))
    · exact hasc.sublist (List.Sublist.filter _ (List.sublist_append_left p [info]))
  · rw [List.concat_eq_append, ← List.append_assoc] at hsplit
    obtain ⟨rfl, -⟩ := List.append_inj' hsplit rfl
    exact ⟨m, hminp, q, s', rfl, ⟨r, hr, hrm⟩, fun x hx => hs x (by simp [hx]), hhead, hstrict, hasc⟩

/-- A row of the lowest address is not behind the cut. -/
theorem MissedAt.snoc_min (h : MissedAt m (p ++ [info])) (heq : info.address = m) :
    StrictlyAscending (lowest m (p ++ [info])) ∧ Ascending (others m p) := by
  obtain ⟨hmin, q, s, hsplit, -, hs, -, hstrict, hasc⟩ := h
  rcases List.eq_nil_or_concat s with rfl | ⟨s', y, rfl⟩
  · rw [List.append_nil] at hsplit
    subst hsplit
    rw [others_snoc_of_eq heq] at hasc
    exact ⟨hstrict, hasc⟩
  · rw [List.concat_eq_append, ← List.append_assoc] at hsplit
    obtain ⟨-, hy⟩ := List.append_inj' hsplit rfl
    rw [List.singleton_inj] at hy
    have := hs info (by simp [hy])
    omega

theorem missed_min {r : LineInfo} (h : MissedAt m p) (hr : r ∈ p)
    (hle : ∀ x ∈ p, r.address ≤ x.address) : m = r.address := by
  obtain ⟨hmin, q, s, rfl, ⟨x, hx, hxm⟩, -⟩ := h
  have h₁ := hmin r hr
  have h₂ := hle x (by simp [hx])
  omega

/-- A new lowest row is missed only behind rows that are in order. -/
theorem ascending_of_missed (hlt : ∀ r ∈ p, info.address < r.address)
    (h : Missed (p ++ [info])) : Ascending p := by
  obtain ⟨m, h⟩ := h
  have hm : m = info.address := by
    refine missed_min h (by simp) fun x hx => ?_
    rcases List.mem_append.mp hx with hx | hx
    · exact Nat.le_of_lt (hlt x hx)
    · exact Nat.le_of_eq (by rw [List.mem_singleton.mp hx])
  have hall : others m p = p := by
    rw [others, List.filter_eq_self]
    intro r hr
    have := hlt r hr
    simp only [bne_iff_ne, ne_eq]
    omega
  rw [← hall]
  exact (h.snoc_min hm.symm).2

/-! One row. -/

/-- What a row on top leaves as it is. -/
theorem add_top (h : sameLine seq.lastLine info = true ∨
    newLineSortsAfter info seq.lastLine = true) :
    (seq.add info).lower = seq.lower ∧ (seq.add info).lowPc = seq.lowPc ∧
      (seq.add info).lclHead.address = seq.lclHead.address := by
  by_cases hs : sameLine seq.lastLine info = true
  · rw [LineSequence.add, if_pos hs]
    refine ⟨rfl, rfl, ?_⟩
    unfold LineSequence.lclHead
    cases hu : seq.upper with
    | nil => exact (sameLine_iff.mp hs).1.symm
    | cons x l => rfl
  · have hafter := h.resolve_left hs
    rw [LineSequence.add, if_neg hs, LineSequence.insert, if_pos hafter]
    exact ⟨rfl, rfl, by simp only [LineSequence.lclHead, List.getLastD_cons]⟩

/-- A row that is not on top becomes the line behind `lcl_head`; the easy case leaves `low_pc` and
`lcl_head` alone. -/
theorem add_inner (hs : sameLine seq.lastLine info = false)
    (htop : newLineSortsAfter info seq.lastLine = false) :
    (newLineSortsAfter info seq.lclHead = false ∧
      (∀ x, seq.lower.head? = some x → newLineSortsAfter info x = true) ∧
      (seq.add info).lower = info :: seq.lower ∧ (seq.add info).lowPc = seq.lowPc ∧
      (seq.add info).lclHead = seq.lclHead) ∨
    ((newLineSortsAfter info seq.lclHead = true ∨
        ∃ x, seq.lower.head? = some x ∧ newLineSortsAfter info x = false) ∧
      (∃ l, (seq.add info).lower = info :: l) ∧
      (seq.add info).lowPc = Nat.min info.address seq.lowPc) := by
  rw [LineSequence.add, hs, if_neg Bool.false_ne_true]
  obtain ⟨hafter, -⟩ | ⟨-, hlcl, hlow, heq⟩ | ⟨-, hhard, heq⟩ := insert_cases seq info
  · rw [htop] at hafter
    cases hafter
  · rw [heq]
    exact .inl ⟨hlcl, hlow, rfl, rfl, rfl⟩
  · rw [heq]
    refine .inr ⟨hhard, ⟨_, rfl⟩, ?_⟩
    simp only
    split
    · next hlt => exact (Nat.min_eq_left (Nat.le_of_lt hlt)).symm
    · next hge => exact (Nat.min_eq_right (Nat.not_lt.mp hge)).symm

/-- Rows of a sequence that is not closed are the same or in order. -/
theorem sortsAfter_of_inner (ha : a.endSequence = false) (hb : b.endSequence = false)
    (hs : sameLine a b = false) (h : newLineSortsAfter b a = false) :
    newLineSortsAfter a b = true := by
  rw [not_sortsAfter_iff] at h
  rw [sortsAfter_iff]
  have hne : ¬ (a.address = b.address ∧ a.opIndex = b.opIndex) := by
    rintro ⟨h₁, h₂⟩
    rw [Bool.eq_false_iff, Ne, sameLine_iff] at hs
    exact hs ⟨h₁, h₂, ha.trans hb.symm⟩
  omega

/-- What `low_pc` and `lcl_head` are after the rows `p`. -/
inductive LowState (seq : LineSequence) (p : List LineInfo) : Prop where
  /-- all rows came in order -/
  | ascending (asc : Ascending p) (low : ∀ r ∈ p, seq.lowPc ≤ r.address) (bottom : seq.lower = [])
  /-- the rows of the lowest address are all that is behind `lcl_head` -/
  | fragile (m : Nat) (missed : MissedAt m p) (asc : Ascending (others m p))
      (strict : StrictlyAscending (lowest m p)) (bottom : seq.lower = (lowest m p).reverse)
      (low : m < seq.lowPc) (lcl : m < seq.lclHead.address)
  /-- another row is behind `lcl_head` -/
  | settled (m : Nat) (missed : MissedAt m p) (asc : ¬ Ascending (others m p))
      (bottom : ∃ x, seq.lower.head? = some x ∧ m < x.address) (low : m < seq.lowPc)
  /-- the lowest address was seen, and will be -/
  | good (asc : ¬ Ascending p) (missed : ¬ Missed p) (low : ∀ r ∈ p, seq.lowPc ≤ r.address)
      (bottom : seq.lower ≠ [])

theorem MissedAt.exists_min (h : MissedAt m p) : ∃ r ∈ p, r.address = m := by
  obtain ⟨-, q, s, rfl, ⟨r, hr, hrm⟩, -⟩ := h
  exact ⟨r, by simp [hr], hrm⟩

theorem MissedAt.head (h : MissedAt m p) : ∃ f, p.head? = some f ∧ m < f.address := by
  obtain ⟨-, q, s, rfl, ⟨r, hr, -⟩, -, hf, -⟩ := h
  cases q with
  | nil => cases hr
  | cons f q => exact ⟨f, rfl, hf f rfl⟩

theorem MissedAt.not_ascending (h : MissedAt m p) : ¬ Ascending p := by
  obtain ⟨r, hr, hrm⟩ := h.exists_min
  obtain ⟨f, hf, hlt⟩ := h.head
  exact not_ascending_of_head hf hr (by omega)

/-- `low_pc` is right exactly when the lowest address is not missed. -/
theorem LowState.low_iff (h : LowState seq p) :
    (∀ r ∈ p, seq.lowPc ≤ r.address) ↔ ¬ Missed p := by
  have hmissed : ∀ {m}, MissedAt m p → m < seq.lowPc →
      ((∀ r ∈ p, seq.lowPc ≤ r.address) ↔ ¬ Missed p) := by
    intro m hm hlow
    obtain ⟨r, hr, hrm⟩ := hm.exists_min
    constructor
    · intro hle
      have := hle r hr
      omega
    · exact fun hno => absurd ⟨m, hm⟩ hno
  cases h with
  | ascending asc low bottom =>
    refine iff_of_true low ?_
    rintro ⟨m, hm⟩
    exact hm.not_ascending asc
  | fragile m missed asc strict bottom low lcl => exact hmissed missed low
  | settled m missed asc bottom low => exact hmissed missed low
  | good asc missed low bottom => exact iff_of_true low missed

theorem forall_snoc {P : LineInfo → Prop} (hp : ∀ r ∈ p, P r) (hi : P info) :
    ∀ r ∈ p ++ [info], P r := by
  intro r hr
  rcases List.mem_append.mp hr with hr | hr
  · exact hp r hr
  · rwa [List.mem_singleton.mp hr]

/-- A row above the lowest address does not change what is missed. -/
theorem MissedAt.snoc (h : MissedAt m p) (hlt : m < info.address) : MissedAt m (p ++ [info]) := by
  obtain ⟨hmin, q, s, rfl, hex, hs, hrest⟩ := h
  refine ⟨fun r hr => ?_, q, s ++ [info], by simp, hex, fun r hr => ?_, hrest⟩
  · exact forall_snoc hmin (Nat.le_of_lt hlt) r hr
  · exact forall_snoc hs hlt r hr

section

variable (h : Holds seq p)
include h

/-- A row on top is not below any other. -/
theorem Holds.le_top (htop : sameLine seq.lastLine info = true ∨
    newLineSortsAfter info seq.lastLine = true) :
    ∀ r ∈ p, newLineSortsAfter r info = false := by
  have hle : newLineSortsAfter seq.lastLine info = false := by
    rcases htop with hs | hafter
    · obtain ⟨h₁, h₂, h₃⟩ := sameLine_iff.mp hs
      rw [not_sortsAfter_iff, h₁, h₂, h₃]
      omega
    · exact not_sortsAfter_of_sortsAfter hafter
  intro r hr
  exact not_sortsAfter_trans hle (h.le_lastLine r hr)

theorem Holds.lclHead_mem : seq.lclHead ∈ p :=
  h.mem _ (List.mem_append_left _ (LineTable.lclHead_mem seq))

theorem Holds.lower_mem {x : LineInfo} (hx : seq.lower.head? = some x) : x ∈ p :=
  h.mem x (List.mem_append_right _ (List.mem_of_head? hx))

/-- A row on top leaves the lowest address as it is. -/
theorem Holds.top_address (htop : sameLine seq.lastLine info = true ∨
    newLineSortsAfter info seq.lastLine = true) : seq.lowPc ≤ info.address := by
  obtain ⟨r, hr, hlow⟩ := h.lowPc
  rw [hlow]
  exact address_le_of_not_sortsAfter (h.le_top htop r hr)

theorem LowState.add_top (hlow : LowState seq p) (htop : sameLine seq.lastLine info = true ∨
    newLineSortsAfter info seq.lastLine = true) : LowState (seq.add info) (p ++ [info]) := by
  obtain ⟨hlower, hpc, hlcl⟩ := LineTable.add_top htop
  have hle := h.le_top htop
  have hlast : seq.lastLine.address ≤ info.address :=
    address_le_of_not_sortsAfter (hle _ h.lastLine_mem)
  have hall : (∀ r ∈ p, seq.lowPc ≤ r.address) → ∀ r ∈ p ++ [info], seq.lowPc ≤ r.address :=
    fun hp => forall_snoc hp (h.top_address htop)
  have hmissed : ∀ {m}, MissedAt m p → m < info.address ∧ MissedAt m (p ++ [info]) := by
    intro m hm
    have hlt : m < info.address := by
      obtain ⟨f, hf, hfm⟩ := hm.head
      have := address_le_of_not_sortsAfter (hle f (List.mem_of_head? hf))
      omega
    exact ⟨hlt, hm.snoc hlt⟩
  cases hlow with
  | ascending asc low bottom =>
    exact .ascending (asc.snoc hle) (by rw [hpc]; exact hall low) (by rw [hlower, bottom])
  | fragile m missed asc strict bottom low lcl =>
    obtain ⟨hlt, hm⟩ := hmissed missed
    refine .fragile m hm ?_ ?_ ?_ (by rwa [hpc]) (by rwa [hlcl])
    · rw [others_snoc_of_ne (Nat.ne_of_gt hlt)]
      exact asc.snoc fun r hr => hle r (List.mem_filter.mp hr).1
    · rwa [lowest_snoc_of_ne (Nat.ne_of_gt hlt)]
    · rw [lowest_snoc_of_ne (Nat.ne_of_gt hlt), hlower, bottom]
  | settled m missed asc bottom low =>
    obtain ⟨hlt, hm⟩ := hmissed missed
    refine .settled m hm ?_ (by rwa [hlower]) (by rwa [hpc])
    rw [others_snoc_of_ne (Nat.ne_of_gt hlt)]
    exact not_ascending_append asc _
  | good asc missed low bottom =>
    refine .good (not_ascending_append asc _) (fun hm => missed ?_) (by rw [hpc]; exact hall low)
      (by rwa [hlower])
    exact missed_of_snoc h.lastLine_mem hlast hm

end

/-- A row that is below all others is behind none of them. -/
theorem not_easy {x : LineInfo} (hx : seq.lower.head? = some x) (hlt : info.address < x.address) :
    ¬ ∀ x, seq.lower.head? = some x → newLineSortsAfter info x = true := by
  intro hall
  have := hall x hx
  rw [sortsAfter_iff] at this
  omega

/-- A row below all others that takes the hard case is seen. -/
theorem LowState.add_below (hlt : ∀ r ∈ p, info.address < r.address) (hasc : ¬ Ascending p)
    (hlower : ∃ l, (seq.add info).lower = info :: l) (hpc : (seq.add info).lowPc = info.address) :
    LowState (seq.add info) (p ++ [info]) := by
  refine .good (not_ascending_append hasc _) (fun hm => hasc (ascending_of_missed hlt hm)) ?_ ?_
  · rw [hpc]
    exact forall_snoc (fun r hr => Nat.le_of_lt (hlt r hr)) (Nat.le_refl _)
  · obtain ⟨l, hl⟩ := hlower
    rw [hl]
    exact List.cons_ne_nil _ _

section

variable (h : Holds seq p) (hs : sameLine seq.lastLine info = false)
  (htop : newLineSortsAfter info seq.lastLine = false)
  (hend : seq.lastLine.endSequence = false) (hend' : info.endSequence = false)
include h hs htop hend hend'

theorem LowState.add_of_ascending (asc : Ascending p) (low : ∀ r ∈ p, seq.lowPc ≤ r.address)
    (bottom : seq.lower = []) : LowState (seq.add info) (p ++ [info]) := by
  have hnot := not_ascending_snoc h.lastLine_mem (sortsAfter_of_inner hend hend' hs htop)
  obtain ⟨a, ha, hlow⟩ := h.lowPc
  -- a row that is not below the first is harmless
  have hgood : seq.lowPc ≤ info.address → (seq.add info).lowPc = seq.lowPc →
      (∃ l, (seq.add info).lower = info :: l) → LowState (seq.add info) (p ++ [info]) := by
    rintro hle hpc ⟨l, hl⟩
    refine .good hnot (fun hm => ?_) (by rw [hpc]; exact forall_snoc low hle) (by rw [hl]; simp)
    obtain ⟨m, hm⟩ := missed_of_snoc ha (hlow ▸ hle) hm
    exact hm.not_ascending asc
  obtain ⟨hlcl, -, hlower, hpc, hlcl'⟩ | ⟨hhard, hlower, hpc⟩ := LineTable.add_inner hs htop
  · by_cases hlt : info.address < seq.lowPc
    · have hall : ∀ r ∈ p, info.address < r.address :=
        fun r hr => Nat.lt_of_lt_of_le hlt (low r hr)
      have hlowest : lowest info.address p = [] := by
        rw [lowest, List.filter_eq_nil_iff]
        intro r hr
        have := hall r hr
        simp only [beq_iff_eq]
        omega
      have hothers : others info.address p = p := by
        rw [others, List.filter_eq_self]
        intro r hr
        have := hall r hr
        simp only [bne_iff_ne, ne_eq]
        omega
      have hstrict : StrictlyAscending (lowest info.address (p ++ [info])) := by
        rw [lowest_snoc_of_eq rfl, hlowest]
        exact List.pairwise_singleton _ _
      have hasc : Ascending (others info.address (p ++ [info])) := by
        rw [others_snoc_of_eq rfl, hothers]
        exact asc
      refine .fragile info.address ⟨?_, p ++ [info], [], by simp, ⟨info, by simp, rfl⟩, by simp, ?_,
        hstrict, hasc⟩ hasc hstrict ?_ (by rwa [hpc]) ?_
      · exact forall_snoc (fun r hr => Nat.le_of_lt (hall r hr)) (Nat.le_refl _)
      · intro f hf
        cases hg : p.head? with
        | none => exact absurd (List.head?_eq_none_iff.mp hg) (List.ne_nil_of_mem ha)
        | some g =>
          rw [List.head?_append, hg, Option.some_or, Option.some.injEq] at hf
          exact hall f (hf ▸ List.mem_of_head? hg)
      · rw [hlower, bottom, lowest_snoc_of_eq rfl, hlowest]
        rfl
      · rw [hlcl']
        exact hall _ h.lclHead_mem
    · exact hgood (Nat.not_lt.mp hlt) hpc ⟨_, hlower⟩
  · have hle : seq.lowPc ≤ info.address := by
      rcases hhard with hafter | ⟨x, hx, -⟩
      · have h₁ := address_le_of_not_sortsAfter (not_sortsAfter_of_sortsAfter hafter)
        have h₂ := low _ h.lclHead_mem
        omega
      · rw [bottom] at hx
        cases hx
    exact hgood hle (by rw [hpc]; exact Nat.min_eq_right hle) hlower

theorem LowState.add_of_fragile (missed : MissedAt m p) (asc : Ascending (others m p))
    (strict : StrictlyAscending (lowest m p)) (bottom : seq.lower = (lowest m p).reverse)
    (low : m < seq.lowPc) (lcl : m < seq.lclHead.address) :
    LowState (seq.add info) (p ++ [info]) := by
  have hafter := sortsAfter_of_inner hend hend' hs htop
  obtain ⟨r, hr, hrm⟩ := missed.exists_min
  have hlowest : ∀ x, x ∈ lowest m p ↔ x ∈ seq.lower := by
    intro x
    rw [bottom, List.mem_reverse]
  obtain ⟨y, hy⟩ : ∃ y, seq.lower.head? = some y := by
    have hmem : r ∈ seq.lower := (hlowest r).mp (List.mem_filter.mpr ⟨hr, by simpa using hrm⟩)
    cases hl : seq.lower with
    | nil =>
      rw [hl] at hmem
      cases hmem
    | cons y l => exact ⟨y, rfl⟩
  have hym : y.address = m := by
    have hmem := (hlowest y).mpr (List.mem_of_head? hy)
    simpa using (List.mem_filter.mp hmem).2
  rcases Nat.lt_trichotomy info.address m with hlt | heq | hgt
  · obtain ⟨-, heasy, -⟩ | ⟨-, hlower, hpc⟩ := LineTable.add_inner hs htop
    · exact absurd heasy (not_easy hy (by omega))
    · refine LowState.add_below (fun x hx => ?_) missed.not_ascending hlower ?_
      · exact Nat.lt_of_lt_of_le hlt (missed.min x hx)
      · rw [hpc]
        exact Nat.min_eq_left (by omega)
  · obtain ⟨-, heasy, hlower, hpc, hlcl'⟩ | ⟨hhard, ⟨l, hlower⟩, hpc⟩ :=
      LineTable.add_inner hs htop
    · have hdesc : Desc seq.lower := (List.pairwise_append.mp h.desc).2.1
      have hstrict : StrictlyAscending (lowest m (p ++ [info])) := by
        rw [lowest_snoc_of_eq heq]
        refine List.pairwise_append.mpr ⟨strict, List.pairwise_singleton _ _, fun x hx z hz => ?_⟩
        rw [List.mem_singleton.mp hz]
        refine sortsAfter_trans_le (heasy y hy) ?_
        have hx' := (hlowest x).mp hx
        cases hl : seq.lower with
        | nil =>
          rw [hl] at hx'
          cases hx'
        | cons y' l =>
          rw [hl] at hx' hdesc hy
          cases hy
          rcases List.mem_cons.mp hx' with rfl | hx'
          · rw [not_sortsAfter_iff]
            omega
          · exact (List.pairwise_cons.mp hdesc).1 x hx'
      have hasc : Ascending (others m (p ++ [info])) := by
        rwa [others_snoc_of_eq heq]
      refine .fragile m ⟨forall_snoc missed.min (Nat.le_of_eq heq.symm), p ++ [info], [], by simp,
        ⟨info, by simp, heq⟩, by simp, fun f hf => ?_, hstrict, hasc⟩ hasc hstrict ?_ (by rwa [hpc])
        (by rwa [hlcl'])
      · obtain ⟨f', hf', hlt⟩ := missed.head
        rw [List.head?_append, hf', Option.some_or, Option.some.injEq] at hf
        exact hf ▸ hlt
      · rw [hlower, bottom, lowest_snoc_of_eq heq, List.reverse_append]
        rfl
    · refine .good (not_ascending_append missed.not_ascending _) ?_ ?_ (by rw [hlower]; simp)
      · rintro ⟨m', hm'⟩
        have hmm : m' = m := by
          rw [← heq]
          exact missed_min hm' (by simp)
            (forall_snoc (fun x hx => heq ▸ missed.min x hx) (Nat.le_refl _))
        subst hmm
        have hnew := (hm'.snoc_min heq).1
        rw [lowest_snoc_of_eq heq] at hnew
        rcases hhard with hlcl | ⟨x, hx, hno⟩
        · rw [sortsAfter_iff] at hlcl
          omega
        · have hmem := (hlowest x).mpr (List.mem_of_head? hx)
          have := (List.pairwise_append.mp hnew).2.2 x hmem info (by simp)
          rw [hno] at this
          cases this
      · have hmin : Nat.min info.address seq.lowPc = m := by
          rw [heq]
          exact Nat.min_eq_left (Nat.le_of_lt low)
        rw [hpc, hmin]
        exact forall_snoc missed.min (Nat.le_of_eq heq.symm)
  · have hmem : seq.lastLine ∈ others m p := by
      refine List.mem_filter.mpr ⟨h.lastLine_mem, ?_⟩
      have := address_le_of_not_sortsAfter (not_sortsAfter_of_sortsAfter hafter)
      simp only [bne_iff_ne, ne_eq]
      omega
    have hasc : ¬ Ascending (others m (p ++ [info])) := by
      rw [others_snoc_of_ne (Nat.ne_of_gt hgt)]
      exact not_ascending_snoc hmem hafter
    obtain ⟨-, -, hlower, hpc, -⟩ | ⟨-, ⟨l, hlower⟩, hpc⟩ := LineTable.add_inner hs htop
    · exact .settled m (missed.snoc hgt) hasc ⟨info, by rw [hlower]; rfl, hgt⟩ (by rwa [hpc])
    · exact .settled m (missed.snoc hgt) hasc ⟨info, by rw [hlower]; rfl, hgt⟩
        (by rw [hpc]; exact Nat.lt_min.mpr ⟨hgt, low⟩)

end

section

variable (hs : sameLine seq.lastLine info = false)
  (htop : newLineSortsAfter info seq.lastLine = false)
include hs htop

theorem LowState.add_of_settled (missed : MissedAt m p) (asc : ¬ Ascending (others m p))
    (bottom : ∃ x, seq.lower.head? = some x ∧ m < x.address) (low : m < seq.lowPc) :
    LowState (seq.add info) (p ++ [info]) := by
  obtain ⟨y, hy, hym⟩ := bottom
  rcases Nat.lt_trichotomy info.address m with hlt | heq | hgt
  · obtain ⟨-, heasy, -⟩ | ⟨-, hlower, hpc⟩ := LineTable.add_inner hs htop
    · exact absurd heasy (not_easy hy (by omega))
    · refine LowState.add_below (fun x hx => ?_) missed.not_ascending hlower ?_
      · exact Nat.lt_of_lt_of_le hlt (missed.min x hx)
      · rw [hpc]
        exact Nat.min_eq_left (by omega)
  · obtain ⟨-, heasy, -⟩ | ⟨-, ⟨l, hlower⟩, hpc⟩ := LineTable.add_inner hs htop
    · exact absurd heasy (not_easy hy (by omega))
    · refine .good (not_ascending_append missed.not_ascending _) ?_ ?_ (by rw [hlower]; simp)
      · rintro ⟨m', hm'⟩
        have hmm : m' = m := by
          rw [← heq]
          exact missed_min hm' (by simp)
            (forall_snoc (fun x hx => heq ▸ missed.min x hx) (Nat.le_refl _))
        subst hmm
        exact asc (hm'.snoc_min heq).2
      · have hmin : Nat.min info.address seq.lowPc = m := by
          rw [heq]
          exact Nat.min_eq_left (Nat.le_of_lt low)
        rw [hpc, hmin]
        exact forall_snoc missed.min (Nat.le_of_eq heq.symm)
  · have hasc : ¬ Ascending (others m (p ++ [info])) := by
      rw [others_snoc_of_ne (Nat.ne_of_gt hgt)]
      exact not_ascending_append asc _
    obtain ⟨-, -, hlower, hpc, -⟩ | ⟨-, ⟨l, hlower⟩, hpc⟩ := LineTable.add_inner hs htop
    · exact .settled m (missed.snoc hgt) hasc ⟨info, by rw [hlower]; rfl, hgt⟩ (by rwa [hpc])
    · exact .settled m (missed.snoc hgt) hasc ⟨info, by rw [hlower]; rfl, hgt⟩
        (by rw [hpc]; exact Nat.lt_min.mpr ⟨hgt, low⟩)

theorem LowState.add_of_good (h : Holds seq p) (asc : ¬ Ascending p) (missed : ¬ Missed p)
    (low : ∀ r ∈ p, seq.lowPc ≤ r.address) (bottom : seq.lower ≠ []) :
    LowState (seq.add info) (p ++ [info]) := by
  obtain ⟨a, ha, hlow⟩ := h.lowPc
  by_cases hlt : info.address < seq.lowPc
  · have hall : ∀ r ∈ p, info.address < r.address :=
      fun r hr => Nat.lt_of_lt_of_le hlt (low r hr)
    obtain ⟨-, heasy, -⟩ | ⟨-, hlower, hpc⟩ := LineTable.add_inner hs htop
    · obtain ⟨y, l, hl⟩ := List.exists_cons_of_ne_nil bottom
      have hy : seq.lower.head? = some y := by rw [hl]; rfl
      exact absurd heasy (not_easy hy (hall y (h.lower_mem hy)))
    · refine LowState.add_below hall asc hlower ?_
      rw [hpc]
      exact Nat.min_eq_left (Nat.le_of_lt hlt)
  · have hle := Nat.not_lt.mp hlt
    have hpc : (seq.add info).lowPc = seq.lowPc ∧ ∃ l, (seq.add info).lower = info :: l := by
      obtain ⟨-, -, hlower, hpc, -⟩ | ⟨-, hlower, hpc⟩ := LineTable.add_inner hs htop
      · exact ⟨hpc, _, hlower⟩
      · exact ⟨hpc.trans (Nat.min_eq_right hle), hlower⟩
    obtain ⟨hpc, l, hlower⟩ := hpc
    refine .good (not_ascending_append asc _) (fun hm => missed ?_) ?_ (by rw [hlower]; simp)
    · exact missed_of_snoc ha (hlow ▸ hle) hm
    · rw [hpc]
      exact forall_snoc low hle

end

theorem LowState.add (h : Holds seq p) (hlow : LowState seq p)
    (hend : seq.lastLine.endSequence = false) (hend' : info.endSequence = false) :
    LowState (seq.add info) (p ++ [info]) := by
  by_cases htop : sameLine seq.lastLine info = true ∨ newLineSortsAfter info seq.lastLine = true
  · exact LowState.add_top h hlow htop
  · rw [not_or, Bool.not_eq_true, Bool.not_eq_true] at htop
    obtain ⟨hs, htop⟩ := htop
    cases hlow with
    | ascending asc low bottom =>
      exact LowState.add_of_ascending h hs htop hend hend' asc low bottom
    | fragile m missed asc strict bottom low lcl =>
      exact LowState.add_of_fragile h hs htop hend hend' missed asc strict bottom low lcl
    | settled m missed asc bottom low =>
      exact LowState.add_of_settled hs htop missed asc bottom low
    | good asc missed low bottom =>
      exact LowState.add_of_good hs htop h asc missed low bottom

theorem LowState.start (info : LineInfo) : LowState (.start info) [info] :=
  .ascending (List.pairwise_singleton _ _) (by simp [LineSequence.start]) rfl

/-- All rows of a sequence. -/
theorem LowState.feed {rows : List LineInfo} (h : Holds seq p) (hlow : LowState seq p)
    (hp : ∀ r ∈ p, r.endSequence = false) (hrows : ∀ r ∈ rows, r.endSequence = false) :
    LowState (rows.foldl LineSequence.add seq) (p ++ rows) := by
  induction rows generalizing seq p with
  | nil => simpa using hlow
  | cons r rows ih =>
    have hr := hrows r (by simp)
    have hstep := LowState.add h hlow (hp _ h.lastLine_mem) hr
    simpa using ih (h.add r) hstep (forall_snoc hp hr) fun x hx => hrows x (by simp [hx])

end FusionBinutils.Bfd.LineTable
