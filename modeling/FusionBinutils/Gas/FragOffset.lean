import FusionBinutils.Gas.Expr
import Mathlib.Tactic.Ring

/-! Which distances between frags are known before the frags have their addresses: the two walks of
`frag_offset_fixed_p` (gas/frags.c) against every layout that the relaxation can end with. -/
namespace FusionBinutils.Gas.Expr

variable {m : Mem} {ch : List Nat} {addr var : Nat → Vma} {i j t : Nat} {f g : FragS}
  {off d : Vma}

/-- Frag `j` is `fr_next` of frag `i`. -/
def Mem.Links (m : Mem) (i j : Nat) : Prop := ∃ f, m.frags[i]? = some f ∧ f.frNext = some j

/-- A chain of frags, from its root to the frag without a next one. -/
structure FragChain (m : Mem) (ch : List Nat) : Prop where
  linked : ch.IsChain m.Links
  ends : ∀ i ∈ ch.getLast?, ∃ f, m.frags[i]? = some f ∧ f.frNext = none
  nodup : ch.Nodup

/-- The bytes of a frag whose variable part, unless it is a fill, has the size `var`. -/
def FragS.sizeWith (f : FragS) (var : Vma) : Vma :=
  f.frFix + if f.frType = .fill then f.frOffset * f.frVar else var

/-- Every frag of the chain stands right behind its predecessor. -/
def FinalLayout (m : Mem) (ch : List Nat) (addr var : Nat → Vma) : Prop :=
  ∀ i ∈ ch, ∀ f j, m.frags[i]? = some f → f.frNext = some j → addr j = addr i + f.sizeWith (var i)

/-- Frag `i` is a fill. -/
def Mem.Fills (m : Mem) (i : Nat) : Prop := ∃ f, m.frags[i]? = some f ∧ f.frType = .fill

theorem FragChain.tail (h : FragChain m (i :: j :: ch)) : FragChain m (j :: ch) :=
  ⟨h.linked.tail, by simpa using h.ends, h.nodup.tail⟩

theorem FragChain.next_mem (h : FragChain m ch) (hi : i ∈ ch) (hf : m.frags[i]? = some f)
    (hj : f.frNext = some j) : j ∈ ch := by
  induction ch with
  | nil => cases hi
  | cons k rest ih =>
    cases rest with
    | nil =>
      obtain ⟨g, hg, hnone⟩ := h.ends k (by simp)
      obtain rfl : i = k := by simpa using hi
      rw [hf, Option.some.injEq] at hg
      subst hg
      rw [hj] at hnone
      cases hnone
    | cons l rest =>
      rcases List.mem_cons.mp hi with rfl | hi
      · obtain ⟨g, hg, hnext⟩ := h.linked.rel
        rw [hf, Option.some.injEq] at hg
        subst hg
        rw [hj, Option.some.injEq] at hnext
        simp [hnext]
      · exact List.mem_cons_of_mem _ (ih h.tail hi)

theorem FragChain.mem_frags (h : FragChain m ch) (hi : i ∈ ch) : ∃ f, m.frags[i]? = some f := by
  induction ch with
  | nil => cases hi
  | cons k rest ih =>
    cases rest with
    | nil =>
      obtain ⟨f, hf, -⟩ := h.ends k (by simp)
      obtain rfl : i = k := by simpa using hi
      exact ⟨f, hf⟩
    | cons l rest =>
      rcases List.mem_cons.mp hi with rfl | hi
      · obtain ⟨f, hf, -⟩ := h.linked.rel
        exact ⟨f, hf⟩
      · exact ih h.tail hi

theorem FragChain.length_le (h : FragChain m ch) : ch.length ≤ m.frags.length := by
  have hlt : ∀ i ∈ ch, i < m.frags.length := by
    intro i hi
    obtain ⟨f, hf⟩ := h.mem_frags hi
    exact (List.getElem?_eq_some_iff.mp hf).1
  have hsub : ch ⊆ List.range m.frags.length := fun i hi => List.mem_range.mpr (hlt i hi)
  simpa using (List.subperm_of_subset h.nodup hsub).length_le

/-! One step of the walk. -/

/-- The bytes from a fill to the frag behind it are known. -/
theorem FinalLayout.next (h : FinalLayout m ch addr var) (hi : i ∈ ch) (hf : m.frags[i]? = some f)
    (hfill : f.frType = .fill) (hj : f.frNext = some j) :
    addr j = addr i + (f.frFix + f.frOffset * f.frVar) := by
  have := h i hi f j hf hj
  rwa [FragS.sizeWith, if_pos hfill] at this

theorem bytesBetween_some {n : Nat} (h : bytesBetween m (some t) (n + 1) f off = some d) :
    f.frType = .fill ∧ ∃ j, f.frNext = some j ∧
      (t = j ∧ d = off + (f.frFix + f.frOffset * f.frVar) ∨
        ∃ g, m.frags[j]? = some g ∧
          bytesBetween m (some t) n g (off + (f.frFix + f.frOffset * f.frVar)) = some d) := by
  rw [bytesBetween] at h
  split at h
  case isFalse => cases h
  case isTrue hfill =>
    refine ⟨hfill, ?_⟩
    cases hj : f.frNext with
    | none => simp [hj] at h
    | some j =>
      refine ⟨j, rfl, ?_⟩
      simp only [hj, Option.some.injEq] at h
      split at h
      case isTrue ht => exact .inl ⟨ht, (Option.some.inj h).symm⟩
      case isFalse =>
        cases hg : m.frags[j]? with
        | none => simp [hg] at h
        | some g =>
          rw [hg] at h
          exact .inr ⟨g, rfl, h⟩

/-- The bytes that a walk has counted are the distance in the final layout. -/
theorem bytesBetween_sound (hch : FragChain m ch) (hlay : FinalLayout m ch addr var) {n : Nat}
    (hi : i ∈ ch) (hf : m.frags[i]? = some f) (h : bytesBetween m (some t) n f off = some d) :
    addr t = addr i + (d - off) := by
  induction n generalizing i f off with
  | zero => cases h
  | succ n ih =>
    obtain ⟨hfill, j, hj, hcase⟩ := bytesBetween_some h
    have hnext := hlay.next hi hf hfill hj
    rcases hcase with ⟨rfl, rfl⟩ | ⟨g, hg, hrest⟩
    · rw [hnext]
      ring
    · rw [ih (hch.next_mem hi hf hj) hg hrest, hnext]
      ring

/-- A walk over fills reaches every later frag. -/
theorem bytesBetween_finds {rest : List Nat} {mid post : List Nat} {n : Nat}
    (hch : FragChain m (i :: rest)) (hrest : rest = mid ++ t :: post) (hn : mid.length < n)
    (hf : m.frags[i]? = some f) (hfill : f.frType = .fill) (hmid : ∀ k ∈ mid, m.Fills k) :
    ∃ d, bytesBetween m (some t) n f off = some d := by
  induction mid generalizing i f rest off n with
  | nil =>
    obtain ⟨n, rfl⟩ : ∃ n', n = n' + 1 := ⟨n - 1, by simp at hn; omega⟩
    subst hrest
    obtain ⟨g, hg, hnext⟩ := hch.linked.rel
    rw [hf, Option.some.injEq] at hg
    subst hg
    exact ⟨off + (f.frFix + f.frOffset * f.frVar), by simp [bytesBetween, hfill, hnext]⟩
  | cons k mid ih =>
    obtain ⟨n, rfl⟩ : ∃ n', n = n' + 1 := ⟨n - 1, by simp at hn; omega⟩
    subst hrest
    obtain ⟨g, hg, hnext⟩ := hch.linked.rel
    rw [hf, Option.some.injEq] at hg
    subst hg
    obtain ⟨⟨g, hg, hgfill⟩, hmid⟩ := List.forall_mem_cons.mp hmid
    have hne : t ≠ k := by
      rintro rfl
      have := hch.nodup
      simp at this
    have hlen : mid.length < n := by
      simp at hn
      omega
    obtain ⟨d, hd⟩ :
        ∃ d, bytesBetween m (some t) n g (off + (f.frFix + f.frOffset * f.frVar)) = some d :=
      ih hch.tail rfl hlen hg hgfill hmid
    exact ⟨d, by simp [bytesBetween, hfill, hnext, hne, hg, hd]⟩

/-! The whole function. -/

theorem fragOffsetFixedP_self (hf : m.frags[i]? = some f) :
    fragOffsetFixedP m (some i) (some i) = some (some 0) := by
  simp [fragOffsetFixedP, Mem.frag, hf]

/-- The answer, from the two walks. -/
theorem fragOffsetFixedP_ne (hf : m.frags[i]? = some f) (hg : m.frags[j]? = some g) (hne : i ≠ j) :
    fragOffsetFixedP m (some i) (some j) =
      match bytesBetween m (some j) (m.frags.length + 1) f 0 with
      | some d => some (some (f.frAddress - g.frAddress + d))
      | none =>
        match bytesBetween m (some i) (m.frags.length + 1) g 0 with
        | some d => some (some (f.frAddress - g.frAddress - d))
        | none => some none := by
  rw [fragOffsetFixedP, show m.frag (some i) = some f from hf,
    show m.frag (some j) = some g from hg]
  exact if_neg fun h => hne (Option.some.inj h)

/-- A known offset corrects the difference of the addresses that the call saw. -/
theorem fragOffsetFixedP_sound (hch : FragChain m ch) (hi : i ∈ ch) (hj : j ∈ ch)
    (hf : m.frags[i]? = some f) (hg : m.frags[j]? = some g)
    (h : fragOffsetFixedP m (some i) (some j) = some (some off))
    (hlay : FinalLayout m ch addr var) :
    addr i - addr j = f.frAddress - g.frAddress - off := by
  by_cases hne : i = j
  · subst hne
    rw [fragOffsetFixedP_self hf, Option.some.injEq, Option.some.injEq] at h
    rw [hf, Option.some.injEq] at hg
    subst hg h
    ring
  · rw [fragOffsetFixedP_ne hf hg hne] at h
    cases hforw : bytesBetween m (some j) (m.frags.length + 1) f 0 with
    | some d =>
      simp only [hforw, Option.some.injEq] at h
      rw [bytesBetween_sound hch hlay hi hf hforw, ← h]
      ring
    | none =>
      cases hback : bytesBetween m (some i) (m.frags.length + 1) g 0 with
      | some d =>
        simp only [hforw, hback, Option.some.injEq] at h
        rw [bytesBetween_sound hch hlay hj hg hback, ← h]
        ring
      | none =>
        rw [hforw, hback] at h
        cases h

/-- The answer is a definite one on every chain. -/
theorem fragOffsetFixedP_answers (hf : m.frags[i]? = some f) (hg : m.frags[j]? = some g) :
    ∃ r, fragOffsetFixedP m (some i) (some j) = some r := by
  by_cases hne : i = j
  · subst hne
    exact ⟨_, fragOffsetFixedP_self hf⟩
  · rw [fragOffsetFixedP_ne hf hg hne]
    split
    · exact ⟨_, rfl⟩
    · split <;> exact ⟨_, rfl⟩

theorem FragChain.suffix {pre : List Nat} (h : FragChain m (pre ++ i :: ch)) :
    FragChain m (i :: ch) := by
  induction pre with
  | nil => exact h
  | cons k pre ih =>
    cases pre with
    | nil => exact h.tail
    | cons l pre => exact ih h.tail

/-- The walk from the earlier of two frags finds the later one over fills. -/
theorem FragChain.walk {pre mid post : List Nat} (hch : FragChain m (pre ++ i :: mid ++ j :: post))
    (hfill : ∀ k ∈ i :: mid, m.Fills k) (hf : m.frags[i]? = some f) :
    ∃ d, bytesBetween m (some j) (m.frags.length + 1) f 0 = some d := by
  obtain ⟨⟨f', hf', htype⟩, hmid⟩ := List.forall_mem_cons.mp hfill
  rw [hf, Option.some.injEq] at hf'
  subst hf'
  rw [List.append_assoc, List.cons_append] at hch
  have hsuf := hch.suffix
  have hlen := hsuf.length_le
  simp only [List.length_cons, List.length_append] at hlen
  exact bytesBetween_finds hsuf rfl (by omega) hf htype hmid

/-- The offset is known where the earlier frag and the ones between are fills, asked for either
way round. -/
theorem fragOffsetFixedP_of_fills {pre mid post : List Nat}
    (hch : FragChain m (pre ++ i :: mid ++ j :: post)) (hfill : ∀ k ∈ i :: mid, m.Fills k) :
    (∃ off, fragOffsetFixedP m (some i) (some j) = some (some off)) ∧
      ∃ off, fragOffsetFixedP m (some j) (some i) = some (some off) := by
  obtain ⟨f, hf⟩ := hch.mem_frags (i := i) (by simp)
  obtain ⟨g, hg⟩ := hch.mem_frags (i := j) (by simp)
  have hne : i ≠ j := by
    rintro rfl
    have := hch.nodup
    simp [List.nodup_append] at this
  obtain ⟨d, hd⟩ := hch.walk hfill hf
  rw [fragOffsetFixedP_ne hf hg hne, fragOffsetFixedP_ne hg hf hne.symm, hd]
  refine ⟨⟨_, rfl⟩, ?_⟩
  split
  · exact ⟨_, rfl⟩
  · exact ⟨_, rfl⟩

/-- `frag_offset_fixed_p` on two frags of a chain: what it answers holds in every final layout, and
it answers wherever the bytes between the two starts are those of fills. -/
theorem fragOffsetFixedP_correct (m : Mem) (ch : List Nat) (hch : FragChain m ch) :
    (∀ i ∈ ch, ∀ j ∈ ch, ∀ f g, m.frags[i]? = some f → m.frags[j]? = some g →
      ∀ off, fragOffsetFixedP m (some i) (some j) = some (some off) →
        ∀ addr var, FinalLayout m ch addr var →
          addr i - addr j = f.frAddress - g.frAddress - off) ∧
    (∀ pre mid post i j, ch = pre ++ i :: mid ++ j :: post → (∀ k ∈ i :: mid, m.Fills k) →
      (∃ off, fragOffsetFixedP m (some i) (some j) = some (some off)) ∧
        ∃ off, fragOffsetFixedP m (some j) (some i) = some (some off)) := by
  constructor
  · intro i hi j hj f g hf hg off h addr var hlay
    exact fragOffsetFixedP_sound hch hi hj hf hg h hlay
  · rintro pre mid post i j rfl hfill
    exact fragOffsetFixedP_of_fills hch hfill

/-- An alignment, a fill of six bytes and the frag behind it, with the addresses of an early pass. -/
def alignThenFill : Mem where
  frags := [⟨.align, 0, 4, 3, 1, some 1⟩, ⟨.fill, 8, 2, 4, 1, some 2⟩, ⟨.fill, 14, 0, 0, 0, none⟩]
  syms := []
  msgs := []

theorem alignThenFill_chain : FragChain alignThenFill [0, 1, 2] where
  linked := by
    rw [List.isChain_cons_cons, List.isChain_cons_cons]
    exact ⟨⟨_, rfl, rfl⟩, ⟨_, rfl, rfl⟩, List.isChain_singleton 2⟩
  ends := by
    rintro i hi
    obtain rfl : 2 = i := by simpa using hi
    exact ⟨_, rfl, rfl⟩
  nodup := by decide

/-- The addresses after four more bytes of padding. -/
def paddedAddr (i : Nat) : Vma := [0, 12, 18].getD i 0

theorem paddedAddr_layout : FinalLayout alignThenFill [0, 1, 2] paddedAddr (fun _ => 8) := by
  intro i hi f j hf hj
  simp only [List.mem_cons, List.not_mem_nil, or_false] at hi
  rcases hi with rfl | rfl | rfl
  · cases hf
    cases hj
    decide
  · cases hf
    cases hj
    decide
  · cases hf
    cases hj

/-- Behind the alignment the distance is six bytes, whatever the padding comes to. -/
theorem alignThenFill_distance : paddedAddr 2 - paddedAddr 1 = 14 - 8 - 0 := by
  have hsound := (fragOffsetFixedP_correct alignThenFill [0, 1, 2] alignThenFill_chain).1
  exact hsound 2 (by simp) 1 (by simp) _ _ rfl rfl 0 (by decide) paddedAddr _ paddedAddr_layout

/-- Nothing but fills lies between the alignment and the frag behind it, and yet their distance is
not known: it is the size of the alignment itself. -/
theorem alignment_distance_unknown :
    ¬ ∀ m ch, FragChain m ch → ∀ pre mid post i j, ch = pre ++ i :: mid ++ j :: post →
      (∀ k ∈ mid, m.Fills k) → ∃ off, fragOffsetFixedP m (some i) (some j) = some (some off) := by
  intro h
  obtain ⟨off, hoff⟩ := h alignThenFill _ alignThenFill_chain [] [] [2] 0 1 rfl (by simp)
  have hnone : fragOffsetFixedP alignThenFill (some 0) (some 1) = some none := by decide
  rw [hnone] at hoff
  cases hoff

end FusionBinutils.Gas.Expr
