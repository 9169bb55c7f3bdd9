import FusionBinutils.Bfd.MergeRecord
import FusionBinutils.Lib.Aligned

/-! Where the merged strings and constants are put, and what is written there. -/
namespace FusionBinutils.Bfd.Merge

open Cells Aligned Blocks

variable {k : Kind} {tab tab' : Tab} {e a b x : Entry} {n i j sec : Nat} {st : Layout}

/-! Suffixes. -/

theorem isSuffix_sound (ha : Live k a) (hb : Live k b) (h : isSuffix a b = true) :
    b.string <:+ a.string := by
  unfold isSuffix at h
  split at h
  · cases h
  · rw [beq_iff_eq, hb.len, List.take_length, List.take_of_length_le] at h
    · rw [← h]
      exact List.drop_suffix _ _
    · rw [List.length_drop, ha.len]
      omega

theorem canShare_sound (ha : Live k a) (hb : Live k b) (h : canShare a b = true) :
    b.string <:+ a.string := by
  rw [canShare, Bool.and_eq_true] at h
  exact isSuffix_sound ha hb h.2

theorem restoreLen_adjustLen (h : Live k e) : k.restoreLen (k.adjustLen e) = e := by
  have hlong := h.long
  unfold Kind.adjustLen Kind.restoreLen
  rw [if_pos h.alignment_pos]
  cases e
  simp only [Entry.mk.injEq, true_and, and_true] at *
  omega

theorem adjustLen_dead (h : Dead e) : k.adjustLen e = e := by
  unfold Kind.adjustLen
  rw [if_neg (not_not.mpr h.2)]

theorem adjustLen_alignment (e : Entry) : (k.adjustLen e).alignment = e.alignment := by
  unfold Kind.adjustLen
  split <;> rfl

theorem mem_sortedArray {tab : Tab} :
    n ∈ k.sortedArray tab ↔ ∃ e, tab[n]? = some e ∧ e.alignment ≠ 0 := by
  unfold Kind.sortedArray
  rw [List.mem_mergeSort, List.mem_filter, List.mem_range]
  constructor
  · rintro ⟨hlt, hl⟩
    rw [List.getElem?_eq_getElem hlt] at hl
    exact ⟨tab[n], List.getElem?_eq_getElem hlt, by simpa using hl⟩
  · rintro ⟨e, he, hl⟩
    obtain ⟨hlt, -⟩ := List.getElem?_eq_some_iff.mp he
    exact ⟨hlt, by simpa [he] using hl⟩

theorem nodup_sortedArray : (k.sortedArray tab).Nodup := by
  unfold Kind.sortedArray
  rw [(List.mergeSort_perm _ _).nodup_iff]
  exact List.nodup_range.filter _

/-- Entries stay as they are, or become the end of one that does. -/
def Suffixed (k : Kind) (tab' : Tab) (x x' : Entry) : Prop :=
  x' = x ∨ (Live k x ∧ ∃ (j : Nat) (a : Entry), x' = x.share j ∧ tab'[j]? = some a ∧
    Live k a ∧ x.string <:+ a.string)

theorem mergeLoop_passed {last : Nat} {rest : List Nat} (hnodup : rest.Nodup) (hlast : last ∉ rest)
    (ha : tab[last]? = some a) (hlive : Live k a)
    (hrest : ∀ i ∈ rest, ∃ x, tab[i]? = some x ∧ Live k (k.restoreLen x)) :
    ∃ tab', k.mergeLoop tab last rest = some tab' ∧ (∀ i, i ∉ rest → tab'[i]? = tab[i]?) ∧
      ∀ i ∈ rest, ∀ x, tab[i]? = some x →
        Sharing.Passed k.restoreLen canShare Entry.share (Live k) tab' i x :=
  Sharing.loop_passed hnodup hlast ha hlive hrest

theorem mergeSuffixes_suffixed (h : ∀ e ∈ tab, Live k e ∨ Dead e) :
    ∃ tab', k.mergeSuffixes tab = some tab' ∧ List.Forall₂ (Suffixed k tab') tab tab' := by
  have hentry : ∀ (i : Nat) x, tab[i]? = some x → Live k x ∨ Dead x :=
    fun i x hx => h x (List.mem_of_getElem? hx)
  have hmap : ∀ (i : Nat) x, tab[i]? = some x →
      (tab.map k.adjustLen)[i]? = some (k.adjustLen x) := by
    intro i x hx
    rw [List.getElem?_map, hx, Option.map_some]
  have hmem : ∀ i x, tab[i]? = some x → (i ∈ k.sortedArray (tab.map k.adjustLen) ↔ Live k x) := by
    intro i x hx
    rw [mem_sortedArray]
    constructor
    · rintro ⟨y, hy, hal⟩
      rw [hmap i x hx, Option.some.injEq] at hy
      rw [← hy, adjustLen_alignment] at hal
      exact (hentry i x hx).resolve_right fun hd => hal hd.2
    · intro hl
      exact ⟨_, hmap i x hx, by rw [adjustLen_alignment]; exact hl.alignment_pos⟩
  unfold Kind.mergeSuffixes
  simp only
  split
  · next hnil =>
    refine ⟨_, rfl, forall₂_of_getElem? (List.length_map _).symm fun i x hx => ?_⟩
    have hd : Dead x := (hentry i x hx).resolve_left fun hl => by
      have := (hmem i x hx).mpr hl
      rw [← List.mem_reverse, hnil] at this
      cases this
    refine ⟨x, ?_, .inl rfl⟩
    rw [hmap i x hx, adjustLen_dead hd]
  · next last rest hcons =>
    have hmem' : ∀ i x, tab[i]? = some x → (i ∈ last :: rest ↔ Live k x) := by
      intro i x hx
      rw [← hcons, List.mem_reverse, hmem i x hx]
    have hnodup : (last :: rest).Nodup := by
      rw [← hcons, List.nodup_reverse]
      exact nodup_sortedArray
    have hknown : ∀ i ∈ last :: rest, ∃ x, tab[i]? = some x ∧ Live k x := by
      intro i hi
      have hi' := hi
      rw [← hcons, List.mem_reverse, mem_sortedArray] at hi'
      obtain ⟨y, hy, -⟩ := hi'
      rw [List.getElem?_map, Option.map_eq_some_iff] at hy
      obtain ⟨x, hx, -⟩ := hy
      exact ⟨x, hx, (hmem' i x hx).mp hi⟩
    obtain ⟨hlast, hnodup⟩ := List.nodup_cons.mp hnodup
    obtain ⟨x₀, hx₀, hl₀⟩ := hknown last (by simp)
    have hset : ∀ {i : Nat} {x}, i ≠ last → tab[i]? = some x →
        ((tab.map k.adjustLen).set last x₀)[i]? = some (k.adjustLen x) := by
      intro i x hne hx
      rw [getElem?_set_other hne, hmap i x hx]
    have hne : ∀ i ∈ rest, i ≠ last := by
      rintro i hi rfl
      exact hlast hi
    have hrest : ∀ i ∈ rest, ∃ y, ((tab.map k.adjustLen).set last x₀)[i]? = some y ∧
        Live k (k.restoreLen y) := by
      intro i hi
      obtain ⟨x, hx, hl⟩ := hknown i (by simp [hi])
      exact ⟨_, hset (hne i hi) hx, by rwa [restoreLen_adjustLen hl]⟩
    obtain ⟨tab', hrun, hsame, hpassed⟩ :=
      mergeLoop_passed hnodup hlast (getElem?_set_same (hmap last x₀ hx₀)) hl₀ hrest
    refine ⟨tab', ?_, forall₂_of_getElem? ?_ fun i x hx => ?_⟩
    · rw [hmap last x₀ hx₀, Option.bind_eq_bind, Option.bind_some, restoreLen_adjustLen hl₀]
      exact hrun
    · rw [Sharing.loop_length hrun, List.length_set, List.length_map]
    · by_cases hil : i = last
      · subst hil
        rw [hx₀, Option.some.injEq] at hx
        rw [hsame i hlast, ← hx]
        exact ⟨x₀, getElem?_set_same (hmap i x₀ hx₀), .inl rfl⟩
      · by_cases hir : i ∈ rest
        · have hl := (hmem' i x hx).mp (by simp [hir])
          have hp := hpassed i hir _ (hset hil hx)
          unfold Sharing.Passed at hp
          rw [restoreLen_adjustLen hl] at hp
          rcases hp with hp | ⟨j, a, hi, hj, hla, htest⟩
          · exact ⟨x, hp, .inl rfl⟩
          · exact ⟨x.share j, hi, .inr ⟨hl, j, a, rfl, hj, hla, canShare_sound hla hl htest⟩⟩
        · have hd : Dead x := (hentry i x hx).resolve_left fun hl => by
            have := (hmem' i x hx).mpr hl
            rw [List.mem_cons] at this
            exact this.elim hil hir
          rw [hsame i hir, hset hil hx, adjustLen_dead hd]
          exact ⟨x, rfl, .inl rfl⟩

/-! Positions. -/

def Entry.bytes (e : Entry) : List BfdByte := e.string.take e.len

/-- The entry is kept, and belongs to the section. -/
def Entry.keptIn (sec : Nat) (e : Entry) : Bool := e.alignment != 0 && e.secinfo == sec

/-- What is written for a section. -/
def block (sec : Nat) (tab : Tab) : Tab := tab.filter (Entry.keptIn sec)

/-- The offset behind it. -/
def blockEnd (sec : Nat) (tab : Tab) : Nat := ends Entry.alignment Entry.bytes 0 (block sec tab)

/-- The position of an entry behind the entries `pre`. -/
def slot (pre : Tab) (e : Entry) : Nat :=
  blockEnd e.secinfo pre + padTo (blockEnd e.secinfo pre) e.alignment

/-- The entries `pre` have their positions. -/
structure Laid (pre : Tab) (st : Layout) : Prop where
  first : ∀ i, st.firstStr i = pre.findIdx? (Entry.keptIn i)
  bound : ∀ e ∈ pre, e.secinfo ≤ st.secinfo
  size : block st.secinfo pre ≠ [] → st.size = blockEnd st.secinfo pre
  stored : ∀ i, i ≠ st.secinfo → block i pre ≠ [] → st.secSize i = blockEnd i pre
  placed : ∀ (n : Nat) e, pre[n]? = some e → e.alignment ≠ 0 → e.u = .index (slot (pre.take n) e)

theorem Live.bytes_eq (h : Live k e) : e.bytes = e.string := by
  rw [Entry.bytes, h.len, List.take_length]

theorem alignUp_two_pow (n t : Nat) : alignUp n (2 ^ t) = n + padTo n (2 ^ t) := by
  rw [alignUp, Nat.and_two_pow_sub_one_eq_mod, add_padTo_two_pow]

theorem block_eq_nil {pre : Tab} (h : pre.findIdx? (Entry.keptIn i) = none) : block i pre = [] := by
  rw [List.findIdx?_eq_none_iff] at h
  rw [block, List.filter_eq_nil_iff]
  intro a ha
  simp [h a ha]

theorem block_eq_nil_of_lt {pre : Tab} (h : ∀ e ∈ pre, e.secinfo < i) : block i pre = [] := by
  rw [block, List.filter_eq_nil_iff]
  intro a ha
  have := h a ha
  simp only [Entry.keptIn, Bool.and_eq_true, beq_iff_eq, not_and]
  omega

/-- Entries of the next section are met. -/
theorem Laid.advance {pre : Tab} (h : Laid pre st) (hlt : st.secinfo < n) :
    Laid pre { st.store with secinfo := n } := by
  refine ⟨h.first, fun e he => ?_, fun hne => ?_, fun i hi hne => ?_, h.placed⟩
  · exact Nat.le_trans (h.bound e he) (Nat.le_of_lt hlt)
  · refine absurd (block_eq_nil_of_lt fun e he => ?_) hne
    exact Nat.lt_of_le_of_lt (h.bound e he) hlt
  · simp only [Layout.store]
    by_cases his : i = st.secinfo
    · subst his
      rw [Function.update_self]
      exact h.size hne
    · rw [Function.update_of_ne his]
      exact h.stored i his hne

theorem findIdx?_skip {α : Type*} {p : α → Bool} {l : List α} {a : α} (h : p a = false) :
    (l ++ [a]).findIdx? p = l.findIdx? p := by
  rw [List.findIdx?_append]
  simp [h]

theorem block_skip {pre : Tab} (h : e.keptIn i = false) : block i (pre ++ [e]) = block i pre := by
  simp [block, h]

/-- The entries of a longer list have the positions they had. -/
theorem placed_snoc {pre : Tab}
    (h : ∀ (n : Nat) e, pre[n]? = some e → e.alignment ≠ 0 → e.u = .index (slot (pre.take n) e))
    (ha : a.alignment ≠ 0 → a.u = .index (slot pre a)) :
    ∀ (n : Nat) e, (pre ++ [a])[n]? = some e → e.alignment ≠ 0 →
      e.u = .index (slot ((pre ++ [a]).take n) e) := by
  intro n e hn hal
  rw [List.getElem?_append] at hn
  split at hn
  · next hlt =>
    rw [List.take_append_of_le_length (Nat.le_of_lt hlt)]
    exact h n e hn hal
  · next hge =>
    obtain ⟨hlt, heq⟩ := List.getElem?_eq_some_iff.mp hn
    rw [List.length_singleton] at hlt
    obtain rfl : n = pre.length := by omega
    obtain rfl : e = a := by rw [← heq]; simp
    rw [List.take_left]
    exact ha hal

/-- An entry that is not kept takes no place. -/
theorem Laid.skip {pre : Tab} (h : Laid pre st) (hle : e.secinfo ≤ st.secinfo)
    (hd : e.alignment = 0) : Laid (pre ++ [e]) st := by
  have hk : ∀ i, e.keptIn i = false := by
    intro i
    simp [Entry.keptIn, hd]
  refine ⟨fun i => ?_, fun x hx => ?_, fun hne => ?_, fun i hi hne => ?_, ?_⟩
  · rw [findIdx?_skip (hk i), h.first]
  · rcases List.mem_append.mp hx with hx | hx
    · exact h.bound x hx
    · rwa [List.mem_singleton.mp hx]
  · rw [blockEnd, block_skip (hk _)] at *
    exact h.size hne
  · rw [blockEnd, block_skip (hk _)] at *
    exact h.stored i hi hne
  · exact placed_snoc h.placed fun ha => absurd hd ha

/-- The first entry of its section that is kept sets the size to 0. -/
def Layout.opened (st : Layout) (i sec : Nat) : Layout :=
  if st.firstStr sec = none then st.begin i sec else st

theorem Laid.opened_size {pre : Tab} (h : Laid pre st) (hsec : st.secinfo = sec) :
    (st.opened n sec).size = blockEnd sec pre := by
  subst hsec
  unfold Layout.opened
  split
  · next hnone =>
    rw [h.first] at hnone
    rw [blockEnd, block_eq_nil hnone]
    rfl
  · next hsome =>
    refine h.size fun hnil => hsome ?_
    rw [h.first, List.findIdx?_eq_none_iff]
    intro x hx
    rw [block, List.filter_eq_nil_iff] at hnil
    exact Bool.eq_false_iff.mpr (hnil x hx)

theorem Laid.opened_first {pre : Tab} (h : Laid pre st) (ha : a.alignment ≠ 0) (i : Nat) :
    (st.opened pre.length a.secinfo).firstStr i = (pre ++ [a]).findIdx? (Entry.keptIn i) := by
  have hother : i ≠ a.secinfo → (pre ++ [a]).findIdx? (Entry.keptIn i) = st.firstStr i := by
    intro hi
    rw [findIdx?_skip, h.first]
    simp [Entry.keptIn, hi.symm]
  unfold Layout.opened
  split
  · next hnone =>
    simp only [Layout.begin]
    by_cases hi : i = a.secinfo
    · subst hi
      rw [h.first] at hnone
      rw [Function.update_self, List.findIdx?_append, hnone]
      simp [Entry.keptIn, ha]
    · rw [Function.update_of_ne hi, hother hi]
  · next hsome =>
    by_cases hi : i = a.secinfo
    · subst hi
      obtain ⟨f, hf⟩ := Option.ne_none_iff_exists'.mp hsome
      rw [hf, List.findIdx?_append, ← h.first, hf]
      rfl
    · rw [hother hi]

theorem opened_secSize (st : Layout) (i sec : Nat) : (st.opened i sec).secSize = st.secSize := by
  unfold Layout.opened
  split <;> rfl

theorem opened_secinfo (st : Layout) (i sec : Nat) : (st.opened i sec).secinfo = st.secinfo := by
  unfold Layout.opened
  split <;> rfl

/-- An entry that is kept is put behind the others of its section. -/
theorem Laid.keep {pre : Tab} (h : Laid pre st) (hsec : st.secinfo = e.secinfo) (hl : Live k e) :
    Laid (pre ++ [((st.opened pre.length e.secinfo).put e).2])
      ((st.opened pre.length e.secinfo).put e).1 := by
  obtain ⟨t, -, ht⟩ := hl.aligned
  have hindex : alignUp (st.opened pre.length e.secinfo).size e.alignment = slot pre e := by
    rw [h.opened_size hsec, ht, alignUp_two_pow, slot, ht]
  have hself : e.keptIn e.secinfo = true := by simp [Entry.keptIn, hl.alignment_pos]
  have hother : ∀ i, i ≠ e.secinfo → e.keptIn i = false := by
    intro i hi
    simp [Entry.keptIn, hi.symm]
  simp only [Layout.put, hindex, opened_secSize, opened_secinfo, hsec]
  refine ⟨h.opened_first (a := { e with u := .index (slot pre e) }) hl.alignment_pos, ?_, ?_, ?_, ?_⟩
  · intro x hx
    rcases List.mem_append.mp hx with hx | hx
    · exact hsec ▸ h.bound x hx
    · rw [List.mem_singleton.mp hx]
  · intro _
    have hblock : block e.secinfo (pre ++ [{ e with u := .index (slot pre e) }])
        = block e.secinfo pre ++ [{ e with u := .index (slot pre e) }] := by
      rw [block, List.filter_append, List.filter_cons_of_pos (by exact hself), List.filter_nil]
      rfl
    simp only [blockEnd, hblock, ends_snoc, place]
    have hlen : (Entry.bytes { e with u := .index (slot pre e) }).length = e.len := by
      rw [Entry.bytes, List.length_take, hl.len, Nat.min_self]
    rw [hlen]
    rfl
  · intro i hi hne
    have hskip : block i (pre ++ [{ e with u := .index (slot pre e) }]) = block i pre :=
      block_skip (by exact hother i hi)
    rw [hskip] at hne
    rw [blockEnd, hskip]
    exact h.stored i (by rwa [hsec]) hne
  · exact placed_snoc h.placed fun _ => rfl

theorem Laid.assignString {pre : Tab} (h : Laid pre st) (hle : st.secinfo ≤ e.secinfo)
    (hl : Live k e ∨ e.alignment = 0) :
    Laid (pre ++ [(assignString st pre.length e).2]) (assignString st pre.length e).1 := by
  have hcur : ∃ st', Laid pre st' ∧ st'.secinfo = e.secinfo ∧
      (if e.secinfo ≠ st.secinfo then { st.store with secinfo := e.secinfo } else st) = st' := by
    split
    · next hne => exact ⟨_, h.advance (Nat.lt_of_le_of_ne hle (Ne.symm hne)), rfl, rfl⟩
    · next heq => exact ⟨st, h, (not_not.mp heq).symm, rfl⟩
  obtain ⟨st', h', hsec, hst'⟩ := hcur
  unfold Merge.assignString
  simp only [hst']
  split
  · next hal => exact h'.keep hsec (hl.resolve_right hal)
  · next hal => exact h'.skip (Nat.le_of_eq hsec.symm) (not_not.mp hal)

theorem assignString_secinfo (st : Layout) (i : Nat) (e : Entry) :
    (assignString st i e).1.secinfo = e.secinfo := by
  have hcur : (if e.secinfo ≠ st.secinfo then { st.store with secinfo := e.secinfo }
      else st).secinfo = e.secinfo := by
    split
    · rfl
    · next heq => exact (not_not.mp heq).symm
  unfold assignString
  simp only
  split
  · exact (opened_secinfo _ i e.secinfo).trans hcur
  · exact hcur

/-- An entry gets a position and nothing else, and only if it is kept. -/
structure Moved (e e' : Entry) : Prop where
  eq : e' = { e with u := e'.u }
  same : e.alignment = 0 → e' = e

theorem assignString_moved (st : Layout) (i : Nat) (e : Entry) :
    Moved e (assignString st i e).2 := by
  unfold assignString
  simp only
  split
  · next hal => exact ⟨rfl, fun h => absurd h hal⟩
  · exact ⟨rfl, fun _ => rfl⟩

theorem assign_moved (st : Layout) (i : Nat) (tab : Tab) :
    List.Forall₂ Moved tab (assign assignString st i tab).2 := by
  induction tab generalizing st i with
  | nil => exact .nil
  | cons e tab ih => exact .cons (assignString_moved st i e) (ih _ _)

theorem assign_laid {pre rest : Tab} (h : Laid pre st)
    (hsorted : rest.Pairwise fun a b => a.secinfo ≤ b.secinfo)
    (hle : ∀ e ∈ rest, st.secinfo ≤ e.secinfo)
    (hl : ∀ e ∈ rest, Live k e ∨ e.alignment = 0) :
    Laid (pre ++ (assign assignString st pre.length rest).2)
      (assign assignString st pre.length rest).1 := by
  induction rest generalizing pre st with
  | nil => simpa [assign] using h
  | cons e rest ih =>
    obtain ⟨hhead, hsorted⟩ := List.pairwise_cons.mp hsorted
    have hstep := h.assignString (hle e (by simp)) (hl e (by simp))
    have hrest := ih hstep hsorted (fun x hx => by
      rw [assignString_secinfo]
      exact hhead x hx) fun x hx => hl x (by simp [hx])
    simp only [List.length_append, List.length_singleton, List.append_assoc,
      List.singleton_append] at hrest
    exact hrest

theorem laid_start (secs : List (List BfdByte)) (tab : Tab) : Laid [] (Layout.start secs tab) :=
  ⟨fun _ => rfl, by simp, by simp [block], by simp [block], by simp⟩

theorem head_secinfo_le (hsorted : tab.Pairwise fun a b => a.secinfo ≤ b.secinfo) :
    ∀ e ∈ tab, (tab.head?.map Entry.secinfo).getD 0 ≤ e.secinfo := by
  cases tab with
  | nil => simp
  | cons a tab =>
    intro e he
    rcases List.mem_cons.mp he with rfl | he
    · simp
    · exact (List.pairwise_cons.mp hsorted).1 e he

/-- The positions of a table of strings. -/
theorem laid_strings (secs : List (List BfdByte))
    (hsorted : tab.Pairwise fun a b => a.secinfo ≤ b.secinfo)
    (hl : ∀ e ∈ tab, Live k e ∨ e.alignment = 0) :
    Laid (assign assignString (Layout.start secs tab) 0 tab).2
      (assign assignString (Layout.start secs tab) 0 tab).1 :=
  assign_laid (laid_start secs tab) hsorted (head_secinfo_le hsorted) hl

/-! Constants. -/

theorem assignConstant_eq {started : Bool} (hal : e.alignment ≠ 0)
    (h : st.firstStr e.secinfo = none → (started = true ↔ e.secinfo ≠ st.secinfo))
    (h' : st.firstStr e.secinfo ≠ none → e.secinfo = st.secinfo) :
    assignConstant started st n e = assignString st n e := by
  unfold assignConstant assignString
  by_cases hf : st.firstStr e.secinfo = none
  · have hst := h hf
    by_cases hs : e.secinfo = st.secinfo
    · have hstart : started = false := by
        rw [Bool.eq_false_iff]
        exact fun hc => hst.mp hc hs
      rw [hs] at hf
      simp [hf, hs, hal, hstart, Layout.put, Layout.begin]
    · have hstart : started = true := hst.mpr hs
      simp [hf, hs, hal, hstart, Layout.put, Layout.begin, Layout.store]
  · have hs := h' hf
    rw [hs] at hf
    simp [hf, hs, hal, Layout.put]

theorem assignConstants_eq {pre rest : Tab} (h : Laid pre st)
    (hpre : ∃ x ∈ pre, x.secinfo = st.secinfo)
    (hkept : ∀ x ∈ pre, x.alignment ≠ 0) (hrest : ∀ x ∈ rest, Live k x)
    (hsorted : rest.Pairwise fun a b => a.secinfo ≤ b.secinfo)
    (hle : ∀ e ∈ rest, st.secinfo ≤ e.secinfo) :
    assign (assignConstant true) st pre.length rest = assign assignString st pre.length rest := by
  induction rest generalizing pre st with
  | nil => rfl
  | cons e rest ih =>
    obtain ⟨hhead, hsorted⟩ := List.pairwise_cons.mp hsorted
    have hl := hrest e (by simp)
    have hone : assignConstant true st pre.length e = assignString st pre.length e := by
      refine assignConstant_eq hl.alignment_pos (fun hnone => ?_) fun hsome => ?_
      · obtain ⟨x, hx, hxs⟩ := hpre
        rw [h.first, List.findIdx?_eq_none_iff] at hnone
        have hno := hnone x hx
        simp only [Entry.keptIn, Bool.and_eq_false_iff, bne_eq_false_iff_eq, beq_eq_false_iff_ne,
          hkept x hx, false_or] at hno
        exact ⟨fun _ he => hno (hxs.trans he.symm), fun _ => rfl⟩
      · obtain ⟨f, hf⟩ := Option.ne_none_iff_exists'.mp hsome
        rw [h.first] at hf
        obtain ⟨hlt, hp, -⟩ := List.findIdx?_eq_some_iff_getElem.mp hf
        simp only [Entry.keptIn, Bool.and_eq_true, beq_iff_eq] at hp
        have hb := h.bound _ (List.getElem_mem hlt)
        have := hle e (by simp)
        omega
    have hstep := h.assignString (hle e (by simp)) (.inl hl)
    have hmoved := assignString_moved st pre.length e
    have hrec := ih hstep ⟨(assignString st pre.length e).2, by simp, by
        rw [assignString_secinfo, hmoved.eq]⟩ ?_ (fun x hx => hrest x (by simp [hx])) hsorted ?_
    · simp only [List.length_append, List.length_singleton] at hrec
      simp only [assign, hone, hrec]
    · intro x hx
      rcases List.mem_append.mp hx with hx | hx
      · exact hkept x hx
      · rw [List.mem_singleton.mp hx, hmoved.eq]
        exact hl.alignment_pos
    · intro x hx
      rw [assignString_secinfo]
      exact hhead x hx

/-- Constants get the positions that strings would get. -/
theorem mergeConstants_eq (secs : List (List BfdByte)) (hne : tab ≠ [])
    (hlive : ∀ x ∈ tab, Live k x)
    (hsorted : tab.Pairwise fun a b => a.secinfo ≤ b.secinfo) :
    mergeConstants secs tab =
      ⟨(assign assignString (Layout.start secs tab) 0 tab).2,
        List.range (assign assignString (Layout.start secs tab) 0 tab).2.length,
        (assign assignString (Layout.start secs tab) 0 tab).1.store.secSize,
        (assign assignString (Layout.start secs tab) 0 tab).1.store.firstStr⟩ := by
  cases tab with
  | nil => exact absurd rfl hne
  | cons e tab =>
    obtain ⟨hhead, hsorted⟩ := List.pairwise_cons.mp hsorted
    have hl := hlive e (by simp)
    have hlaid := laid_start secs (e :: tab)
    have hone : assignConstant false (Layout.start secs (e :: tab)) 0 e
        = assignString (Layout.start secs (e :: tab)) 0 e :=
      assignConstant_eq hl.alignment_pos (fun _ => by simp [Layout.start])
        fun h => absurd rfl h
    have hmoved := assignString_moved (Layout.start secs (e :: tab)) 0 e
    have hrest : assign _ _ _ tab = _ := assignConstants_eq
      (hlaid.assignString (e := e) (by simp [Layout.start]) (.inl hl)) ?_ ?_
      (fun x hx => hlive x (by simp [hx])) hsorted ?_
    · simp only [List.nil_append, List.length_singleton, List.length_nil] at hrest
      simp only [mergeConstants, assign, hone, hrest]
    · refine ⟨(assignString (Layout.start secs (e :: tab)) 0 e).2, by simp, ?_⟩
      rw [List.length_nil, assignString_secinfo, hmoved.eq]
    · intro x hx
      rw [List.nil_append, List.mem_singleton] at hx
      rw [hx, List.length_nil, hmoved.eq]
      exact hl.alignment_pos
    · intro x hx
      rw [assignString_secinfo]
      exact hhead x hx

end FusionBinutils.Bfd.Merge
