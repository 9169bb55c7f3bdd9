import FusionBinutils.Bfd.Merge
import FusionBinutils.Lib.Cells

/-! The hash table after all sections of a kind were recorded. -/
namespace FusionBinutils.Bfd.Merge

open Cells

variable {k : Kind} {tab tab' : Tab} {e a b : Entry} {str x : List BfdByte} {sec n m z : Nat}
  {buf c : List BfdByte}

/-! Entries. -/

/-- An entry that stands for its string. -/
structure Live (k : Kind) (e : Entry) : Prop where
  len : e.len = e.string.length
  long : k.entsize ≤ e.len
  aligned : ∃ t < 32, e.alignment = 2 ^ t

/-- A copy that was marked as deleted. -/
def Dead (e : Entry) : Prop := e.len = 0 ∧ e.alignment = 0

/-- What every recorded string keeps, up to section `sec`. -/
structure TabOk (k : Kind) (tab : Tab) (sec : Nat) : Prop where
  entry : ∀ e ∈ tab, Live k e ∨ Dead e
  distinct : ∀ (i j : Nat) a b, tab[i]? = some a → tab[j]? = some b → Live k a → Live k b →
    a.string = b.string → i = j
  sorted : tab.Pairwise fun a b => a.secinfo ≤ b.secinfo
  bound : ∀ e ∈ tab, e.secinfo ≤ sec

/-- The table has a live entry of the string. -/
def Has (k : Kind) (tab : Tab) (str : List BfdByte) : Prop :=
  ∃ (i : Nat) (e : Entry), tab[i]? = some e ∧ Live k e ∧ e.string = str

theorem Live.alignment_pos (h : Live k e) : e.alignment ≠ 0 := by
  obtain ⟨t, -, ht⟩ := h.aligned
  rw [ht]
  exact Nat.pos_iff_ne_zero.mp (Nat.two_pow_pos t)

theorem not_dead_of_live (hk : 0 < k.entsize) (h : Live k e) : ¬ Dead e := by
  intro hd
  have := h.long
  rw [hd.1] at this
  omega

theorem lookup_live (hk : 0 < k.entsize) (hlen : k.entsize ≤ str.length)
    (hok : ∀ e ∈ tab, Live k e ∨ Dead e) (h : lookup tab str = some n) :
    ∃ e, tab[n]? = some e ∧ Live k e ∧ e.string = str := by
  obtain ⟨hlt, hp, -⟩ := List.findIdx?_eq_some_iff_getElem.mp h
  rw [Bool.and_eq_true, beq_iff_eq, beq_iff_eq] at hp
  refine ⟨tab[n], List.getElem?_eq_getElem hlt, ?_⟩
  rcases hok _ (List.getElem_mem hlt) with hlive | hdead
  · refine ⟨hlive, ?_⟩
    rw [← hp.2, ← hp.1, hlive.len, List.take_length]
  · rw [hdead.1] at hp
    omega

theorem lookup_none (h : lookup tab str = none) : ¬ Has k tab str := by
  rintro ⟨i, e, he, hlive, rfl⟩
  have hf := (List.findIdx?_eq_none_iff.mp h) e (List.mem_of_getElem? he)
  simp [hlive.len] at hf

theorem lookup_of_has (hk : 0 < k.entsize) (hlen : k.entsize ≤ str.length)
    (hok : ∀ e ∈ tab, Live k e ∨ Dead e) (h : Has k tab str) :
    ∃ i e, lookup tab str = some i ∧ tab[i]? = some e ∧ Live k e ∧ e.string = str := by
  cases hl : lookup tab str with
  | none => exact absurd h (lookup_none hl)
  | some i =>
    obtain ⟨e, he, hlive, hs⟩ := lookup_live hk hlen hok hl
    exact ⟨i, e, rfl, he, hlive, hs⟩

/-! One added string. -/

/-- A new entry at the end, of a string that no live entry has. -/
theorem TabOk.push {alignment t : Nat} (h : TabOk k tab sec) (hlen : k.entsize ≤ str.length)
    (ha : alignment = 2 ^ t) (ht : t < 32) (hnew : ¬ Has k tab str) :
    TabOk k (tab ++ [⟨str, str.length, alignment, .index 0, sec⟩]) sec := by
  have hlive : Live k ⟨str, str.length, alignment, .index 0, sec⟩ := ⟨rfl, hlen, t, ht, ha⟩
  have hcases : ∀ (i : Nat) a, (tab ++ [⟨str, str.length, alignment, .index 0, sec⟩])[i]? = some a →
      tab[i]? = some a ∨ (i = tab.length ∧ a = ⟨str, str.length, alignment, .index 0, sec⟩) := by
    intro i a hi
    rw [List.getElem?_append] at hi
    split at hi
    · exact .inl hi
    · next hge =>
      obtain ⟨hlt, heq⟩ := List.getElem?_eq_some_iff.mp hi
      rw [List.length_singleton] at hlt
      refine .inr ⟨by omega, ?_⟩
      rw [← heq]
      simp
  refine ⟨?_, ?_, ?_, ?_⟩
  · intro e he
    rcases List.mem_append.mp he with he | he
    · exact h.entry e he
    · rw [List.mem_singleton.mp he]
      exact .inl hlive
  · intro i j a b hi hj hla hlb hs
    rcases hcases i a hi with hi | ⟨rfl, rfl⟩
    · rcases hcases j b hj with hj | ⟨rfl, rfl⟩
      · exact h.distinct i j a b hi hj hla hlb hs
      · exact absurd ⟨i, a, hi, hla, hs⟩ hnew
    · rcases hcases j b hj with hj | ⟨rfl, rfl⟩
      · exact absurd ⟨j, b, hj, hlb, hs.symm⟩ hnew
      · rfl
  · rw [List.pairwise_append]
    refine ⟨h.sorted, List.pairwise_singleton _ _, ?_⟩
    intro a ha b hb
    rw [List.mem_singleton.mp hb]
    exact h.bound a ha
  · intro e he
    rcases List.mem_append.mp he with he | he
    · exact h.bound e he
    · rw [List.mem_singleton.mp he]

/-- A less aligned copy is deleted. -/
theorem TabOk.delete (h : TabOk k tab sec) (he : tab[n]? = some e) :
    TabOk k (tab.set n e.delete) sec := by
  have hmap : (tab.set n e.delete).map Entry.secinfo = tab.map Entry.secinfo := map_set he rfl
  have hdead : Dead e.delete := ⟨rfl, rfl⟩
  refine ⟨?_, ?_, ?_, ?_⟩
  · intro a ha
    rcases List.mem_or_eq_of_mem_set ha with ha | rfl
    · exact h.entry a ha
    · exact .inr hdead
  · intro i j a b hi hj hla hlb hs
    have hne : ∀ {i : Nat} {a}, (tab.set n e.delete)[i]? = some a → Live k a → tab[i]? = some a := by
      intro i a hi hla
      obtain ⟨rfl, rfl⟩ | ⟨-, hi⟩ := getElem?_set_cases hi
      · obtain ⟨t, -, ht⟩ := hla.aligned
        have hpos := Nat.two_pow_pos t
        rw [← ht] at hpos
        exact absurd hpos (by simp [Entry.delete])
      · exact hi
    exact h.distinct i j a b (hne hi hla) (hne hj hlb) hla hlb hs
  · have hsort := h.sorted
    rw [← List.pairwise_map (f := Entry.secinfo) (R := (· ≤ ·))] at hsort ⊢
    rwa [hmap]
  · intro a ha
    have hmem : a.secinfo ∈ (tab.set n e.delete).map Entry.secinfo := List.mem_map_of_mem ha
    rw [hmap] at hmem
    obtain ⟨b, hb, hab⟩ := List.mem_map.mp hmem
    rw [← hab]
    exact h.bound b hb

/-- Every string of the table was added. -/
theorem secMergeAdd_strings {P : List BfdByte → Prop} {alignment : Nat}
    (h : ∀ e ∈ tab, P e.string) (hs : P str) :
    ∀ e ∈ secMergeAdd tab str alignment sec, P e.string := by
  have hpush : ∀ l : Tab, (∀ e ∈ l, P e.string) →
      ∀ e ∈ l ++ [⟨str, str.length, alignment, .index 0, sec⟩], P e.string := by
    intro l hl e he
    rcases List.mem_append.mp he with he | he
    · exact hl e he
    · rw [List.mem_singleton.mp he]
      exact hs
  unfold secMergeAdd
  cases lookup tab str with
  | none => exact hpush tab h
  | some i =>
    cases he : tab[i]? with
    | none =>
      simp only [he]
      exact h
    | some e =>
      simp only [he]
      split
      · refine hpush _ fun a ha => ?_
        rcases List.mem_or_eq_of_mem_set ha with ha | rfl
        · exact h a ha
        · exact h e (List.mem_of_getElem? he)
      · exact h

theorem secMergeAdd_ok {alignment t : Nat} (hk : 0 < k.entsize) (h : TabOk k tab sec)
    (hlen : k.entsize ≤ str.length) (ha : alignment = 2 ^ t) (ht : t < 32) :
    TabOk k (secMergeAdd tab str alignment sec) sec ∧
      Has k (secMergeAdd tab str alignment sec) str ∧
      ∀ s, Has k tab s → Has k (secMergeAdd tab str alignment sec) s := by
  have hpushed : ∀ tab : Tab, Has k (tab ++ [⟨str, str.length, alignment, .index 0, sec⟩]) str :=
    fun tab => ⟨tab.length, ⟨str, str.length, alignment, .index 0, sec⟩, by simp,
      ⟨rfl, hlen, t, ht, ha⟩, rfl⟩
  have hold : ∀ (tab : Tab) (s : List BfdByte), Has k tab s →
      Has k (tab ++ [⟨str, str.length, alignment, .index 0, sec⟩]) s := by
    rintro tab s ⟨i, e, he, hlive, hs⟩
    refine ⟨i, e, ?_, hlive, hs⟩
    rw [List.getElem?_append_left (List.getElem?_eq_some_iff.mp he).1, he]
  unfold secMergeAdd
  cases hl : lookup tab str with
  | none => exact ⟨h.push hlen ha ht (lookup_none hl), hpushed tab, hold tab⟩
  | some i =>
    obtain ⟨e, he, hlive, hs⟩ := lookup_live hk hlen h.entry hl
    simp only [he]
    split
    · have hno : ¬ Has k (tab.set i e.delete) str := by
        rintro ⟨j, b, hb, hlb, hbs⟩
        obtain ⟨rfl, rfl⟩ | ⟨hne, hb⟩ := getElem?_set_cases hb
        · exact not_dead_of_live hk hlb ⟨rfl, rfl⟩
        · exact hne (h.distinct j i b e hb he hlb hlive (hbs.trans hs.symm))
      refine ⟨(h.delete he).push hlen ha ht hno, hpushed _, ?_⟩
      rintro s ⟨j, b, hb, hlb, hbs⟩
      by_cases hsb : s = str
      · rw [hsb]
        exact hpushed _
      · apply hold
        refine ⟨j, b, ?_, hlb, hbs⟩
        rw [getElem?_set_other, hb]
        rintro rfl
        rw [he, Option.some.injEq] at hb
        exact hsb (hbs.symm.trans (hb ▸ hs))
    · exact ⟨h, ⟨i, e, he, hlive, hs⟩, fun _ h => h⟩

/-! Alignments. -/

theorem xor_pred_two_pow (n : Nat) (hn : 0 < n) : ∃ t, (n ^^^ (n - 1)) + 1 = 2 ^ (t + 1) := by
  induction n using Nat.strongRecOn with
  | ind n ih =>
    have hdiv := Nat.xor_div_two (a := n) (b := n - 1)
    have hmod := Nat.xor_mod_two_eq (m := n) (n := n - 1)
    by_cases hodd : n % 2 = 1
    · -- only the last bit differs
      have hhalf : n / 2 = (n - 1) / 2 := by omega
      rw [← hhalf, Nat.xor_self] at hdiv
      exact ⟨0, by omega⟩
    · have hhalf : (n - 1) / 2 = n / 2 - 1 := by omega
      obtain ⟨t, ht⟩ := ih (n / 2) (by omega) (by omega)
      rw [hhalf] at hdiv
      refine ⟨t + 1, ?_⟩
      rw [Nat.pow_succ]
      omega

theorem mask_add_one (k : Kind) : k.mask + 1 = 2 ^ k.alignmentPower := by
  have := Nat.two_pow_pos k.alignmentPower
  unfold Kind.mask
  rw [Nat.one_shiftLeft]
  omega

theorem eltalign_two_pow (hk : k.alignmentPower < 32) (n : Nat) :
    ∃ t < 32, k.eltalign n = 2 ^ t := by
  unfold Kind.eltalign
  simp only
  split
  · exact ⟨_, hk, mask_add_one k⟩
  · next hcond =>
    rw [not_or, not_lt] at hcond
    rcases Nat.eq_zero_or_pos n with rfl | hn
    · exact absurd rfl hcond.1
    · obtain ⟨t, ht⟩ := xor_pred_two_pow n hn
      rw [ht, Nat.shiftRight_one, Nat.pow_succ, Nat.mul_div_cancel _ (by decide)] at hcond ⊢
      refine ⟨t, ?_, rfl⟩
      have hmask := mask_add_one k
      have hlt : 2 ^ t < 2 ^ k.alignmentPower := by omega
      exact Nat.lt_trans ((Nat.pow_lt_pow_iff_right (by decide)).mp hlt) hk

/-! Strings of a buffer. -/

theorem entity_eq (h : k.entity buf m = some x) :
    (m + 1) * k.entsize ≤ buf.length ∧ x = (buf.drop (m * k.entsize)).take k.entsize := by
  unfold Kind.entity at h
  split at h
  · next hle =>
    cases h
    exact ⟨hle, rfl⟩
  · cases h

theorem entity_some (h : (m + 1) * k.entsize ≤ buf.length) :
    k.entity buf m = some ((buf.drop (m * k.entsize)).take k.entsize) := by
  unfold Kind.entity
  rw [if_pos h]

/-- The first zero entity from `m` on is at `z`. -/
structure Ends (k : Kind) (buf : List BfdByte) (m z : Nat) : Prop where
  le : m ≤ z
  zero : ∃ x, k.entity buf z = some x ∧ isZero x = true
  before : ∀ j, m ≤ j → j < z → ∃ x, k.entity buf j = some x ∧ isZero x = false

theorem Ends.later (h : Ends k buf m z) (hn : m ≤ n) (hz : n ≤ z) : Ends k buf n z :=
  ⟨hz, h.zero, fun j hj hjz => h.before j (Nat.le_trans hn hj) hjz⟩

theorem Ends.lt_length (hk : 0 < k.entsize) (h : Ends k buf m z) : z < buf.length := by
  obtain ⟨x, hx, -⟩ := h.zero
  have hle := (entity_eq hx).1
  calc z < z + 1 := Nat.lt_succ_self z
    _ ≤ (z + 1) * k.entsize := Nat.le_mul_of_pos_right _ hk
    _ ≤ buf.length := hle

theorem terminator_ends {fuel : Nat} (h : k.terminator buf fuel m = some z) :
    Ends k buf m z := by
  induction fuel generalizing m with
  | zero => cases h
  | succ fuel ih =>
    rw [Kind.terminator, Option.bind_eq_bind, Option.bind_eq_some_iff] at h
    obtain ⟨x, hx, h⟩ := h
    split at h
    · next hz =>
      cases h
      exact ⟨Nat.le_refl _, ⟨x, hx, hz⟩, fun j hj hjz => absurd hjz (Nat.not_lt.mpr hj)⟩
    · next hz =>
      have hend := ih h
      refine ⟨Nat.le_of_succ_le hend.le, hend.zero, ?_⟩
      intro j hj hjz
      by_cases hjm : j = m
      · subst hjm
        exact ⟨x, hx, by simpa using hz⟩
      · exact hend.before j (by omega) hjz

theorem terminator_of_ends {fuel : Nat} (h : Ends k buf m z) (hf : z - m < fuel) :
    k.terminator buf fuel m = some z := by
  induction fuel generalizing m with
  | zero => omega
  | succ fuel ih =>
    rw [Kind.terminator, Option.bind_eq_bind]
    by_cases hmz : m = z
    · subst hmz
      obtain ⟨x, hx, hz⟩ := h.zero
      rw [hx, Option.bind_some, if_pos hz]
    · have hlt : m < z := Nat.lt_of_le_of_ne h.le hmz
      obtain ⟨x, hx, hz⟩ := h.before m (Nat.le_refl m) hlt
      rw [hx, Option.bind_some, if_neg (by simp [hz])]
      exact ih (h.later (Nat.le_succ m) hlt) (by omega)

/-- The bytes of the entities from `m` to `z`. -/
def Kind.slice (k : Kind) (buf : List BfdByte) (m z : Nat) : List BfdByte :=
  (buf.drop (m * k.entsize)).take ((z + 1 - m) * k.entsize)

theorem stringAt_eq_some (hk : 0 < k.entsize) :
    k.stringAt buf m = some str ↔ ∃ z, Ends k buf m z ∧ str = k.slice buf m z := by
  unfold Kind.stringAt
  rw [Option.bind_eq_bind, Option.bind_eq_some_iff]
  constructor
  · rintro ⟨z, hz, hs⟩
    cases hs
    exact ⟨z, terminator_ends hz, rfl⟩
  · rintro ⟨z, hz, rfl⟩
    have hlt := hz.lt_length hk
    exact ⟨z, terminator_of_ends hz (by omega), rfl⟩

theorem Ends.slice_length (h : Ends k buf m z) :
    (k.slice buf m z).length = (z + 1 - m) * k.entsize := by
  obtain ⟨x, hx, -⟩ := h.zero
  have hle := (entity_eq hx).1
  have hm := h.le
  unfold Kind.slice
  rw [List.length_take, List.length_drop, Nat.min_eq_left]
  have hsplit : (z + 1 - m) * k.entsize + m * k.entsize = (z + 1) * k.entsize := by
    rw [← Nat.add_mul]
    congr 1
    omega
  omega

theorem Ends.entsize_le_length (h : Ends k buf m z) : k.entsize ≤ (k.slice buf m z).length := by
  rw [h.slice_length]
  have hm := h.le
  exact Nat.le_mul_of_pos_left _ (by omega)

/-- A later position of the string has the rest of its bytes. -/
theorem slice_drop (hmn : m ≤ n) (hnz : n ≤ z) :
    (k.slice buf m z).drop ((n - m) * k.entsize) = k.slice buf n z := by
  unfold Kind.slice
  rw [List.drop_take, List.drop_drop]
  have h₁ : m * k.entsize + (n - m) * k.entsize = n * k.entsize := by
    rw [← Nat.add_mul]
    congr 1
    omega
  have h₂ : (z + 1 - m) * k.entsize - (n - m) * k.entsize = (z + 1 - n) * k.entsize := by
    rw [← Nat.sub_mul]
    congr 1
    omega
  rw [h₁, h₂]

theorem Ends.keyAt (hk : 0 < k.entsize) (hs : k.strings = true) (h : Ends k buf m z)
    (hlen : (k.slice buf m z).length < 2 ^ 32) : k.keyAt buf m = some (k.slice buf m z) := by
  unfold Kind.keyAt
  rw [if_pos hs, (stringAt_eq_some hk).mpr ⟨z, h, rfl⟩, Option.bind_eq_bind, Option.bind_some]
  exact if_pos hlen

theorem keyAt_ends (hk : 0 < k.entsize) (hs : k.strings = true) (h : k.keyAt buf m = some str) :
    ∃ z, Ends k buf m z ∧ str = k.slice buf m z ∧ str.length < 2 ^ 32 := by
  unfold Kind.keyAt at h
  rw [if_pos hs, Option.bind_eq_bind, Option.bind_eq_some_iff] at h
  obtain ⟨s, hstr, h⟩ := h
  simp only at h
  split at h
  · next hlen =>
    cases h
    obtain ⟨z, hz, rfl⟩ := (stringAt_eq_some hk).mp hstr
    exact ⟨z, hz, rfl, hlen⟩
  · cases h

/-- A string starts at the beginning and behind every zero entity. -/
def Boundary (k : Kind) (buf : List BfdByte) (m : Nat) : Prop :=
  m = 0 ∨ ∃ j x, m = j + 1 ∧ k.entity buf j = some x ∧ isZero x = true

theorem startOf_eq (hb : Boundary k buf m) (hmn : m ≤ n)
    (hnz : ∀ j, m ≤ j → j < n → ∃ x, k.entity buf j = some x ∧ isZero x = false) :
    k.startOf buf n = m := by
  induction n with
  | zero =>
    obtain rfl : m = 0 := Nat.le_zero.mp hmn
    rfl
  | succ n ih =>
    by_cases hm : m = n + 1
    · subst hm
      rw [Kind.startOf]
      rcases hb with hb | ⟨j, x, hj, hx, hz⟩
      · cases hb
      · cases hj
        simp only [hx, if_pos hz]
    · obtain ⟨x, hx, hz⟩ := hnz n (by omega) (Nat.lt_succ_self n)
      rw [Kind.startOf]
      simp only [hx, hz, Bool.false_eq_true, if_false]
      exact ih (by omega) fun j hj hjn => hnz j hj (by omega)

/-! Sections of strings. -/

/-- What a recorded string leaves of a table. -/
structure Extends (k : Kind) (sec : Nat) (tab tab' : Tab) : Prop where
  ok : TabOk k tab' sec
  has : ∀ s, Has k tab s → Has k tab' s

theorem Extends.refl (h : TabOk k tab sec) : Extends k sec tab tab := ⟨h, fun _ h => h⟩

theorem Extends.trans {tab'' : Tab} (h₁ : Extends k sec tab tab')
    (h₂ : Extends k sec tab' tab'') : Extends k sec tab tab'' :=
  ⟨h₂.ok, fun s hs => h₂.has s (h₁.has s hs)⟩

theorem secMergeAdd_extends {alignment : Nat} (hk : 0 < k.entsize) (h : TabOk k tab sec)
    (hlen : k.entsize ≤ str.length) (ha : ∃ t < 32, alignment = 2 ^ t) :
    Extends k sec tab (secMergeAdd tab str alignment sec) ∧
      Has k (secMergeAdd tab str alignment sec) str := by
  obtain ⟨t, ht, ha⟩ := ha
  obtain ⟨hok, hhas, hmono⟩ := secMergeAdd_ok hk h hlen ha ht
  exact ⟨⟨hok, hmono⟩, hhas⟩

/-- Only zero entities are passed over. -/
theorem recordZeros_zeros {fuel size m' : Nat} {nul nul' : Bool}
    (hrun : k.recordZeros buf size sec fuel m nul tab = some (m', nul', tab')) :
    m ≤ m' ∧ ∀ j, m ≤ j → j < m' → ∃ x, k.entity buf j = some x ∧ isZero x = true := by
  induction fuel generalizing m nul tab with
  | zero =>
    cases hrun
    exact ⟨Nat.le_refl _, fun j hj hjm => by omega⟩
  | succ fuel ih =>
    rw [Kind.recordZeros] at hrun
    split at hrun
    · cases hrun
      exact ⟨Nat.le_refl _, fun j hj hjm => by omega⟩
    · obtain ⟨x, hx, hrun⟩ := Option.bind_eq_some_iff.mp hrun
      cases hz : isZero x with
      | false =>
        simp only [hz, Bool.not_false, if_true] at hrun
        cases hrun
        exact ⟨Nat.le_refl _, fun j hj hjm => by omega⟩
      | true =>
        simp only [hz, Bool.not_true, Bool.false_eq_true, if_false] at hrun
        have hrest : m + 1 ≤ m' ∧
            ∀ j, m + 1 ≤ j → j < m' → ∃ x, k.entity buf j = some x ∧ isZero x = true := by
          split at hrun
          · exact ih hrun
          · exact ih hrun
        refine ⟨by omega, fun j hj hjm => ?_⟩
        by_cases hjm' : j = m
        · exact ⟨x, hjm' ▸ hx, hz⟩
        · exact hrest.2 j (by omega) hjm

theorem recordZeros_extends {fuel size : Nat} (m : Nat) (nul : Bool) (hk : 0 < k.entsize)
    (hp : k.alignmentPower < 32) (hbuf : ∀ m, m * k.entsize < size →
      (m + 1) * k.entsize ≤ buf.length) (h : TabOk k tab sec) :
    ∃ m' nul' tab', k.recordZeros buf size sec fuel m nul tab = some (m', nul', tab') ∧
      Extends k sec tab tab' := by
  induction fuel generalizing m nul tab with
  | zero => exact ⟨m, nul, tab, rfl, .refl h⟩
  | succ fuel ih =>
    rw [Kind.recordZeros]
    split
    · exact ⟨m, nul, tab, rfl, .refl h⟩
    · next hin =>
      have hle := hbuf m (Nat.not_le.mp hin)
      obtain ⟨x, hxd⟩ : ∃ x, x = (buf.drop (m * k.entsize)).take k.entsize := ⟨_, rfl⟩
      have hlen : k.entsize ≤ x.length := by
        rw [Nat.add_mul, Nat.one_mul] at hle
        rw [hxd, List.length_take, List.length_drop]
        omega
      rw [entity_some hle, ← hxd, Option.bind_eq_bind, Option.bind_some]
      split
      · exact ⟨m, nul, tab, rfl, .refl h⟩
      · split
        · obtain ⟨hext, -⟩ := secMergeAdd_extends hk h hlen ⟨_, hp, mask_add_one k⟩
          obtain ⟨m', nul', tab', hrun, hext'⟩ := ih (m + 1) true hext.ok
          exact ⟨m', nul', tab', hrun, hext.trans hext'⟩
        · exact ih (m + 1) nul h

theorem boundary_of_zeros (h : ∀ j, m ≤ j → j < n → ∃ x, k.entity buf j = some x ∧ isZero x = true)
    (hb : Boundary k buf m) (hmn : m ≤ n) : Boundary k buf n := by
  by_cases hm : m = n
  · exact hm ▸ hb
  · obtain ⟨x, hx, hz⟩ := h (n - 1) (by omega) (by omega)
    exact .inr ⟨n - 1, x, by omega, hx, hz⟩

/-- If every position of a section has a key, the section is recorded, with the strings that hold
its entities. -/
theorem recordStrings_extends {fuel size : Nat} (nul : Bool) (hk : 0 < k.entsize)
    (hp : k.alignmentPower < 32) (hs : k.strings = true)
    (hbuf : ∀ m, m * k.entsize < size → (m + 1) * k.entsize ≤ buf.length)
    (hkey : ∀ m, m * k.entsize < size → ∃ str, k.keyAt buf m = some str)
    (h : TabOk k tab sec) (hb : Boundary k buf m) (hfuel : size ≤ m + fuel) :
    ∃ tab', k.recordStrings buf size sec fuel m nul tab = some tab' ∧ Extends k sec tab tab' ∧
      ∀ j, m ≤ j → j * k.entsize < size →
        (j = m ∨ ∃ x, k.entity buf j = some x ∧ isZero x = false) →
        ∃ str, k.keyAt buf (k.startOf buf j) = some str ∧ Has k tab' str := by
  induction fuel generalizing m nul tab with
  | zero =>
    refine ⟨tab, rfl, .refl h, fun j hj hjs _ => ?_⟩
    have := Nat.le_mul_of_pos_right j hk
    omega
  | succ fuel ih =>
    rw [Kind.recordStrings]
    split
    · next hend =>
      refine ⟨tab, rfl, .refl h, fun j hj hjs _ => ?_⟩
      have := Nat.mul_le_mul_right k.entsize hj
      omega
    · next hin =>
      obtain ⟨str, hstr⟩ := hkey m (Nat.not_le.mp hin)
      obtain ⟨z, hz, hslice, -⟩ := keyAt_ends hk hs hstr
      have hlen : k.entsize ≤ str.length := hslice ▸ hz.entsize_le_length
      have hnext : m + str.length / k.entsize = z + 1 := by
        have hm := hz.le
        rw [hslice, hz.slice_length, Nat.mul_div_cancel _ hk]
        omega
      obtain ⟨hext₁, hhas⟩ := secMergeAdd_extends hk h hlen (eltalign_two_pow hp (m * k.entsize))
      obtain ⟨m', nul', tab₂, hzeros, hext₂⟩ :
          ∃ m' nul' tab₂, k.recordZeros buf size sec size (z + 1) nul _ = some (m', nul', tab₂) ∧
            Extends k sec _ tab₂ := recordZeros_extends (z + 1) nul hk hp hbuf hext₁.ok
      obtain ⟨hle, hzero⟩ := recordZeros_zeros hzeros
      obtain ⟨x, hx, hzx⟩ := hz.zero
      have hb' : Boundary k buf m' := boundary_of_zeros hzero (.inr ⟨z, x, rfl, hx, hzx⟩) hle
      have hm := hz.le
      obtain ⟨tab', hrun, hext', hcov⟩ := ih (m := m') nul' hext₂.ok hb' (by omega)
      refine ⟨tab', ?_, (hext₁.trans hext₂).trans hext', ?_⟩
      · simp only [hstr, Option.bind_eq_bind, Option.bind_some, hnext, hzeros]
        exact hrun
      · intro j hj hjs hnz
        by_cases hjm : m' ≤ j
        · exact hcov j hjm hjs (.inr (hnz.resolve_left (by omega)))
        · by_cases hjz : j ≤ z
          · -- the string that was just added
            have hstart : k.startOf buf j = m :=
              startOf_eq hb hj fun i hi hij => hz.before i hi (by omega)
            rw [hstart]
            exact ⟨str, hstr, hext'.has _ (hext₂.has _ hhas)⟩
          · obtain ⟨y, hy, hzy⟩ := hzero j (by omega) (by omega)
            obtain ⟨x', hx', hzx'⟩ := hnz.resolve_left (by omega)
            rw [hy, Option.some.injEq] at hx'
            rw [hx', hzx'] at hzy
            cases hzy

theorem recordZeros_strings {P : List BfdByte → Prop} {fuel size m' : Nat} {nul nul' : Bool}
    (hP : ∀ m x, k.entity buf m = some x → isZero x = true → P x) (h : ∀ e ∈ tab, P e.string)
    (hrun : k.recordZeros buf size sec fuel m nul tab = some (m', nul', tab')) :
    ∀ e ∈ tab', P e.string := by
  induction fuel generalizing m nul tab with
  | zero =>
    cases hrun
    exact h
  | succ fuel ih =>
    rw [Kind.recordZeros] at hrun
    split at hrun
    · cases hrun
      exact h
    · obtain ⟨x, hx, hrun⟩ := Option.bind_eq_some_iff.mp hrun
      cases hz : isZero x with
      | false =>
        simp only [hz, Bool.not_false, if_true] at hrun
        cases hrun
        exact h
      | true =>
        simp only [hz, Bool.not_true, Bool.false_eq_true, if_false] at hrun
        split at hrun
        · exact ih (secMergeAdd_strings h (hP m x hx hz)) hrun
        · exact ih h hrun

theorem recordStrings_strings {P : List BfdByte → Prop} {fuel size : Nat} {nul : Bool}
    (hP : ∀ m x, k.entity buf m = some x → isZero x = true → P x)
    (hkey : ∀ m str, k.keyAt buf m = some str → P str) (h : ∀ e ∈ tab, P e.string)
    (hrun : k.recordStrings buf size sec fuel m nul tab = some tab') :
    ∀ e ∈ tab', P e.string := by
  induction fuel generalizing m nul tab with
  | zero =>
    cases hrun
    exact h
  | succ fuel ih =>
    rw [Kind.recordStrings] at hrun
    split at hrun
    · cases hrun
      exact h
    · obtain ⟨str, hstr, hrun⟩ := Option.bind_eq_some_iff.mp hrun
      obtain ⟨⟨m', nul', tab₂⟩, hzeros, hrun⟩ := Option.bind_eq_some_iff.mp hrun
      exact ih (recordZeros_strings hP (secMergeAdd_strings h (hkey m str hstr)) hzeros) hrun

/-- A section that is recorded has a key at every position. -/
theorem keyAt_of_recordStrings {fuel size : Nat} (nul : Bool) (hk : 0 < k.entsize)
    (hlt : k.entsize < 2 ^ 32) (hs : k.strings = true) (hfuel : size ≤ m + fuel)
    (hrun : k.recordStrings buf size sec fuel m nul tab = some tab') :
    ∀ j, m ≤ j → j * k.entsize < size → ∃ str, k.keyAt buf j = some str := by
  induction fuel generalizing m nul tab with
  | zero =>
    intro j hj hjs
    have := Nat.le_mul_of_pos_right j hk
    omega
  | succ fuel ih =>
    rw [Kind.recordStrings] at hrun
    split at hrun
    · next hend =>
      intro j hj hjs
      have := Nat.mul_le_mul_right k.entsize hj
      omega
    · obtain ⟨str, hstr, hrun⟩ := Option.bind_eq_some_iff.mp hrun
      obtain ⟨z, hz, hslice, hshort⟩ := keyAt_ends hk hs hstr
      obtain ⟨⟨m', nul', tab₂⟩, hzeros, hrun⟩ := Option.bind_eq_some_iff.mp hrun
      have hm := hz.le
      have hnext : m + str.length / k.entsize = z + 1 := by
        rw [hslice, hz.slice_length, Nat.mul_div_cancel _ hk]
        omega
      rw [hnext] at hzeros
      obtain ⟨hle, hzero⟩ := recordZeros_zeros hzeros
      intro j hj hjs
      by_cases hjm : m' ≤ j
      · exact ih nul' (by omega) hrun j hjm hjs
      · by_cases hjz : j ≤ z
        · -- the rest of the string that was read
          have hend := hz.later hj hjz
          refine ⟨_, hend.keyAt hk hs ?_⟩
          rw [hslice, hz.slice_length] at hshort
          rw [hend.slice_length]
          exact Nat.lt_of_le_of_lt (Nat.mul_le_mul_right _ (by omega)) hshort
        · obtain ⟨y, hy, hzy⟩ := hzero j (by omega) (by omega)
          have hend : Ends k buf j j := ⟨Nat.le_refl j, ⟨y, hy, hzy⟩, fun i hi hij => by omega⟩
          refine ⟨_, hend.keyAt hk hs ?_⟩
          rw [hend.slice_length]
          simpa using hlt

/-! Sections of constants. -/

theorem keyAt_constant (hs : k.strings = false) (hlt : k.entsize < 2 ^ 32) :
    k.keyAt buf m = k.entity buf m := by
  unfold Kind.keyAt
  rw [hs]
  simp only [Bool.false_eq_true, if_false]
  cases hx : k.entity buf m with
  | none => rfl
  | some x =>
    have hlen : x.length < 2 ^ 32 := by
      rw [(entity_eq hx).2]
      exact Nat.lt_of_le_of_lt (List.length_take_le _ _) hlt
    exact if_pos hlen

theorem entity_length (h : k.entity buf m = some x) : x.length = k.entsize := by
  obtain ⟨hle, rfl⟩ := entity_eq h
  rw [Nat.add_mul, Nat.one_mul] at hle
  rw [List.length_take, List.length_drop]
  omega

theorem recordConstants_succ (k : Kind) (buf : List BfdByte) (size sec fuel m : Nat) (tab : Tab) :
    k.recordConstants buf size sec (fuel + 1) m tab =
      if size ≤ m * k.entsize then some tab
      else (k.keyAt buf m).bind fun str =>
        k.recordConstants buf size sec fuel (m + 1) (secMergeAdd tab str 1 sec) :=
  rfl

theorem recordConstants_extends {fuel size : Nat} (hk : 0 < k.entsize)
    (hs : k.strings = false) (hlt : k.entsize < 2 ^ 32)
    (hkey : ∀ m, m * k.entsize < size → ∃ str, k.keyAt buf m = some str)
    (h : TabOk k tab sec) (hfuel : size ≤ m + fuel) :
    ∃ tab', k.recordConstants buf size sec fuel m tab = some tab' ∧ Extends k sec tab tab' ∧
      ∀ j, m ≤ j → j * k.entsize < size →
        ∃ str, k.keyAt buf j = some str ∧ Has k tab' str := by
  induction fuel generalizing m tab with
  | zero =>
    refine ⟨tab, rfl, .refl h, fun j hj hjs => ?_⟩
    have := Nat.le_mul_of_pos_right j hk
    omega
  | succ fuel ih =>
    rw [recordConstants_succ]
    split
    · next hend =>
      refine ⟨tab, rfl, .refl h, fun j hj hjs => ?_⟩
      have := Nat.mul_le_mul_right k.entsize hj
      omega
    · next hin =>
      obtain ⟨str, hstr⟩ := hkey m (Nat.not_le.mp hin)
      have hlen : k.entsize ≤ str.length := by
        rw [keyAt_constant hs hlt] at hstr
        exact Nat.le_of_eq (entity_length hstr).symm
      obtain ⟨hext, hhas⟩ :=
        secMergeAdd_extends hk h hlen (⟨0, by decide, rfl⟩ : ∃ t < 32, 1 = 2 ^ t)
      obtain ⟨tab', hrun, hext', hcov⟩ := ih (m := m + 1) hext.ok (by omega)
      refine ⟨tab', ?_, hext.trans hext', ?_⟩
      · rw [hstr]
        exact hrun
      · intro j hj hjs
        by_cases hjm : j = m
        · exact ⟨str, hjm ▸ hstr, hext'.has _ hhas⟩
        · exact hcov j (by omega) hjs

theorem keyAt_of_recordConstants {fuel size : Nat} (hk : 0 < k.entsize)
    (hfuel : size ≤ m + fuel)
    (hrun : k.recordConstants buf size sec fuel m tab = some tab') :
    ∀ j, m ≤ j → j * k.entsize < size → ∃ str, k.keyAt buf j = some str := by
  induction fuel generalizing m tab with
  | zero =>
    intro j hj hjs
    have := Nat.le_mul_of_pos_right j hk
    omega
  | succ fuel ih =>
    rw [recordConstants_succ] at hrun
    split at hrun
    · next hend =>
      intro j hj hjs
      have := Nat.mul_le_mul_right k.entsize hj
      omega
    · obtain ⟨str, hstr, hrun⟩ := Option.bind_eq_some_iff.mp hrun
      intro j hj hjs
      by_cases hjm : j = m
      · exact ⟨str, hjm ▸ hstr⟩
      · exact ih (by omega) hrun j (by omega) hjs

/-- No constant is deleted. -/
theorem secMergeAdd_kept (h : ∀ e ∈ tab, e.alignment ≠ 0) :
    ∀ e ∈ secMergeAdd tab str 1 sec, e.alignment ≠ 0 := by
  have hpush : ∀ e ∈ tab ++ [⟨str, str.length, 1, .index 0, sec⟩], e.alignment ≠ 0 := by
    intro e he
    rcases List.mem_append.mp he with he | he
    · exact h e he
    · rw [List.mem_singleton.mp he]
      exact Nat.one_ne_zero
  unfold secMergeAdd
  cases lookup tab str with
  | none => exact hpush
  | some i =>
    cases he : tab[i]? with
    | none =>
      simp only [he]
      exact h
    | some e =>
      have hpos := h e (List.mem_of_getElem? he)
      simp only [he]
      rw [if_neg (by omega)]
      exact h

theorem recordConstants_kept {fuel size : Nat} (h : ∀ e ∈ tab, e.alignment ≠ 0)
    (hrun : k.recordConstants buf size sec fuel m tab = some tab') :
    ∀ e ∈ tab', e.alignment ≠ 0 := by
  induction fuel generalizing m tab with
  | zero =>
    cases hrun
    exact h
  | succ fuel ih =>
    rw [recordConstants_succ] at hrun
    split at hrun
    · cases hrun
      exact h
    · obtain ⟨str, -, hrun⟩ := Option.bind_eq_some_iff.mp hrun
      exact ih (secMergeAdd_kept h) hrun

theorem recordSections_kept {secs : List (List BfdByte)} (hs : k.strings = false)
    (h : ∀ e ∈ tab, e.alignment ≠ 0) (hrun : k.recordSections tab sec secs = some tab') :
    ∀ e ∈ tab', e.alignment ≠ 0 := by
  induction secs generalizing tab sec with
  | nil =>
    cases hrun
    exact h
  | cons c secs ih =>
    obtain ⟨tab₁, hrun₁, hrun⟩ := Option.bind_eq_some_iff.mp hrun
    unfold Kind.recordSection at hrun₁
    rw [hs] at hrun₁
    exact ih (recordConstants_kept h hrun₁) hrun

/-! Sections. -/

/-- The facts about a kind that `_bfd_add_merge_section` checks. -/
structure Kind.Ok (k : Kind) : Prop where
  pos : 0 < k.entsize
  lt : k.entsize < 2 ^ 32
  power : k.alignmentPower < 32

theorem accepts_ok (h : k.accepts = true) : k.Ok := by
  simp only [Kind.accepts, Bool.and_eq_true, decide_eq_true_eq] at h
  obtain ⟨⟨⟨hpos, hlt⟩, hp⟩, -⟩ := h
  exact ⟨Nat.pos_of_ne_zero hpos, hlt, hp⟩

/-- Every position of the section has a key. -/
def Recordable (k : Kind) (c : List BfdByte) : Prop :=
  ∀ m, m * k.entsize < c.length → ∃ str, k.keyAt (k.buffer c) m = some str

/-- The position at which the key of an entity starts. -/
def Kind.start (k : Kind) (buf : List BfdByte) (m : Nat) : Nat :=
  if k.strings then k.startOf buf m else m

/-- The table has the keys of all entities of the section, but for empty strings behind the first
string. -/
def Covered (k : Kind) (tab : Tab) (c : List BfdByte) : Prop :=
  ∀ m, m * k.entsize < c.length →
    (k.strings = true → m = 0 ∨ ∃ x, k.entity (k.buffer c) m = some x ∧ isZero x = false) →
    ∃ str, k.keyAt (k.buffer c) (k.start (k.buffer c) m) = some str ∧ Has k tab str

theorem Covered.extends (h : Covered k tab c) (hext : ∀ s, Has k tab s → Has k tab' s) :
    Covered k tab' c := by
  intro m hm hx
  obtain ⟨str, hstr, hhas⟩ := h m hm hx
  exact ⟨str, hstr, hext str hhas⟩

theorem buffer_entity (hs : k.strings = true) (hm : m * k.entsize < c.length) :
    (m + 1) * k.entsize ≤ (k.buffer c).length := by
  unfold Kind.buffer
  rw [if_pos hs, List.length_append, List.length_replicate, Nat.add_mul, Nat.one_mul]
  omega

theorem recordSection_extends (hk : k.Ok) (hc : Recordable k c) (h : TabOk k tab sec) :
    ∃ tab', k.recordSection tab c sec = some tab' ∧ Extends k sec tab tab' ∧
      Covered k tab' c := by
  unfold Kind.recordSection
  cases hs : k.strings with
  | true =>
    obtain ⟨tab', hrun, hext, hcov⟩ := recordStrings_extends false hk.pos hk.power hs
      (fun m hm => buffer_entity hs hm) hc h (.inl rfl)
      (by omega : c.length ≤ 0 + c.length)
    refine ⟨tab', hrun, hext, fun m hm hx => ?_⟩
    unfold Kind.start
    rw [if_pos hs]
    exact hcov m (Nat.zero_le m) hm (hx hs)
  | false =>
    obtain ⟨tab', hrun, hext, hcov⟩ := recordConstants_extends hk.pos hs hk.lt hc h
      (by omega : c.length ≤ 0 + c.length)
    refine ⟨tab', hrun, hext, fun m hm _ => ?_⟩
    unfold Kind.start
    rw [hs]
    exact hcov m (Nat.zero_le m) hm

theorem recordable_of_recordSection (hk : k.Ok)
    (hrun : k.recordSection tab c sec = some tab') : Recordable k c := by
  unfold Kind.recordSection at hrun
  intro m hm
  cases hs : k.strings with
  | true =>
    rw [if_pos hs] at hrun
    exact keyAt_of_recordStrings false hk.pos hk.lt hs (by omega) hrun m (Nat.zero_le m) hm
  | false =>
    rw [hs] at hrun
    exact keyAt_of_recordConstants hk.pos (by omega) hrun m (Nat.zero_le m) hm

theorem TabOk.mono (h : TabOk k tab sec) (hle : sec ≤ n) : TabOk k tab n :=
  ⟨h.entry, h.distinct, h.sorted, fun e he => Nat.le_trans (h.bound e he) hle⟩

theorem recordSections_extends {secs : List (List BfdByte)} (hk : k.Ok)
    (hc : ∀ c ∈ secs, Recordable k c) (h : TabOk k tab sec) :
    ∃ tab' n, k.recordSections tab sec secs = some tab' ∧ TabOk k tab' n ∧
      (∀ s, Has k tab s → Has k tab' s) ∧ ∀ c ∈ secs, Covered k tab' c := by
  induction secs generalizing tab sec with
  | nil => exact ⟨tab, sec, rfl, h, fun _ h => h, by simp⟩
  | cons c secs ih =>
    obtain ⟨tab₁, hrun₁, hext₁, hcov₁⟩ := recordSection_extends hk (hc c (by simp)) h
    obtain ⟨tab', n, hrun, hok, hhas, hcov⟩ :=
      ih (fun d hd => hc d (by simp [hd])) (hext₁.ok.mono (Nat.le_succ sec))
    refine ⟨tab', n, ?_, hok, fun s hs => hhas s (hext₁.has s hs), ?_⟩
    · simp only [Kind.recordSections, hrun₁, Option.bind_eq_bind, Option.bind_some]
      exact hrun
    · intro d hd
      rcases List.mem_cons.mp hd with rfl | hd
      · exact hcov₁.extends hhas
      · exact hcov d hd

theorem recordable_of_recordSections {secs : List (List BfdByte)} (hk : k.Ok)
    (hrun : k.recordSections tab sec secs = some tab') : ∀ c ∈ secs, Recordable k c := by
  induction secs generalizing tab sec with
  | nil => simp
  | cons c secs ih =>
    obtain ⟨tab₁, hrun₁, hrun⟩ := Option.bind_eq_some_iff.mp hrun
    intro d hd
    rcases List.mem_cons.mp hd with rfl | hd
    · exact recordable_of_recordSection hk hrun₁
    · exact ih hrun d hd

/-- Every string of the table is as the strings that are read. -/
theorem recordSections_strings {P : List BfdByte → Prop} {secs : List (List BfdByte)}
    (hs : k.strings = true)
    (hP : ∀ buf m x, k.entity buf m = some x → isZero x = true → P x)
    (hkey : ∀ buf m str, k.keyAt buf m = some str → P str) (h : ∀ e ∈ tab, P e.string)
    (hrun : k.recordSections tab sec secs = some tab') : ∀ e ∈ tab', P e.string := by
  induction secs generalizing tab sec with
  | nil =>
    cases hrun
    exact h
  | cons c secs ih =>
    obtain ⟨tab₁, hrun₁, hrun⟩ := Option.bind_eq_some_iff.mp hrun
    unfold Kind.recordSection at hrun₁
    rw [if_pos hs] at hrun₁
    exact ih (recordStrings_strings (hP _) (hkey _) h hrun₁) hrun

/-! Which sections can be recorded. -/

/-- The bytes behind the last whole entity of a section of strings are zero, and no string is as
long as an `unsigned int` can count; constants leave no rest. -/
def Kind.WellFormed (k : Kind) (c : List BfdByte) : Prop :=
  if k.strings then
    isZero (c.drop (c.length / k.entsize * k.entsize)) = true ∧
      ∀ m str, m * k.entsize < c.length → k.stringAt (k.buffer c) m = some str →
        str.length < 2 ^ 32
  else k.entsize ∣ c.length

/-- A zero entity that is reached ends a string. -/
theorem exists_ends (hmn : m ≤ n) (hx : k.entity buf n = some x) (hz : isZero x = true)
    (hin : ∀ j, m ≤ j → j < n → ∃ y, k.entity buf j = some y) : ∃ z, Ends k buf m z := by
  induction hd : n - m generalizing m with
  | zero =>
    obtain rfl : m = n := by omega
    exact ⟨m, Nat.le_refl m, ⟨x, hx, hz⟩, fun j hj hjm => by omega⟩
  | succ d ih =>
    obtain ⟨y, hy⟩ := hin m (Nat.le_refl m) (by omega)
    by_cases hzy : isZero y = true
    · exact ⟨m, Nat.le_refl m, ⟨y, hy, hzy⟩, fun j hj hjm => by omega⟩
    · obtain ⟨z, hend⟩ := ih (m := m + 1) (by omega) (fun j hj hjn => hin j (by omega) hjn)
        (by omega)
      refine ⟨z, Nat.le_of_succ_le hend.le, hend.zero, fun j hj hjz => ?_⟩
      by_cases hjm : j = m
      · exact ⟨y, hjm ▸ hy, Bool.eq_false_iff.mpr hzy⟩
      · exact hend.before j (by omega) hjz

/-- The entity that holds the rest of a section of strings, filled up with zeros. -/
theorem entity_rest (hk : 0 < k.entsize) (hs : k.strings = true) :
    k.entity (k.buffer c) (c.length / k.entsize) =
      some (c.drop (c.length / k.entsize * k.entsize)
        ++ List.replicate (k.entsize - c.length % k.entsize) 0) := by
  have hmod := Nat.mod_lt c.length hk
  have hdiv : c.length / k.entsize * k.entsize + c.length % k.entsize = c.length :=
    Nat.div_add_mod' c.length k.entsize
  have hlen : (k.buffer c).length = c.length + k.entsize := by
    rw [Kind.buffer, if_pos hs, List.length_append, List.length_replicate]
  rw [entity_some]
  · rw [Kind.buffer, if_pos hs, List.drop_append_of_le_length (by omega), List.take_append,
      List.take_of_length_le (by rw [List.length_drop]; omega), List.take_replicate,
      List.length_drop]
    congr 3
    omega
  · rw [hlen, Nat.add_mul, Nat.one_mul]
    omega

theorem recordable_strings_iff (hk : k.Ok) (hs : k.strings = true) :
    Recordable k c ↔ k.WellFormed c := by
  have hpos := hk.pos
  have hlen : (k.buffer c).length = c.length + k.entsize := by
    rw [Kind.buffer, if_pos hs, List.length_append, List.length_replicate]
  have hrest := entity_rest (c := c) hpos hs
  rw [Kind.WellFormed, if_pos hs]
  constructor
  · intro h
    refine ⟨?_, fun m str hm hstr => ?_⟩
    · by_cases hin : c.length / k.entsize * k.entsize < c.length
      · obtain ⟨str, hstr⟩ := h _ hin
        obtain ⟨z, hz, -⟩ := keyAt_ends hpos hs hstr
        obtain ⟨x, hx, hzx⟩ := hz.zero
        -- no other entity is left
        have hzq : z ≤ c.length / k.entsize := by
          have hle := (entity_eq hx).1
          rw [hlen, Nat.add_mul, Nat.one_mul] at hle
          exact (Nat.le_div_iff_mul_le hpos).mpr (by omega)
        obtain rfl : z = c.length / k.entsize := Nat.le_antisymm hzq hz.le
        rw [hrest, Option.some.injEq] at hx
        rw [isZero, ← hx, List.all_append, Bool.and_eq_true] at hzx
        exact hzx.1
      · rw [List.drop_eq_nil_of_le (Nat.not_lt.mp hin)]
        rfl
    · obtain ⟨s, hkey⟩ := h m hm
      obtain ⟨z, hz, rfl, hshort⟩ := keyAt_ends hpos hs hkey
      rw [(stringAt_eq_some hpos).mpr ⟨z, hz, rfl⟩, Option.some.injEq] at hstr
      rwa [← hstr]
  · rintro ⟨hzero, hshort⟩ m hm
    have hmq : m ≤ c.length / k.entsize := (Nat.le_div_iff_mul_le hpos).mpr (Nat.le_of_lt hm)
    obtain ⟨z, hz⟩ := exists_ends hmq hrest (by
      rw [isZero, List.all_append, Bool.and_eq_true]
      exact ⟨hzero, by simp⟩) fun j _ hj => ⟨_, entity_some (by
        have hle : (j + 1) * k.entsize ≤ c.length := (Nat.le_div_iff_mul_le hpos).mp hj
        rw [hlen]
        omega)⟩
    exact ⟨_, hz.keyAt hpos hs (hshort m _ hm ((stringAt_eq_some hpos).mpr ⟨z, hz, rfl⟩))⟩

theorem recordable_constants_iff (hk : k.Ok) (hs : k.strings = false) :
    Recordable k c ↔ k.WellFormed c := by
  have hbuf : k.buffer c = c := by
    rw [Kind.buffer, hs]
    rfl
  have hdiv := Nat.div_add_mod' c.length k.entsize
  unfold Recordable Kind.WellFormed
  simp only [keyAt_constant hs hk.lt, hbuf, hs, Bool.false_eq_true, if_false]
  constructor
  · intro h
    by_contra hnd
    have hmod : c.length % k.entsize ≠ 0 := fun h0 => hnd (Nat.dvd_of_mod_eq_zero h0)
    obtain ⟨x, hx⟩ := h (c.length / k.entsize) (by omega)
    have hle := (entity_eq hx).1
    have hlt := Nat.mod_lt c.length hk.pos
    rw [Nat.add_mul, Nat.one_mul] at hle
    omega
  · rintro ⟨t, ht⟩ m hm
    rw [ht, Nat.mul_comm] at hm
    refine ⟨_, entity_some ?_⟩
    rw [ht, Nat.mul_comm k.entsize]
    exact Nat.mul_le_mul_right _ (Nat.lt_of_mul_lt_mul_left hm)

theorem recordable_iff (hk : k.Ok) : Recordable k c ↔ k.WellFormed c := by
  cases hs : k.strings with
  | true => exact recordable_strings_iff hk hs
  | false => exact recordable_constants_iff hk hs

end FusionBinutils.Bfd.Merge
