import Mathlib.Data.List.Basic
import Mathlib.Data.List.Nodup
import Mathlib.Data.List.Perm.Basic
import Mathlib.Data.List.Perm.Subperm
import Mathlib.Data.List.Range
import Mathlib.Data.Nat.ModEq
import Mathlib.Logic.Function.Basic

/-! Arrays of chains: what is in them, and walking them in order. -/
namespace FusionBinutils.Buckets

open scoped List

variable {α : Type*} {b : Nat → List α} {i j n k : Nat} {a : α} {l r : List α}

/-- The chains from the `i`-th on, one after the other. -/
def chainsFrom (b : Nat → List α) (n i : Nat) : List α := (List.range' i (n - i)).flatMap b

/-- All chains of an array of `n`. -/
def all (b : Nat → List α) (n : Nat) : List α := chainsFrom b n 0

theorem mem_chainsFrom : a ∈ chainsFrom b n i ↔ ∃ j, i ≤ j ∧ j < n ∧ a ∈ b j := by
  rw [chainsFrom, List.mem_flatMap]
  constructor
  · rintro ⟨j, hj, ha⟩
    rw [List.mem_range'_1] at hj
    exact ⟨j, by omega, by omega, ha⟩
  · rintro ⟨j, hij, hjn, ha⟩
    exact ⟨j, List.mem_range'_1.2 ⟨hij, by omega⟩, ha⟩

theorem mem_all : a ∈ all b n ↔ ∃ j < n, a ∈ b j := by
  rw [all, mem_chainsFrom]
  simp

theorem chainsFrom_succ (hi : i < n) : chainsFrom b n i = b i ++ chainsFrom b n (i + 1) := by
  rw [chainsFrom, chainsFrom, show n - i = (n - (i + 1)) + 1 by omega, List.range'_succ, List.flatMap_cons]

theorem chainsFrom_end (h : n ≤ i) : chainsFrom b n i = [] := by
  rw [chainsFrom, Nat.sub_eq_zero_of_le h]
  rfl

theorem chainsFrom_congr {c : Nat → List α} (h : ∀ j, i ≤ j → j < n → b j = c j) :
    chainsFrom b n i = chainsFrom c n i := by
  rw [chainsFrom, chainsFrom]
  refine List.flatMap_congr fun j hj => ?_
  rw [List.mem_range'_1] at hj
  exact h j hj.1 (by omega)

theorem chainsFrom_sublist (h : i ≤ j) : (chainsFrom b n j).Sublist (chainsFrom b n i) := by
  induction h using Nat.decreasingInduction with
  | self => exact .refl _
  | of_succ k hk ih =>
    by_cases hn : k < n
    · rw [chainsFrom_succ hn]
      exact ih.trans (List.sublist_append_right ..)
    · rw [chainsFrom_end (by omega : n ≤ j)]
      exact List.nil_sublist _

/-- One chain put in front of the others. -/
theorem chainsFrom_split (hij : i ≤ j) (hj : j < n) :
    chainsFrom b n i ~ b j ++ chainsFrom (Function.update b j []) n i := by
  induction hij using Nat.decreasingInduction with
  | self =>
    rw [chainsFrom_succ hj, chainsFrom_succ hj, Function.update_self, List.nil_append]
    have hrest : chainsFrom (Function.update b j []) n (j + 1) = chainsFrom b n (j + 1) :=
      chainsFrom_congr fun k hk _ => Function.update_of_ne (by omega) _ _
    rw [hrest]
  | of_succ k hk ih =>
    rw [chainsFrom_succ (by omega : k < n), chainsFrom_succ (by omega : k < n),
      Function.update_of_ne (by omega)]
    refine (ih.append_left (b k)).trans ?_
    rw [← List.append_assoc, ← List.append_assoc]
    exact List.perm_append_comm.append_right _

theorem all_update (hj : j < n) (l : List α) :
    all (Function.update b j l) n ~ l ++ all (Function.update b j []) n := by
  have h := chainsFrom_split (b := Function.update b j l) (Nat.zero_le j) hj
  rwa [Function.update_self, Function.update_idem] at h

/-- What is put in front of a chain is all that is new. -/
theorem all_push (hj : j < n) (l : List α) :
    all (Function.update b j (l ++ b j)) n ~ l ++ all b n := by
  refine (all_update hj _).trans ?_
  rw [List.append_assoc]
  exact (chainsFrom_split (Nat.zero_le j) hj).symm.append_left l

/-- What is taken out of a chain is all that is missing. -/
theorem all_take (hj : j < n) (h : b j ~ a :: l) :
    all b n ~ a :: all (Function.update b j l) n := by
  refine (chainsFrom_split (Nat.zero_le j) hj).trans ?_
  refine (h.append_right _).trans ?_
  rw [List.cons_append]
  exact ((all_update hj l).symm).cons a

/-- Every element is in the chain of its key. -/
def Placed (key : α → Nat) (b : Nat → List α) : Prop := ∀ i, ∀ a ∈ b i, key a = i

theorem Placed.push {key : α → Nat} (h : Placed key b) (hl : ∀ a ∈ l, key a = j) :
    Placed key (Function.update b j (l ++ b j)) := by
  intro i a ha
  by_cases hij : i = j
  · subst hij
    rw [Function.update_self, List.mem_append] at ha
    exact ha.elim (hl a) (h i a)
  · rw [Function.update_of_ne hij] at ha
    exact h i a ha

theorem Placed.shrink {key : α → Nat} (h : Placed key b) (hl : ∀ a ∈ l, a ∈ b j) :
    Placed key (Function.update b j l) := by
  intro i a ha
  by_cases hij : i = j
  · subst hij
    rw [Function.update_self] at ha
    exact h i a (hl a ha)
  · rw [Function.update_of_ne hij] at ha
    exact h i a ha

/-- The first element of the chains from the `i`-th on, looking at `k` of them. -/
def seek (b : Nat → List α) : Nat → Nat → Option (Nat × α)
  | 0, _ => none
  | k + 1, i => match b i with
    | a :: _ => some (i, a)
    | [] => seek b k (i + 1)

theorem seek_none (h : seek b k i = none) : chainsFrom b (i + k) i = [] := by
  induction k generalizing i with
  | zero => exact chainsFrom_end (by omega)
  | succ k ih =>
    rw [seek] at h
    cases hb : b i with
    | cons a l => simp [hb] at h
    | nil =>
      simp only [hb] at h
      rw [chainsFrom_succ (by omega), hb, List.nil_append, show i + (k + 1) = i + 1 + k by omega]
      exact ih h

/-- Where the walk goes on, and what is left behind that place. -/
theorem seek_some (h : seek b k i = some (j, a)) : i ≤ j ∧ j < i + k ∧ ∃ l, b j = a :: l ∧
    chainsFrom b (i + k) i = a :: l ++ chainsFrom b (i + k) (j + 1) := by
  induction k generalizing i with
  | zero => simp [seek] at h
  | succ k ih =>
    rw [seek] at h
    cases hb : b i with
    | cons c l =>
      simp only [hb, Option.some.injEq, Prod.mk.injEq] at h
      obtain ⟨rfl, rfl⟩ := h
      refine ⟨le_rfl, by omega, l, hb, ?_⟩
      rw [chainsFrom_succ (by omega), hb]
    | nil =>
      simp only [hb] at h
      obtain ⟨hij, hjk, l, hl, hrest⟩ := ih h
      refine ⟨by omega, by omega, l, hl, ?_⟩
      rw [chainsFrom_succ (by omega), hb, List.nil_append, show i + (k + 1) = i + 1 + k by omega]
      exact hrest

end FusionBinutils.Buckets

/-! Open addressing: an element is searched for along places of its own, up to a slot that was
never used. -/
namespace FusionBinutils.Probing

open scoped List

inductive Slot (α : Type*)
  | empty
  | deleted
  | live (a : α)
  deriving DecidableEq

variable {α β : Type*} {m : Nat → Slot α} {n i j k : Nat} {a b : α} {q : Nat → Nat} {p : α → Bool}

def Slot.elements : Slot α → List α
  | .live a => [a]
  | _ => []

def Slot.graves : Slot α → List Unit
  | .deleted => [()]
  | _ => []

/-- What the first `n` slots give, one after the other. -/
def collect (w : Slot α → List β) (m : Nat → Slot α) (n : Nat) : List β :=
  Buckets.all (fun i => w (m i)) n

/-- The elements in the first `n` slots. -/
def elements (m : Nat → Slot α) (n : Nat) : List α := collect Slot.elements m n

/-- How many of the first `n` slots are deleted ones. -/
def graves (m : Nat → Slot α) (n : Nat) : Nat := (collect Slot.graves m n).length

theorem collect_update (w : Slot α → List β) (hi : i < n) (x : Slot α) :
    ∃ rest, collect w m n ~ w (m i) ++ rest ∧
      collect w (Function.update m i x) n ~ w x ++ rest := by
  have hw : (fun j => w (Function.update m i x j)) =
      Function.update (fun j => w (m j)) i (w x) := by
    funext j
    rcases eq_or_ne j i with rfl | hj
    · rw [Function.update_self, Function.update_self]
    · rw [Function.update_of_ne hj, Function.update_of_ne hj]
  refine ⟨Buckets.all (Function.update (fun j => w (m j)) i []) n, ?_, ?_⟩
  · have h := Buckets.all_update (b := fun j => w (m j)) hi (w (m i))
    rwa [Function.update_eq_self] at h
  · unfold collect
    rw [hw]
    exact Buckets.all_update hi (w x)

theorem mem_elements : a ∈ elements m n ↔ ∃ i < n, m i = .live a := by
  unfold elements collect
  rw [Buckets.mem_all]
  refine exists_congr fun i => and_congr_right fun _ => ?_
  cases m i <;> simp [Slot.elements, eq_comm]

theorem elements_live (hi : i < n) (hm : (m i).elements = []) (a : α) :
    elements (Function.update m i (.live a)) n ~ a :: elements m n := by
  obtain ⟨rest, h₁, h₂⟩ := collect_update (m := m) Slot.elements hi (.live a)
  rw [hm, List.nil_append] at h₁
  exact h₂.trans (h₁.symm.cons a)

theorem elements_vacate (hi : i < n) (hm : m i = .live a) {x : Slot α} (hx : x.elements = []) :
    elements m n ~ a :: elements (Function.update m i x) n := by
  obtain ⟨rest, h₁, h₂⟩ := collect_update (m := m) Slot.elements hi x
  rw [hx, List.nil_append] at h₂
  rw [hm] at h₁
  exact h₁.trans (h₂.symm.cons a)

theorem graves_update (hi : i < n) (x : Slot α) :
    graves (Function.update m i x) n + (m i).graves.length = graves m n + x.graves.length := by
  obtain ⟨rest, h₁, h₂⟩ := collect_update (m := m) Slot.graves hi x
  have h₁ := h₁.length_eq
  have h₂ := h₂.length_eq
  rw [List.length_append] at h₁ h₂
  unfold graves
  omega

theorem ne_deleted (h : graves m n = 0) (hi : i < n) : m i ≠ .deleted := by
  intro hd
  have hmem : () ∈ collect Slot.graves m n :=
    Buckets.mem_all.mpr ⟨i, hi, by simp [hd, Slot.graves]⟩
  rw [List.eq_nil_of_length_eq_zero h] at hmem
  cases hmem

/-- A slot that was never used is left, when fewer than all are used. -/
theorem exists_empty (h : (elements m n).length + graves m n < n) : ∃ i < n, m i = .empty := by
  by_contra hnone
  push Not at hnone
  have hone : ∀ i < n, (m i).elements.length + (m i).graves.length = 1 := by
    intro i hi
    have := hnone i hi
    cases hm : m i with
    | empty => exact absurd hm this
    | deleted => rfl
    | live a => rfl
  have hsum : ∀ k ≤ n, (elements m k).length + graves m k = k := by
    intro k
    induction k with
    | zero => exact fun _ => rfl
    | succ k ih =>
      intro hk
      have := hone k hk
      have := ih (by omega)
      unfold elements graves collect Buckets.all Buckets.chainsFrom at *
      rw [Nat.sub_zero] at *
      simp only [List.range'_1_concat, List.flatMap_append, List.length_append, Nat.zero_add,
        List.flatMap_singleton] at *
      omega
  have := hsum n le_rfl
  omega

theorem elements_empty (n : Nat) : elements (fun _ => (.empty : Slot α)) n = [] := by
  simp [elements, collect, Buckets.all, Buckets.chainsFrom, Slot.elements]

theorem graves_empty (n : Nat) : graves (fun _ => (.empty : Slot α)) n = 0 := by
  simp [graves, collect, Buckets.all, Buckets.chainsFrom, Slot.graves]

/-- A search for an element that `p` accepts ends at such a slot. -/
def Slot.ends (p : α → Bool) : Slot α → Bool
  | .empty => true
  | .deleted => false
  | .live a => p a

/-- The first of `n` places from the `k`-th on where a search ends. -/
def probe (m : Nat → Slot α) (p : α → Bool) (q : Nat → Nat) : Nat → Nat → Option Nat
  | 0, _ => none
  | n + 1, k => if (m (q k)).ends p then some k else probe m p q n (k + 1)

theorem probe_of_ends (h : (m (q k)).ends p) : probe m p q (n + 1) k = some k := if_pos h

theorem probe_of_not_ends (h : ¬ (m (q k)).ends p) :
    probe m p q (n + 1) k = probe m p q n (k + 1) := if_neg h

theorem probe_some (h : probe m p q n k = some j) :
    k ≤ j ∧ j < k + n ∧ (m (q j)).ends p ∧ ∀ i, k ≤ i → i < j → ¬ (m (q i)).ends p := by
  induction n generalizing k with
  | zero => cases h
  | succ n ih =>
    unfold probe at h
    split_ifs at h with hk
    · cases h
      exact ⟨le_rfl, by omega, hk, fun i _ _ => by omega⟩
    · obtain ⟨hkj, hjn, hends, hbefore⟩ := ih h
      refine ⟨by omega, by omega, hends, fun i hki hij => ?_⟩
      rcases eq_or_ne i k with rfl | hne
      · exact hk
      · exact hbefore i (by omega) hij

theorem probe_isSome (hkj : k ≤ j) (hjn : j < k + n) (hends : (m (q j)).ends p) :
    ∃ i, probe m p q n k = some i := by
  induction n generalizing k with
  | zero => omega
  | succ n ih =>
    unfold probe
    split_ifs with hk
    · exact ⟨k, rfl⟩
    · have hne : k ≠ j := fun he => hk (he ▸ hends)
      exact ih (by omega) (by omega)

/-- The places of an element, and which elements count as equal. -/
structure Places (size : Nat) (place : α → Nat → Nat) (eq : α → α → Bool) : Prop where
  lt : ∀ a k, place a k < size
  all : ∀ a, ∀ i < size, ∃ k < size, place a k = i
  refl : ∀ a, eq a a
  symm : ∀ a b, eq a b → eq b a
  trans : ∀ a b c, eq a b → eq b c → eq a c
  congr : ∀ a b, eq a b → place a = place b

/-- Every element stands where a search for it gets to, and no two are equal. -/
structure Filed (size : Nat) (place : α → Nat → Nat) (eq : α → α → Bool) (m : Nat → Slot α) :
    Prop where
  reached : ∀ i < size, ∀ a, m i = .live a →
    ∃ k, place a k = i ∧ ∀ j < k, m (place a j) ≠ .empty
  distinct : ∀ i < size, ∀ j < size, ∀ a b, m i = .live a → m j = .live b → eq a b → i = j

section Filed

variable {size : Nat} {place : α → Nat → Nat} {eq : α → α → Bool}

/-- What a search for `a` comes to, after the places that it passes. -/
structure Search (size : Nat) (place : α → Nat → Nat) (eq : α → α → Bool) (m : Nat → Slot α)
    (a : α) (k : Nat) : Prop where
  lt : k < size
  passed : ∀ j < k, m (place a j) ≠ .empty
  ends : (∃ b, m (place a k) = .live b ∧ eq b a) ∨
    m (place a k) = .empty ∧ ∀ b ∈ elements m size, ¬ eq b a

/-- A search ends, and it misses no element. -/
theorem Filed.search (hf : Filed size place eq m) (hp : Places size place eq)
    (hroom : ∃ i < size, m i = .empty) (a : α) :
    ∃ k, probe m (eq · a) (place a) size 0 = some k ∧ Search size place eq m a k := by
  obtain ⟨i, hi, hempty⟩ := hroom
  obtain ⟨j, hj, hplace⟩ := hp.all a i hi
  obtain ⟨k, hk⟩ := probe_isSome (m := m) (p := (eq · a)) (q := place a) (Nat.zero_le j)
    (by omega : j < 0 + size) (by rw [hplace, hempty]; rfl)
  obtain ⟨-, hlt, hends, hbefore⟩ := probe_some hk
  have hpassed : ∀ j < k, m (place a j) ≠ .empty := by
    intro j hjk he
    exact hbefore j (Nat.zero_le j) hjk (by rw [he]; rfl)
  refine ⟨k, hk, by omega, hpassed, ?_⟩
  cases hm : m (place a k) with
  | deleted =>
    rw [hm] at hends
    cases hends
  | live b =>
    rw [hm] at hends
    exact .inl ⟨b, rfl, hends⟩
  | empty =>
    refine .inr ⟨rfl, ?_⟩
    intro b hb heq
    obtain ⟨i, hi, hlive⟩ := mem_elements.mp hb
    obtain ⟨n, hn, hreach⟩ := hf.reached i hi b hlive
    rw [hp.congr b a heq] at hn hreach
    rcases lt_trichotomy n k with hlt | rfl | hgt
    · -- the search would have ended at that element
      refine hbefore n (Nat.zero_le n) hlt ?_
      rw [hn, hlive]
      exact heq
    · rw [hn, hlive] at hm
      cases hm
    · exact hreach k hgt hm

theorem Filed.pairwise (hf : Filed size place eq m) :
    (elements m size).Pairwise fun a b => ¬ eq a b := by
  unfold elements collect Buckets.all Buckets.chainsFrom
  rw [List.pairwise_flatMap]
  refine ⟨?_, ?_⟩
  · intro i _
    cases m i <;> simp [Slot.elements]
  · refine List.Pairwise.imp_of_mem ?_ (List.pairwise_lt_range' ..)
    intro i j hi hj hlt a ha b hb heq
    rw [List.mem_range'_1] at hi hj
    have hlive : ∀ {s : Slot α} {c : α}, c ∈ s.elements → s = .live c := by
      intro s c hc
      cases s <;> simp_all [Slot.elements]
    have := hf.distinct i (by omega) j (by omega) a b (hlive ha) (hlive hb) heq
    omega

/-- Only used slots matter to the searches for the elements that are there. -/
theorem Filed.reached_update (hf : Filed size place eq m) {x : Slot α} (hx : x ≠ .empty)
    (hj : j < size) (hb : m j = .live b) :
    ∃ k, place b k = j ∧ ∀ n < k, Function.update m i x (place b n) ≠ .empty := by
  obtain ⟨k, hk, hbefore⟩ := hf.reached j hj b hb
  refine ⟨k, hk, fun n hn => ?_⟩
  rcases eq_or_ne (place b n) i with he | hne
  · rw [he, Function.update_self]
    exact hx
  · rw [Function.update_of_ne hne]
    exact hbefore n hn

/-- An element is put in a free slot that a search for it passes or ends at. -/
theorem Filed.put (hf : Filed size place eq m) (hp : Places size place eq)
    (hpassed : ∀ j < k, m (place a j) ≠ .empty)
    (hnew : ∀ b ∈ elements m size, ¬ eq b a) :
    Filed size place eq (Function.update m (place a k) (.live a)) := by
  have hother : ∀ j < size, ∀ b, m j = .live b → ¬ eq b a := fun j hj b hb =>
    hnew b (mem_elements.mpr ⟨j, hj, hb⟩)
  refine ⟨?_, ?_⟩
  · intro j hj b hb
    rcases eq_or_ne j (place a k) with rfl | hne
    · rw [Function.update_self] at hb
      cases hb
      refine ⟨k, rfl, fun n hn => ?_⟩
      rcases eq_or_ne (place a n) (place a k) with he | hne
      · rw [he, Function.update_self]
        simp
      · rw [Function.update_of_ne hne]
        exact hpassed n hn
    · rw [Function.update_of_ne hne] at hb
      exact hf.reached_update (by simp) hj hb
  · intro i hi j hj b c hb hc heq
    rcases eq_or_ne i (place a k) with rfl | hia
    · rcases eq_or_ne j (place a k) with rfl | hja
      · rfl
      · rw [Function.update_self] at hb
        rw [Function.update_of_ne hja] at hc
        cases hb
        exact absurd (hp.symm _ _ heq) (hother j hj c hc)
    · rw [Function.update_of_ne hia] at hb
      rcases eq_or_ne j (place a k) with rfl | hja
      · rw [Function.update_self] at hc
        cases hc
        exact absurd heq (hother i hi b hb)
      · rw [Function.update_of_ne hja] at hc
        exact hf.distinct i hi j hj b c hb hc heq

/-- An equal element takes the place of another. -/
theorem Filed.swap (hf : Filed size place eq m) (hp : Places size place eq) (hi : i < size)
    (hm : m i = .live b) (heq : eq b a) :
    Filed size place eq (Function.update m i (.live a)) := by
  refine ⟨?_, ?_⟩
  · intro j hj c hc
    rcases eq_or_ne j i with rfl | hne
    · rw [Function.update_self] at hc
      cases hc
      rw [← hp.congr b a heq]
      exact hf.reached_update (by simp) hj hm
    · rw [Function.update_of_ne hne] at hc
      exact hf.reached_update (by simp) hj hc
  · intro j hj k hk c d hc hd hcd
    have hold : ∀ l, ∀ e, Function.update m i (.live a) l = .live e →
        ∃ e', m l = .live e' ∧ eq e e' := by
      intro l e he
      rcases eq_or_ne l i with rfl | hne
      · rw [Function.update_self] at he
        cases he
        exact ⟨b, hm, hp.symm b a heq⟩
      · rw [Function.update_of_ne hne] at he
        exact ⟨e, he, hp.refl e⟩
    obtain ⟨c', hc', hcc⟩ := hold j c hc
    obtain ⟨d', hd', hdd⟩ := hold k d hd
    have h := hp.trans c' c d' (hp.symm c c' hcc) (hp.trans c d d' hcd hdd)
    exact hf.distinct j hj k hk c' d' hc' hd' h

/-- A slot whose element is deleted still counts as used. -/
theorem Filed.bury (hf : Filed size place eq m) (i : Nat) :
    Filed size place eq (Function.update m i .deleted) := by
  have hold : ∀ j, ∀ b, Function.update m i .deleted j = .live b → m j = .live b := by
    intro j b hb
    rcases eq_or_ne j i with rfl | hne
    · rw [Function.update_self] at hb
      cases hb
    · rwa [Function.update_of_ne hne] at hb
  refine ⟨fun j hj b hb => hf.reached_update (by simp) hj (hold j b hb), ?_⟩
  intro j hj k hk b c hb hc heq
  exact hf.distinct j hj k hk b c (hold j b hb) (hold k c hc) heq

theorem filed_empty : Filed size place eq fun _ => .empty := by
  refine ⟨?_, ?_⟩
  · intro i _ a ha
    cases ha
  · intro i _ j _ a b ha
    cases ha

end Filed

/-- Steps of a length that has no factor in common with the size get to every place. -/
theorem places_coprime {size step start : Nat} (hsize : 0 < size) (hco : Nat.Coprime step size)
    (hi : i < size) : ∃ k < size, (start + k * step) % size = i := by
  have hinj : ∀ x < size, ∀ y < size, (start + x * step) % size = (start + y * step) % size →
      x = y := by
    intro x hx y hy h
    have h' : x * step ≡ y * step [MOD size] := Nat.ModEq.add_left_cancel' start h
    have := Nat.ModEq.cancel_right_of_coprime (by rwa [Nat.coprime_comm] at hco) h'
    exact Nat.ModEq.eq_of_lt_of_lt this hx hy
  have hsub : (List.range size).map (fun k => (start + k * step) % size) ⊆ List.range size := by
    intro x hx
    obtain ⟨k, -, rfl⟩ := List.mem_map.mp hx
    exact List.mem_range.mpr (Nat.mod_lt _ hsize)
  have hnodup : ((List.range size).map fun k => (start + k * step) % size).Nodup :=
    List.Nodup.map_on (fun x hx y hy h =>
      hinj x (List.mem_range.mp hx) y (List.mem_range.mp hy) h) List.nodup_range
  have hperm := (hnodup.subperm hsub).perm_of_length_le (by simp)
  have hmem := hperm.symm.subset (List.mem_range.mpr hi)
  obtain ⟨k, hk, he⟩ := List.mem_map.mp hmem
  exact ⟨k, List.mem_range.mp hk, he⟩

end FusionBinutils.Probing
