import FusionBinutils.Bfd.Strtab
import FusionBinutils.Lib.Cells

/-! Every live string of a finalized string table has its bytes in the output. -/
namespace FusionBinutils.Bfd.Strtab

open Blocks Cells

variable {array array' : List Entry} {e a b : Entry} {k j n : Nat} {tab : Tab}

/-! The table before it is finalized. -/

/-- The entry at position `k` of the array, before the table is finalized. -/
structure Fresh (e : Entry) (k : Nat) : Prop where
  len : e.len = e.string.chars.length + 1
  u : e.u = .index (k + 1)

/-- What every sequence of calls keeps: entries know their index, strings are added once, and the
returned indices are those of the strings. -/
structure Session.Ok (s : Session) : Prop where
  fresh : ∀ k e, s.tab.array[k]? = some e → Fresh e k
  added : ∀ str k, (str, k + 1) ∈ s.added → ∃ e, s.tab.array[k]? = some e ∧ e.string = str
  known : ∀ k e, s.tab.array[k]? = some e → (e.string, k + 1) ∈ s.added

theorem start_ok : Session.start.Ok := by
  refine ⟨?_, ?_, ?_⟩ <;> simp [Session.start, strtabInit]

/-- Only the reference count of one entry changes, and its string is added again. -/
theorem Session.Ok.setRefcount {s : Session} (h : s.Ok) (hk : s.tab.array[k]? = some e)
    (r : BitVec 32) {l : List (CStr × Nat)} (hl : ∀ p, p ∈ l ↔ p ∈ s.added) :
    Session.Ok ⟨{ s.tab with array := s.tab.array.set k (e.setRefcount r) }, l⟩ := by
  refine ⟨?_, ?_, ?_⟩
  · intro i e' hi
    obtain ⟨rfl, rfl⟩ | ⟨-, hi⟩ := getElem?_set_cases hi
    · exact ⟨(h.fresh i e hk).len, (h.fresh i e hk).u⟩
    · exact h.fresh i e' hi
  · intro str i hmem
    obtain ⟨e₀, h₀, hs⟩ := h.added str i ((hl _).mp hmem)
    by_cases hki : i = k
    · subst hki
      rw [hk, Option.some.injEq] at h₀
      exact ⟨_, getElem?_set_same hk, by rw [← hs, ← h₀]; rfl⟩
    · exact ⟨e₀, (getElem?_set_other hki).trans h₀, hs⟩
  · intro i e' hi
    obtain ⟨rfl, rfl⟩ | ⟨-, hi⟩ := getElem?_set_cases hi
    · exact (hl _).mpr (h.known i e hk)
    · exact (hl _).mpr (h.known i e' hi)

theorem changeRef_ok {s : Session} {f : BitVec 32 → BitVec 32} {idx : Option Nat} (h : s.Ok)
    (hc : changeRef f s.tab idx = some tab) : Session.Ok ⟨tab, s.added⟩ := by
  match idx with
  | none =>
    cases hc
    exact h
  | some 0 =>
    cases hc
    exact h
  | some (k + 1) =>
    simp only [changeRef, Option.bind_eq_bind, Option.bind_eq_some_iff, Option.some.injEq] at hc
    obtain ⟨e, he, rfl⟩ := hc
    exact h.setRefcount he _ fun _ => Iff.rfl

/-- A string that is already in the table gets the index of its entry. -/
theorem findIdx?_string {str : CStr} (h : array.findIdx? (·.string == str) = some k) :
    ∃ e, array[k]? = some e ∧ e.string = str := by
  obtain ⟨hlt, heq, -⟩ := List.findIdx?_eq_some_iff_getElem.mp h
  exact ⟨array[k], List.getElem?_eq_getElem hlt, by simpa using heq⟩

/-- A new entry stands at the end of the array. -/
theorem Session.Ok.push {s : Session} (h : s.Ok) (str : CStr) {alloced : Nat} :
    Session.Ok ⟨{ s.tab with
        array := s.tab.array ++ [⟨str, str.chars.length + 1, 1, .index s.tab.size⟩]
        alloced := alloced }, s.added ++ [(str, s.tab.size)]⟩ := by
  have hget : ∀ (i : Nat) (e : Entry),
      (s.tab.array ++ [⟨str, str.chars.length + 1, 1, .index s.tab.size⟩])[i]? = some e →
      s.tab.array[i]? = some e ∨
        (i = s.tab.array.length ∧ e = ⟨str, str.chars.length + 1, 1, .index s.tab.size⟩) := by
    intro i e hi
    by_cases hlt : i < s.tab.array.length
    · rw [List.getElem?_append_left hlt] at hi
      exact .inl hi
    · rw [List.getElem?_append_right (by omega), List.getElem?_singleton] at hi
      split at hi
      · cases hi
        exact .inr ⟨by omega, rfl⟩
      · cases hi
  refine ⟨?_, ?_, ?_⟩
  · intro i e hi
    obtain hi | ⟨rfl, rfl⟩ := hget i e hi
    · exact h.fresh i e hi
    · exact ⟨rfl, rfl⟩
  · intro str' i hmem
    rw [List.mem_append, List.mem_singleton] at hmem
    obtain hmem | heq := hmem
    · obtain ⟨e, he, hs⟩ := h.added str' i hmem
      obtain ⟨hlt, -⟩ := List.getElem?_eq_some_iff.mp he
      exact ⟨e, by rw [List.getElem?_append_left hlt]; exact he, hs⟩
    · obtain ⟨rfl, hi⟩ := Prod.mk.inj heq
      have hi : i = s.tab.array.length := Nat.succ.inj hi
      subst hi
      exact ⟨_, List.getElem?_concat_length, rfl⟩
  · intro i e hi
    rw [List.mem_append, List.mem_singleton]
    obtain hi | ⟨rfl, rfl⟩ := hget i e hi
    · exact .inl (h.known i e hi)
    · exact .inr rfl

theorem strtabAdd_ok {s : Session} {str : CStr} {lookupOk reallocOk : Bool} {idx : Option Nat}
    (h : s.Ok) (hc : strtabAdd s.tab str lookupOk reallocOk = some (idx, tab)) :
    Session.Ok ⟨tab, s.added ++ (idx.map fun n => (str, n)).toList⟩ := by
  unfold strtabAdd at hc
  split at hc
  · -- the empty string has index 0 and no entry
    cases hc
    refine ⟨h.fresh, ?_, ?_⟩
    · intro str' k hmem
      simp only [Option.map_some, Option.toList_some, List.mem_append, List.mem_singleton,
        Prod.mk.injEq, reduceCtorEq, and_false, or_false] at hmem
      exact h.added str' k hmem
    · intro k e he
      exact List.mem_append_left _ (h.known k e he)
  · split at hc
    · next k hfind =>
      obtain ⟨e, he, rfl⟩ := findIdx?_string hfind
      have hu := (h.fresh k e he).u
      simp only [he, Option.bind_eq_bind, Option.bind_some, hu, Option.some.injEq,
        Prod.mk.injEq] at hc
      obtain ⟨rfl, rfl⟩ := hc
      apply h.setRefcount he
      intro p
      simp only [Option.map_some, Option.toList_some, List.mem_append, List.mem_singleton]
      constructor
      · rintro (hp | rfl)
        · exact hp
        · exact h.known k e he
      · exact .inl
    · split at hc
      · cases hc
        simpa using h
      · split at hc
        · cases hc
        · cases hc
          exact h.push str

theorem call_ok {s s' : Session} {c : Call} (h : s.Ok) (hc : s.call c = some s') : s'.Ok := by
  cases c with
  | add str lookupOk reallocOk =>
    simp only [Session.call, Option.bind_eq_bind, Option.bind_eq_some_iff] at hc
    obtain ⟨⟨idx, tab⟩, hadd, hc⟩ := hc
    have hok := strtabAdd_ok h hadd
    cases idx with
    | none =>
      cases hc
      simpa using hok
    | some idx =>
      cases hc
      exact hok
  | addref idx =>
    obtain ⟨tab, ht, rfl⟩ := Option.map_eq_some_iff.mp hc
    exact changeRef_ok h ht
  | delref idx =>
    obtain ⟨tab, ht, rfl⟩ := Option.map_eq_some_iff.mp hc
    exact changeRef_ok h ht

theorem run_ok {calls : List Call} {s : Session} (h : Session.run calls = some s) : s.Ok := by
  have hrun : ∀ (calls : List Call) (s s' : Session), s.Ok →
      calls.foldlM Session.call s = some s' → s'.Ok := by
    intro calls
    induction calls with
    | nil =>
      intro s s' hs hr
      cases hr
      exact hs
    | cons c calls ih =>
      intro s s' hs hr
      rw [List.foldlM_cons, Option.bind_eq_bind, Option.bind_eq_some_iff] at hr
      obtain ⟨t, ht, hr⟩ := hr
      exact ih t s' (call_ok hs ht) hr
  exact hrun calls _ s start_ok h

/-! Suffixes are merged. -/

/-- An entry whose string is written out. -/
def Kept (e : Entry) : Prop := e.len = e.string.chars.length + 1

/-- An entry whose string is written as the end of a kept one. -/
structure Shared (array : List Entry) (e : Entry) : Prop where
  len : e.len = -(e.string.chars.length + 1 : Int)
  target : ∃ j a, e.u = .suffix j ∧ array[j]? = some a ∧ a.refcount ≠ 0 ∧ Kept a ∧
    e.string.chars <:+ a.string.chars

/-- Dead, kept or shared. -/
def SettledEntry (array : List Entry) (e : Entry) : Prop :=
  (e.refcount = 0 ∧ e.len = 0) ∨ (e.refcount ≠ 0 ∧ (Kept e ∨ Shared array e))

def Settled (array : List Entry) : Prop :=
  ∀ (k : Nat) (e : Entry), array[k]? = some e → SettledEntry array e

/-- The two fields of an entry that no part of finalizing changes. -/
def Entry.key (e : Entry) : CStr × BitVec 32 := (e.string, e.refcount)

theorem isSuffix_sound (ha : Kept a) (hb : Kept b) (h : isSuffix a b = true) :
    b.string.chars <:+ a.string.chars := by
  unfold Kept at ha hb
  unfold isSuffix at h
  split at h
  · cases h
  · next hlen =>
    have h1 : (a.len - b.len).toNat = a.string.chars.length - b.string.chars.length := by omega
    have h2 : (b.len - 1).toNat = b.string.chars.length := by omega
    rw [h1, h2, beq_iff_eq, List.take_length, List.take_of_length_le] at h
    · rw [← h]
      exact List.drop_suffix _ _
    · rw [List.length_drop]
      omega

/-- The state of the loop over the sorted array: `e` is kept, the entries of `rest` still lack
their terminator and all others are settled. -/
structure MergeInv (array : List Entry) (e : Nat) (rest : List Nat) : Prop where
  nodup : rest.Nodup
  bound : ∀ k ∈ rest, k < array.length
  last : ∃ a, array[e]? = some a ∧ a.refcount ≠ 0 ∧ Kept a
  waiting : ∀ k x, k ∈ rest → array[k]? = some x →
    x.refcount ≠ 0 ∧ x.len = x.string.chars.length
  settled : ∀ k x, k ∉ rest → array[k]? = some x → SettledEntry array x

/-- The entry that the loop looks at is no target of a shared one. -/
theorem settledEntry_set {x : Entry} (hx : SettledEntry array x) (hk : array[k]? = some e)
    (he : ¬ Kept e) : SettledEntry (array.set k a) x := by
  obtain hdead | ⟨hlive, hkept | hshared⟩ := hx
  · exact .inl hdead
  · exact .inr ⟨hlive, .inl hkept⟩
  · obtain ⟨j, t, hu, ht, hr, hkt, hs⟩ := hshared.target
    refine .inr ⟨hlive, .inr ⟨hshared.len, j, t, hu, ?_, hr, hkt, hs⟩⟩
    rw [getElem?_set_other]
    · exact ht
    · rintro rfl
      rw [hk, Option.some.injEq] at ht
      exact he (ht ▸ hkt)

/-- Writing entry `i` of the rest settles it, if the new entry is settled. -/
theorem MergeInv.settle {i : Nat} {rest : List Nat} {x y : Entry}
    (h : MergeInv array k (i :: rest)) (hx : array[i]? = some x)
    (hy : SettledEntry (array.set i y) y) {e' : Nat}
    (hlast : ∃ a, (array.set i y)[e']? = some a ∧ a.refcount ≠ 0 ∧ Kept a) :
    MergeInv (array.set i y) e' rest := by
  obtain ⟨hi, hnodup⟩ := List.nodup_cons.mp h.nodup
  have hnk : ¬ Kept x := by
    have := (h.waiting i x (by simp) hx).2
    unfold Kept
    omega
  refine ⟨hnodup, ?_, hlast, ?_, ?_⟩
  · intro j hj
    rw [List.length_set]
    exact h.bound j (List.mem_cons_of_mem i hj)
  · intro j z hj hz
    have hne : j ≠ i := fun hji => hi (hji ▸ hj)
    rw [getElem?_set_other hne] at hz
    exact h.waiting j z (List.mem_cons_of_mem i hj) hz
  · intro j z hj hz
    obtain ⟨rfl, rfl⟩ | ⟨hne, hz⟩ := getElem?_set_cases hz
    · exact hy
    · have hj' : j ∉ i :: rest := by
        rw [List.mem_cons]
        rintro (hji | hjr)
        · exact hne hji
        · exact hj hjr
      exact settledEntry_set (h.settled j z hj' hz) hx hnk

/-- One round of the loop: the entry that the rest starts with is shared or kept. -/
theorem MergeInv.step {i : Nat} {rest : List Nat} (h : MergeInv array k (i :: rest)) :
    ∃ a x, array[k]? = some a ∧ array[i]? = some x ∧ Kept a ∧ Kept x.restoreLen ∧
      (isSuffix a x.restoreLen = true →
        MergeInv (array.set i (x.restoreLen.share k)) k rest) ∧
      MergeInv (array.set i x.restoreLen) i rest := by
  obtain ⟨a, ha, hla, hka⟩ := h.last
  obtain ⟨x, hx⟩ : ∃ x, array[i]? = some x :=
    ⟨_, List.getElem?_eq_getElem (h.bound i (by simp))⟩
  obtain ⟨hlx, hlen⟩ := h.waiting i x (by simp) hx
  have hkx : Kept x.restoreLen := congrArg (· + 1) hlen
  have hlive : x.restoreLen.refcount ≠ 0 := hlx
  refine ⟨a, x, ha, hx, hka, hkx, ?_, ?_⟩
  · intro hsuf
    have hki : k ≠ i := by
      rintro rfl
      rw [ha, Option.some.injEq] at hx
      unfold Kept at hka
      rw [← hx] at hlen
      omega
    -- the string is the end of the one that was kept last
    have hshared : SettledEntry (array.set i (x.restoreLen.share k)) (x.restoreLen.share k) := by
      have hend : x.restoreLen.string.chars <:+ a.string.chars := isSuffix_sound hka hkx hsuf
      refine .inr ⟨hlx, .inr ⟨?_, k, a, rfl, ?_, hla, hka, hend⟩⟩
      · exact congrArg Neg.neg hkx
      · exact (getElem?_set_other hki).trans ha
    exact h.settle hx hshared ⟨a, (getElem?_set_other hki).trans ha, hla, hka⟩
  · exact h.settle hx (.inr ⟨hlive, .inl hkx⟩) ⟨_, getElem?_set_same hx, hlive, hkx⟩

theorem mergeLoop_settled {rest : List Nat} (h : MergeInv array k rest) :
    ∃ array', mergeLoop array k rest = some array' ∧ Settled array' ∧
      array'.map Entry.key = array.map Entry.key := by
  induction rest generalizing array k with
  | nil => exact ⟨array, rfl, fun i x hx => h.settled i x (by simp) hx, rfl⟩
  | cons i rest ih =>
    obtain ⟨a, x, ha, hx, -, -, hshare, hkeep⟩ := h.step
    simp only [mergeLoop, ha, hx, Option.bind_eq_bind, Option.bind_some]
    split
    · next hsuf =>
      obtain ⟨array', hm, hs, hkey⟩ := ih (hshare hsuf)
      exact ⟨array', hm, hs, hkey.trans (map_set hx rfl)⟩
    · obtain ⟨array', hm, hs, hkey⟩ := ih hkeep
      exact ⟨array', hm, hs, hkey.trans (map_set hx rfl)⟩

/-! The sorted array holds every live entry once, in whatever order. -/

theorem mem_sortedLive : k ∈ sortedLive array ↔ ∃ e, array[k]? = some e ∧ e.refcount ≠ 0 := by
  unfold sortedLive
  rw [List.mem_mergeSort, List.mem_filter, List.mem_range]
  constructor
  · rintro ⟨hlt, hl⟩
    rw [List.getElem?_eq_getElem hlt] at hl
    exact ⟨array[k], List.getElem?_eq_getElem hlt, by simpa using hl⟩
  · rintro ⟨e, he, hl⟩
    obtain ⟨hlt, -⟩ := List.getElem?_eq_some_iff.mp he
    exact ⟨hlt, by simpa [he] using hl⟩

theorem nodup_sortedLive : (sortedLive array).Nodup := by
  unfold sortedLive
  rw [(List.mergeSort_perm _ _).nodup_iff]
  exact List.nodup_range.filter _

theorem map_adjustLen_key : (array.map adjustLen).map Entry.key = array.map Entry.key := by
  rw [List.map_map]
  rfl

/-- What the first loop of the function does to the lengths. -/
theorem adjustLen_len {x : Entry} (h : ∀ k e, array[k]? = some e → Fresh e k)
    (hx : (array.map adjustLen)[k]? = some x) :
    (x.refcount ≠ 0 → x.len = x.string.chars.length) ∧ (x.refcount = 0 → x.len = 0) := by
  rw [List.getElem?_map, Option.map_eq_some_iff] at hx
  obtain ⟨e, he, rfl⟩ := hx
  have hlen := (h k e he).len
  refine ⟨?_, ?_⟩
  · intro hl
    have hl : e.refcount ≠ 0 := hl
    simp only [adjustLen, if_pos hl]
    omega
  · intro hl
    have hl : ¬ e.refcount ≠ 0 := not_not.mpr hl
    simp only [adjustLen, if_neg hl]

/-- The loop starts with the last entry of the sorted array, unless there is none. -/
theorem mergeSuffixes_cases (h : ∀ k e, array[k]? = some e → Fresh e k) :
    (sortedLive (array.map adjustLen) = [] ∧ mergeSuffixes array = some (array.map adjustLen)) ∨
      ∃ e rest last, (sortedLive (array.map adjustLen)).reverse = e :: rest ∧
        (array.map adjustLen)[e]? = some last ∧
        mergeSuffixes array = mergeLoop ((array.map adjustLen).set e last.restoreLen) e rest ∧
        MergeInv ((array.map adjustLen).set e last.restoreLen) e rest := by
  cases hcons : (sortedLive (array.map adjustLen)).reverse with
  | nil =>
    refine .inl ⟨List.reverse_eq_nil_iff.mp hcons, ?_⟩
    simp [mergeSuffixes, hcons]
  | cons e rest =>
    have hmem : ∀ k, k ∈ e :: rest ↔
        ∃ x, (array.map adjustLen)[k]? = some x ∧ x.refcount ≠ 0 := by
      intro k
      rw [← hcons, List.mem_reverse, mem_sortedLive]
    have hnodup : (e :: rest).Nodup := by
      rw [← hcons, List.nodup_reverse]
      exact nodup_sortedLive
    obtain ⟨hne, hnodup⟩ := List.nodup_cons.mp hnodup
    obtain ⟨last, hlast, hlive⟩ := (hmem e).mp (by simp)
    have hkept : Kept last.restoreLen := congrArg (· + 1) ((adjustLen_len h hlast).1 hlive)
    have hlive' : last.restoreLen.refcount ≠ 0 := hlive
    refine .inr ⟨e, rest, last, rfl, hlast, ?_, hnodup, ?_,
      ⟨_, getElem?_set_same hlast, hlive', hkept⟩, ?_, ?_⟩
    · simp [mergeSuffixes, hcons, hlast]
    · intro k hk
      obtain ⟨x, hx, -⟩ := (hmem k).mp (List.mem_cons_of_mem e hk)
      obtain ⟨hlt, -⟩ := List.getElem?_eq_some_iff.mp hx
      rwa [List.length_set]
    · intro k x hk hx
      obtain ⟨rfl, -⟩ | ⟨-, hx⟩ := getElem?_set_cases hx
      · exact absurd hk hne
      · obtain ⟨y, hy, hl⟩ := (hmem k).mp (List.mem_cons_of_mem e hk)
        rw [hx, Option.some.injEq] at hy
        subst hy
        exact ⟨hl, (adjustLen_len h hx).1 hl⟩
    · intro k x hk hx
      obtain ⟨-, rfl⟩ | ⟨hke, hx⟩ := getElem?_set_cases hx
      · exact .inr ⟨hlive', .inl hkept⟩
      · have hdead : x.refcount = 0 := by
          by_contra hl
          rcases List.mem_cons.mp ((hmem k).mpr ⟨x, hx, hl⟩) with h1 | h1
          · exact hke h1
          · exact hk h1
        exact .inl ⟨hdead, (adjustLen_len h hx).2 hdead⟩

theorem mergeSuffixes_settled (h : ∀ k e, array[k]? = some e → Fresh e k) :
    ∃ array', mergeSuffixes array = some array' ∧ Settled array' ∧
      array'.map Entry.key = array.map Entry.key := by
  rcases mergeSuffixes_cases h with ⟨hnil, heq⟩ | ⟨e, rest, last, -, hlast, heq, hinv⟩
  · refine ⟨_, heq, ?_, map_adjustLen_key⟩
    intro k x hx
    by_cases hl : x.refcount = 0
    · exact .inl ⟨hl, (adjustLen_len h hx).2 hl⟩
    · have hmem : k ∈ sortedLive (array.map adjustLen) := mem_sortedLive.mpr ⟨x, hx, hl⟩
      rw [hnil] at hmem
      cases hmem
  · obtain ⟨array', hm, hs, hk⟩ := mergeLoop_settled hinv
    exact ⟨array', heq.trans hm, hs, (hk.trans (map_set hlast rfl)).trans map_adjustLen_key⟩

/-! Positions. -/

/-- The bytes that the loop over the kept strings reserves for an entry. -/
def Entry.room (e : Entry) : Nat := if e.keeps then e.len.toNat else 0

def Entry.placed (e : Entry) (n : Nat) : Entry := if e.keeps then { e with u := .index n } else e

theorem assignPositions_snd : (assignPositions n array).2 = n + (array.map Entry.room).sum := by
  induction array generalizing n with
  | nil => rfl
  | cons e array ih =>
    simp only [assignPositions, List.map_cons, List.sum_cons, Entry.room]
    split
    · rw [ih, Nat.add_assoc]
    · rw [ih, Nat.zero_add]

theorem assignPositions_getElem? :
    (assignPositions n array).1[k]?
      = array[k]?.map fun e => e.placed (n + ((array.take k).map Entry.room).sum) := by
  induction array generalizing n k with
  | nil => rfl
  | cons e array ih =>
    rw [assignPositions]
    split
    · next hk =>
      cases k with
      | zero => simp [Entry.placed, hk]
      | succ k => simp [ih, Entry.room, hk, Nat.add_assoc]
    · next hk =>
      cases k with
      | zero => simp [Entry.placed, hk]
      | succ k => simp [ih, Entry.room, hk]

/-- The entry as the last loop leaves it, when it reads the others in `array`. -/
def adjusted (array : List Entry) (e : Entry) : Entry :=
  if e.refcount ≠ 0 ∧ e.len < 0 then
    match e.u with
    | .index _ => e
    | .suffix j =>
      match array[j]? with
      | none => e
      | some s =>
        match s.u with
        | .suffix _ => e
        | .index n => { e with u := .index (n + (s.len + e.len).toNat) }
  else e

theorem adjusted_of_nonneg (h : 0 ≤ e.len) : adjusted array e = e := by
  unfold adjusted
  rw [if_neg]
  omega

theorem adjusted_bytes : (adjusted array e).bytes = e.bytes := by
  unfold adjusted
  split
  · split
    · rfl
    · split
      · rfl
      · split <;> rfl
  · rfl

theorem adjusted_refcount : (adjusted array e).refcount = e.refcount := by
  unfold adjusted
  split
  · split
    · rfl
    · split
      · rfl
      · split <;> rfl
  · rfl

theorem placed_bytes : (e.placed n).bytes = e.bytes := by
  unfold Entry.placed
  split <;> rfl

theorem placed_refcount : (e.placed n).refcount = e.refcount := by
  unfold Entry.placed
  split <;> rfl

theorem placed_len : (e.placed n).len = e.len := by
  unfold Entry.placed
  split <;> rfl

/-- Entries with a negative length hang off an entry that has its position. -/
def Hangs (array : List Entry) : Prop :=
  ∀ (k : Nat) (e : Entry), array[k]? = some e → e.refcount ≠ 0 → e.len < 0 →
    ∃ j s n, e.u = .suffix j ∧ array[j]? = some s ∧ 0 ≤ s.len ∧ s.u = .index n

theorem adjustOne_eq (h : Hangs array) (hk : array[k]? = some e)
    (hget : ∀ i, array'[i]? = array[i]?.map fun e => if i < k then adjusted array e else e) :
    adjustOne array' k = some (array'.set k (adjusted array e)) := by
  have hk' : array'[k]? = some e := by
    rw [hget, hk]
    simp
  unfold adjustOne
  simp only [hk', Option.bind_eq_bind, Option.bind_some]
  split
  · next hneg =>
    obtain ⟨j, t, n, hu, hj, hlen, ht⟩ := h k e hk hneg.1 hneg.2
    have hj' : array'[j]? = some t := by
      rw [hget, hj, Option.map_some, adjusted_of_nonneg hlen, ite_self]
    have hadj : adjusted array e = { e with u := .index (n + (t.len + e.len).toNat) } := by
      simp only [adjusted, if_pos hneg, hu, hj, ht]
    simp [hu, hj', ht, hadj]
  · next hpos =>
    have hadj : adjusted array e = e := if_neg hpos
    rw [hadj]
    congr 1
    obtain ⟨hlt, rfl⟩ := List.getElem?_eq_some_iff.mp hk'
    simp

/-- The last loop adjusts every entry against the positions that were there before it. -/
theorem adjustRest_eq (h : Hangs array) :
    ∃ array', adjustRest array = some array' ∧
      ∀ i : Nat, array'[i]? = array[i]?.map (adjusted array) := by
  have hloop : ∀ n ≤ array.length, ∃ array', (List.range n).foldlM adjustOne array = some array' ∧
      ∀ i, array'[i]? = array[i]?.map fun e => if i < n then adjusted array e else e := by
    intro n
    induction n with
    | zero =>
      intro _
      exact ⟨array, rfl, fun i => by simp⟩
    | succ n ih =>
      intro hn
      obtain ⟨array', hrun, hget⟩ := ih (by omega)
      have hn' : array[n]? = some (array.get ⟨n, hn⟩) := List.getElem?_eq_getElem hn
      refine ⟨array'.set n (adjusted array (array.get ⟨n, hn⟩)), ?_, ?_⟩
      · rw [List.range_succ, List.foldlM_append, hrun]
        simp only [List.foldlM_cons, List.foldlM_nil, Option.bind_eq_bind, Option.bind_some,
          adjustOne_eq h hn' hget]
        rfl
      · intro i
        by_cases hi : i = n
        · subst hi
          have hsome : array'[i]? = some (array.get ⟨i, hn⟩) := by
            rw [hget, hn']
            simp
          rw [getElem?_set_same hsome, hn']
          simp
        · rw [getElem?_set_other hi, hget]
          have : i < n + 1 ↔ i < n := by omega
          simp only [this]
  obtain ⟨array', hrun, hget⟩ := hloop array.length (Nat.le_refl _)
  refine ⟨array', hrun, ?_⟩
  intro i
  rw [hget]
  cases hi : array[i]? with
  | none => rfl
  | some e =>
    obtain ⟨hlt, -⟩ := List.getElem?_eq_some_iff.mp hi
    simp [hlt]

/-! The finalized table. -/

theorem bytes_kept (h : Kept e) : e.bytes = e.string.chars ++ [0] := by
  unfold Kept at h
  unfold Entry.bytes
  rw [if_neg (by omega), List.take_of_length_le]
  simp
  omega

theorem bytes_dead (h : e.len = 0) : e.bytes = [] := by
  simp [Entry.bytes, h]

theorem bytes_shared (h : e.len < 0) : e.bytes = [] := by
  simp [Entry.bytes, h]

theorem keeps_kept (hl : e.refcount ≠ 0) (h : Kept e) : e.keeps = true := by
  unfold Kept at h
  unfold Entry.keeps
  simp only [Bool.and_eq_true, bne_iff_ne, decide_eq_true_eq]
  exact ⟨hl, by omega⟩

theorem room_kept (hl : e.refcount ≠ 0) (h : Kept e) : e.room = e.bytes.length := by
  rw [Entry.room, if_pos (keeps_kept hl h), bytes_kept h, List.length_append,
    List.length_singleton]
  unfold Kept at h
  omega

/-- A settled entry takes as much room as it has bytes. -/
theorem room_settled (h : SettledEntry array e) : e.room = e.bytes.length := by
  obtain ⟨-, hlen⟩ | ⟨hl, hk | hs⟩ := h
  · rw [bytes_dead hlen]
    simp [Entry.room, Entry.keeps, hlen]
  · exact room_kept hl hk
  · have hlen : e.len < 0 := by
      rw [hs.len]
      omega
    rw [bytes_shared hlen, Entry.room, if_neg]
    · rfl
    · simp only [Entry.keeps, Bool.and_eq_true, decide_eq_true_eq]
      omega

theorem sum_room_settled {l : List Entry} (h : ∀ e ∈ l, SettledEntry array e) :
    (l.map Entry.room).sum = (l.map fun e => e.bytes.length).sum := by
  congr 1
  exact List.map_congr_left fun e he => room_settled (h e he)

theorem Settled.mem (h : Settled array) (he : e ∈ array) : SettledEntry array e := by
  obtain ⟨k, hk⟩ := List.mem_iff_getElem?.mp he
  exact h k e hk

/-- The finalized array: positions are assigned, then the suffixes adjusted. -/
structure Finalized (array final : List Entry) : Prop where
  get : ∀ k : Nat, final[k]? = array[k]?.map fun e =>
    adjusted (assignPositions 1 array).1 (e.placed (1 + ((array.take k).map Entry.room).sum))

theorem Finalized.bytes {final : List Entry} (h : Finalized array final) :
    final.flatMap Entry.bytes = array.flatMap Entry.bytes := by
  rw [List.flatMap_def, List.flatMap_def]
  congr 1
  apply List.ext_getElem?
  intro k
  rw [List.getElem?_map, List.getElem?_map, h.get, Option.map_map]
  congr 1
  funext e
  simp only [Function.comp_apply, adjusted_bytes, placed_bytes]

theorem finalize_array (h : Hangs (assignPositions 1 array).1) :
    ∃ final, adjustRest (assignPositions 1 array).1 = some final ∧ Finalized array final := by
  obtain ⟨final, hrun, hget⟩ := adjustRest_eq h
  refine ⟨final, hrun, ⟨?_⟩⟩
  intro k
  rw [hget, assignPositions_getElem?, Option.map_map]
  rfl

theorem hangs_settled (h : Settled array) : Hangs (assignPositions 1 array).1 := by
  intro k e he hlive hneg
  rw [assignPositions_getElem?, Option.map_eq_some_iff] at he
  obtain ⟨e₀, he₀, rfl⟩ := he
  rw [placed_refcount] at hlive
  rw [placed_len] at hneg
  obtain ⟨hd, -⟩ | ⟨-, hk | hs⟩ := h k e₀ he₀
  · exact absurd hd hlive
  · unfold Kept at hk
    omega
  · obtain ⟨j, a, hu, ha, hla, hka, -⟩ := hs.target
    have hnk : e₀.keeps = false := by
      simp only [Entry.keeps, Bool.and_eq_false_iff, decide_eq_false_iff_not]
      exact .inr (by omega)
    let pos := 1 + ((array.take j).map Entry.room).sum
    refine ⟨j, a.placed pos, pos, ?_, ?_, ?_, ?_⟩
    · rw [Entry.placed, if_neg (by simp [hnk])]
      exact hu
    · rw [assignPositions_getElem?, ha]
      rfl
    · rw [placed_len]
      unfold Kept at hka
      omega
    · rw [Entry.placed, if_pos (keeps_kept hla hka)]

/-- A kept entry stands at its position. -/
theorem standsAt_kept (h : Settled array) (hk : array[k]? = some e) (hl : e.refcount ≠ 0)
    (hkept : Kept e) :
    StandsAt ([0] ++ array.flatMap Entry.bytes) (1 + ((array.take k).map Entry.room).sum)
      (e.string.chars ++ [0]) := by
  obtain ⟨hlt, rfl⟩ := List.getElem?_eq_some_iff.mp hk
  have hsplit : array.take k ++ array[k] :: array.drop (k + 1) = array := by simp
  have hstands := standsAt_flatMap Entry.bytes (array.take k) (array.drop (k + 1)) array[k]
  rw [hsplit, bytes_kept hkept] at hstands
  rw [sum_room_settled fun e he => h.mem (List.mem_of_mem_take he)]
  exact hstands.append_left [0]

/-- Every live entry of a settled array gets the offset of its bytes. -/
theorem standsAt_final {final : List Entry} (h : Settled array) (hf : Finalized array final)
    (hk : array[k]? = some e) (hl : e.refcount ≠ 0) :
    ∃ e' off, final[k]? = some e' ∧ e'.u = .index off ∧
      StandsAt ([0] ++ final.flatMap Entry.bytes) off (e.string.chars ++ [0]) := by
  rw [hf.bytes]
  have hget := hf.get k
  rw [hk, Option.map_some] at hget
  obtain ⟨hd, -⟩ | ⟨-, hkept | hs⟩ := h k e hk
  · exact absurd hd hl
  · have hu : e.placed (1 + ((array.take k).map Entry.room).sum)
        = { e with u := .index (1 + ((array.take k).map Entry.room).sum) } :=
      if_pos (keeps_kept hl hkept)
    rw [adjusted_of_nonneg (by rw [placed_len]; unfold Kept at hkept; omega), hu] at hget
    exact ⟨_, _, hget, rfl, standsAt_kept h hk hl hkept⟩
  · obtain ⟨j, a, hu, ha, hla, hka, hsuf⟩ := hs.target
    have hlen := hs.len
    have hnk : e.keeps = false := by
      simp only [Entry.keeps, Bool.and_eq_false_iff, decide_eq_false_iff_not]
      exact .inr (by omega)
    have hpe : e.placed (1 + ((array.take k).map Entry.room).sum) = e :=
      if_neg (by simp [hnk])
    have hpa : (assignPositions 1 array).1[j]?
        = some { a with u := .index (1 + ((array.take j).map Entry.room).sum) } := by
      rw [assignPositions_getElem?, ha, Option.map_some, Entry.placed,
        if_pos (keeps_kept hla hka)]
    have hneg : e.refcount ≠ 0 ∧ e.len < 0 := ⟨hl, by omega⟩
    have hadj : adjusted (assignPositions 1 array).1 e = { e with
        u := .index (1 + ((array.take j).map Entry.room).sum + (a.len + e.len).toNat) } := by
      simp only [adjusted, if_pos hneg, hu, hpa]
    rw [hpe, hadj] at hget
    refine ⟨_, _, hget, rfl, ?_⟩
    -- the string ends where the kept one ends
    have hend : e.string.chars ++ [0] <:+ a.string.chars ++ [0] := by
      obtain ⟨p, hp⟩ := hsuf
      exact ⟨p, by rw [← List.append_assoc, hp]⟩
    have hdist : (a.len + e.len).toNat
        = (a.string.chars ++ [0]).length - (e.string.chars ++ [0]).length := by
      unfold Kept at hka
      simp only [List.length_append, List.length_singleton]
      omega
    rw [hdist]
    exact (standsAt_kept h ha hla hka).suffix hend

/-- Every live index has its string at its offset, and the size is that of the output. -/
def GivesBytes (added : List (CStr × Nat)) (tab : Tab) : Prop :=
  (∀ idx, strtabRefcount tab idx ≠ 0 →
    ∃ off tab', strtabOffset tab idx = some (off, tab') ∧ (∃ str, (str, idx) ∈ added) ∧
      ∀ str, (str, idx) ∈ added → StandsAt (strtabEmit tab) off (str.chars ++ [0])) ∧
  (strtabEmit tab).length = strtabSize tab

theorem length_emit {final : List Entry} (hf : Finalized array final) :
    ([0] ++ final.flatMap Entry.bytes : List BfdByte).length
      = 1 + (array.map fun e => e.bytes.length).sum := by
  rw [hf.bytes, List.length_append, List.length_singleton, List.length_flatMap]

theorem strtabSize_final {final : List Entry} :
    strtabSize { tab with array := final, secSize := (assignPositions 1 array).2 }
      = 1 + (array.map Entry.room).sum := by
  have hpos : (assignPositions 1 array).2 ≠ 0 := by
    rw [assignPositions_snd]
    omega
  exact (if_pos hpos).trans assignPositions_snd

theorem strtabOffset_index (tab : Tab) (h : tab.array[k]? = some e) (hu : e.u = .index n) :
    ∃ tab', strtabOffset tab (k + 1) = some (n, tab') := by
  simp [strtabOffset, h, hu]

/-- A settled array with the strings of the session gives them their bytes. -/
theorem givesBytes_settled {s : Session} {final : List Entry} (hs : s.Ok) (h : Settled array)
    (hkey : array.map Entry.key = s.tab.array.map Entry.key) (hf : Finalized array final) :
    GivesBytes s.added { s.tab with array := final, secSize := (assignPositions 1 array).2 } := by
  refine ⟨?_, ?_⟩
  · intro idx hlive
    cases idx with
    | zero => exact absurd rfl hlive
    | succ k =>
      -- the entry at this index, in the final array, the settled one and that of the session
      cases hfk : final[k]? with
      | none => simp [strtabRefcount, hfk] at hlive
      | some e' =>
        have hget := hf.get k
        rw [hfk] at hget
        obtain ⟨e, he, rfl⟩ := Option.map_eq_some_iff.mp hget.symm
        have hl : e.refcount ≠ 0 := by
          simpa [strtabRefcount, hfk, adjusted_refcount, placed_refcount] using hlive
        have hek : (s.tab.array.map Entry.key)[k]? = some e.key := by
          rw [← hkey, List.getElem?_map, he]
          rfl
        rw [List.getElem?_map, Option.map_eq_some_iff] at hek
        obtain ⟨e₀, he₀, hk₀⟩ := hek
        have hstr : e₀.string = e.string := congrArg Prod.fst hk₀
        obtain ⟨e', off, he', hu, hstands⟩ := standsAt_final h hf he hl
        obtain ⟨tab', htab'⟩ := strtabOffset_index
          { s.tab with array := final, secSize := (assignPositions 1 array).2 } he' hu
        refine ⟨off, tab', htab', ⟨e₀.string, hs.known k e₀ he₀⟩, ?_⟩
        intro str hadd
        obtain ⟨e₁, he₁, rfl⟩ := hs.added str k hadd
        rw [he₀, Option.some.injEq] at he₁
        rw [← he₁, hstr]
        exact hstands
  · rw [strtabSize_final]
    unfold strtabEmit
    rw [length_emit hf, sum_room_settled fun e he => h.mem he]

/-- Before the suffixes are merged every entry is as long as its string. -/
theorem Session.Ok.kept {s : Session} (h : s.Ok) (he : e ∈ s.tab.array) : Kept e := by
  obtain ⟨k, hk⟩ := List.mem_iff_getElem?.mp he
  exact (h.fresh k e hk).len

theorem Session.Ok.hangs {s : Session} (h : s.Ok) : Hangs (assignPositions 1 s.tab.array).1 := by
  intro k e he _ hneg
  rw [assignPositions_getElem?, Option.map_eq_some_iff] at he
  obtain ⟨e₀, he₀, rfl⟩ := he
  have hlen := (h.fresh k e₀ he₀).len
  rw [placed_len] at hneg
  omega

/-- Without the array to sort, a dead string is written but gets no room. -/
theorem not_givesBytes_dead {s : Session} {final : List Entry} (hs : s.Ok)
    (hf : Finalized s.tab.array final) (hdead : ∃ e ∈ s.tab.array, e.refcount = 0) :
    ¬ GivesBytes s.added
      { s.tab with array := final, secSize := (assignPositions 1 s.tab.array).2 } := by
  rintro ⟨-, hsize⟩
  rw [strtabSize_final] at hsize
  unfold strtabEmit at hsize
  rw [length_emit hf] at hsize
  have hlt : (s.tab.array.map Entry.room).sum
      < (s.tab.array.map fun e => e.bytes.length).sum := by
    apply List.sum_lt_sum
    · intro e he
      by_cases hl : e.refcount = 0
      · simp [Entry.room, Entry.keeps, hl]
      · exact (room_kept hl (hs.kept he)).le
    · obtain ⟨e, he, hd⟩ := hdead
      refine ⟨e, he, ?_⟩
      rw [bytes_kept (hs.kept he)]
      simp [Entry.room, Entry.keeps, hd]
  omega

/-- The table gives every live string its bytes unless the array to sort cannot be allocated
while some string is dead. -/
theorem strtab_givesBytes_iff (calls : List Call) (s : Session) (mallocOk : Bool)
    (hrun : Session.run calls = some s) :
    (∃ tab, strtabFinalize mallocOk s.tab = some tab ∧ GivesBytes s.added tab) ↔
      mallocOk = true ∨ ∀ e ∈ s.tab.array, e.refcount ≠ 0 := by
  have hs := run_ok hrun
  cases mallocOk with
  | true =>
    obtain ⟨array, hm, hset, hkey⟩ := mergeSuffixes_settled hs.fresh
    obtain ⟨final, hfin, hf⟩ := finalize_array (hangs_settled hset)
    refine ⟨fun _ => .inl rfl, fun _ => ⟨_, ?_, givesBytes_settled hs hset hkey hf⟩⟩
    simp [strtabFinalize, hm, hfin]
  | false =>
    obtain ⟨final, hfin, hf⟩ := finalize_array hs.hangs
    have htab : strtabFinalize false s.tab = some
        { s.tab with array := final, secSize := (assignPositions 1 s.tab.array).2 } := by
      simp [strtabFinalize, hfin]
    constructor
    · rintro ⟨tab, htab', hgives⟩
      rw [htab, Option.some.injEq] at htab'
      subst htab'
      refine .inr fun e he hd => ?_
      exact not_givesBytes_dead hs hf ⟨e, he, hd⟩ hgives
    · rintro (hfalse | hlive)
      · cases hfalse
      · have hset : Settled s.tab.array := by
          intro k e hk
          have he := List.mem_iff_getElem?.mpr ⟨k, hk⟩
          exact .inr ⟨hlive e he, .inl (hs.kept he)⟩
        exact ⟨_, htab, givesBytes_settled hs hset rfl hf⟩

def strFoobar : CStr := ⟨[102, 111, 111, 98, 97, 114], by decide, by decide⟩

def strBar : CStr := ⟨[98, 97, 114], by decide, by decide⟩

/-- Two references to `foobar`, one to its suffix `bar`, and one reference less to each. -/
def barCalls : List Call :=
  [.add strBar true true, .add strFoobar true true, .addref (some 2), .delref (some 2),
    .delref (some 1)]

def barSession : Session where
  tab := ⟨[⟨strBar, 4, 0, .index 1⟩, ⟨strFoobar, 7, 1, .index 2⟩], 64, 0⟩
  added := [(strBar, 1), (strFoobar, 2)]

theorem barSession_run : Session.run barCalls = some barSession := by
  rfl

theorem barSession_givesBytes :
    ∃ tab, strtabFinalize true barSession.tab = some tab ∧ GivesBytes barSession.added tab :=
  (strtab_givesBytes_iff barCalls barSession true barSession_run).mpr (.inl rfl)

/-- Without the array to sort, `bar` is written before `foobar`, which moves it. -/
theorem barSession_out_of_memory :
    ¬ ∃ tab, strtabFinalize false barSession.tab = some tab ∧ GivesBytes barSession.added tab := by
  have hs := run_ok barSession_run
  obtain ⟨final, hfin, hf⟩ := finalize_array hs.hangs
  rintro ⟨tab, htab, hgives⟩
  have htab' : strtabFinalize false barSession.tab = some { barSession.tab with
      array := final, secSize := (assignPositions 1 barSession.tab.array).2 } := by
    simp [strtabFinalize, hfin]
  rw [htab', Option.some.injEq] at htab
  subst htab
  exact not_givesBytes_dead hs hf ⟨_, List.mem_cons_self, rfl⟩ hgives

end FusionBinutils.Bfd.Strtab
