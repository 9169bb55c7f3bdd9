import FusionBinutils.Bfd.StrtabBytes

/-! No string that a finalized string table writes is the end of another one. -/
namespace FusionBinutils.Bfd.Strtab

open Cells

variable {array array' : List Entry} {a b : Entry} {k : Nat} {x y z : List BfdByte}

/-! The order of the sorted array: by the reversed strings. -/

theorem revcmp_nil_left : revcmp [] y ≤ 0 := by
  simp [revcmp]

theorem not_revcmp_nil {c : BfdByte} : ¬ revcmp (c :: x) [] ≤ 0 := by
  simp only [revcmp, List.length_cons, List.length_nil]
  omega

/-- The first characters decide, unless they are the same. -/
theorem revcmp_cons {c d : BfdByte} :
    revcmp (c :: x) (d :: y) ≤ 0 ↔ c.toNat < d.toNat ∨ (c = d ∧ revcmp x y ≤ 0) := by
  rw [revcmp]
  split
  · next hne =>
    have hnat : c.toNat ≠ d.toNat := fun he => hne (BitVec.eq_of_toNat_eq he)
    simp only [hne, false_and, or_false]
    omega
  · next heq =>
    have heq : c = d := not_not.mp heq
    simp [heq]

theorem revcmp_total (x y : List BfdByte) : revcmp x y ≤ 0 ∨ revcmp y x ≤ 0 := by
  induction x generalizing y with
  | nil => exact .inl revcmp_nil_left
  | cons c x ih =>
    cases y with
    | nil => exact .inr revcmp_nil_left
    | cons d y =>
      rw [revcmp_cons, revcmp_cons]
      rcases Nat.lt_trichotomy c.toNat d.toNat with hlt | heq | hgt
      · exact .inl (.inl hlt)
      · have heq : c = d := BitVec.eq_of_toNat_eq heq
        rcases ih y with h | h
        · exact .inl (.inr ⟨heq, h⟩)
        · exact .inr (.inr ⟨heq.symm, h⟩)
      · exact .inr (.inl hgt)

theorem revcmp_trans (hxy : revcmp x y ≤ 0) (hyz : revcmp y z ≤ 0) : revcmp x z ≤ 0 := by
  induction x generalizing y z with
  | nil => exact revcmp_nil_left
  | cons c x ih =>
    cases y with
    | nil => exact absurd hxy not_revcmp_nil
    | cons d y =>
      cases z with
      | nil => exact absurd hyz not_revcmp_nil
      | cons f z =>
        rw [revcmp_cons] at hxy hyz ⊢
        rcases hxy with hcd | ⟨rfl, hxy⟩
        · rcases hyz with hdf | ⟨rfl, -⟩
          · exact .inl (hcd.trans hdf)
          · exact .inl hcd
        · rcases hyz with hdf | ⟨rfl, hyz⟩
          · exact .inl hdf
          · exact .inr ⟨rfl, ih hxy hyz⟩

/-- Everything between a string and one that it begins begins with it. -/
theorem prefix_of_between (h : x <+: z) (hxy : revcmp x y ≤ 0) (hyz : revcmp y z ≤ 0) :
    x <+: y := by
  induction x generalizing y z with
  | nil => exact List.nil_prefix
  | cons c x ih =>
    cases y with
    | nil => exact absurd hxy not_revcmp_nil
    | cons d y =>
      cases z with
      | nil => exact absurd hyz not_revcmp_nil
      | cons f z =>
        obtain ⟨hcf, hxz⟩ := List.cons_prefix_cons.mp h
        subst hcf
        rw [revcmp_cons] at hxy hyz
        rcases hxy with hcd | ⟨rfl, hxy⟩
        · rcases hyz with hdc | ⟨rfl, -⟩ <;> omega
        · rcases hyz with hdc | ⟨-, hyz⟩
          · omega
          · exact List.cons_prefix_cons.mpr ⟨rfl, ih hxz hxy hyz⟩

theorem revcmp_antisymm (hxy : revcmp x y ≤ 0) (hyx : revcmp y x ≤ 0) : x = y := by
  induction x generalizing y with
  | nil =>
    cases y with
    | nil => rfl
    | cons d y => exact absurd hyx not_revcmp_nil
  | cons c x ih =>
    cases y with
    | nil => exact absurd hxy not_revcmp_nil
    | cons d y =>
      rw [revcmp_cons] at hxy hyx
      rcases hxy with hcd | ⟨rfl, hxy⟩
      · rcases hyx with hdc | ⟨rfl, -⟩ <;> omega
      · rcases hyx with hdc | ⟨-, hyx⟩
        · omega
        · rw [ih hxy hyx]

theorem revcmp_nonpos (h : x <+: y) : revcmp x y ≤ 0 := by
  induction x generalizing y with
  | nil => exact revcmp_nil_left
  | cons c x ih =>
    obtain ⟨t, rfl⟩ := h
    exact revcmp_cons.mpr (.inr ⟨rfl, ih (List.prefix_append x t)⟩)

/-- The characters of an entry from the end. -/
def Entry.rev (e : Entry) : List BfdByte := e.string.chars.reverse

/-- The live entries stand in the sorted array in the order of their reversed strings. -/
theorem pairwise_sortedLive
    (hlen : ∀ (k : Nat) (e : Entry), array[k]? = some e → e.refcount ≠ 0 →
      e.len = e.string.chars.length) :
    (sortedLive array).Pairwise fun i j => ∀ a b, array[i]? = some a → array[j]? = some b →
      revcmp a.rev b.rev ≤ 0 := by
  let rev (k : Nat) : List BfdByte := (array[k]?.map Entry.rev).getD []
  let le (i j : Nat) : Bool := decide (revcmp (rev i) (rev j) ≤ 0)
  have hrev : ∀ (k : Nat) (e : Entry), array[k]? = some e → rev k = e.rev := by
    intro k e he
    simp [rev, he]
  -- on the live entries the comparison is one of all positions
  have heq : sortedLive array
      = ((List.range array.length).filter fun k =>
          (array[k]?.map fun e => e.refcount != 0).getD false).mergeSort le := by
    have hlive : ∀ k ∈ (List.range array.length).filter fun k =>
        (array[k]?.map fun e => e.refcount != 0).getD false,
        ∃ e, array[k]? = some e ∧ e.refcount ≠ 0 := by
      intro k hk
      obtain ⟨hlt, hl⟩ := List.mem_filter.mp hk
      rw [List.mem_range] at hlt
      refine ⟨array[k], List.getElem?_eq_getElem hlt, ?_⟩
      simpa [List.getElem?_eq_getElem hlt] using hl
    refine (List.map_id _).symm.trans ?_
    refine (List.map_mergeSort ?_).trans (congrArg (List.mergeSort · le) (List.map_id _))
    intro i hi j hj
    obtain ⟨a, ha, hla⟩ := hlive i hi
    obtain ⟨b, hb, hlb⟩ := hlive j hj
    simp [le, hrev i a ha, hrev j b hb, ha, hb, strrevcmp, hlen i a ha hla, hlen j b hb hlb,
      Entry.rev]
  rw [heq]
  have hsorted := @List.pairwise_mergeSort _ le
    (fun i j k hij hjk => by
      simp only [le, decide_eq_true_eq] at *
      exact revcmp_trans hij hjk)
    (fun i j => by
      simp only [le, Bool.or_eq_true, decide_eq_true_eq]
      exact revcmp_total _ _)
    ((List.range array.length).filter fun k =>
      (array[k]?.map fun e => e.refcount != 0).getD false)
  refine hsorted.imp ?_
  intro i j hle a b ha hb
  rw [← hrev i a ha, ← hrev j b hb]
  exact of_decide_eq_true hle

/-! No string is in the array twice. -/

def strings (array : List Entry) : List CStr := array.map Entry.string

theorem strings_setRefcount {e : Entry} {r : BitVec 32} (h : array[k]? = some e) :
    strings (array.set k (e.setRefcount r)) = strings array :=
  map_set h rfl

theorem changeRef_strings {f : BitVec 32 → BitVec 32} {tab tab' : Tab} {idx : Option Nat}
    (h : changeRef f tab idx = some tab') : strings tab'.array = strings tab.array := by
  match idx with
  | none =>
    cases h
    rfl
  | some 0 =>
    cases h
    rfl
  | some (k + 1) =>
    simp only [changeRef, Option.bind_eq_bind, Option.bind_eq_some_iff, Option.some.injEq] at h
    obtain ⟨e, he, rfl⟩ := h
    exact strings_setRefcount he

theorem strtabAdd_nodup {tab tab' : Tab} {str : CStr} {lookupOk reallocOk : Bool}
    {idx : Option Nat} (hs : (strings tab.array).Nodup)
    (h : strtabAdd tab str lookupOk reallocOk = some (idx, tab')) :
    (strings tab'.array).Nodup := by
  unfold strtabAdd at h
  split at h
  · cases h
    exact hs
  · split at h
    · next k hfind =>
      obtain ⟨e, he, rfl⟩ := findIdx?_string hfind
      simp only [he, Option.bind_eq_bind, Option.bind_some] at h
      split at h
      · cases h
        simpa only [strings_setRefcount he] using hs
      · cases h
    · next hfind =>
      split at h
      · cases h
        exact hs
      · split at h
        · cases h
        · cases h
          rw [strings, List.map_append, List.nodup_append]
          refine ⟨hs, List.nodup_singleton _, ?_⟩
          intro x hx y hy hxy
          obtain ⟨e, he, rfl⟩ := List.mem_map.mp hx
          rw [List.map_singleton, List.mem_singleton] at hy
          have hnone := List.findIdx?_eq_none_iff.mp hfind e he
          exact beq_eq_false_iff_ne.mp hnone (hxy.trans hy)

theorem call_nodup {s s' : Session} {c : Call} (hs : (strings s.tab.array).Nodup)
    (h : s.call c = some s') : (strings s'.tab.array).Nodup := by
  cases c with
  | add str lookupOk reallocOk =>
    simp only [Session.call, Option.bind_eq_bind, Option.bind_eq_some_iff] at h
    obtain ⟨⟨idx, tab⟩, hadd, h⟩ := h
    have hnodup := strtabAdd_nodup hs hadd
    cases idx with
    | none =>
      cases h
      exact hnodup
    | some idx =>
      cases h
      exact hnodup
  | addref idx =>
    obtain ⟨tab, ht, rfl⟩ := Option.map_eq_some_iff.mp h
    exact (changeRef_strings ht).symm ▸ hs
  | delref idx =>
    obtain ⟨tab, ht, rfl⟩ := Option.map_eq_some_iff.mp h
    exact (changeRef_strings ht).symm ▸ hs

theorem run_nodup {calls : List Call} {s : Session} (h : Session.run calls = some s) :
    (strings s.tab.array).Nodup := by
  have hrun : ∀ (calls : List Call) (s s' : Session), (strings s.tab.array).Nodup →
      calls.foldlM Session.call s = some s' → (strings s'.tab.array).Nodup := by
    intro calls
    induction calls with
    | nil =>
      intro s s' hs hr
      cases hr
      exact hs
    | cons c calls ih =>
      intro s s' hs hr
      rw [List.foldlM_cons, Option.bind_eq_bind, Option.bind_eq_some_iff] at hr
      obtain ⟨t, ht, hr⟩ := hr
      exact ih t s' (call_nodup hs ht) hr
  exact hrun calls .start s List.nodup_nil h

/-! The loop over the sorted array. -/

theorem isSuffix_complete (ha : Kept a) (hb : Kept b) (h : b.string.chars <:+ a.string.chars)
    (hne : b.string.chars ≠ a.string.chars) : isSuffix a b = true := by
  unfold Kept at ha hb
  obtain ⟨t, ht⟩ := h
  have hlen : a.string.chars.length = t.length + b.string.chars.length := by
    rw [← ht, List.length_append]
  have ht0 : 0 < t.length := by
    apply List.length_pos_of_ne_nil
    rintro rfl
    exact hne ht
  have h1 : (a.len - b.len).toNat = t.length := by omega
  have h2 : (b.len - 1).toNat = b.string.chars.length := by omega
  rw [isSuffix, if_neg (by omega), h1, h2, ← ht, List.drop_left]
  exact beq_self_eq_true _

/-- The state of the loop: what it has kept stands apart, and above the entries of the rest. The
characters of an entry are given by its position, since the loop changes none. -/
structure Apart (text : Nat → List BfdByte) (array : List Entry) (e : Nat) (rest : List Nat) :
    Prop where
  rev : ∀ i a, array[i]? = some a → a.rev = text i
  sorted : rest.Pairwise fun i j => revcmp (text j) (text i) ≤ 0
  below : ∀ i ∈ rest, revcmp (text i) (text e) ≤ 0
  above : ∀ i a, array[i]? = some a → Kept a → revcmp (text e) (text i) ≤ 0
  apart : ∀ i j a b, i ≠ j → array[i]? = some a → array[j]? = some b → Kept a → Kept b →
    ¬ text i <+: text j

variable {text : Nat → List BfdByte} {e i : Nat} {rest : List Nat}

/-- The entry that the rest starts with is shared. -/
theorem Apart.share (h : Apart text array e (i :: rest)) (hx : array[i]? = some a)
    (hka : Kept a.restoreLen) : Apart text (array.set i (a.restoreLen.share e)) e rest := by
  have hnk : ¬ Kept (a.restoreLen.share e) := by
    have hlen : a.restoreLen.len = a.string.chars.length + 1 := hka
    intro hk
    have hneg : -a.restoreLen.len = (a.string.chars.length : Int) + 1 := hk
    omega
  refine ⟨?_, (List.pairwise_cons.mp h.sorted).2, ?_, ?_, ?_⟩
  · intro j b hb
    rcases getElem?_set_cases hb with ⟨rfl, rfl⟩ | ⟨-, hb⟩
    · exact h.rev j a hx
    · exact h.rev j b hb
  · intro j hj
    exact h.below j (List.mem_cons_of_mem i hj)
  · intro j b hb hkb
    rcases getElem?_set_cases hb with ⟨rfl, rfl⟩ | ⟨-, hb⟩
    · exact absurd hkb hnk
    · exact h.above j b hb hkb
  · intro j l b c hjl hb hc hkb hkc
    rcases getElem?_set_cases hb with ⟨rfl, rfl⟩ | ⟨-, hb⟩
    · exact absurd hkb hnk
    · rcases getElem?_set_cases hc with ⟨rfl, rfl⟩ | ⟨-, hc⟩
      · exact absurd hkc hnk
      · exact h.apart j l b c hjl hb hc hkb hkc

/-- The entry that the rest starts with is kept: it is no end of the last one that was, so it is
no end of any. -/
theorem Apart.keep (h : Apart text array e (i :: rest)) (hx : array[i]? = some a)
    (hne : text i ≠ text e) (hnp : ¬ text i <+: text e) :
    Apart text (array.set i a.restoreLen) i rest := by
  obtain ⟨hunder, hsorted⟩ := List.pairwise_cons.mp h.sorted
  have hie : revcmp (text i) (text e) ≤ 0 := h.below i (by simp)
  -- nothing that is kept begins with the reversed string, or is a beginning of it
  have hnew : ∀ j b, array[j]? = some b → Kept b → ¬ text i <+: text j ∧ ¬ text j <+: text i := by
    intro j b hb hkb
    have hej := h.above j b hb hkb
    refine ⟨?_, ?_⟩
    · intro hij
      exact hnp (prefix_of_between hij hie hej)
    · intro hji
      exact hne (revcmp_antisymm hie (revcmp_trans hej (revcmp_nonpos hji)))
  refine ⟨?_, hsorted, hunder, ?_, ?_⟩
  · intro j b hb
    rcases getElem?_set_cases hb with ⟨rfl, rfl⟩ | ⟨-, hb⟩
    · exact h.rev j a hx
    · exact h.rev j b hb
  · intro j b hb hkb
    rcases getElem?_set_cases hb with ⟨rfl, rfl⟩ | ⟨-, hb⟩
    · exact revcmp_nonpos (List.prefix_refl _)
    · exact revcmp_trans hie (h.above j b hb hkb)
  · intro j l b c hjl hb hc hkb hkc
    rcases getElem?_set_cases hb with ⟨rfl, rfl⟩ | ⟨-, hbj⟩
    · rcases getElem?_set_cases hc with ⟨rfl, -⟩ | ⟨-, hcl⟩
      · exact absurd rfl hjl
      · exact (hnew l c hcl hkc).1
    · rcases getElem?_set_cases hc with ⟨rfl, rfl⟩ | ⟨-, hcl⟩
      · exact (hnew j b hbj hkb).2
      · exact h.apart j l b c hjl hbj hcl hkb hkc

theorem mergeLoop_apart (hm : MergeInv array e rest) (h : Apart text array e rest)
    (hinj : ∀ i j a b, array[i]? = some a → array[j]? = some b → text i = text j → i = j)
    (hrun : mergeLoop array e rest = some array') : ∃ e', Apart text array' e' [] := by
  induction rest generalizing array e with
  | nil =>
    cases hrun
    exact ⟨e, h⟩
  | cons i rest ih =>
    obtain ⟨a, x, ha, hx, hka, hkx, hshare, hkeep⟩ := hm.step
    -- the positions stay those of the strings
    have hinj' : ∀ (y : Entry) j l b c, (array.set i y)[j]? = some b →
        (array.set i y)[l]? = some c → text j = text l → j = l := by
      intro y j l b c hb hc htext
      have hsome : ∀ (j : Nat) (b : Entry), (array.set i y)[j]? = some b →
          ∃ b', array[j]? = some b' := by
        intro j b hb
        rcases getElem?_set_cases hb with ⟨rfl, -⟩ | ⟨-, hb⟩
        · exact ⟨x, hx⟩
        · exact ⟨b, hb⟩
      obtain ⟨b', hb'⟩ := hsome j b hb
      obtain ⟨c', hc'⟩ := hsome l c hc
      exact hinj j l b' c' hb' hc' htext
    simp only [mergeLoop, ha, hx, Option.bind_eq_bind, Option.bind_some] at hrun
    split at hrun
    · next hsuf => exact ih (hshare hsuf) (h.share hx hkx) (hinj' _) hrun
    · next hsuf =>
      have hei : e ≠ i := by
        rintro rfl
        rw [hx, Option.some.injEq] at ha
        subst ha
        unfold Kept at hka hkx
        have hlen : x.restoreLen.len = x.len + 1 := rfl
        have hstr : x.restoreLen.string = x.string := rfl
        rw [hlen, hstr] at hkx
        omega
      have hne : text i ≠ text e := fun htext => hei (hinj i e x a hx ha htext).symm
      refine ih hkeep (h.keep hx hne ?_) (hinj' _) hrun
      intro hpre
      rw [← h.rev i x hx, ← h.rev e a ha] at hpre hne
      refine hsuf (isSuffix_complete hka hkx (List.reverse_prefix.mp hpre) ?_)
      intro hchars
      exact hne (congrArg List.reverse hchars)

/-! The finalized table. -/

/-- The reversed characters at each position of the array. -/
def textOf (array : List Entry) (k : Nat) : List BfdByte := (array[k]?.map Entry.rev).getD []

theorem textOf_some {e : Entry} (h : array[k]? = some e) : textOf array k = e.rev := by
  rw [textOf, h, Option.map_some, Option.getD_some]

theorem textOf_injective (hn : (strings array).Nodup) {i j : Nat} (ha : array[i]? = some a)
    (hb : array[j]? = some b) (h : textOf array i = textOf array j) : i = j := by
  rw [textOf_some ha, textOf_some hb] at h
  have hchars : a.string.chars = b.string.chars := List.reverse_injective h
  have hstr : a.string = b.string := by
    cases hsa : a.string
    cases hsb : b.string
    simpa [hsa, hsb] using hchars
  have hi : (strings array)[i]? = some a.string := by rw [strings, List.getElem?_map, ha]; rfl
  have hj : (strings array)[j]? = some a.string := by
    rw [strings, List.getElem?_map, hb, hstr]
    rfl
  obtain ⟨hlt, -⟩ := List.getElem?_eq_some_iff.mp hi
  exact (List.getElem?_inj hlt hn).mp (hi.trans hj.symm)

/-- The loops that merge suffixes leave no kept string that is the end of another. -/
theorem mergeSuffixes_apart (hfresh : ∀ k e, array[k]? = some e → Fresh e k)
    (hnodup : (strings array).Nodup) (hrun : mergeSuffixes array = some array') {i j : Nat}
    (hij : i ≠ j) (ha : array'[i]? = some a) (hb : array'[j]? = some b) (hka : Kept a)
    (hkb : Kept b) : ¬ a.string.chars <:+ b.string.chars := by
  rcases mergeSuffixes_cases hfresh with ⟨hnil, heq⟩ | ⟨e, rest, last, hcons, hlast, heq, hinv⟩
  · -- no entry is live, so none has its full length
    rw [hrun, Option.some.injEq] at heq
    subst heq
    have hdead : ¬ a.refcount ≠ 0 := by
      intro hl
      have hmem : i ∈ sortedLive (array.map adjustLen) := mem_sortedLive.mpr ⟨a, ha, hl⟩
      rw [hnil] at hmem
      cases hmem
    have hlen := (adjustLen_len hfresh ha).2 (not_not.mp hdead)
    unfold Kept at hka
    omega
  · have hold : ∀ (k : Nat) (x : Entry), (array.map adjustLen)[k]? = some x →
        x.rev = textOf array k ∧ ∃ y, array[k]? = some y := by
      intro k x hx
      rw [List.getElem?_map, Option.map_eq_some_iff] at hx
      obtain ⟨y, hy, rfl⟩ := hx
      exact ⟨(textOf_some hy).symm, y, hy⟩
    have hsorted : (e :: rest).Pairwise fun i j =>
        revcmp (textOf array j) (textOf array i) ≤ 0 := by
      have hp := pairwise_sortedLive fun k x hx hl => (adjustLen_len hfresh hx).1 hl
      have hmem : ∀ i ∈ sortedLive (array.map adjustLen),
          ∃ x, (array.map adjustLen)[i]? = some x := by
        intro i hi
        obtain ⟨x, hx, -⟩ := mem_sortedLive.mp hi
        exact ⟨x, hx⟩
      rw [← hcons, List.pairwise_reverse]
      refine hp.imp_of_mem ?_
      intro i j hi hj hle
      obtain ⟨x, hx⟩ := hmem i hi
      obtain ⟨y, hy⟩ := hmem j hj
      rw [← (hold i x hx).1, ← (hold j y hy).1]
      exact hle x y hx hy
    obtain ⟨hbelow, hrest⟩ := List.pairwise_cons.mp hsorted
    -- at the start only the last entry of the sorted array is kept
    have honly : ∀ k x, ((array.map adjustLen).set e last.restoreLen)[k]? = some x → Kept x →
        k = e := by
      intro k x hx hkx
      rcases getElem?_set_cases hx with ⟨rfl, -⟩ | ⟨-, hx⟩
      · rfl
      · exfalso
        unfold Kept at hkx
        obtain ⟨hlive, hdead⟩ := adjustLen_len hfresh hx
        by_cases hl : x.refcount = 0
        · have := hdead hl
          omega
        · have := hlive hl
          omega
    have hstart : Apart (textOf array) ((array.map adjustLen).set e last.restoreLen) e rest := by
      refine ⟨?_, hrest, hbelow, ?_, ?_⟩
      · intro k x hx
        rcases getElem?_set_cases hx with ⟨rfl, rfl⟩ | ⟨-, hx⟩
        · exact (hold k last hlast).1
        · exact (hold k x hx).1
      · intro k x hx hkx
        rw [honly k x hx hkx]
        exact revcmp_nonpos (List.prefix_refl _)
      · intro k l x y hkl hx hy hkx hky
        exact absurd ((honly k x hx hkx).trans (honly l y hy hky).symm) hkl
    have hsome : ∀ (k : Nat) (x : Entry),
        ((array.map adjustLen).set e last.restoreLen)[k]? = some x →
        ∃ y, array[k]? = some y := by
      intro k x hx
      rcases getElem?_set_cases hx with ⟨rfl, -⟩ | ⟨-, hx⟩
      · exact (hold k last hlast).2
      · exact (hold k x hx).2
    obtain ⟨e', hend⟩ := mergeLoop_apart hinv hstart (by
      intro i j a b ha hb htext
      obtain ⟨a', ha'⟩ := hsome i a ha
      obtain ⟨b', hb'⟩ := hsome j b hb
      exact textOf_injective hnodup ha' hb' htext) (heq ▸ hrun)
    intro hsuf
    refine hend.apart i j a b hij ha hb hka hkb ?_
    rw [← hend.rev i a ha, ← hend.rev j b hb]
    exact List.reverse_prefix.mpr hsuf

/-- What is written for the entries that are written at all, in order. -/
def emitted (tab : Tab) : List (List BfdByte) :=
  (tab.array.map Entry.bytes).filter fun bytes => !bytes.isEmpty

theorem strtabEmit_eq (tab : Tab) : strtabEmit tab = [0] ++ (emitted tab).flatten := by
  have hfilter : ∀ l : List (List BfdByte),
      (l.filter fun bytes => !bytes.isEmpty).flatten = l.flatten := by
    intro l
    induction l with
    | nil => rfl
    | cons bytes l ih =>
      cases bytes with
      | nil => simpa using ih
      | cons c bytes => simpa using ih
  rw [emitted, hfilter, strtabEmit, List.flatMap_def]

theorem finalized_get {final : List Entry} (hf : Finalized array final) (h : final[k]? = some b) :
    ∃ a, array[k]? = some a ∧ b.bytes = a.bytes := by
  rw [hf.get] at h
  obtain ⟨a, ha, rfl⟩ := Option.map_eq_some_iff.mp h
  exact ⟨a, ha, by rw [adjusted_bytes, placed_bytes]⟩

/-- Only a kept entry of a settled array has bytes. -/
theorem kept_of_bytes (h : SettledEntry array a) (hb : a.bytes ≠ []) :
    a.refcount ≠ 0 ∧ Kept a := by
  rcases h with ⟨-, hlen⟩ | ⟨hl, hk | hs⟩
  · exact absurd (bytes_dead hlen) hb
  · exact ⟨hl, hk⟩
  · refine absurd (bytes_shared ?_) hb
    rw [hs.len]
    omega

/-- When the array to sort can be allocated, what is written are live strings with their
terminators, none of which is the end of another or the same as another. -/
theorem strtab_emitted_apart (calls : List Call) (s : Session)
    (hrun : Session.run calls = some s) :
    ∃ tab, strtabFinalize true s.tab = some tab ∧
      strtabEmit tab = [0] ++ (emitted tab).flatten ∧
      (∀ bytes ∈ emitted tab, ∃ e ∈ s.tab.array, e.refcount ≠ 0 ∧
        bytes = e.string.chars ++ [0]) ∧
      (emitted tab).Pairwise fun x y => ¬ x <:+ y ∧ ¬ y <:+ x := by
  have hs := run_ok hrun
  obtain ⟨array, hm, hset, hkey⟩ := mergeSuffixes_settled hs.fresh
  obtain ⟨final, hfin, hf⟩ := finalize_array (hangs_settled hset)
  refine ⟨{ s.tab with array := final, secSize := (assignPositions 1 array).2 }, ?_,
    strtabEmit_eq _, ?_, ?_⟩
  · simp [strtabFinalize, hm, hfin]
  · intro bytes hbytes
    obtain ⟨hmem, hne⟩ := List.mem_filter.mp hbytes
    obtain ⟨b, hb, rfl⟩ := List.mem_map.mp hmem
    obtain ⟨k, hk⟩ := List.mem_iff_getElem?.mp hb
    obtain ⟨a, ha, heq⟩ := finalized_get hf hk
    obtain ⟨hl, hka⟩ := kept_of_bytes (hset k a ha) (by simpa [heq] using hne)
    have hkeys : (s.tab.array.map Entry.key)[k]? = some a.key := by
      rw [← hkey, List.getElem?_map, ha]
      rfl
    rw [List.getElem?_map, Option.map_eq_some_iff] at hkeys
    obtain ⟨e, he, hek⟩ := hkeys
    obtain ⟨hstr, href⟩ := Prod.mk.inj hek
    refine ⟨e, List.mem_of_getElem? he, fun h0 => hl (href.symm.trans h0), ?_⟩
    rw [heq, bytes_kept hka, hstr]
  · rw [emitted, List.pairwise_filter, List.pairwise_map, List.pairwise_iff_getElem]
    intro i j hi hj hij hbi hbj
    obtain ⟨a, ha, heqa⟩ := finalized_get hf (List.getElem?_eq_getElem hi)
    obtain ⟨b, hb, heqb⟩ := finalized_get hf (List.getElem?_eq_getElem hj)
    obtain ⟨-, hka⟩ := kept_of_bytes (hset i a ha) (by simpa [heqa] using hbi)
    obtain ⟨-, hkb⟩ := kept_of_bytes (hset j b hb) (by simpa [heqb] using hbj)
    have hnodup := run_nodup hrun
    rw [heqa, heqb, bytes_kept hka, bytes_kept hkb, List.suffix_append_self_iff,
      List.suffix_append_self_iff]
    exact ⟨mergeSuffixes_apart hs.fresh hnodup hm (Nat.ne_of_lt hij) ha hb hka hkb,
      mergeSuffixes_apart hs.fresh hnodup hm (Nat.ne_of_gt hij) hb ha hkb hka⟩

/-- `foobar` is written and `bar` is dead. -/
theorem barSession_emitted_apart :
    ∃ tab, strtabFinalize true barSession.tab = some tab ∧
      strtabEmit tab = [0] ++ (emitted tab).flatten ∧
      (∀ bytes ∈ emitted tab, ∃ e ∈ barSession.tab.array, e.refcount ≠ 0 ∧
        bytes = e.string.chars ++ [0]) ∧
      (emitted tab).Pairwise fun x y => ¬ x <:+ y ∧ ¬ y <:+ x :=
  strtab_emitted_apart barCalls barSession barSession_run

end FusionBinutils.Bfd.Strtab
