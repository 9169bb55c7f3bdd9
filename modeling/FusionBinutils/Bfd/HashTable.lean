import FusionBinutils.Bfd.Hash

/-! What the calls do to the chains of a hash table. -/
namespace FusionBinutils.Bfd

open Function (update update_self update_of_ne)
open Buckets (Placed chainsFrom)
open scoped List

/-- Short of the last prime there is no reading beyond the array. -/
theorem higherPrimeLoop_low (n fuel low high : Nat)
    (h : low = 0 ∨ hashPrimes.getD (low - 1) 0 ≤ n) :
    higherPrimeLoop n fuel low high = 0 ∨
      hashPrimes.getD (higherPrimeLoop n fuel low high - 1) 0 ≤ n := by
  induction fuel generalizing low high with
  | zero => exact h
  | succ fuel ih =>
    rw [higherPrimeLoop]
    simp only
    split_ifs with hne hmid
    · exact ih _ _ (.inr hmid)
    · exact ih _ _ h
    · exact h

theorem higherPrimeLoop_le (n fuel low high : Nat) (h : low ≤ high) :
    higherPrimeLoop n fuel low high ≤ high := by
  induction fuel generalizing low high with
  | zero => exact h
  | succ fuel ih =>
    rw [higherPrimeLoop]
    simp only
    split_ifs with hne hmid
    · exact ih _ _ (by omega)
    · exact (ih _ _ (by omega)).trans (by omega)
    · exact h

theorem higherPrimeNumber_lt (beyond : Nat) {n : Nat} (hn : n < 4294967291) :
    higherPrimeNumber beyond n < 2 ^ 32 := by
  have hlow := higherPrimeLoop_low n 28 0 28 (.inl rfl)
  have hle := higherPrimeLoop_le n 28 0 28 (by omega)
  have hlt : higherPrimeLoop n 28 0 28 < 28 := by
    refine lt_of_le_of_ne hle fun heq => ?_
    rw [heq] at hlow
    rcases hlow with hlow | hlow
    · cases hlow
    · exact absurd (show 4294967291 ≤ n from hlow) (by omega)
  have hall : ∀ i < 28, (hashPrimes ++ [beyond]).getD i 0 < 2 ^ 32 := by
    intro i hi
    rw [List.getD_append _ _ _ _ hi]
    revert i
    decide
  rw [higherPrimeNumber]
  split_ifs
  · decide
  · exact hall _ hlt

namespace HashTable

variable {t t' : HashTable} {newsize : Nat} {e p q : HashEntry} {i j : Nat}
  {rem : List HashEntry}

theorem mem_entries (hpos : 0 < t.size) (hplaced : Placed (fun e => t.index e.hash) t.chains) :
    e ∈ t.entries ↔ e ∈ t.chains (t.index e.hash) := by
  rw [entries, Buckets.mem_all]
  constructor
  · rintro ⟨i, -, he⟩
    have hidx : t.index e.hash = i := hplaced i e he
    rwa [hidx]
  · exact fun he => ⟨_, Nat.mod_lt _ hpos, he⟩

/-- The runs of a chain end up where their hashes say, and nothing else is there. -/
theorem moveChain_spec (hpos : 0 < newsize) (hlt : newsize < 2 ^ 32) (n : Nat)
    (l : List HashEntry) (newtable : Nat → List HashEntry) (hn : l.length ≤ n)
    (hplaced : Placed (fun e => e.hash.toNat % newsize) newtable) :
    Placed (fun e => e.hash.toNat % newsize) (moveChain newsize n l newtable) ∧
      Buckets.all (moveChain newsize n l newtable) newsize ~
        l ++ Buckets.all newtable newsize := by
  induction n generalizing l newtable with
  | zero =>
    rw [List.length_eq_zero_iff.1 (Nat.le_zero.1 hn)]
    exact ⟨hplaced, .refl _⟩
  | succ n ih =>
    cases l with
    | nil => exact ⟨hplaced, .refl _⟩
    | cons e l =>
      have hidx : e.hash.toNat % newsize % 2 ^ 32 = e.hash.toNat % newsize :=
        Nat.mod_eq_of_lt ((Nat.mod_lt _ hpos).trans hlt)
      have hrun : ∀ a ∈ e :: l.takeWhile (·.hash = e.hash),
          a.hash.toNat % newsize = e.hash.toNat % newsize := by
        intro a ha
        rcases List.mem_cons.1 ha with rfl | ha
        · rfl
        · have heq := List.mem_takeWhile_imp ha
          rw [decide_eq_true_eq] at heq
          rw [heq]
      have hlen : (l.dropWhile (·.hash = e.hash)).length ≤ n :=
        ((List.dropWhile_suffix _).length_le).trans (by simpa using hn)
      rw [moveChain]
      simp only [hidx]
      obtain ⟨hp, hall⟩ := ih (l.dropWhile (·.hash = e.hash)) _ hlen
        (hplaced.push (j := e.hash.toNat % newsize) hrun)
      refine ⟨hp, hall.trans ?_⟩
      refine ((Buckets.all_push (Nat.mod_lt _ hpos) _).append_left _).trans ?_
      rw [← List.append_assoc]
      refine List.Perm.append_right _ (List.perm_append_comm.trans ?_)
      rw [List.cons_append, List.takeWhile_append_dropWhile]

theorem moveChains_spec (hpos : 0 < newsize) (hlt : newsize < 2 ^ 32) :
    Placed (fun e => e.hash.toNat % newsize) (t.moveChains newsize) ∧
      Buckets.all (t.moveChains newsize) newsize ~ t.entries := by
  have hfold : ∀ (l : List Nat) (newtable : Nat → List HashEntry),
      Placed (fun e => e.hash.toNat % newsize) newtable →
      Placed (fun e => e.hash.toNat % newsize) (l.foldl (fun new hi =>
        moveChain newsize (t.chains hi).length (t.chains hi) new) newtable) ∧
      Buckets.all (l.foldl (fun new hi =>
        moveChain newsize (t.chains hi).length (t.chains hi) new) newtable) newsize ~
          l.flatMap t.chains ++ Buckets.all newtable newsize := by
    intro l
    induction l with
    | nil => exact fun newtable h => ⟨h, .refl _⟩
    | cons hi l ih =>
      intro newtable h
      obtain ⟨hp, hall⟩ := moveChain_spec hpos hlt _ (t.chains hi) newtable le_rfl h
      obtain ⟨hp', hall'⟩ := ih _ hp
      refine ⟨hp', hall'.trans ?_⟩
      rw [List.flatMap_cons]
      refine (hall.append_left _).trans ?_
      rw [← List.append_assoc]
      exact List.perm_append_comm.append_right _
  obtain ⟨hp, hall⟩ := hfold (List.range t.size) (fun _ => []) (fun i a ha => by cases ha)
  refine ⟨hp, hall.trans ?_⟩
  have hempty : Buckets.all (fun _ => ([] : List HashEntry)) newsize = [] := by
    rw [List.eq_nil_iff_forall_not_mem]
    intro a ha
    obtain ⟨i, -, hi⟩ := Buckets.mem_all.1 ha
    cases hi
  rw [hempty, List.append_nil, entries, Buckets.all, chainsFrom, Nat.sub_zero,
    List.range_eq_range']

/-- The same chains in an array of the same size. -/
def SameChains (t t' : HashTable) : Prop := t'.chains = t.chains ∧ t'.size = t.size

/-- Another array with the same entries, each in its place. -/
def Moved (t t' : HashTable) : Prop :=
  0 < t'.size ∧ Placed (fun e => t'.index e.hash) t'.chains ∧ t'.entries ~ t.entries

theorem grow_spec (beyond : Nat) (m : HashMemory) (hsize : t.size < 4294967291) :
    SameChains t (t.grow beyond m) ∨ Moved t (t.grow beyond m) := by
  rw [grow]
  split_ifs with hnone hmem
  · exact .inl ⟨rfl, rfl⟩
  · exact .inl ⟨rfl, rfl⟩
  · right
    rw [not_or] at hnone
    have hpos : 0 < higherPrimeNumber beyond t.size := by omega
    have hlt := higherPrimeNumber_lt beyond hsize
    obtain ⟨hp, hall⟩ := moveChains_spec (t := t) hpos hlt
    rw [Nat.mod_eq_of_lt hlt]
    exact ⟨hpos, hp, hall⟩

/-- Growing is not attempted, or comes to nothing. -/
theorem grow_none (beyond : Nat) {m : HashMemory} (hm : m.grow = false) :
    SameChains t (t.grow beyond m) := by
  rw [grow]
  simp only [hm, if_true]
  split_ifs <;> exact ⟨rfl, rfl⟩

theorem link_placed (hplaced : Placed (fun e => t.index e.hash) t.chains) :
    Placed (fun e => (t.link e).index e.hash) (t.link e).chains :=
  Buckets.Placed.push (l := [e]) hplaced fun a ha => by rw [List.mem_singleton.1 ha]; rfl

theorem link_entries (hpos : 0 < t.size) : (t.link e).entries ~ e :: t.entries :=
  Buckets.all_push (l := [e]) (Nat.mod_lt _ hpos)

/-! Walking the table. -/

/-- What a traversal that has come to an entry has before it. -/
def Behind (t : HashTable) (i : Nat) (p : HashEntry) (rem : List HashEntry) : Prop :=
  i < t.size ∧ ∃ u v, t.chains i = u ++ p :: v ∧ rem = v ++ chainsFrom t.chains t.size (i + 1)

theorem Behind.sublist (h : t.Behind i p rem) : (p :: rem) <+ t.entries := by
  obtain ⟨hi, u, v, hc, rfl⟩ := h
  have hfrom : chainsFrom t.chains t.size i =
      u ++ (p :: (v ++ chainsFrom t.chains t.size (i + 1))) := by
    rw [Buckets.chainsFrom_succ hi, hc]
    simp
  refine List.Sublist.trans ?_ (Buckets.chainsFrom_sublist (Nat.zero_le i))
  rw [hfrom]
  exact List.sublist_append_right ..

theorem Behind.same (h : t.Behind i p rem) (hs : SameChains t t') : t'.Behind i p rem := by
  obtain ⟨hi, u, v, hc, hrem⟩ := h
  rw [Behind, hs.1, hs.2]
  exact ⟨hi, u, v, hc, hrem⟩

/-- A new entry is before the traversal, or it has been passed over. -/
theorem Behind.link (h : t.Behind i p rem) :
    ∃ rem', (t.link e).Behind i p rem' ∧ (∀ x ∈ rem', x = e ∨ x ∈ rem) ∧ rem ⊆ rem' := by
  obtain ⟨hi, u, v, hc, rfl⟩ := h
  by_cases hij : t.index e.hash = i
  · refine ⟨_, ⟨hi, e :: u, v, ?_, rfl⟩, ?_, ?_⟩
    · change update t.chains (t.index e.hash) _ i = _
      rw [hij, update_self, hc]
      rfl
    · have hsame : chainsFrom (t.link e).chains (t.link e).size (i + 1) =
          chainsFrom t.chains t.size (i + 1) :=
        Buckets.chainsFrom_congr fun k hk _ => update_of_ne (by omega) _ _
      rw [hsame]
      exact fun x hx => .inr hx
    · have hsame : chainsFrom (t.link e).chains (t.link e).size (i + 1) =
          chainsFrom t.chains t.size (i + 1) :=
        Buckets.chainsFrom_congr fun k hk _ => update_of_ne (by omega) _ _
      rw [hsame]
      exact fun x hx => hx
  · refine ⟨_, ⟨hi, u, v, ?_, rfl⟩, ?_, ?_⟩
    · change update t.chains (t.index e.hash) _ i = _
      rw [update_of_ne (Ne.symm hij), hc]
    · intro x hx
      rw [List.mem_append] at hx ⊢
      rcases hx with hx | hx
      · exact .inr (.inl hx)
      · obtain ⟨k, hk, hkn, hx⟩ := Buckets.mem_chainsFrom.1 hx
        change x ∈ update t.chains (t.index e.hash) _ k at hx
        by_cases hke : k = t.index e.hash
        · subst hke
          rw [update_self, List.mem_cons] at hx
          exact hx.imp_right fun hx => .inr (Buckets.mem_chainsFrom.2 ⟨_, hk, hkn, hx⟩)
        · rw [update_of_ne hke] at hx
          exact .inr (.inr (Buckets.mem_chainsFrom.2 ⟨k, hk, hkn, hx⟩))
    · intro x hx
      rw [List.mem_append] at hx ⊢
      refine hx.imp_right fun hx => ?_
      obtain ⟨k, hk, hkn, hx⟩ := Buckets.mem_chainsFrom.1 hx
      refine Buckets.mem_chainsFrom.2 ⟨k, hk, hkn, ?_⟩
      change x ∈ update t.chains (t.index e.hash) _ k
      by_cases hke : k = t.index e.hash
      · subst hke
        rw [update_self]
        exact List.mem_cons_of_mem _ hx
      · rw [update_of_ne hke]
        exact hx

theorem seek_cases (hi : i ≤ t.size) :
    t.seek i = none ∧ chainsFrom t.chains t.size i = [] ∨
      ∃ j q rem, t.seek i = some (j, q) ∧ chainsFrom t.chains t.size i = q :: rem ∧
        t.Behind j q rem := by
  have hsize : i + (t.size - i) = t.size := by omega
  cases hs : t.seek i with
  | none =>
    have hnone := Buckets.seek_none hs
    rw [hsize] at hnone
    exact .inl ⟨rfl, hnone⟩
  | some r =>
    obtain ⟨j, q⟩ := r
    obtain ⟨hij, hj, l, hl, hrest⟩ := Buckets.seek_some hs
    rw [hsize] at hj hrest
    exact .inr ⟨j, q, _, rfl, hrest, hj, [], l, hl, rfl⟩

/-- `p->next` is what comes after the entry in its chain. -/
theorem next_eq {u v : List HashEntry} (hplaced : Placed (fun e => t.index e.hash) t.chains)
    (hids : (t.entries.map (·.id)).Nodup) (hi : i < t.size) (hc : t.chains i = u ++ p :: v) :
    t.next p = v.head? := by
  have hidx : t.index p.hash = i := hplaced i p (by simp [hc])
  have hsub : t.chains i <+ t.entries := by
    refine List.Sublist.trans ?_ (Buckets.chainsFrom_sublist (Nat.zero_le i))
    rw [Buckets.chainsFrom_succ hi]
    exact List.sublist_append_left ..
  have hnd := (hsub.map (·.id)).nodup hids
  rw [hc, List.map_append, List.map_cons, List.nodup_append] at hnd
  have hu : ∀ x ∈ u, decide (x.id ≠ p.id) = true := by
    intro x hx
    rw [decide_eq_true_eq]
    exact hnd.2.2 _ (List.mem_map_of_mem hx) _ (by simp)
  rw [next, hidx, hc, List.dropWhile_append_of_pos hu, List.dropWhile_cons]
  simp

theorem advance_cases (hplaced : Placed (fun e => t.index e.hash) t.chains)
    (hids : (t.entries.map (·.id)).Nodup) (h : t.Behind i p rem) :
    t.advance i p = none ∧ rem = [] ∨
      ∃ j q rem', t.advance i p = some (j, q) ∧ rem = q :: rem' ∧ t.Behind j q rem' := by
  obtain ⟨hi, u, v, hc, rfl⟩ := h
  have hnext := next_eq hplaced hids hi hc
  rw [advance, hnext]
  cases v with
  | nil => exact seek_cases hi
  | cons q v =>
    refine .inr ⟨i, q, _, rfl, rfl, hi, u ++ [p], v, ?_, rfl⟩
    rw [hc]
    simp

/-! Finding, renaming and replacing an entry. -/

theorem find_some {string : HashName} (hpos : 0 < t.size) (h : t.find string = some e) :
    e ∈ t.entries ∧ e.hash = bfdHashHash string ∧ e.string = string := by
  have hmem := List.mem_of_find?_eq_some h
  have hp := List.find?_some h
  rw [decide_eq_true_eq] at hp
  exact ⟨Buckets.mem_all.2 ⟨_, Nat.mod_lt _ hpos, hmem⟩, hp⟩

theorem find_none {string : HashName} (hpos : 0 < t.size)
    (hplaced : Placed (fun e => t.index e.hash) t.chains) (h : t.find string = none)
    (he : e ∈ t.entries) (hs : e.string = string) : e.hash ≠ bfdHashHash string := by
  intro hhash
  rw [mem_entries hpos hplaced, hhash] at he
  rw [find, List.find?_eq_none] at h
  exact h e he (decide_eq_true ⟨hhash, hs⟩)

/-- Editing a chain at an entry that is in it. -/
theorem edit_eq {f : List HashEntry → List HashEntry} {l : List HashEntry} {r : Nat}
    (h : r ∈ l.map (·.id)) : ∃ u e v, l = u ++ e :: v ∧ e.id = r ∧
      edit r f l = some (u ++ f v) := by
  induction l with
  | nil => cases h
  | cons a l ih =>
    rw [edit]
    by_cases ha : a.id = r
    · exact ⟨[], a, l, rfl, ha, if_pos ha⟩
    · have hl : r ∈ l.map (·.id) := by
        rw [List.map_cons, List.mem_cons] at h
        exact h.resolve_left (Ne.symm ha)
      obtain ⟨u, e, v, rfl, he, hedit⟩ := ih hl
      refine ⟨a :: u, e, v, rfl, he, ?_⟩
      rw [if_neg ha, hedit]
      rfl

end HashTable

end FusionBinutils.Bfd
