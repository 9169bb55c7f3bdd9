import FusionBinutils.Bfd.HashTable

/-! Runs of calls on a hash table, and the traversals among them. -/
namespace FusionBinutils.Bfd

open Function (update update_self update_of_ne)
open Buckets (Placed chainsFrom)
open scoped List
open HashTable (SameChains Moved)

variable {t t' : HashTable} {live : List HashEntry} {fresh fresh' : Nat} {e ent : HashEntry}
  {f : HashFrame} {s s' : HashState} {string : HashName} {m : HashMemory} {beyond : Nat}

/-- A table that holds the entries `live`, each once and in its place. -/
structure HashTable.Holds (t : HashTable) (live : List HashEntry) (fresh : Nat) : Prop where
  pos : 0 < t.size
  placed : Placed (fun e => t.index e.hash) t.chains
  kept : t.entries ~ live
  ids : (live.map (·.id)).Nodup
  below : ∀ e ∈ live, e.id < fresh

namespace HashTable.Holds

theorem entries_ids (h : t.Holds live fresh) : (t.entries.map (·.id)).Nodup :=
  (h.kept.map _).nodup_iff.2 h.ids

theorem same (h : t.Holds live fresh) (hs : SameChains t t') : t'.Holds live fresh := by
  obtain ⟨hc, hsize⟩ := hs
  have hidx : (fun e : HashEntry => t'.index e.hash) = fun e => t.index e.hash := by
    funext e
    rw [index, index, hsize]
  refine ⟨hsize ▸ h.pos, ?_, ?_, h.ids, h.below⟩
  · rw [hidx, hc]
    exact h.placed
  · rw [entries, hc, hsize]
    exact h.kept

theorem moved (h : t.Holds live fresh) (hm : Moved t t') : t'.Holds live fresh :=
  ⟨hm.1, hm.2.1, hm.2.2.trans h.kept, h.ids, h.below⟩

/-- A new entry at an address of its own. -/
theorem link (h : t.Holds live fresh) (he : e.id = fresh) :
    (t.link e).Holds (e :: live) (fresh + 1) := by
  refine ⟨h.pos, link_placed h.placed, (link_entries h.pos).trans (h.kept.cons e), ?_, ?_⟩
  · rw [List.map_cons, List.nodup_cons]
    refine ⟨fun hmem => ?_, h.ids⟩
    obtain ⟨a, ha, heq⟩ := List.mem_map.1 hmem
    have hlt := h.below a ha
    omega
  · intro a ha
    rcases List.mem_cons.1 ha with rfl | ha
    · omega
    · have hlt := h.below a ha
      omega

/-- The entry of an address is the one entry there. -/
theorem unique (h : t.Holds live fresh) {a b : HashEntry} (ha : a ∈ live) (hb : b ∈ live)
    (hid : a.id = b.id) : a = b :=
  List.inj_on_of_nodup_map h.ids ha hb hid

/-- An entry taken out of its chain, and another put anywhere its hash says. -/
theorem exchange (h : t.Holds live fresh) {u v : List HashEntry}
    (hc : t.chains (t.index ent.hash) = u ++ ent :: v) {chains : Nat → List HashEntry}
    (hplaced : Placed (fun e => t.index e.hash) chains)
    (hall : Buckets.all chains t.size ~
      e :: Buckets.all (update t.chains (t.index ent.hash) (u ++ v)) t.size) (fresh' : Nat)
    (hlt : e.id < fresh') (hle : fresh ≤ fresh') (hid : e.id = ent.id ∨ e.id = fresh) :
    HashTable.Holds { t with chains } (live.map fun a => if a.id = ent.id then e else a) fresh' := by
  have htake : t.entries ~
      ent :: Buckets.all (update t.chains (t.index ent.hash) (u ++ v)) t.size :=
    Buckets.all_take (Nat.mod_lt _ h.pos) (hc ▸ List.perm_middle)
  generalize Buckets.all (update t.chains (t.index ent.hash) (u ++ v)) t.size = others at *
  have hlive : live ~ ent :: others := h.kept.symm.trans htake
  have hnd := (hlive.map (·.id)).nodup_iff.1 h.ids
  rw [List.map_cons, List.nodup_cons] at hnd
  have hothers : (others.map fun a => if a.id = ent.id then e else a) = others := by
    refine List.map_congr_left (g := id) (fun a ha => if_neg fun heq => ?_) |>.trans (List.map_id _)
    exact hnd.1 (List.mem_map.2 ⟨a, ha, heq⟩)
  have hmap : (live.map fun a => if a.id = ent.id then e else a) ~ e :: others := by
    refine (hlive.map _).trans ?_
    rw [List.map_cons, if_pos rfl, hothers]
  refine ⟨h.pos, hplaced, hall.trans hmap.symm, ?_, ?_⟩
  · rw [(hmap.map (·.id)).nodup_iff, List.map_cons, List.nodup_cons]
    refine ⟨?_, hnd.2⟩
    rcases hid with hid | hid
    · rw [hid]
      exact hnd.1
    · intro hmem
      obtain ⟨a, ha, heq⟩ := List.mem_map.1 hmem
      have hbelow := h.below a (hlive.mem_iff.2 (List.mem_cons_of_mem _ ha))
      omega
  · intro a ha
    rcases List.mem_cons.1 (hmap.mem_iff.1 ha) with rfl | ha
    · exact hlt
    · have hbelow := h.below a (hlive.mem_iff.2 (List.mem_cons_of_mem _ ha))
      omega

/-- Where an entry stands in its chain, and what the walk to it does. -/
theorem edit_at (h : t.Holds live fresh) (hent : ent ∈ live)
    (g : List HashEntry → List HashEntry) : ∃ u v,
      t.chains (t.index ent.hash) = u ++ ent :: v ∧
        edit ent.id g (t.chains (t.index ent.hash)) = some (u ++ g v) := by
  have hmem : ent ∈ t.chains (t.index ent.hash) :=
    (mem_entries h.pos h.placed).1 (h.kept.mem_iff.2 hent)
  obtain ⟨u, a, v, hc, ha, hedit⟩ := edit_eq (f := g) (List.mem_map_of_mem (f := (·.id)) hmem)
  have hlive : a ∈ live := by
    refine h.kept.mem_iff.1 (Buckets.mem_all.2 ⟨t.index ent.hash, Nat.mod_lt _ h.pos, ?_⟩)
    rw [hc]
    simp
  rw [h.unique hlive hent ha] at hc
  exact ⟨u, v, hc, hedit⟩

/-- Renaming an entry of the table never aborts. -/
theorem rename (h : t.Holds live fresh) (hent : ent ∈ live) (string : HashName) :
    ∃ t', t.bfdHashRename string ent = some t' ∧
      t'.Holds (live.map fun a => if a.id = ent.id then
        { ent with string, hash := bfdHashHash string } else a) fresh := by
  obtain ⟨u, v, hc, hedit⟩ := h.edit_at hent id
  have hplaced : Placed (fun e => t.index e.hash)
      (update t.chains (t.index ent.hash) (u ++ v)) := by
    refine h.placed.shrink fun a ha => ?_
    rw [hc]
    simp only [List.mem_append, List.mem_cons] at ha ⊢
    tauto
  refine ⟨_, by rw [bfdHashRename, hedit]; rfl, ?_⟩
  refine h.exchange hc ?_ ?_ _ (h.below ent hent) le_rfl (.inl rfl)
  · exact hplaced.push (l := [_]) fun a ha => by rw [List.mem_singleton.1 ha]
  · exact Buckets.all_push (l := [_]) (Nat.mod_lt _ h.pos)

/-- Replacing an entry of the table never aborts. -/
theorem replace (h : t.Holds live fresh) (hent : ent ∈ live) :
    ∃ t', t.bfdHashReplace ent { ent with id := fresh } = some t' ∧
      t'.Holds (live.map fun a => if a.id = ent.id then { ent with id := fresh } else a)
        (fresh + 1) := by
  obtain ⟨u, v, hc, hedit⟩ := h.edit_at hent fun v => { ent with id := fresh } :: v
  refine ⟨_, by rw [bfdHashReplace, hedit]; rfl, ?_⟩
  refine h.exchange hc ?_ ?_ _ (Nat.lt_succ_self _) (Nat.le_succ _) (.inr rfl)
  · intro i a ha
    by_cases hi : i = t.index ent.hash
    · rw [hi] at ha ⊢
      rw [update_self, List.mem_append, List.mem_cons] at ha
      rcases ha with ha | rfl | ha
      · exact h.placed _ a (by rw [hc]; simp [ha])
      · rfl
      · exact h.placed _ a (by rw [hc]; simp [ha])
    · rw [update_of_ne hi] at ha
      exact h.placed i a ha
  · refine (Buckets.all_update (Nat.mod_lt _ h.pos) _).trans ?_
    refine (List.perm_middle.append_right _).trans ?_
    exact (Buckets.all_update (Nat.mod_lt _ h.pos) _).symm.cons _

/-- What is found, and what is not. -/
theorem found (h : t.Holds live fresh) (string : HashName) : match t.find string with
    | some e => e ∈ live ∧ e.string = string
    | none => ∀ e ∈ live, e.string = string → e.hash ≠ bfdHashHash string := by
  cases hf : t.find string with
  | some e =>
    obtain ⟨he, -, hs⟩ := find_some h.pos hf
    exact ⟨h.kept.mem_iff.1 he, hs⟩
  | none => exact fun e he hs => find_none h.pos h.placed hf (h.kept.mem_iff.2 he) hs

end HashTable.Holds

/-- Every name there is has been entered once, and with its hash. -/
def Keyed (live : List HashEntry) : Prop :=
  (∀ e ∈ live, e.hash = bfdHashHash e.string) ∧ (live.map (·.string)).Nodup

theorem Keyed.find_iff (hk : Keyed live) (h : t.Holds live fresh) :
    t.find string = some e ↔ e ∈ live ∧ e.string = string := by
  have hfound := h.found string
  cases hf : t.find string with
  | some a =>
    rw [hf] at hfound
    rw [Option.some.injEq]
    constructor
    · rintro rfl
      exact hfound
    · rintro ⟨he, hs⟩
      exact List.inj_on_of_nodup_map hk.2 hfound.1 he (hfound.2.trans hs.symm)
  | none =>
    rw [hf] at hfound
    refine iff_of_false (by simp) ?_
    rintro ⟨he, hs⟩
    exact hfound e he hs (hs ▸ hk.1 e he)

/-- A running traversal has visited no entry twice, and has before it what is left of those there
were at its start. -/
def Visiting (t : HashTable) (fresh : Nat) (f : HashFrame) : Prop :=
  ∃ rem, t.Behind f.i f.p rem ∧ f.visited.Nodup ∧
    (∀ r ∈ f.visited, r < fresh ∧ r ∉ rem.map (·.id)) ∧
      ∀ r ∈ f.start, r ∈ f.visited ∨ r ∈ rem.map (·.id)

namespace HashState

structure Inv (s : HashState) : Prop where
  holds : s.table.Holds s.live s.fresh
  frames : ∀ f ∈ s.frames, Visiting s.table s.fresh f
  ended : ∀ tr ∈ s.finished, tr.visited.Nodup ∧
    (tr.stopped = false → ∀ r ∈ tr.start, r ∈ tr.visited)
  keyed : s.keyed = true → Keyed s.live

theorem Inv.correct (h : s.Inv) : s.Correct where
  bucket := h.holds.placed
  kept := h.holds.kept
  found := h.holds.found
  exact hk _ _ := (h.keyed hk).find_iff h.holds
  once := by
    refine ⟨fun f hf => ?_, fun tr htr => (h.ended tr htr).1⟩
    obtain ⟨_, -, hnd, -⟩ := h.frames f hf
    exact hnd
  every tr htr hstop r hr :=
    List.count_eq_one_of_mem (h.ended tr htr).1 ((h.ended tr htr).2 hstop r hr)

/-! What a call that makes an entry leaves to the traversals. -/

theorem visiting_same (h : Visiting t fresh f) (hs : SameChains t t') (hle : fresh ≤ fresh') :
    Visiting t' fresh' f := by
  obtain ⟨rem, hb, hnd, hvis, hstart⟩ := h
  refine ⟨rem, hb.same hs, hnd, fun r hr => ?_, hstart⟩
  exact ⟨(hvis r hr).1.trans_le hle, (hvis r hr).2⟩

theorem visiting_link (h : Visiting t fresh f) (he : e.id = fresh) :
    Visiting (t.link e) (fresh + 1) f := by
  obtain ⟨rem, hb, hnd, hvis, hstart⟩ := h
  obtain ⟨rem', hb', hsub, hsup⟩ := hb.link (e := e)
  refine ⟨rem', hb', hnd, fun r hr => ?_, fun r hr => ?_⟩
  · obtain ⟨hlt, hnot⟩ := hvis r hr
    refine ⟨by omega, fun hmem => ?_⟩
    obtain ⟨a, ha, rfl⟩ := List.mem_map.1 hmem
    rcases hsub a ha with rfl | ha
    · omega
    · exact hnot (List.mem_map_of_mem ha)
  · refine (hstart r hr).imp_right fun hmem => ?_
    obtain ⟨a, ha, rfl⟩ := List.mem_map.1 hmem
    exact List.mem_map_of_mem (hsup ha)

/-- What `bfd_hash_insert` does where there is room. -/
theorem insert_cases (beyond : Nat) (hroom : s.Room m) (string : HashName) (hash : BitVec 64) :
    s.table.bfdHashInsert beyond m s.fresh string hash = (s.table, none) ∨
      ∃ t', s.table.bfdHashInsert beyond m s.fresh string hash =
          (t', some ⟨s.fresh, string, hash⟩) ∧
        (SameChains (s.table.link ⟨s.fresh, string, hash⟩) t' ∨
          s.frames = [] ∧ Moved (s.table.link ⟨s.fresh, string, hash⟩) t') := by
  rw [HashTable.bfdHashInsert]
  by_cases hm : m.entry = false
  · rw [if_pos hm]
    exact .inl rfl
  · rw [if_neg hm]
    refine .inr ⟨_, rfl, ?_⟩
    split_ifs with hgrow
    · rcases hroom with h | h | h | h | ⟨hf, hsize⟩
      · exact absurd h hm
      · exact .inl (HashTable.grow_none beyond h)
      · exact absurd (hgrow.1.symm.trans h) (by decide)
      · exact absurd (of_decide_eq_true hgrow.2) (not_lt.2 h)
      · refine (HashTable.grow_spec beyond m ?_).imp_right fun h => ⟨List.isEmpty_iff.1 hf, h⟩
        exact hsize
    · exact .inl ⟨rfl, rfl⟩

/-- A new entry, with the table as it was or moved while nothing runs. -/
theorem Inv.add (h : s.Inv) (he : e.id = s.fresh) {keyed : Bool}
    (ht : SameChains (s.table.link e) t' ∨ s.frames = [] ∧ Moved (s.table.link e) t')
    (hkeyed : keyed = true → Keyed (e :: s.live)) :
    Inv { s with table := t', live := e :: s.live, fresh := s.fresh + 1, keyed } := by
  have hlink := h.holds.link he
  rcases ht with hs | ⟨hf, hm⟩
  · exact ⟨hlink.same hs,
      fun f hf => visiting_same (visiting_link (h.frames f hf) he) hs le_rfl, h.ended, hkeyed⟩
  · refine ⟨hlink.moved hm, fun f hf' => ?_, h.ended, hkeyed⟩
    rw [hf] at hf'
    cases hf'

/-- The end of a traversal changes no chain. -/
theorem Inv.thaw (h : s.Inv) {frames : List HashFrame} (hsub : ∀ f ∈ frames, f ∈ s.frames)
    {tr : HashTraversal} (hnd : tr.visited.Nodup)
    (hall : tr.stopped = false → ∀ r ∈ tr.start, r ∈ tr.visited) :
    (s.thaw tr frames).Inv := by
  refine ⟨h.holds.same ⟨rfl, rfl⟩, ?_, ?_, h.keyed⟩
  · intro f hf
    exact visiting_same (h.frames f (hsub f hf)) ⟨rfl, rfl⟩ le_rfl
  · intro tr' htr
    rcases List.mem_cons.1 htr with rfl | htr
    · exact ⟨hnd, hall⟩
    · exact h.ended tr' htr

theorem mem_live_of_unused (h : s.unused string = true) (he : e ∈ s.live) : e.string ≠ string := by
  rw [unused, List.all_eq_true] at h
  exact of_decide_eq_true (h e he)

theorem Keyed.cons (hk : Keyed live) (hnew : ∀ a ∈ live, a.string ≠ e.string)
    (he : e.hash = bfdHashHash e.string) : Keyed (e :: live) := by
  refine ⟨List.forall_mem_cons.2 ⟨he, hk.1⟩, ?_⟩
  rw [List.map_cons, List.nodup_cons]
  refine ⟨fun hmem => ?_, hk.2⟩
  obtain ⟨a, ha, heq⟩ := List.mem_map.1 hmem
  exact hnew a ha heq

theorem Inv.lookup (h : s.Inv) {create copy : Bool}
    (hcalm : s.Calm (.lookup string create copy m)) :
    (s.record (s.table.bfdHashLookup beyond m s.fresh string create copy)).Inv := by
  rw [HashTable.bfdHashLookup]
  cases hf : s.table.find string with
  | some a =>
    have hmem := h.holds.found string
    rw [hf] at hmem
    have hlt := h.holds.below a hmem.1
    rw [record]
    simp only
    rw [if_neg (by omega)]
    exact h
  | none =>
    simp only
    split_ifs with hcreate hcopy
    · exact h
    · exact h
    · have hroom : s.Room m := hcalm hf (by simpa using hcreate) (by simpa using hcopy)
      rcases insert_cases beyond hroom string (bfdHashHash string) with
        heq | ⟨t', heq, ht⟩
      · rw [heq]
        exact h
      · rw [heq, record]
        simp only [if_true]
        refine h.add rfl ht fun hk => Keyed.cons (h.keyed hk) (fun a ha hs => ?_) rfl
        have hnot := h.holds.found string
        rw [hf] at hnot
        have hname : a.string = string := hs
        refine hnot a ha hname ?_
        rw [← hname]
        exact (h.keyed hk).1 a ha

theorem Inv.insert (h : s.Inv) {hash : BitVec 64} (hroom : s.Room m) :
    Inv { s.record (s.table.bfdHashInsert beyond m s.fresh string hash) with
      keyed := s.keyed && decide (hash = bfdHashHash string) && s.unused string } := by
  rcases insert_cases beyond hroom string hash with heq | ⟨t', heq, ht⟩
  · rw [heq]
    refine ⟨h.holds, h.frames, h.ended, fun hk => h.keyed ?_⟩
    simp only [Bool.and_eq_true] at hk
    exact hk.1.1
  · rw [heq, record]
    simp only [if_true]
    refine h.add rfl ht fun hk => ?_
    simp only [Bool.and_eq_true, decide_eq_true_eq] at hk
    exact Keyed.cons (h.keyed hk.1.1) (fun a ha => mem_live_of_unused hk.2 ha) hk.1.2

/-- Names stay apart when one of them becomes a new one. -/
theorem keyed_rename (hk : Keyed live) (hids : (live.map (·.id)).Nodup)
    (hnew : ∀ a ∈ live, a.string ≠ string) :
    Keyed (live.map fun a => if a.id = ent.id then
      { ent with string, hash := bfdHashHash string } else a) := by
  constructor
  · intro a ha
    obtain ⟨b, hb, rfl⟩ := List.mem_map.1 ha
    by_cases hid : b.id = ent.id
    · rw [if_pos hid]
    · rw [if_neg hid]
      exact hk.1 b hb
  · rw [List.map_map]
    refine List.Nodup.map_on ?_ hids.of_map
    intro a ha b hb heq
    simp only [Function.comp_apply] at heq
    by_cases haid : a.id = ent.id <;> by_cases hbid : b.id = ent.id
    · exact List.inj_on_of_nodup_map hids ha hb (haid.trans hbid.symm)
    · rw [if_pos haid, if_neg hbid] at heq
      exact absurd heq.symm (hnew b hb)
    · rw [if_neg haid, if_pos hbid] at heq
      exact absurd heq (hnew a ha)
    · rw [if_neg haid, if_neg hbid] at heq
      exact List.inj_on_of_nodup_map hk.2 ha hb heq

/-- A copy has the name and the hash of what it replaces. -/
theorem keyed_replace (hk : Keyed live) (hids : (live.map (·.id)).Nodup) (hent : ent ∈ live)
    (fresh : Nat) :
    Keyed (live.map fun a => if a.id = ent.id then { ent with id := fresh } else a) := by
  have hsame : ∀ a ∈ live, (if a.id = ent.id then { ent with id := fresh } else a).string =
      a.string ∧ (if a.id = ent.id then { ent with id := fresh } else a).hash = a.hash := by
    intro a ha
    by_cases hid : a.id = ent.id
    · rw [if_pos hid, List.inj_on_of_nodup_map hids ha hent hid]
      exact ⟨rfl, rfl⟩
    · rw [if_neg hid]
      exact ⟨rfl, rfl⟩
  constructor
  · intro a ha
    obtain ⟨b, hb, rfl⟩ := List.mem_map.1 ha
    rw [(hsame b hb).1, (hsame b hb).2]
    exact hk.1 b hb
  · have hnames : (live.map fun a => if a.id = ent.id then { ent with id := fresh } else a).map
        (·.string) = live.map (·.string) := by
      rw [List.map_map]
      exact List.map_congr_left fun a ha => (hsame a ha).1
    rw [hnames]
    exact hk.2

theorem Inv.traverse (h : s.Inv) (hstep : HashState.step s beyond .traverse = some s') : s'.Inv := by
  have hfreeze : Inv { s with table := { s.table with frozen := true } } :=
    ⟨h.holds.same ⟨rfl, rfl⟩, fun f hf => visiting_same (h.frames f hf) ⟨rfl, rfl⟩ le_rfl,
      h.ended, h.keyed⟩
  have hseek := HashTable.seek_cases (t := { s.table with frozen := true }) (Nat.zero_le _)
  simp only [step, Option.some.injEq] at hstep
  subst hstep
  rcases hseek with ⟨hnone, hempty⟩ | ⟨j, q, rem, hsome, hrem, hb⟩
  · rw [hnone]
    refine hfreeze.thaw (fun f hf => hf) List.nodup_nil fun _ r hr => ?_
    have hentries : s.table.entries = [] := hempty
    rw [hentries] at hr
    exact hr
  · rw [hsome]
    have hentries : s.table.entries = q :: rem := hrem
    have hids := h.holds.entries_ids
    rw [hentries, List.map_cons, List.nodup_cons] at hids
    refine ⟨hfreeze.holds, ?_, hfreeze.ended, hfreeze.keyed⟩
    intro f hf
    rcases List.mem_cons.1 hf with rfl | hf
    · refine ⟨rem, hb, List.nodup_singleton _, fun r hr => ?_, fun r hr => ?_⟩
      · rw [List.mem_singleton.1 hr]
        refine ⟨h.holds.below q (h.holds.kept.mem_iff.1 ?_), hids.1⟩
        rw [hentries]
        exact List.mem_cons_self
      · rw [hentries] at hr
        simpa using hr
    · exact hfreeze.frames f hf

theorem Inv.ret (h : s.Inv) {more : Bool} (hstep : HashState.step s beyond (.ret more) = some s') :
    s'.Inv := by
  rw [step] at hstep
  cases hfr : s.frames with
  | nil => simp [hfr] at hstep
  | cons f frames =>
    have hsub : ∀ f ∈ frames, f ∈ s.frames := fun g hg => hfr ▸ List.mem_cons_of_mem f hg
    obtain ⟨rem, hb, hnd, hvis, hstart⟩ := h.frames f (hfr ▸ List.mem_cons_self)
    simp only [hfr] at hstep
    by_cases hmore : more = false
    · rw [if_pos hmore, Option.some.injEq] at hstep
      subst hstep
      exact h.thaw hsub hnd fun hs => by cases hs
    · rw [if_neg hmore, Option.some.injEq] at hstep
      subst hstep
      rcases HashTable.advance_cases h.holds.placed h.holds.entries_ids hb with
        ⟨hnone, rfl⟩ | ⟨j, q, rem', hsome, rfl, hb'⟩
      · rw [hnone]
        refine h.thaw hsub hnd fun _ r hr => ?_
        simpa using hstart r hr
      · rw [hsome]
        refine ⟨h.holds, ?_, h.ended, h.keyed⟩
        intro g hg
        rcases List.mem_cons.1 hg with rfl | hg
        · have hlist := (hb'.sublist.map (·.id)).nodup h.holds.entries_ids
          rw [List.map_cons, List.nodup_cons] at hlist
          refine ⟨rem', hb', List.nodup_cons.2 ⟨fun hq => ?_, hnd⟩, fun r hr => ?_, fun r hr => ?_⟩
          · exact (hvis _ hq).2 (by simp)
          · rcases List.mem_cons.1 hr with rfl | hr
            · refine ⟨h.holds.below q (h.holds.kept.mem_iff.1 ?_), hlist.1⟩
              exact hb'.sublist.subset List.mem_cons_self
            · obtain ⟨hlt, hnot⟩ := hvis r hr
              rw [List.map_cons, List.mem_cons, not_or] at hnot
              exact ⟨hlt, hnot.2⟩
          · have hcase := hstart r hr
            rw [List.map_cons, List.mem_cons] at hcase
            rw [List.mem_cons]
            tauto
        · exact h.frames g (hsub g hg)

theorem Inv.step (h : s.Inv) {ev : HashEvent} (hcalm : s.Calm ev)
    (hstep : HashState.step s beyond ev = some s') : s'.Inv := by
  cases ev with
  | lookup string create copy m =>
    rw [HashState.step, Option.some.injEq] at hstep
    subst hstep
    exact h.lookup hcalm
  | insert string hash m =>
    rw [HashState.step, Option.some.injEq] at hstep
    subst hstep
    exact h.insert hcalm
  | rename string ent =>
    rw [HashState.step] at hstep
    split_ifs at hstep with hlegal
    obtain ⟨hempty, hent, hunused⟩ := hlegal
    obtain ⟨t', ht', hholds⟩ := h.holds.rename hent string
    rw [ht'] at hstep
    cases hstep
    refine ⟨hholds, fun f hf => ?_, h.ended, fun hk => ?_⟩
    · rw [List.isEmpty_iff.1 hempty] at hf
      cases hf
    · exact keyed_rename (h.keyed hk) h.holds.ids fun a ha => mem_live_of_unused hunused ha
  | replace old =>
    rw [HashState.step] at hstep
    split_ifs at hstep with hlegal
    obtain ⟨hempty, hent⟩ := hlegal
    obtain ⟨t', ht', hholds⟩ := h.holds.replace hent
    simp only [ht'] at hstep
    cases hstep
    refine ⟨hholds, fun f hf => ?_, h.ended, fun hk => ?_⟩
    · rw [List.isEmpty_iff.1 hempty] at hf
      cases hf
    · exact keyed_replace (h.keyed hk) h.holds.ids hent _
  | traverse => exact h.traverse hstep
  | ret more => exact h.ret hstep

theorem Inv.run {es : List HashEvent} (h : s.Inv) (hcalm : CalmRun beyond s es)
    (hrun : HashState.run beyond s es = some s') : s'.Inv := by
  induction es generalizing s with
  | nil =>
    cases hrun
    exact h
  | cons ev es ih =>
    rw [HashState.run] at hrun
    cases hstep : HashState.step s beyond ev with
    | none => simp [hstep] at hrun
    | some s₁ =>
      simp only [hstep] at hrun
      obtain ⟨hcalm, hrest⟩ := hcalm
      rw [hstep] at hrest
      exact ih (h.step hcalm hstep) hrest hrun

theorem inv_init {size : Nat} (hpos : 0 < size) : (HashState.init size).Inv := by
  have hnone : (HashState.init size).table.entries = [] := by
    rw [List.eq_nil_iff_forall_not_mem]
    intro a ha
    obtain ⟨i, -, hi⟩ := Buckets.mem_all.1 ha
    cases hi
  refine ⟨⟨hpos, ?_, ?_, List.nodup_nil, ?_⟩, ?_, ?_, fun _ => ⟨?_, List.nodup_nil⟩⟩
  · intro i a ha
    cases ha
  · rw [hnone]
    exact .refl _
  · intro a ha
    cases ha
  · intro f hf
    cases hf
  · intro tr htr
    cases htr
  · intro a ha
    cases ha

/-- A run in which no traversal is run over by a growing table keeps it a map. -/
theorem calm_run_correct {size : Nat} (hpos : 0 < size) {es : List HashEvent}
    (hrun : HashState.run beyond (.init size) es = some s)
    (hcalm : CalmRun beyond (.init size) es) : s.Correct :=
  ((inv_init hpos).run hcalm hrun).correct

/-- All memory there is. -/
def plenty : HashMemory := ⟨true, true, true⟩

/-- A callback that makes an entry while the traversal is the only one. -/
def calmEvents : List HashEvent :=
  [.lookup ⟨[0x61], by decide⟩ true false plenty, .traverse,
    .lookup ⟨[0x62], by decide⟩ true false plenty, .ret true]

theorem calm_run_correct_once : ∃ s, HashState.run 0 (.init 2) calmEvents = some s ∧ s.Correct := by
  have hsome : (HashState.run 0 (.init 2) calmEvents).isSome = true := by decide +kernel
  obtain ⟨s, hs⟩ := Option.isSome_iff_exists.1 hsome
  have hcalm : CalmRun 0 (.init 2) calmEvents := by decide +kernel
  exact ⟨s, hs, calm_run_correct (by decide) hs hcalm⟩

/-- The callback traverses the table itself, and then makes an entry. -/
def nestedEvents : List HashEvent :=
  [.lookup ⟨[0x61], by decide⟩ true false plenty, .traverse, .traverse, .ret true,
    .lookup ⟨[0x62], by decide⟩ true false plenty, .ret true, .ret true, .ret true]

/-- The first entry is visited again in the array that has grown. -/
theorem nested_traversal_repeats : ¬ HashTablesCorrect := by
  intro h
  have hrun : (HashState.run 0 (.init 2) nestedEvents).map (fun s => s.finished.map (·.visited)) =
      some [[1, 0, 0], [0]] := by decide +kernel
  cases hs : HashState.run 0 (.init 2) nestedEvents with
  | none => simp [hs] at hrun
  | some s =>
    rw [hs, Option.map_some, Option.some.injEq] at hrun
    have honce := (h 0 2 (by decide) (by decide) nestedEvents s hs).once.2
    have hmem : [1, 0, 0] ∈ s.finished.map (·.visited) := by
      rw [hrun]
      exact List.mem_cons_self
    obtain ⟨tr, htr, heq⟩ := List.mem_map.1 hmem
    have hnd := honce tr htr
    rw [heq] at hnd
    revert hnd
    decide

end HashState

end FusionBinutils.Bfd
