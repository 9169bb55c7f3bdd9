import Mathlib.Data.List.Forall2
import Mathlib.Data.List.Nodup
import Mathlib.Logic.Function.Basic

/-! The symbol table of a link around an as-needed library (`elf_link_add_object_symbols` of
bfd/elflink.c): it is saved before the symbols of the library are added, and restored when no symbol
has asked for the library. Entries and arrays are at addresses. -/
namespace FusionBinutils.Bfd.AsNeeded

open Function (update)

/-- The type of an entry with what the save and the restore read of its union. -/
inductive Kind where
  | common (size : Nat) (p : Nat)
  | warning (link : Nat)
  | other
  deriving DecidableEq, Repr

/-- `struct elf_link_hash_entry`; `rest` is all else that is in it. -/
structure Entry (β : Type*) where
  next : Option Nat
  kind : Kind
  nonIrRefDynamic : Bool
  rest : β
  deriving DecidableEq, Repr

/-- `struct elf_link_hash_table`, with the entries, the arrays and the alignments of common symbols
in memory. -/
structure Hash (β : Type*) where
  entries : Nat → Entry β
  arrays : Nat → List (Option Nat)
  alignmentPower : Nat → Nat
  table : Nat
  size : Nat
  count : Nat
  undefs : Option Nat
  undefsTail : Option Nat

variable {β : Type*}

/-- The heads of the chains, `table[0]` to `table[size - 1]`. -/
def Hash.heads (s : Hash β) : List (Option Nat) := (s.arrays s.table).take s.size

def Hash.set (s : Hash β) (p : Nat) (e : Entry β) : Hash β :=
  { s with entries := update s.entries p e }

/-- The entry that a warning is for. -/
def Entry.link (e : Entry β) : Option Nat :=
  match e.kind with
  | .warning link => some link
  | _ => none

/-- The entries of a chain as they are copied, each with the one that it is a warning for. -/
def saveChain (s : Hash β) : Nat → Option Nat → Option (List (Entry β))
  | _, none => some []
  | 0, some _ => none
  | fuel + 1, some p =>
    let h := s.entries p
    (saveChain s fuel h.next).map fun old => h :: ((h.link.map s.entries).toList ++ old)

/-- What is kept of the table: `old_table`, `old_size`, `old_count`, `old_undefs`,
`old_undefs_tail`, and the two parts of `old_tab`. -/
structure Saved (β : Type*) where
  table : Nat
  size : Nat
  count : Nat
  undefs : Option Nat
  undefsTail : Option Nat
  tab : List (Option Nat)
  ents : List (Entry β)

/-- The clone of the symbol table. -/
def save (fuel : Nat) (s : Hash β) : Option (Saved β) :=
  (s.heads.mapM (saveChain s fuel)).map fun old =>
    ⟨s.table, s.size, s.count, s.undefs, s.undefsTail, s.heads, old.flatten⟩

/-- The sizes and alignments that common symbols have come to, and `non_ir_ref_dynamic`, which the
restored entry `h` keeps. -/
def preserve (h size power : Nat) (nonIrRefDynamic : Bool) (s : Hash β) : Hash β :=
  let s :=
    match (s.entries h).kind with
    | .common old p =>
      let s := if old < size then s.set h { s.entries h with kind := .common size p } else s
      if s.alignmentPower p < power then
        { s with alignmentPower := update s.alignmentPower p power }
      else s
    | _ => s
  s.set h { s.entries h with nonIrRefDynamic }

/-- The entry that a warning is for, or else the entry itself. -/
def Hash.target (s : Hash β) (p : Nat) : Nat := (s.entries p).link.getD p

/-- The size of a common symbol. -/
def Entry.commonSize (e : Entry β) : Nat :=
  match e.kind with
  | .common size _ => size
  | _ => 0

/-- The alignment of a common symbol. -/
def Hash.power (s : Hash β) (e : Entry β) : Nat :=
  match e.kind with
  | .common _ p => s.alignmentPower p
  | _ => 0

/-- The body of the loop that restores the entries, with what is left of the copies. -/
def restoreEntry (p : Nat) (old : List (Entry β)) (s : Hash β) :
    Option (List (Entry β) × Hash β) :=
  let h := s.entries (s.target p)
  match old with
  | [] => none
  | e :: old =>
    let t := s.set p e
    match e.link with
    | none => some (old, preserve p h.commonSize (s.power h) h.nonIrRefDynamic t)
    | some link =>
      match old with
      | [] => none
      | e :: old =>
        some (old, preserve link h.commonSize (s.power h) h.nonIrRefDynamic (t.set link e))

def restoreChain : Nat → Option Nat → List (Entry β) → Hash β →
    Option (List (Entry β) × Hash β)
  | _, none, old, s => some (old, s)
  | 0, some _, _, _ => none
  | fuel + 1, some p, old, s =>
    (restoreEntry p old s).bind fun r => restoreChain fuel (r.2.entries p).next r.1 r.2

/-- The symbol table is restored. -/
def restore (fuel : Nat) (saved : Saved β) (s : Hash β) : Option (Hash β) :=
  let s : Hash β :=
    { s with
      table := saved.table
      size := saved.size
      count := saved.count
      arrays := update s.arrays saved.table
        (saved.tab ++ (s.arrays saved.table).drop saved.tab.length)
      undefs := saved.undefs
      undefsTail := saved.undefsTail }
  (s.heads.foldlM (fun r head => restoreChain fuel head r.1 r.2) (saved.ents, s)).map Prod.snd

variable {s s' s₀ s₁ s₂ : Hash β} {e now : Entry β} {p a q h : Nat} {l done : List Nat}
  {head : Option Nat} {old ents : List (Entry β)} {fuel : Nat}

/-- The links lead from `head` over the entries of `l`, and end there. -/
inductive Chain (next : Nat → Option Nat) : Option Nat → List Nat → Prop
  | nil : Chain next none []
  | cons {p : Nat} {l : List Nat} (h : Chain next (next p) l) : Chain next (some p) (p :: l)

/-- An entry of a chain, and the one that it is a warning for. -/
def Hash.cells (s : Hash β) (p : Nat) : List Nat := p :: (s.entries p).link.toList

/-- The chains of the table; no entry is in two of them or behind two warnings. -/
structure WellFormed (s : Hash β) (chains : List (List Nat)) : Prop where
  linked : List.Forall₂ (Chain fun p => (s.entries p).next) (s.arrays s.table) chains
  size : (s.arrays s.table).length = s.size
  nodup : (chains.flatten.flatMap s.cells).Nodup

/-- A restored entry, with what is kept of the entry as it is `now`. -/
def Entry.keep (e now : Entry β) : Entry β :=
  { e with
    kind := match e.kind with
      | .common size p => .common (max size now.commonSize) p
      | k => k
    nonIrRefDynamic := now.nonIrRefDynamic }

theorem mem_cells : a ∈ s.cells p ↔ a = p ∨ (s.entries p).link = some a := by
  rw [Hash.cells, List.mem_cons, Option.mem_toList]

theorem target_mem_cells : s.target p ∈ s.cells p := by
  rw [mem_cells, Hash.target]
  cases (s.entries p).link with
  | none => exact .inl rfl
  | some link => exact .inr rfl

theorem set_entries (s : Hash β) (p : Nat) (e : Entry β) : (s.set p e).entries p = e :=
  Function.update_self ..

theorem set_entries_of_ne (e : Entry β) (h : a ≠ p) : (s.set p e).entries a = s.entries a :=
  Function.update_of_ne h ..

/-- What no entry has a part in. -/
structure Frame (s s' : Hash β) : Prop where
  arrays : s'.arrays = s.arrays
  table : s'.table = s.table
  size : s'.size = s.size
  count : s'.count = s.count
  undefs : s'.undefs = s.undefs
  undefsTail : s'.undefsTail = s.undefsTail
  power : ∀ q, s.alignmentPower q ≤ s'.alignmentPower q

theorem Frame.refl (s : Hash β) : Frame s s :=
  ⟨rfl, rfl, rfl, rfl, rfl, rfl, fun _ => Nat.le_refl _⟩

theorem Frame.trans (h₁ : Frame s s₁) (h₂ : Frame s₁ s₂) : Frame s s₂ :=
  ⟨h₂.arrays.trans h₁.arrays, h₂.table.trans h₁.table, h₂.size.trans h₁.size,
    h₂.count.trans h₁.count, h₂.undefs.trans h₁.undefs, h₂.undefsTail.trans h₁.undefsTail,
    fun q => Nat.le_trans (h₁.power q) (h₂.power q)⟩

theorem frame_set (s : Hash β) (p : Nat) (e : Entry β) : Frame s (s.set p e) :=
  ⟨rfl, rfl, rfl, rfl, rfl, rfl, fun _ => Nat.le_refl _⟩

theorem frame_power {power : Nat} (hp : s.alignmentPower q < power) :
    Frame s { s with alignmentPower := update s.alignmentPower q power } := by
  refine ⟨rfl, rfl, rfl, rfl, rfl, rfl, fun q' => ?_⟩
  dsimp only
  by_cases hq : q' = q
  · rw [hq, Function.update_self]
    exact Nat.le_of_lt hp
  · have heq : update s.alignmentPower q power q' = s.alignmentPower q' :=
      Function.update_of_ne hq ..
    exact Nat.le_of_eq heq.symm

theorem preserve_spec (s : Hash β) (now : Entry β) (h power : Nat) :
    Frame s (preserve h now.commonSize power now.nonIrRefDynamic s) ∧
      (preserve h now.commonSize power now.nonIrRefDynamic s).entries =
        update s.entries h ((s.entries h).keep now) ∧
      ∀ size q, (s.entries h).kind = .common size q →
        power ≤ (preserve h now.commonSize power now.nonIrRefDynamic s).alignmentPower q := by
  unfold preserve
  cases hk : (s.entries h).kind with
  | common old p =>
    dsimp only
    -- the size is the larger one
    have hsize : ∀ size, (if old < size then s.set h { s.entries h with kind := .common size p }
        else s) = s.set h { s.entries h with kind := .common (max old size) p } := by
      intro size
      by_cases hlt : old < size
      · rw [if_pos hlt, Nat.max_eq_right (Nat.le_of_lt hlt)]
      · rw [if_neg hlt, Nat.max_eq_left (Nat.le_of_not_lt hlt), ← hk]
        unfold Hash.set
        rw [Function.update_eq_self]
    rw [hsize]
    have hpower : (s.set h { s.entries h with kind := .common (max old now.commonSize) p
        }).alignmentPower = s.alignmentPower := rfl
    have hkeep : (s.entries h).keep now = { s.entries h with
        kind := .common (max old now.commonSize) p, nonIrRefDynamic := now.nonIrRefDynamic } := by
      unfold Entry.keep
      rw [hk]
    rw [hkeep]
    by_cases hp : s.alignmentPower p < power
    · rw [hpower, if_pos hp]
      refine ⟨⟨rfl, rfl, rfl, rfl, rfl, rfl, (frame_power hp).power⟩, ?_, ?_⟩
      · simp [Hash.set]
      · rintro size q ⟨⟩
        simp [Hash.set]
    · rw [hpower, if_neg hp]
      refine ⟨⟨rfl, rfl, rfl, rfl, rfl, rfl, fun _ => Nat.le_refl _⟩, ?_, ?_⟩
      · simp [Hash.set]
      · rintro size q ⟨⟩
        exact Nat.le_of_not_lt hp
  | warning link =>
    refine ⟨frame_set .., ?_, fun _ _ => nofun⟩
    simp [Hash.set, Entry.keep, hk]
  | other =>
    refine ⟨frame_set .., ?_, fun _ _ => nofun⟩
    simp [Hash.set, Entry.keep, hk]

/-- The copies of an entry and of the one that it is a warning for. -/
def Hash.images (s : Hash β) (p : Nat) : List (Entry β) := (s.cells p).map s.entries

/-- The copies of an entry are put back. -/
theorem restoreEntry_spec (s s₁ : Hash β) (old : List (Entry β)) (hp : (s.cells p).Nodup) :
    ∃ s₂, restoreEntry p (s.images p ++ old) s₁ = some (old, s₂) ∧ Frame s₁ s₂ ∧
      (∀ a, a ∉ s.cells p → s₂.entries a = s₁.entries a) ∧
      (∀ a ∈ s.cells p, a ≠ s.target p → s₂.entries a = s.entries a) ∧
      s₂.entries (s.target p) = (s.entries (s.target p)).keep (s₁.entries (s₁.target p)) ∧
      ∀ size q, (s.entries (s.target p)).kind = .common size q →
        s₁.power (s₁.entries (s₁.target p)) ≤ s₂.alignmentPower q := by
  unfold restoreEntry Hash.images
  generalize s₁.entries (s₁.target p) = now
  unfold Hash.cells at *
  cases hlink : (s.entries p).link with
  | none =>
    have htarget : s.target p = p := by
      rw [Hash.target, hlink]
      rfl
    obtain ⟨hframe, hentries, hpower⟩ := preserve_spec (s₁.set p (s.entries p)) now p
      (s₁.power now)
    rw [set_entries] at hentries hpower
    simp only [Option.toList_none, List.map_cons, List.map_nil, List.cons_append, List.nil_append,
      hlink, htarget]
    refine ⟨_, rfl, (frame_set ..).trans hframe, fun a ha => ?_, fun a ha hne => ?_, ?_, hpower⟩
    · rw [List.mem_singleton] at ha
      rw [hentries, Function.update_of_ne ha, set_entries_of_ne _ ha]
    · exact absurd (List.mem_singleton.mp ha) hne
    · rw [hentries, Function.update_self]
  | some link =>
    have htarget : s.target p = link := by
      rw [Hash.target, hlink]
      rfl
    have hne : p ≠ link := by
      rw [hlink] at hp
      simpa using hp
    obtain ⟨hframe, hentries, hpower⟩ := preserve_spec
      ((s₁.set p (s.entries p)).set link (s.entries link)) now link (s₁.power now)
    rw [set_entries] at hentries hpower
    simp only [Option.toList_some, List.map_cons, List.map_nil, List.cons_append, List.nil_append,
      hlink, htarget]
    refine ⟨_, rfl, ((frame_set ..).trans (frame_set ..)).trans hframe, fun a ha => ?_,
      fun a ha hne' => ?_, ?_, hpower⟩
    · simp only [List.mem_cons, List.not_mem_nil, or_false, not_or] at ha
      rw [hentries, Function.update_of_ne ha.2, set_entries_of_ne _ ha.2, set_entries_of_ne _ ha.1]
    · obtain rfl : a = p := by simpa [hne'] using ha
      rw [hentries, Function.update_of_ne hne, set_entries_of_ne _ hne, set_entries]
    · rw [hentries, Function.update_self]

/-- The entries `done` have been restored in a table that came as `s'`. -/
structure Restored (s s' : Hash β) (done : List Nat) (s₁ : Hash β) : Prop where
  frame : Frame s' s₁
  rest : ∀ a, a ∉ done.flatMap s.cells → s₁.entries a = s'.entries a
  warnings : ∀ p ∈ done, ∀ a ∈ s.cells p, a ≠ s.target p → s₁.entries a = s.entries a
  kept : ∀ p ∈ done, ∃ now, s₁.entries (s.target p) = (s.entries (s.target p)).keep now ∧
    (s'.target p = s.target p → now = s'.entries (s.target p))
  power : ∀ p ∈ done, s'.target p = s.target p → ∀ size q,
    (s.entries (s.target p)).kind = .common size q →
      s'.power (s'.entries (s.target p)) ≤ s₁.alignmentPower q

theorem restored_nil (s s' : Hash β) : Restored s s' [] s' :=
  ⟨.refl s', fun _ _ => rfl, List.forall_mem_nil _, List.forall_mem_nil _, List.forall_mem_nil _⟩

theorem Frame.power_le (h : Frame s s') (e : Entry β) : s.power e ≤ s'.power e := by
  unfold Hash.power
  split
  · exact h.power _
  · exact Nat.le_refl _

/-- One more entry is restored. -/
theorem Restored.step (h : Restored s s' done s₁)
    (hcells : ((done ++ [p]).flatMap s.cells).Nodup) (old : List (Entry β)) :
    ∃ s₂, restoreEntry p (s.images p ++ old) s₁ = some (old, s₂) ∧
      Restored s s' (done ++ [p]) s₂ := by
  rw [List.flatMap_append, List.flatMap_singleton, List.nodup_append] at hcells
  obtain ⟨-, hp, hdisjoint⟩ := hcells
  obtain ⟨s₂, hrun, hframe, hrest, hwarning, hkept, hpower⟩ := restoreEntry_spec s s₁ old hp
  have hold : ∀ p' ∈ done, ∀ a ∈ s.cells p', s₂.entries a = s₁.entries a := by
    intro p' hp' a ha
    refine hrest a fun hmem => hdisjoint a (List.mem_flatMap.mpr ⟨p', hp', ha⟩) a hmem rfl
  have hfresh : ∀ a ∈ s.cells p, s₁.entries a = s'.entries a := fun a ha =>
    h.rest a fun hmem => hdisjoint a hmem a ha rfl
  have hpcell : p ∈ s.cells p := mem_cells.mpr (.inl rfl)
  have htarget : s₁.target p = s'.target p := by
    unfold Hash.target
    rw [hfresh p hpcell]
  refine ⟨s₂, hrun, h.frame.trans hframe, fun a ha => ?_, fun p' hp' a ha hne => ?_,
    fun p' hp' => ?_, fun p' hp' heq size q hq => ?_⟩
  · rw [List.flatMap_append, List.flatMap_singleton, List.mem_append, not_or] at ha
    rw [hrest a ha.2, h.rest a ha.1]
  · rcases List.mem_append.mp hp' with hp' | hp'
    · rw [hold p' hp' a ha, h.warnings p' hp' a ha hne]
    · cases List.mem_singleton.mp hp'
      exact hwarning a ha hne
  · rcases List.mem_append.mp hp' with hp' | hp'
    · obtain ⟨now, hnow, heq⟩ := h.kept p' hp'
      exact ⟨now, (hold p' hp' _ target_mem_cells).trans hnow, heq⟩
    · cases List.mem_singleton.mp hp'
      refine ⟨_, hkept, fun heq => ?_⟩
      rw [htarget, heq, hfresh _ target_mem_cells]
  · rcases List.mem_append.mp hp' with hp' | hp'
    · exact Nat.le_trans (h.power p' hp' heq size q hq) (hframe.power q)
    · cases List.mem_singleton.mp hp'
      have hle := hpower size q hq
      rw [htarget, heq, hfresh _ target_mem_cells] at hle
      exact Nat.le_trans (h.frame.power_le _) hle

/-- The next entry of a chain is where it was. -/
theorem Restored.next (h : Restored s s' done s₁) (hp : p ∈ done) :
    (s₁.entries p).next = (s.entries p).next := by
  by_cases heq : p = s.target p
  · obtain ⟨now, hnow, -⟩ := h.kept p hp
    rw [← heq] at hnow
    rw [hnow]
    rfl
  · rw [h.warnings p hp p (mem_cells.mpr (.inl rfl)) heq]

theorem Restored.chain (h : Restored s s' done s₁) (hl : Chain (fun p => (s.entries p).next) head l)
    (hcells : ((done ++ l).flatMap s.cells).Nodup) (hfuel : l.length ≤ fuel)
    (old : List (Entry β)) :
    ∃ s₂, restoreChain fuel head (l.flatMap s.images ++ old) s₁ = some (old, s₂) ∧
      Restored s s' (done ++ l) s₂ := by
  induction hl generalizing done s₁ fuel with
  | nil =>
    refine ⟨s₁, by cases fuel <;> rfl, ?_⟩
    rw [List.append_nil]
    exact h
  | @cons p l _ ih =>
    cases fuel with
    | zero => exact absurd hfuel (Nat.not_succ_le_zero _)
    | succ fuel =>
      rw [← List.singleton_append, ← List.append_assoc] at hcells
      have hfirst : ((done ++ [p]).flatMap s.cells).Nodup := by
        rw [List.flatMap_append] at hcells
        exact (List.nodup_append.mp hcells).1
      obtain ⟨s₂, hrun, h₂⟩ := h.step hfirst (l.flatMap s.images ++ old)
      obtain ⟨s₃, hrest, h₃⟩ := ih h₂ hcells (Nat.le_of_succ_le_succ hfuel)
      refine ⟨s₃, ?_, by rwa [List.append_assoc] at h₃⟩
      rw [List.flatMap_cons, List.append_assoc, restoreChain, hrun, Option.bind_some,
        h₂.next (List.mem_append_right _ List.mem_cons_self)]
      exact hrest

theorem saveChain_spec (hl : Chain (fun p => (s.entries p).next) head l) (hfuel : l.length ≤ fuel) :
    saveChain s fuel head = some (l.flatMap s.images) := by
  induction hl generalizing fuel with
  | nil => cases fuel <;> rfl
  | @cons p l _ ih =>
    cases fuel with
    | zero => exact absurd hfuel (Nat.not_succ_le_zero _)
    | succ fuel =>
      rw [saveChain, ih (Nat.le_of_succ_le_succ hfuel), Option.map_some, List.flatMap_cons,
        Hash.images, Hash.cells, List.map_cons]
      cases (s.entries p).link <;> rfl

theorem saveChains_spec {heads : List (Option Nat)} {chains : List (List Nat)}
    (hl : List.Forall₂ (Chain fun p => (s.entries p).next) heads chains)
    (hfuel : ∀ l ∈ chains, l.length ≤ fuel) :
    heads.mapM (saveChain s fuel) = some (chains.map (·.flatMap s.images)) := by
  induction hl with
  | nil => rfl
  | @cons head l heads chains hhead _ ih =>
    rw [List.mapM_cons, saveChain_spec hhead (hfuel l List.mem_cons_self),
      ih fun l' hl' => hfuel l' (List.mem_cons_of_mem l hl')]
    rfl

theorem Restored.chains {heads : List (Option Nat)} {chains : List (List Nat)}
    (h : Restored s s' done s₁)
    (hl : List.Forall₂ (Chain fun p => (s.entries p).next) heads chains)
    (hfuel : ∀ l ∈ chains, l.length ≤ fuel)
    (hcells : ((done ++ chains.flatten).flatMap s.cells).Nodup) :
    ∃ s₂, heads.foldlM (fun r head => restoreChain fuel head r.1 r.2)
        ((chains.map (·.flatMap s.images)).flatten, s₁) = some ([], s₂) ∧
      Restored s s' (done ++ chains.flatten) s₂ := by
  induction hl generalizing done s₁ with
  | nil =>
    refine ⟨s₁, rfl, ?_⟩
    rw [List.flatten_nil, List.append_nil]
    exact h
  | @cons head l heads chains hhead _ ih =>
    rw [List.flatten_cons, ← List.append_assoc] at hcells
    have hfirst : ((done ++ l).flatMap s.cells).Nodup := by
      rw [List.flatMap_append] at hcells
      exact (List.nodup_append.mp hcells).1
    obtain ⟨s₂, hrun, h₂⟩ := h.chain hhead hfirst (hfuel l List.mem_cons_self)
      (chains.map (·.flatMap s.images)).flatten
    obtain ⟨s₃, hrest, h₃⟩ := ih h₂ (fun l' hl' => hfuel l' (List.mem_cons_of_mem l hl')) hcells
    refine ⟨s₃, ?_, by rwa [List.append_assoc] at h₃⟩
    rw [List.map_cons, List.flatten_cons, List.foldlM_cons, hrun]
    exact hrest

theorem Chain.congr {next next' : Nat → Option Nat} (h : Chain next head l)
    (hnext : ∀ p ∈ l, next' p = next p) : Chain next' head l := by
  induction h with
  | nil => exact .nil
  | @cons p l _ ih =>
    refine .cons ?_
    rw [hnext p List.mem_cons_self]
    exact ih fun q hq => hnext q (List.mem_cons_of_mem p hq)

theorem chains_congr {next next' : Nat → Option Nat} {heads : List (Option Nat)}
    {chains : List (List Nat)} (h : List.Forall₂ (Chain next) heads chains)
    (hnext : ∀ p ∈ chains.flatten, next' p = next p) : List.Forall₂ (Chain next') heads chains := by
  induction h with
  | nil => exact .nil
  | cons hhead _ ih =>
    rw [List.flatten_cons] at hnext
    exact .cons (hhead.congr fun p hp => hnext p (List.mem_append_left _ hp))
      (ih fun p hp => hnext p (List.mem_append_right _ hp))

theorem link_keep (e now : Entry β) : (e.keep now).link = e.link := by
  unfold Entry.keep Entry.link
  cases e.kind <;> rfl

theorem Restored.cells (h : Restored s s' done s₁) (hp : p ∈ done) : s₁.cells p = s.cells p := by
  unfold Hash.cells
  by_cases heq : p = s.target p
  · obtain ⟨now, hnow, -⟩ := h.kept p hp
    rw [← heq] at hnow
    rw [hnow, link_keep]
  · rw [h.warnings p hp p (mem_cells.mpr (.inl rfl)) heq]

/-- What the restore makes of a table that came as `s'`, where the one that was saved is `s` with
the chains `chains`. -/
structure Undone (s s' : Hash β) (chains : List (List Nat)) (s₂ : Hash β) : Prop where
  table : s₂.table = s.table
  size : s₂.size = s.size
  count : s₂.count = s.count
  undefs : s₂.undefs = s.undefs
  undefsTail : s₂.undefsTail = s.undefsTail
  /-- the table has the chains that it had -/
  wellFormed : WellFormed s₂ chains
  /-- an entry that has a warning before it is as it was up to what is preserved, and so is an entry
  without one; a warning is as it was -/
  restored : ∀ p ∈ chains.flatten,
    (∀ a ∈ s.cells p, a ≠ s.target p → s₂.entries a = s.entries a) ∧
      ∃ now, s₂.entries (s.target p) = (s.entries (s.target p)).keep now ∧
        (s'.target p = s.target p → now = s'.entries (s.target p))
  /-- no common symbol has come to a lower alignment -/
  alignments : (∀ q, s'.alignmentPower q ≤ s₂.alignmentPower q) ∧ ∀ p ∈ chains.flatten,
    s'.target p = s.target p → ∀ size q, (s.entries (s.target p)).kind = .common size q →
      s'.power (s'.entries (s.target p)) ≤ s₂.alignmentPower q
  /-- all other memory is as it came -/
  rest : ∀ a, a ∉ chains.flatten.flatMap s.cells → s₂.entries a = s'.entries a

/-- Two chains, with a warning before a common symbol. -/
def linkedTable : Hash String where
  entries
    | 1 => ⟨some 2, .other, false, "main"⟩
    | 2 => ⟨none, .warning 3, false, "gets"⟩
    | 3 => ⟨none, .common 4 90, false, "gets"⟩
    | 5 => ⟨none, .other, false, "exit"⟩
    | _ => ⟨none, .other, false, ""⟩
  arrays _ := [some 1, none, some 5]
  alignmentPower _ := 2
  table := 100
  size := 3
  count := 3
  undefs := some 1
  undefsTail := some 5

/-- The same memory after a library has added symbols, and the array has grown. -/
def grownTable : Hash String where
  entries
    | 1 => ⟨none, .other, true, "main"⟩
    | 2 => ⟨some 1, .warning 3, false, "gets"⟩
    | 3 => ⟨some 7, .common 16 91, true, "gets"⟩
    | 5 => ⟨some 6, .common 8 92, false, "exit"⟩
    | _ => ⟨none, .other, false, "puts"⟩
  arrays
    | 100 => [some 1, some 7, some 2]
    | _ => [some 2, none, some 5, some 3, none, some 7]
  alignmentPower q := if q = 91 then 4 else 2
  table := 200
  size := 6
  count := 5
  undefs := none
  undefsTail := none

theorem linkedTable_wellFormed : WellFormed linkedTable [[1, 2], [], [5]] where
  linked := .cons (.cons (.cons .nil)) (.cons .nil (.cons (.cons .nil) .nil))
  size := rfl
  nodup := by decide

/-- The common symbol has come to the larger size and alignment. -/
example : ((save 2 linkedTable).bind fun saved => (restore 2 saved grownTable).map fun s =>
    ([1, 2, 3, 5].map s.entries, s.alignmentPower 90)) =
      some ([⟨some 2, .other, true, "main"⟩, ⟨none, .warning 3, false, "gets"⟩,
        ⟨none, .common 16 90, true, "gets"⟩, ⟨none, .other, false, "exit"⟩], 4) := by
  decide +kernel

end FusionBinutils.Bfd.AsNeeded
