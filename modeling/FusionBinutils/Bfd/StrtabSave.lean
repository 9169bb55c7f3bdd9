import FusionBinutils.Bfd.StrtabBytes

/-! The ELF string table with its hash table, which is saved and restored. -/
namespace FusionBinutils.Bfd.Strtab

open Cells

/-- `struct elf_strtab_hash` with the entries of its hash table at the positions below `count`. An
entry stays in the hash table when the array loses it. The array leaves out index 0. -/
structure Table where
  heap : Nat → Entry
  count : Nat
  array : List Nat
  alloced : Nat
  secSize : Nat

def Table.size (t : Table) : Nat := t.array.length + 1

/-- The entries that the array points to. -/
def Table.entries (t : Table) : List Entry := t.array.map t.heap

def Table.setEntry (t : Table) (i : Nat) (e : Entry) : Table :=
  { t with heap := Function.update t.heap i e }

/-- `elf_strtab_hash_newfunc`; the index is `-1`. -/
def newEntry (str : CStr) : Entry := ⟨str, 0, 0, .index (2 ^ 64 - 1)⟩

/-- `bfd_hash_lookup`, told to create an entry that is not there. -/
def Table.hashLookup (t : Table) (str : CStr) (lookupOk : Bool) : Option (Nat × Table) :=
  match (List.range t.count).find? fun i => (t.heap i).string == str with
  | some i => some (i, t)
  | none =>
    if lookupOk then some (t.count, { t.setEntry t.count (newEntry str) with count := t.count + 1 })
    else none

/-- `_bfd_elf_strtab_init`. -/
def Table.init : Table := ⟨fun _ => newEntry ⟨[], by simp, by simp⟩, 0, [], 64, 0⟩

/-- The end of `_bfd_elf_strtab_add`, on the entry that the hash table gave. -/
def Table.addEntry (t : Table) (i : Nat) (str : CStr) (reallocOk : Bool) :
    Option (Option Nat × Table) :=
  let entry := (t.heap i).setRefcount ((t.heap i).refcount + 1)
  if entry.len = 0 then
    if t.size = t.alloced ∧ !reallocOk then none
    else
      let entry : Entry := ⟨entry.string, str.chars.length + 1, entry.refcount, .index t.size⟩
      let alloced := if t.size = t.alloced then t.alloced * 2 else t.alloced
      let array := t.array ++ [i]
      some (some t.size, { t.setEntry i entry with array := array, alloced := alloced })
  else
    match entry.u with
    | .index n => some (some n, t.setEntry i entry)
    | .suffix _ => none

/-- `_bfd_elf_strtab_add`, with the answers of `strtabAdd`. -/
def Table.add (t : Table) (str : CStr) (lookupOk reallocOk : Bool) : Option (Option Nat × Table) :=
  if str.chars = [] then some (some 0, t)
  else
    match t.hashLookup str lookupOk with
    | none => some (none, t)
    | some (i, t) => t.addEntry i str reallocOk

/-- `_bfd_elf_strtab_addref` and `_bfd_elf_strtab_delref`. -/
def Table.changeRef (f : BitVec 32 → BitVec 32) (t : Table) : Option Nat → Option Table
  | none | some 0 => some t
  | some (k + 1) => do
    let i ← t.array[k]?
    some (t.setEntry i ((t.heap i).setRefcount (f (t.heap i).refcount)))

/-- `_bfd_elf_strtab_clear_all_refs`. -/
def Table.clearAllRefs (t : Table) : Table :=
  let heap := t.array.foldl
    (fun heap i => Function.update heap i ((heap i).setRefcount 0)) t.heap
  { t with heap := heap }

/-- `_bfd_elf_strtab_refcount`. -/
def Table.refcount (t : Table) : Nat → Option (BitVec 32)
  | 0 => none
  | k + 1 => t.entries[k]?.map Entry.refcount

/-- `struct strtab_save`. -/
structure Save where
  refcount : List (BitVec 32)

def Save.size (save : Save) : Nat := save.refcount.length + 1

/-- `_bfd_elf_strtab_save`. -/
def Table.save (t : Table) : Save := ⟨t.entries.map Entry.refcount⟩

/-- What the second loop of `_bfd_elf_strtab_restore` does to an entry. -/
def Entry.forget (e : Entry) : Entry := { e with refcount := 0, len := 0 }

/-- `_bfd_elf_strtab_restore`; a save of more strings than the table has fails an assertion. -/
def Table.restore (t : Table) (save : Save) : Option Table :=
  if t.size < save.size then none
  else
    let n := save.refcount.length
    let heap := ((t.array.take n).zip save.refcount).foldl
      (fun heap p => Function.update heap p.1 ((heap p.1).setRefcount p.2)) t.heap
    let heap := (t.array.drop n).foldl
      (fun heap i => Function.update heap i (heap i).forget) heap
    some { t with heap := heap, array := t.array.take n }

/-- `_bfd_elf_strtab_finalize`, which reads and writes the entries of the array alone. -/
def Table.finalize (mallocOk : Bool) (t : Table) : Option Tab :=
  strtabFinalize mallocOk ⟨t.entries, t.alloced, t.secSize⟩

/-- `_bfd_elf_strtab_offset` for several indices in turn. -/
def strtabOffsets : Tab → List Nat → Option (List Nat × Tab)
  | tab, [] => some ([], tab)
  | tab, idx :: idxs => do
    let (off, tab) ← strtabOffset tab idx
    let (offs, tab) ← strtabOffsets tab idxs
    some (off :: offs, tab)

/-! Sequences of calls. -/

/-- The calls before the table is finalized. -/
inductive Op where
  | call (c : Call)
  | clearAllRefs
  | refcount (idx : Nat)
  | size
  | save (mallocOk : Bool)
  | restore

/-- The table and what was saved of it and not restored yet, the last save first. -/
structure Machine where
  table : Table
  saves : List Save

def Machine.start : Machine := ⟨.init, []⟩

/-- A call on the table; the answer of `add` is an index, that of the others nothing. -/
def Table.call (t : Table) : Call → Option (List (Option Nat) × Table)
  | .add str lookupOk reallocOk => (t.add str lookupOk reallocOk).map fun r => ([r.1], r.2)
  | .addref idx => (t.changeRef (· + 1) idx).map fun t => ([], t)
  | .delref idx => (t.changeRef (· - 1) idx).map fun t => ([], t)

/-- The answers of an operation, where `none` says that memory was lacking. -/
def Machine.step (m : Machine) : Op → Option (List (Option Nat) × Machine)
  | .call c => (m.table.call c).map fun r => (r.1, { m with table := r.2 })
  | .clearAllRefs => some ([], { m with table := m.table.clearAllRefs })
  | .refcount idx => (m.table.refcount idx).map fun r => ([some r.toNat], m)
  | .size => some ([some m.table.size], m)
  | .save mallocOk =>
    if mallocOk then some ([], { m with saves := m.table.save :: m.saves })
    else some ([none], m)
  | .restore =>
    match m.saves with
    | [] => none
    | save :: saves => (m.table.restore save).map fun t => ([], ⟨t, saves⟩)

def Machine.run : Machine → List Op → Option (List (Option Nat) × Machine)
  | m, [] => some ([], m)
  | m, op :: ops => do
    let (ans, m) ← m.step op
    let (rest, m) ← m.run ops
    some (ans ++ rest, m)

/-! What every operation keeps. -/

/-- Strings are in the hash table once and in the array at most once, and an entry that is not in
the array has no length and no references. -/
structure Table.WF (t : Table) : Prop where
  unique : ∀ i < t.count, ∀ j < t.count, (t.heap i).string = (t.heap j).string → i = j
  nodup : t.array.Nodup
  bound : ∀ i ∈ t.array, i < t.count
  fresh : ∀ k e, t.entries[k]? = some e → Fresh e k
  stale : ∀ i < t.count, i ∉ t.array → (t.heap i).len = 0 ∧ (t.heap i).refcount = 0
  room : t.size ≤ t.alloced

/-- The string has an entry in the hash table. -/
def Table.Knows (t : Table) (str : CStr) : Prop := ∃ i < t.count, (t.heap i).string = str

/-- What an operation leaves, when `entries` is what the array points to after it and `alloced` the
room for it, and `new` has entered the hash table. -/
structure Leaves (t t' : Table) (entries : List Entry) (alloced : Nat) (new : CStr → Prop) :
    Prop where
  wf : t'.WF
  entries : t'.entries = entries
  alloced : t'.alloced = alloced
  knows : ∀ str, t'.Knows str ↔ t.Knows str ∨ new str
  secSize : t'.secSize = t.secSize

variable {t t' : Table} {str : CStr} {e : Entry} {i k : Nat}

theorem entries_length : t.entries.length = t.array.length := List.length_map _

theorem size_eq : t.size = t.entries.length + 1 := by
  rw [entries_length, Table.size]

theorem entries_getElem? (h : t.array[k]? = some i) : t.entries[k]? = some (t.heap i) := by
  rw [Table.entries, List.getElem?_map, h, Option.map_some]

theorem array_of_entries (h : t.entries[k]? = some e) :
    ∃ i, t.array[k]? = some i ∧ t.heap i = e := by
  rw [Table.entries, List.getElem?_map] at h
  exact Option.map_eq_some_iff.mp h

/-- Only counts and lengths of entries are written, and the array keeps its first `n` entries. -/
theorem Table.WF.setHeap (h : t.WF) (heap : Nat → Entry) (n : Nat)
    (hstr : ∀ i, (heap i).string = (t.heap i).string)
    (hin : ∀ i ∈ t.array.take n, (heap i).len = (t.heap i).len ∧ (heap i).u = (t.heap i).u)
    (hout : ∀ i, i ∉ t.array.take n → heap i = t.heap i ∧ i ∉ t.array ∨
      (heap i).len = 0 ∧ (heap i).refcount = 0) :
    Leaves t { t with heap := heap, array := t.array.take n } ((t.array.take n).map heap)
      t.alloced (fun _ => False) := by
  refine ⟨⟨?_, ?_, ?_, ?_, ?_, ?_⟩, rfl, rfl, ?_, rfl⟩
  · intro i hi j hj heq
    exact h.unique i hi j hj (by rw [← hstr i, ← hstr j]; exact heq)
  · exact (List.take_sublist n t.array).nodup h.nodup
  · exact fun i hi => h.bound i (List.mem_of_mem_take hi)
  · intro k e he
    obtain ⟨i, hi, rfl⟩ := array_of_entries he
    have hi : (t.array.take n)[k]? = some i := hi
    obtain ⟨hlen, hu⟩ := hin i (List.mem_of_getElem? hi)
    have hk : t.array[k]? = some i := by
      rw [List.getElem?_take] at hi
      split at hi
      · exact hi
      · cases hi
    have hf := h.fresh k _ (entries_getElem? hk)
    refine ⟨?_, hu.trans hf.u⟩
    change (heap i).len = (heap i).string.chars.length + 1
    rw [hlen, hstr, hf.len]
  · intro i hi hni
    rcases hout i hni with ⟨heq, hni⟩ | hzero
    · change (heap i).len = 0 ∧ (heap i).refcount = 0
      rw [heq]
      exact h.stale i hi hni
    · exact hzero
  · exact Nat.le_trans (Nat.succ_le_succ (List.length_take_le' n t.array)) h.room
  · intro str
    rw [or_false]
    simp only [Table.Knows, hstr]

/-- Only counts are written. -/
theorem Table.WF.setRefs (h : t.WF) (heap : Nat → Entry)
    (hin : ∀ i ∈ t.array, ∃ r, heap i = (t.heap i).setRefcount r)
    (hout : ∀ i, i ∉ t.array → heap i = t.heap i) :
    Leaves t { t with heap := heap } (t.array.map heap) t.alloced (fun _ => False) := by
  have htake : t.array.take t.array.length = t.array := List.take_length
  have hset := h.setHeap heap t.array.length (by
    intro i
    by_cases hi : i ∈ t.array
    · obtain ⟨r, hr⟩ := hin i hi
      rw [hr]
      rfl
    · rw [hout i hi]) (by
    intro i hi
    rw [htake] at hi
    obtain ⟨r, hr⟩ := hin i hi
    rw [hr]
    exact ⟨rfl, rfl⟩) (by
    intro i hi
    rw [htake] at hi
    exact .inl ⟨hout i hi, hi⟩)
  rwa [htake] at hset

/-! The operations on the reference counts. -/

theorem leaves_setEntry (h : t.WF) (hk : t.array[k]? = some i) (r : BitVec 32) :
    Leaves t (t.setEntry i ((t.heap i).setRefcount r))
      (t.entries.set k ((t.heap i).setRefcount r)) t.alloced (fun _ => False) := by
  have hset := h.setRefs (Function.update t.heap i ((t.heap i).setRefcount r)) (by
    intro j _
    by_cases hj : j = i
    · subst hj
      exact ⟨r, Function.update_self _ _ _⟩
    · exact ⟨(t.heap j).refcount, Function.update_of_ne hj _ _⟩) (by
    intro j hj
    apply Function.update_of_ne
    rintro rfl
    exact hj (List.mem_of_getElem? hk))
  rwa [map_update h.nodup hk] at hset

theorem leaves_self (h : t.WF) : Leaves t t t.entries t.alloced (fun _ => False) := by
  refine ⟨h, rfl, rfl, ?_, rfl⟩
  intro str
  rw [or_false]

/-- The entries with the count of one index changed. -/
def refAt (f : BitVec 32 → BitVec 32) (entries : List Entry) : Option Nat → List Entry
  | none | some 0 => entries
  | some (k + 1) => entries.modify k fun e => e.setRefcount (f e.refcount)

theorem changeRef_leaves (h : t.WF) (f : BitVec 32 → BitVec 32) {idx : Option Nat}
    (hidx : ∀ k, idx = some (k + 1) → k < t.entries.length) :
    ∃ t', t.changeRef f idx = some t' ∧
      Leaves t t' (refAt f t.entries idx) t.alloced (fun _ => False) := by
  match idx with
  | none => exact ⟨t, rfl, leaves_self h⟩
  | some 0 => exact ⟨t, rfl, leaves_self h⟩
  | some (k + 1) =>
    have hlt := hidx k rfl
    rw [entries_length] at hlt
    have hk : t.array[k]? = some (t.array.get ⟨k, hlt⟩) := List.getElem?_eq_getElem hlt
    refine ⟨t.setEntry _ _, by rw [Table.changeRef, hk]; rfl, ?_⟩
    have hmod : refAt f t.entries (some (k + 1))
        = t.entries.set k ((t.heap (t.array.get ⟨k, hlt⟩)).setRefcount
            (f (t.heap (t.array.get ⟨k, hlt⟩)).refcount)) := by
      rw [refAt, List.modify_eq_set_getElem?, entries_getElem? hk]
      rfl
    rw [hmod]
    exact leaves_setEntry h hk _

theorem lt_of_changeRef {f : BitVec 32 → BitVec 32} {idx : Option Nat}
    (h : t.changeRef f idx = some t') : ∀ k, idx = some (k + 1) → k < t.entries.length := by
  rintro k rfl
  rw [Table.changeRef] at h
  obtain ⟨i, hi, -⟩ := Option.bind_eq_some_iff.mp h
  rw [entries_length]
  exact (List.getElem?_eq_some_iff.mp hi).1

theorem clearAllRefs_leaves (h : t.WF) :
    Leaves t t.clearAllRefs (t.entries.map fun e => e.setRefcount 0) t.alloced
      (fun _ => False) := by
  obtain ⟨hother, hin⟩ := foldl_update_ptrs (f := t.heap) (g := fun e => e.setRefcount 0) h.nodup
  have hset := h.setRefs t.clearAllRefs.heap (fun i hi => ⟨0, hin i hi⟩) hother
  have hmap : t.array.map t.clearAllRefs.heap = t.entries.map fun e => e.setRefcount 0 := by
    rw [Table.entries, List.map_map]
    exact List.map_congr_left hin
  rwa [hmap] at hset

/-- The entries that are saved get their counts back, the others leave the array. -/
theorem restore_leaves (h : t.WF) (save : Save) (hsize : save.size ≤ t.size) :
    ∃ t', t.restore save = some t' ∧
      Leaves t t' (List.zipWith (fun e r => e.setRefcount r)
        (t.entries.take save.refcount.length) save.refcount) t.alloced (fun _ => False) := by
  rw [Table.size, Save.size] at hsize
  let n := save.refcount.length
  have hn : n ≤ t.array.length := Nat.le_of_succ_le_succ hsize
  have hsplit : (t.array.take n ++ t.array.drop n).Nodup := by
    rw [List.take_append_drop]
    exact h.nodup
  obtain ⟨htake, hdrop, hdisj⟩ := List.nodup_append.mp hsplit
  have hfst : ((t.array.take n).zip save.refcount).map Prod.fst = t.array.take n :=
    List.map_fst_zip (by rw [List.length_take]; omega)
  obtain ⟨hkother, hkept⟩ := foldl_update (f := t.heap) (g := fun e r => e.setRefcount r)
    ((t.array.take n).zip save.refcount) (by rw [hfst]; exact htake)
  rw [hfst] at hkother
  obtain ⟨hdother, hdropped⟩ := foldl_update_ptrs (f := ((t.array.take n).zip save.refcount).foldl
    (fun heap p => Function.update heap p.1 ((heap p.1).setRefcount p.2)) t.heap)
    (g := Entry.forget) hdrop
  generalize hheap : (t.array.drop n).foldl
    (fun heap i => Function.update heap i (heap i).forget)
    (((t.array.take n).zip save.refcount).foldl
      (fun heap p => Function.update heap p.1 ((heap p.1).setRefcount p.2)) t.heap) = heap
    at hdother hdropped
  -- the saved entries are not touched by the second loop
  have hsaved : ∀ p ∈ (t.array.take n).zip save.refcount,
      heap p.1 = (t.heap p.1).setRefcount p.2 := by
    intro p hp
    have hp1 : p.1 ∈ t.array.take n := (List.of_mem_zip hp).1
    rw [hdother p.1 fun hd => hdisj p.1 hp1 p.1 hd rfl]
    exact hkept p hp
  have hin : ∀ i ∈ t.array.take n, ∃ r, heap i = (t.heap i).setRefcount r := by
    intro i hi
    rw [← hfst] at hi
    obtain ⟨p, hp, rfl⟩ := List.mem_map.mp hi
    exact ⟨p.2, hsaved p hp⟩
  have hmem : ∀ i, i ∈ t.array ↔ i ∈ t.array.take n ∨ i ∈ t.array.drop n := by
    intro i
    rw [← List.mem_append, List.take_append_drop]
  have hlost : ∀ i ∈ t.array.drop n, heap i = (t.heap i).forget := by
    intro i hi
    rw [hdropped i hi, hkother i fun hk => hdisj i hk i hi rfl]
  have hout : ∀ i, i ∉ t.array → heap i = t.heap i := by
    intro i hi
    rw [hmem, not_or] at hi
    rw [hdother i hi.2, hkother i hi.1]
  have hset := h.setHeap heap n (by
    intro i
    by_cases hi : i ∈ t.array
    · rcases (hmem i).mp hi with hk | hd
      · obtain ⟨r, hr⟩ := hin i hk
        rw [hr]
        rfl
      · rw [hlost i hd]
        rfl
    · rw [hout i hi]) (by
    intro i hi
    obtain ⟨r, hr⟩ := hin i hi
    rw [hr]
    exact ⟨rfl, rfl⟩) (by
    intro i hi
    by_cases hd : i ∈ t.array.drop n
    · rw [hlost i hd]
      exact .inr ⟨rfl, rfl⟩
    · have hni : i ∉ t.array := fun hm => ((hmem i).mp hm).elim hi hd
      exact .inl ⟨hout i hni, hni⟩)
  have hentries : (t.array.take n).map heap = List.zipWith (fun e r => e.setRefcount r)
      (t.entries.take n) save.refcount := by
    rw [Table.entries, ← List.map_take, List.zipWith_map_left, ← List.map_uncurry_zip_eq_zipWith]
    conv_lhs => rw [← hfst]
    rw [List.map_map]
    exact List.map_congr_left hsaved
  rw [hentries] at hset
  refine ⟨_, ?_, hset⟩
  rw [Table.restore, if_neg (by rw [Table.size, Save.size]; omega), ← hheap]

/-! `_bfd_elf_strtab_add`. -/

theorem hashLookup_known (h : t.WF) (hi : i < t.count) {lookupOk : Bool} :
    t.hashLookup (t.heap i).string lookupOk = some (i, t) := by
  have hfind : (List.range t.count).find? (fun j => (t.heap j).string == (t.heap i).string)
      = some i := by
    rw [List.find?_range_eq_some]
    refine ⟨beq_self_eq_true _, List.mem_range.mpr hi, ?_⟩
    intro j hj
    have hne : (t.heap j).string ≠ (t.heap i).string := by
      intro heq
      have := h.unique j (hj.trans hi) i hi heq
      omega
    simpa using hne
  rw [Table.hashLookup, hfind]

theorem hashLookup_new (h : ¬ t.Knows str) {lookupOk : Bool} :
    t.hashLookup str lookupOk = if lookupOk then
      some (t.count, { t.setEntry t.count (newEntry str) with count := t.count + 1 }) else none := by
  have hfind : (List.range t.count).find? (fun j => (t.heap j).string == str) = none := by
    rw [List.find?_eq_none]
    intro j hj heq
    exact h ⟨j, List.mem_range.mp hj, eq_of_beq heq⟩
  rw [Table.hashLookup, hfind]

/-- A new entry of the hash table. -/
theorem newEntry_leaves (h : t.WF) (hnew : ¬ t.Knows str) :
    Leaves t { t.setEntry t.count (newEntry str) with count := t.count + 1 } t.entries t.alloced
      (· = str) := by
  have hother : ∀ j < t.count, Function.update t.heap t.count (newEntry str) j = t.heap j :=
    fun j hj => Function.update_of_ne (Nat.ne_of_lt hj) _ _
  have hentries : t.array.map (Function.update t.heap t.count (newEntry str)) = t.entries :=
    map_update_of_notMem fun hmem => Nat.lt_irrefl _ (h.bound _ hmem)
  have hself : Function.update t.heap t.count (newEntry str) t.count = newEntry str :=
    Function.update_self _ _ _
  refine ⟨⟨?_, h.nodup, ?_, ?_, ?_, h.room⟩, hentries, rfl, ?_, rfl⟩
  · intro i hi j hj heq
    change (Function.update t.heap t.count (newEntry str) i).string
      = (Function.update t.heap t.count (newEntry str) j).string at heq
    rcases Nat.lt_succ_iff_lt_or_eq.mp hi with hi | rfl
    · rcases Nat.lt_succ_iff_lt_or_eq.mp hj with hj | rfl
      · rw [hother i hi, hother j hj] at heq
        exact h.unique i hi j hj heq
      · rw [hother i hi, hself] at heq
        exact absurd ⟨i, hi, heq⟩ hnew
    · rcases Nat.lt_succ_iff_lt_or_eq.mp hj with hj | rfl
      · rw [hother j hj, hself] at heq
        exact absurd ⟨j, hj, heq.symm⟩ hnew
      · rfl
  · exact fun i hi => Nat.lt_succ_of_lt (h.bound i hi)
  · intro k e he
    exact h.fresh k e (hentries ▸ he)
  · intro i hi hni
    change (Function.update t.heap t.count (newEntry str) i).len = 0 ∧
      (Function.update t.heap t.count (newEntry str) i).refcount = 0
    rcases Nat.lt_succ_iff_lt_or_eq.mp hi with hi | rfl
    · rw [hother i hi]
      exact h.stale i hi hni
    · rw [hself]
      exact ⟨rfl, rfl⟩
  · intro s
    constructor
    · rintro ⟨i, hi, hs⟩
      change (Function.update t.heap t.count (newEntry str) i).string = s at hs
      rcases Nat.lt_succ_iff_lt_or_eq.mp hi with hi | rfl
      · rw [hother i hi] at hs
        exact .inl ⟨i, hi, hs⟩
      · rw [hself] at hs
        exact .inr hs.symm
    · rintro (⟨i, hi, hs⟩ | rfl)
      · exact ⟨i, Nat.lt_succ_of_lt hi, (congrArg Entry.string (hother i hi)).trans hs⟩
      · exact ⟨t.count, Nat.lt_succ_self _, congrArg Entry.string hself⟩

/-- The entry that `_bfd_elf_strtab_add` puts into the array. -/
def pushedEntry (str : CStr) (size : Nat) : Entry := ⟨str, str.chars.length + 1, 1, .index size⟩

theorem push_leaves (h : t.WF) (hi : i < t.count) (hni : i ∉ t.array)
    (hstr : (t.heap i).string = str) {alloced : Nat} (hroom : t.size < alloced) :
    Leaves t { t.setEntry i (pushedEntry str t.size) with
        array := t.array ++ [i]
        alloced := alloced }
      (t.entries ++ [pushedEntry str t.size]) alloced (fun _ => False) := by
  have hstring : ∀ j, (Function.update t.heap i (pushedEntry str t.size) j).string
      = (t.heap j).string := by
    intro j
    by_cases hj : j = i
    · subst hj
      rw [Function.update_self, hstr, pushedEntry]
    · rw [Function.update_of_ne hj]
  have hentries : (t.array ++ [i]).map (Function.update t.heap i (pushedEntry str t.size))
      = t.entries ++ [pushedEntry str t.size] := by
    rw [List.map_append, map_update_of_notMem hni, List.map_singleton, Function.update_self]
    rfl
  refine ⟨⟨?_, ?_, ?_, ?_, ?_, ?_⟩, hentries, rfl, ?_, rfl⟩
  · intro j hj l hl heq
    exact h.unique j hj l hl (by rw [← hstring j, ← hstring l]; exact heq)
  · rw [List.nodup_append]
    refine ⟨h.nodup, List.nodup_singleton _, ?_⟩
    rintro j hj l hl rfl
    exact hni (List.mem_singleton.mp hl ▸ hj)
  · intro j hj
    rcases List.mem_append.mp hj with hj | hj
    · exact h.bound j hj
    · exact List.mem_singleton.mp hj ▸ hi
  · intro k e he
    have he : (t.entries ++ [pushedEntry str t.size])[k]? = some e := hentries ▸ he
    by_cases hlt : k < t.entries.length
    · rw [List.getElem?_append_left hlt] at he
      exact h.fresh k e he
    · rw [List.getElem?_append_right (by omega), List.getElem?_singleton] at he
      split at he
      · cases he
        refine ⟨rfl, congrArg EntryU.index ?_⟩
        rw [size_eq]
        omega
      · cases he
  · intro j hj hnj
    have hnj : j ∉ t.array ++ [i] := hnj
    rw [List.mem_append, List.mem_singleton, not_or] at hnj
    have hheap : Function.update t.heap i (pushedEntry str t.size) j = t.heap j :=
      Function.update_of_ne hnj.2 _ _
    change (Function.update t.heap i (pushedEntry str t.size) j).len = 0 ∧
      (Function.update t.heap i (pushedEntry str t.size) j).refcount = 0
    rw [hheap]
    exact h.stale j hj hnj.1
  · rw [Table.size, List.length_append, List.length_singleton]
    exact hroom
  · intro s
    rw [or_false]
    constructor
    · rintro ⟨j, hj, hs⟩
      exact ⟨j, hj, (hstring j).symm.trans hs⟩
    · rintro ⟨j, hj, hs⟩
      exact ⟨j, hj, (hstring j).trans hs⟩

/-- A string of the array gets one more reference. -/
theorem add_known (h : t.WF) (hk : t.entries[k]? = some e) (hne : e.string.chars ≠ [])
    (lookupOk reallocOk : Bool) :
    ∃ t', t.add e.string lookupOk reallocOk = some (some (k + 1), t') ∧
      Leaves t t' (t.entries.set k (e.setRefcount (e.refcount + 1))) t.alloced
        (fun _ => False) := by
  obtain ⟨i, hi, rfl⟩ := array_of_entries hk
  have hf := h.fresh k _ hk
  have hlen : ((t.heap i).setRefcount ((t.heap i).refcount + 1)).len ≠ 0 := by
    have : ((t.heap i).setRefcount ((t.heap i).refcount + 1)).len = (t.heap i).len := rfl
    rw [this, hf.len]
    omega
  refine ⟨_, ?_, leaves_setEntry h hi _⟩
  rw [Table.add, if_neg hne, hashLookup_known h (h.bound i (List.mem_of_getElem? hi))]
  have hu : ((t.heap i).setRefcount ((t.heap i).refcount + 1)).u = .index (k + 1) := hf.u
  simp only [Table.addEntry, if_neg hlen, hu]

/-- What becomes of the allocated room when a string enters the array. -/
def grownAlloced (t : Table) : Nat := if t.size = t.alloced then t.alloced * 2 else t.alloced

theorem size_lt_grown (h : t.WF) : t.size < grownAlloced t := by
  have hroom := h.room
  have hpos : 0 < t.size := Nat.succ_pos _
  unfold grownAlloced
  split <;> omega

theorem addEntry_stale (h : t.WF) (hi : i < t.count) (hni : i ∉ t.array) {reallocOk : Bool}
    (hroom : t.size = t.alloced → reallocOk = true) :
    ∃ t', t.addEntry i (t.heap i).string reallocOk = some (some t.size, t') ∧
      Leaves t t' (t.entries ++ [pushedEntry (t.heap i).string t.size]) (grownAlloced t)
        (fun _ => False) := by
  have hno : ¬ (t.size = t.alloced ∧ (!reallocOk) = true) := by
    rintro ⟨hfull, hr⟩
    rw [hroom hfull] at hr
    cases hr
  obtain ⟨hlen, href⟩ := h.stale i hi hni
  have hlen' : ((t.heap i).setRefcount ((t.heap i).refcount + 1)).len = 0 := hlen
  have href' : ((t.heap i).setRefcount ((t.heap i).refcount + 1)).refcount = 1 := by
    change (t.heap i).refcount + 1 = 1
    rw [href]
    rfl
  refine ⟨_, ?_, push_leaves h hi hni rfl (size_lt_grown h)⟩
  simp only [Table.addEntry, if_pos hlen', if_neg hno, href']
  rfl

/-- A string that is not in the array enters it, whether or not the hash table has it. -/
theorem add_new (h : t.WF) (hne : str.chars ≠ []) (hnew : ∀ e ∈ t.entries, e.string ≠ str)
    {lookupOk reallocOk : Bool} (hlookup : lookupOk = true ∨ t.Knows str)
    (hroom : t.size = t.alloced → reallocOk = true) :
    ∃ t', t.add str lookupOk reallocOk = some (some t.size, t') ∧
      Leaves t t' (t.entries ++ [pushedEntry str t.size]) (grownAlloced t) (· = str) := by
  by_cases hknows : t.Knows str
  · obtain ⟨i, hi, rfl⟩ := hknows
    have hni : i ∉ t.array := by
      intro hmem
      exact hnew _ (List.mem_map_of_mem hmem) rfl
    obtain ⟨t', hadd, hpush⟩ := addEntry_stale h hi hni hroom
    refine ⟨t', ?_, hpush.wf, hpush.entries, hpush.alloced, ?_, hpush.secSize⟩
    · rw [Table.add, if_neg hne, hashLookup_known h hi]
      exact hadd
    · intro s
      rw [hpush.knows s, or_false]
      refine ⟨.inl, ?_⟩
      rintro (hs | rfl)
      · exact hs
      · exact ⟨i, hi, rfl⟩
  · have hl : lookupOk = true := hlookup.resolve_right hknows
    have hentry := newEntry_leaves h hknows
    have hself : Function.update t.heap t.count (newEntry str) t.count = newEntry str :=
      Function.update_self _ _ _
    obtain ⟨t', hadd, hpush⟩ := addEntry_stale hentry.wf (Nat.lt_succ_self t.count)
      (fun hmem => Nat.lt_irrefl _ (h.bound _ hmem)) hroom
    have hstr : (Function.update t.heap t.count (newEntry str) t.count).string = str :=
      congrArg Entry.string hself
    refine ⟨t', ?_, hpush.wf, ?_, hpush.alloced, ?_, hpush.secSize⟩
    · rw [Table.add, if_neg hne, hashLookup_new hknows, if_pos hl]
      refine Eq.trans ?_ hadd
      exact congrArg (Table.addEntry _ _ · _) hstr.symm
    · rw [hpush.entries, hentry.entries]
      exact congrArg (fun s => t.entries ++ [pushedEntry s t.size]) hstr
    · intro s
      rw [hpush.knows s, or_false, hentry.knows s]

/-- No memory for the entry of a string that the hash table does not have. -/
theorem add_failed (hne : str.chars ≠ []) (hknows : ¬ t.Knows str) {reallocOk : Bool} :
    t.add str false reallocOk = some (none, t) := by
  rw [Table.add, if_neg hne, hashLookup_new hknows]
  rfl

/-- No room for the string in the array. -/
theorem add_lost (h : t.WF) (hne : str.chars ≠ []) (hnew : ∀ e ∈ t.entries, e.string ≠ str)
    {lookupOk : Bool} (hlookup : lookupOk = true ∨ t.Knows str) (hfull : t.size = t.alloced) :
    t.add str lookupOk false = none := by
  have hlost : ∀ (t : Table) i, (t.heap i).len = 0 → t.size = t.alloced →
      t.addEntry i str false = none := by
    intro t i hlen hfull
    have hlen' : ((t.heap i).setRefcount ((t.heap i).refcount + 1)).len = 0 := hlen
    have hfail : t.size = t.alloced ∧ (!false) = true := ⟨hfull, rfl⟩
    simp only [Table.addEntry, if_pos hlen', if_pos hfail]
  by_cases hknows : t.Knows str
  · obtain ⟨i, hi, rfl⟩ := hknows
    have hni : i ∉ t.array := by
      intro hmem
      exact hnew _ (List.mem_map_of_mem hmem) rfl
    rw [Table.add, if_neg hne, hashLookup_known h hi]
    exact hlost t i (h.stale i hi hni).1 hfull
  · rw [Table.add, if_neg hne, hashLookup_new hknows, if_pos (hlookup.resolve_right hknows)]
    have hself : Function.update t.heap t.count (newEntry str) t.count = newEntry str :=
      Function.update_self _ _ _
    exact hlost _ _ (congrArg Entry.len hself) hfull

end FusionBinutils.Bfd.Strtab
