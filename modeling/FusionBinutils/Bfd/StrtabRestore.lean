import FusionBinutils.Bfd.StrtabSave

/-! What `_bfd_elf_strtab_restore` undoes. -/
namespace FusionBinutils.Bfd.Strtab

open Cells

variable {t t' : Table} {str : CStr} {e : Entry} {i k : Nat}

/-! Two tables that only differ in what the array has lost. -/

/-- `a` has seen strings that `b` has not, and lost them again. -/
structure Same (a b : Table) : Prop where
  left : a.WF
  right : b.WF
  entries : a.entries = b.entries
  alloced : ∃ j, a.alloced = b.alloced * 2 ^ j
  knows : ∀ str, b.Knows str → a.Knows str
  secSize : a.secSize = b.secSize

variable {a b a' b' : Table}

theorem Same.size (h : Same a b) : a.size = b.size := by
  rw [size_eq, size_eq, h.entries]

theorem Same.leaves (h : Same a b) {entries : List Entry} {roomA roomB : Nat}
    {new : CStr → Prop} (ha : Leaves a a' entries roomA new) (hb : Leaves b b' entries roomB new)
    (hroom : ∃ j, roomA = roomB * 2 ^ j) : Same a' b' := by
  refine ⟨ha.wf, hb.wf, ha.entries.trans hb.entries.symm, ?_, ?_, ?_⟩
  · rw [ha.alloced, hb.alloced]
    exact hroom
  · intro str hstr
    rw [ha.knows]
    exact ((hb.knows str).mp hstr).imp_left (h.knows str)
  · rw [ha.secSize, hb.secSize, h.secSize]

/-- Both tables grow their arrays, or only the one with less room does. -/
theorem Same.grown (h : Same a b) : ∃ j, grownAlloced a = grownAlloced b * 2 ^ j := by
  obtain ⟨j, hj⟩ := h.alloced
  have hsize := h.size
  have hroom := h.right.room
  unfold grownAlloced
  cases j with
  | zero =>
    rw [pow_zero, Nat.mul_one] at hj
    refine ⟨0, ?_⟩
    rw [hsize, hj, pow_zero, Nat.mul_one]
  | succ j =>
    have hpos : 0 < b.size := Nat.succ_pos _
    have hpow : 0 < 2 ^ j := Nat.two_pow_pos j
    have hlt : b.alloced < a.alloced := by
      rw [hj, pow_succ]
      nlinarith
    rw [if_neg (by omega)]
    split
    · exact ⟨j, by rw [hj, pow_succ]; ring⟩
    · exact ⟨j + 1, hj⟩

theorem Same.add (h : Same a b) {lookupOk reallocOk : Bool} {n : Nat}
    (hadd : b.add str lookupOk reallocOk = some (some n, b')) :
    ∃ a', a.add str lookupOk reallocOk = some (some n, a') ∧ Same a' b' := by
  by_cases hne : str.chars = []
  · rw [Table.add, if_pos hne] at hadd
    cases hadd
    exact ⟨a, by rw [Table.add, if_pos hne], h⟩
  · by_cases hknown : ∃ e ∈ b.entries, e.string = str
    · obtain ⟨e, he, rfl⟩ := hknown
      obtain ⟨k, hk⟩ := List.mem_iff_getElem?.mp he
      obtain ⟨b₁, hb, hleavesb⟩ := add_known h.right hk hne lookupOk reallocOk
      obtain ⟨a', ha, hleavesa⟩ := add_known h.left (h.entries ▸ hk) hne lookupOk
        reallocOk
      rw [hb] at hadd
      cases hadd
      rw [h.entries] at hleavesa
      exact ⟨a', ha, h.leaves hleavesa hleavesb h.alloced⟩
    · have hnew : ∀ e ∈ b.entries, e.string ≠ str := fun e he heq => hknown ⟨e, he, heq⟩
      have hlookup : lookupOk = true ∨ b.Knows str := by
        by_contra hno
        rw [not_or, Bool.not_eq_true] at hno
        rw [hno.1, add_failed hne hno.2] at hadd
        cases hadd
      have hroom : b.size = b.alloced → reallocOk = true := by
        intro hfull
        by_contra hno
        rw [Bool.not_eq_true] at hno
        rw [hno, add_lost h.right hne hnew hlookup hfull] at hadd
        cases hadd
      obtain ⟨b₁, hb, hleavesb⟩ := add_new h.right hne hnew hlookup hroom
      have hrooma : a.size = a.alloced → reallocOk = true := by
        intro hfull
        apply hroom
        obtain ⟨j, hj⟩ := h.alloced
        have hle := h.right.room
        have hpow : 0 < 2 ^ j := Nat.two_pow_pos j
        have hmul : b.alloced ≤ b.alloced * 2 ^ j := Nat.le_mul_of_pos_right _ hpow
        have hsize := h.size
        omega
      obtain ⟨a', ha, hleavesa⟩ := add_new h.left hne (h.entries ▸ hnew)
        (hlookup.imp_right (h.knows str)) hrooma
      rw [hb] at hadd
      cases hadd
      rw [h.size] at ha
      rw [h.entries, h.size] at hleavesa
      exact ⟨a', ha, h.leaves hleavesa hleavesb h.grown⟩

theorem Same.changeRef (h : Same a b) {f : BitVec 32 → BitVec 32} {idx : Option Nat}
    (hb : b.changeRef f idx = some b') : ∃ a', a.changeRef f idx = some a' ∧ Same a' b' := by
  have hlt := lt_of_changeRef hb
  obtain ⟨b₁, hb₁, hleavesb⟩ := changeRef_leaves h.right f hlt
  obtain ⟨a', ha, hleavesa⟩ := changeRef_leaves h.left f (h.entries ▸ hlt)
  rw [hb₁] at hb
  cases hb
  rw [h.entries] at hleavesa
  exact ⟨a', ha, h.leaves hleavesa hleavesb h.alloced⟩

theorem Same.restore (h : Same a b) {save : Save} (hb : b.restore save = some b') :
    ∃ a', a.restore save = some a' ∧ Same a' b' := by
  have hsize : save.size ≤ b.size := by
    by_contra hlt
    rw [Table.restore, if_pos (by omega)] at hb
    cases hb
  obtain ⟨b₁, hb₁, hleavesb⟩ := restore_leaves h.right _ hsize
  obtain ⟨a', ha, hleavesa⟩ := restore_leaves h.left _ (h.size ▸ hsize)
  rw [hb₁] at hb
  cases hb
  rw [h.entries] at hleavesa
  exact ⟨a', ha, h.leaves hleavesa hleavesb h.alloced⟩

/-! Runs of two tables. -/

theorem Same.call (h : Same a b) {c : Call} {ans : List (Option Nat)}
    (hb : b.call c = some (ans, b')) (hans : none ∉ ans) :
    ∃ a', a.call c = some (ans, a') ∧ Same a' b' := by
  cases c with
  | add str lookupOk reallocOk =>
    obtain ⟨⟨idx, b₁⟩, hadd, heq⟩ := Option.map_eq_some_iff.mp hb
    cases heq
    cases idx with
    | none => exact absurd List.mem_cons_self hans
    | some n =>
      obtain ⟨a', ha, hsame⟩ := h.add hadd
      exact ⟨a', by rw [Table.call, ha]; rfl, hsame⟩
  | addref idx =>
    obtain ⟨b₁, href, heq⟩ := Option.map_eq_some_iff.mp hb
    cases heq
    obtain ⟨a', ha, hsame⟩ := h.changeRef href
    exact ⟨a', by rw [Table.call, ha]; rfl, hsame⟩
  | delref idx =>
    obtain ⟨b₁, href, heq⟩ := Option.map_eq_some_iff.mp hb
    cases heq
    obtain ⟨a', ha, hsame⟩ := h.changeRef href
    exact ⟨a', by rw [Table.call, ha]; rfl, hsame⟩

theorem Same.step (h : Same a b) {saves : List Save} {op : Op} {ans : List (Option Nat)}
    {m : Machine} (hb : Machine.step ⟨b, saves⟩ op = some (ans, m)) (hans : none ∉ ans) :
    ∃ a', Machine.step ⟨a, saves⟩ op = some (ans, ⟨a', m.saves⟩) ∧ Same a' m.table := by
  cases op with
  | call c =>
    obtain ⟨⟨ans', b'⟩, hcall, heq⟩ := Option.map_eq_some_iff.mp hb
    cases heq
    obtain ⟨a', ha, hsame⟩ := h.call hcall hans
    exact ⟨a', by simp [Machine.step, ha], hsame⟩
  | clearAllRefs =>
    cases hb
    have hleaves := clearAllRefs_leaves h.left
    rw [h.entries] at hleaves
    exact ⟨_, rfl, h.leaves hleaves (clearAllRefs_leaves h.right) h.alloced⟩
  | refcount idx =>
    obtain ⟨r, href, heq⟩ := Option.map_eq_some_iff.mp hb
    cases heq
    have hrefa : a.refcount idx = some r := by
      cases idx with
      | zero => cases href
      | succ k =>
        rw [Table.refcount, h.entries]
        exact href
    exact ⟨a, by simp [Machine.step, hrefa], h⟩
  | size =>
    cases hb
    exact ⟨a, by rw [Machine.step, h.size], h⟩
  | save mallocOk =>
    have hsave : a.save = b.save := by rw [Table.save, h.entries, Table.save]
    simp only [Machine.step] at hb ⊢
    split at hb
    · next hok =>
      cases hb
      exact ⟨a, by rw [if_pos hok, hsave], h⟩
    · cases hb
      exact absurd List.mem_cons_self hans
  | restore =>
    cases saves with
    | nil => cases hb
    | cons save saves =>
      obtain ⟨b', hrestore, heq⟩ := Option.map_eq_some_iff.mp hb
      cases heq
      obtain ⟨a', ha, hsame⟩ := h.restore hrestore
      exact ⟨a', by simp [Machine.step, ha], hsame⟩

theorem run_cons {m m' : Machine} {op : Op} {ops : List Op} {ans : List (Option Nat)} :
    m.run (op :: ops) = some (ans, m') ↔ ∃ ans₁ m₁ ans₂, m.step op = some (ans₁, m₁) ∧
      m₁.run ops = some (ans₂, m') ∧ ans = ans₁ ++ ans₂ := by
  simp only [Machine.run, Option.bind_eq_bind, Option.bind_eq_some_iff, Prod.exists,
    Option.some.injEq, Prod.mk.injEq]
  constructor
  · rintro ⟨ans₁, m₁, hstep, ans₂, m₂, hrun, rfl, rfl⟩
    exact ⟨ans₁, m₁, ans₂, hstep, hrun, rfl⟩
  · rintro ⟨ans₁, m₁, ans₂, hstep, hrun, rfl⟩
    exact ⟨ans₁, m₁, hstep, ans₂, m', hrun, rfl, rfl⟩

theorem run_append {m m₁ m' : Machine} {ops ops' : List Op} {ans ans' : List (Option Nat)}
    (h : m.run ops = some (ans, m₁)) (h' : m₁.run ops' = some (ans', m')) :
    m.run (ops ++ ops') = some (ans ++ ans', m') := by
  induction ops generalizing m ans with
  | nil =>
    cases h
    exact h'
  | cons op ops ih =>
    obtain ⟨ans₁, m₂, ans₂, hstep, hrun, rfl⟩ := run_cons.mp h
    exact run_cons.mpr ⟨ans₁, m₂, ans₂ ++ ans', hstep, ih hrun, List.append_assoc _ _ _⟩

theorem Same.run {m m' : Machine} {ops : List Op} {ans : List (Option Nat)}
    (h : Same a m.table) (hrun : m.run ops = some (ans, m')) (hans : none ∉ ans) :
    ∃ a', Machine.run ⟨a, m.saves⟩ ops = some (ans, ⟨a', m'.saves⟩) ∧ Same a' m'.table := by
  induction ops generalizing a m ans with
  | nil =>
    cases hrun
    exact ⟨a, rfl, h⟩
  | cons op ops ih =>
    obtain ⟨ans₁, m₁, ans₂, hstep, hrest, rfl⟩ := run_cons.mp hrun
    rw [List.mem_append, not_or] at hans
    obtain ⟨a₁, ha₁, hsame⟩ := h.step hstep hans.1
    obtain ⟨a', ha', hsame'⟩ := ih hsame hrest hans.2
    exact ⟨a', run_cons.mpr ⟨ans₁, _, ans₂, ha₁, ha', rfl⟩, hsame'⟩

/-! What the calls between a save and its restore leave of the table. -/

/-- The entry without its count. -/
def Entry.noRef (e : Entry) : Entry := e.setRefcount 0

/-- `t'` has all entries of `t`, with other counts, and then more. -/
structure Grown (t t' : Table) : Prop where
  wf : t'.WF
  entries : t.entries.map Entry.noRef <+: t'.entries.map Entry.noRef
  alloced : ∃ j, t'.alloced = t.alloced * 2 ^ j
  knows : ∀ str, t.Knows str → t'.Knows str
  secSize : t'.secSize = t.secSize

theorem Grown.refl (h : t.WF) : Grown t t :=
  ⟨h, List.prefix_refl _, ⟨0, by rw [pow_zero, Nat.mul_one]⟩, fun _ => id, rfl⟩

theorem Grown.leaves {t₁ t₂ : Table} {entries : List Entry} {room : Nat} {new : CStr → Prop}
    (h : Grown t t₁) (hl : Leaves t₁ t₂ entries room new)
    (hentries : t₁.entries.map Entry.noRef <+: entries.map Entry.noRef)
    (hroom : ∃ j, room = t₁.alloced * 2 ^ j) : Grown t t₂ := by
  refine ⟨hl.wf, ?_, ?_, ?_, hl.secSize.trans h.secSize⟩
  · rw [hl.entries]
    exact h.entries.trans hentries
  · obtain ⟨i, hi⟩ := h.alloced
    obtain ⟨j, hj⟩ := hroom
    exact ⟨i + j, by rw [hl.alloced, hj, hi, pow_add, Nat.mul_assoc]⟩
  · intro str hstr
    exact (hl.knows str).mpr (.inl (h.knows str hstr))

theorem noRef_refAt {f : BitVec 32 → BitVec 32} {entries : List Entry} {idx : Option Nat} :
    (refAt f entries idx).map Entry.noRef = entries.map Entry.noRef := by
  match idx with
  | none => rfl
  | some 0 => rfl
  | some (k + 1) =>
    apply List.ext_getElem?
    intro i
    rw [refAt, List.getElem?_map, List.getElem?_map, List.getElem?_modify]
    cases entries[i]? with
    | none => rfl
    | some e =>
      simp only [Option.map_some]
      split <;> rfl

theorem grown_alloced : ∃ j, grownAlloced t = t.alloced * 2 ^ j := by
  unfold grownAlloced
  split
  · exact ⟨1, by rw [pow_one]⟩
  · exact ⟨0, by rw [pow_zero, Nat.mul_one]⟩

theorem Grown.add {t₁ t₂ : Table} (h : Grown t t₁) {lookupOk reallocOk : Bool} {idx : Option Nat}
    (hadd : t₁.add str lookupOk reallocOk = some (idx, t₂)) : Grown t t₂ := by
  have hsame : ∃ j, t₁.alloced = t₁.alloced * 2 ^ j := ⟨0, by rw [pow_zero, Nat.mul_one]⟩
  by_cases hne : str.chars = []
  · rw [Table.add, if_pos hne] at hadd
    cases hadd
    exact h
  · by_cases hknown : ∃ e ∈ t₁.entries, e.string = str
    · obtain ⟨e, he, rfl⟩ := hknown
      obtain ⟨k, hk⟩ := List.mem_iff_getElem?.mp he
      obtain ⟨t', ht', hleaves⟩ := add_known h.wf hk hne lookupOk reallocOk
      rw [ht'] at hadd
      cases hadd
      have hset : (t₁.entries.set k (e.setRefcount (e.refcount + 1))).map Entry.noRef
          = t₁.entries.map Entry.noRef := map_set hk rfl
      refine h.leaves hleaves ?_ hsame
      rw [hset]
    · have hnew : ∀ e ∈ t₁.entries, e.string ≠ str := fun e he heq => hknown ⟨e, he, heq⟩
      by_cases hlookup : lookupOk = true ∨ t₁.Knows str
      · have hroom : t₁.size = t₁.alloced → reallocOk = true := by
          intro hfull
          by_contra hno
          rw [Bool.not_eq_true] at hno
          rw [hno, add_lost h.wf hne hnew hlookup hfull] at hadd
          cases hadd
        obtain ⟨t', ht', hleaves⟩ := add_new h.wf hne hnew hlookup hroom
        rw [ht'] at hadd
        cases hadd
        refine h.leaves hleaves ?_ grown_alloced
        rw [List.map_append]
        exact List.prefix_append _ _
      · rw [not_or, Bool.not_eq_true] at hlookup
        rw [hlookup.1, add_failed hne hlookup.2] at hadd
        cases hadd
        exact h

theorem Grown.changeRef {t₁ t₂ : Table} (h : Grown t t₁) {f : BitVec 32 → BitVec 32}
    {idx : Option Nat} (href : t₁.changeRef f idx = some t₂) : Grown t t₂ := by
  obtain ⟨t', ht', hleaves⟩ := changeRef_leaves h.wf f (lt_of_changeRef href)
  rw [ht'] at href
  cases href
  refine h.leaves hleaves ?_ ⟨0, by rw [pow_zero, Nat.mul_one]⟩
  rw [noRef_refAt]

theorem Grown.call {t₁ t₂ : Table} (h : Grown t t₁) {c : Call} {ans : List (Option Nat)}
    (hc : t₁.call c = some (ans, t₂)) : Grown t t₂ := by
  cases c with
  | add str lookupOk reallocOk =>
    obtain ⟨⟨idx, t'⟩, hadd, heq⟩ := Option.map_eq_some_iff.mp hc
    cases heq
    exact h.add hadd
  | addref idx =>
    obtain ⟨t', href, heq⟩ := Option.map_eq_some_iff.mp hc
    cases heq
    exact h.changeRef href
  | delref idx =>
    obtain ⟨t', href, heq⟩ := Option.map_eq_some_iff.mp hc
    cases heq
    exact h.changeRef href

/-- Calls leave what was saved alone, whatever it is. -/
theorem Grown.run {m m' : Machine} {mid : List Call} {ans : List (Option Nat)}
    (h : Grown t m.table) (hrun : m.run (mid.map .call) = some (ans, m')) (saves : List Save) :
    m'.saves = m.saves ∧ Grown t m'.table ∧
      Machine.run ⟨m.table, saves⟩ (mid.map .call) = some (ans, ⟨m'.table, saves⟩) := by
  induction mid generalizing m ans with
  | nil =>
    cases hrun
    exact ⟨rfl, h, rfl⟩
  | cons c mid ih =>
    obtain ⟨ans₁, m₁, ans₂, hstep, hrest, rfl⟩ := run_cons.mp hrun
    obtain ⟨⟨ans', t'⟩, hcall, heq⟩ := Option.map_eq_some_iff.mp hstep
    cases heq
    obtain ⟨hsaves, hgrown, hrun'⟩ := ih (h.call hcall) hrest
    refine ⟨hsaves, hgrown, run_cons.mpr ⟨ans', ⟨t', saves⟩, ans₂, ?_, hrun', rfl⟩⟩
    simp [Machine.step, hcall]

/-- Saved counts give back the entries that they were taken from. -/
theorem zipWith_refcount {l l' : List Entry} (h : l.map Entry.noRef = l'.map Entry.noRef) :
    List.zipWith (fun e r => e.setRefcount r) l (l'.map Entry.refcount) = l' := by
  induction l generalizing l' with
  | nil =>
    cases l' with
    | nil => rfl
    | cons e' l' => cases h
  | cons e l ih =>
    cases l' with
    | nil => cases h
    | cons e' l' =>
      obtain ⟨hhead, htail⟩ := List.cons.inj h
      have hset : e.setRefcount e'.refcount = e' :=
        congrArg (fun x => x.setRefcount e'.refcount) hhead
      rw [List.map_cons, List.zipWith_cons_cons, ih htail, hset]

theorem Grown.restore {t₁ : Table} (h : Grown t t₁) (ht : t.WF) :
    ∃ t₂, t₁.restore t.save = some t₂ ∧ Same t₂ t := by
  have hlen : t.entries.length ≤ t₁.entries.length := by
    simpa only [List.length_map] using h.entries.length_le
  have hn : t.save.refcount.length = t.entries.length := List.length_map _
  obtain ⟨t₂, ht₂, hleaves⟩ := restore_leaves h.wf t.save (by
    rw [Save.size, hn, size_eq]
    omega)
  refine ⟨t₂, ht₂, hleaves.wf, ht, ?_, ?_, ?_, hleaves.secSize.trans h.secSize⟩
  · rw [hleaves.entries, hn]
    apply zipWith_refcount
    rw [List.map_take, List.prefix_iff_eq_take.mp h.entries, List.length_map]
  · rw [hleaves.alloced]
    exact h.alloced
  · intro str hstr
    exact (hleaves.knows str).mpr (.inl (h.knows str hstr))

/-! The finalized table. -/

theorem init_wf : Table.init.WF := by
  refine ⟨?_, List.nodup_nil, ?_, ?_, ?_, ?_⟩
  · intro i hi
    exact absurd hi (Nat.not_lt_zero i)
  · intro i hi
    cases hi
  · intro k e he
    cases he
  · intro i hi
    exact absurd hi (Nat.not_lt_zero i)
  · change 1 ≤ 64
    omega

theorem step_wf {m m' : Machine} {op : Op} {ans : List (Option Nat)} (h : m.table.WF)
    (hstep : m.step op = some (ans, m')) : m'.table.WF := by
  cases op with
  | call c =>
    obtain ⟨⟨ans', t'⟩, hcall, heq⟩ := Option.map_eq_some_iff.mp hstep
    cases heq
    exact ((Grown.refl h).call hcall).wf
  | clearAllRefs =>
    cases hstep
    exact (clearAllRefs_leaves h).wf
  | refcount idx =>
    obtain ⟨r, -, heq⟩ := Option.map_eq_some_iff.mp hstep
    cases heq
    exact h
  | size =>
    cases hstep
    exact h
  | save mallocOk =>
    simp only [Machine.step] at hstep
    split at hstep
    · cases hstep
      exact h
    · cases hstep
      exact h
  | restore =>
    obtain ⟨t, saves⟩ := m
    cases saves with
    | nil => cases hstep
    | cons save saves =>
      obtain ⟨t', hrestore, heq⟩ := Option.map_eq_some_iff.mp hstep
      cases heq
      have hself : Same t t :=
        ⟨h, h, rfl, ⟨0, by rw [pow_zero, Nat.mul_one]⟩, fun _ => id, rfl⟩
      obtain ⟨a', -, hsame⟩ := hself.restore hrestore
      exact hsame.right

theorem run_wf {m m' : Machine} {ops : List Op} {ans : List (Option Nat)} (h : m.table.WF)
    (hrun : m.run ops = some (ans, m')) : m'.table.WF := by
  induction ops generalizing m ans with
  | nil =>
    cases hrun
    exact h
  | cons op ops ih =>
    obtain ⟨ans₁, m₁, ans₂, hstep, hrest, rfl⟩ := run_cons.mp hrun
    exact ih (step_wf h hstep) hrest

/-- What the users of a finalized table see: the offsets of the indices they ask for, the size and
what is written. -/
def outcome (idxs : List Nat) (tab : Tab) : Option (List Nat × Nat × List BfdByte) :=
  (strtabOffsets tab idxs).map fun r => (r.1, strtabSize r.2, strtabEmit r.2)

def Tab.setAlloced (tab : Tab) (n : Nat) : Tab := { tab with alloced := n }

theorem strtabOffset_setAlloced (tab : Tab) (n idx : Nat) :
    strtabOffset (tab.setAlloced n) idx
      = (strtabOffset tab idx).map fun r => (r.1, r.2.setAlloced n) := by
  cases idx with
  | zero => rfl
  | succ k =>
    simp only [strtabOffset, Tab.setAlloced]
    cases tab.array[k]? with
    | none => rfl
    | some e =>
      simp only [Option.bind_eq_bind, Option.bind_some]
      cases e.u <;> rfl

theorem strtabOffsets_setAlloced (tab : Tab) (n : Nat) (idxs : List Nat) :
    strtabOffsets (tab.setAlloced n) idxs
      = (strtabOffsets tab idxs).map fun r => (r.1, r.2.setAlloced n) := by
  induction idxs generalizing tab with
  | nil => rfl
  | cons idx idxs ih =>
    rw [strtabOffsets, strtabOffset_setAlloced, strtabOffsets]
    cases strtabOffset tab idx with
    | none => rfl
    | some r =>
      simp only [Option.map_some, Option.bind_eq_bind, Option.bind_some, ih]
      cases strtabOffsets r.2 idxs <;> rfl

/-- The room of the array does not show. -/
theorem outcome_setAlloced (idxs : List Nat) (tab : Tab) (n : Nat) :
    outcome idxs (tab.setAlloced n) = outcome idxs tab := by
  rw [outcome, strtabOffsets_setAlloced, Option.map_map, outcome]
  rfl

theorem Same.finalize (h : Same a b) (mallocOk : Bool) (idxs : List Nat) :
    (a.finalize mallocOk).map (outcome idxs) = (b.finalize mallocOk).map (outcome idxs) := by
  have halloced : a.finalize mallocOk
      = (b.finalize mallocOk).map fun tab => tab.setAlloced a.alloced := by
    rw [Table.finalize, Table.finalize, h.entries, h.secSize]
    simp only [strtabFinalize, Option.bind_eq_bind, Option.map_bind]
    congr 1
    funext array
    simp only [Function.comp_apply, Option.map_bind]
    congr 1
  rw [halloced, Option.map_map]
  congr 1
  funext tab
  exact outcome_setAlloced idxs tab _

/-- Calls between a save and its restore leave no trace: whatever was done before and is done
after them, as long as memory lasts, the later calls answer alike, and the finalized tables give
the same offsets and are written alike. -/
theorem restore_undoes (before after : List Op) (mid : List Call)
    (m₀ m₁ m₂ : Machine) (ans₀ ans₁ ans₂ : List (Option Nat))
    (hbefore : Machine.start.run before = some (ans₀, m₀))
    (hmid : m₀.run (mid.map .call) = some (ans₁, m₁))
    (hafter : m₀.run after = some (ans₂, m₂)) (hmem : none ∉ ans₂) :
    ∃ m₃, Machine.start.run (before ++ .save true :: mid.map .call ++ .restore :: after)
        = some (ans₀ ++ ans₁ ++ ans₂, m₃) ∧ m₃.saves = m₂.saves ∧
      ∀ mallocOk idxs, (m₃.table.finalize mallocOk).map (outcome idxs)
        = (m₂.table.finalize mallocOk).map (outcome idxs) := by
  have hwf : m₀.table.WF := run_wf init_wf hbefore
  obtain ⟨-, hgrown, hrun⟩ := (Grown.refl hwf).run hmid (m₀.table.save :: m₀.saves)
  obtain ⟨t₂, hrestore, hsame⟩ := hgrown.restore hwf
  obtain ⟨a', hlast, hfinal⟩ := hsame.run hafter hmem
  have hsave : m₀.run (.save true :: mid.map .call)
      = some (ans₁, ⟨m₁.table, m₀.table.save :: m₀.saves⟩) :=
    run_cons.mpr ⟨[], _, ans₁, rfl, hrun, rfl⟩
  have hrest : Machine.run ⟨m₁.table, m₀.table.save :: m₀.saves⟩ (.restore :: after)
      = some (ans₂, ⟨a', m₂.saves⟩) := by
    refine run_cons.mpr ⟨[], ⟨t₂, m₀.saves⟩, ans₂, ?_, hlast, rfl⟩
    simp [Machine.step, hrestore]
  exact ⟨⟨a', m₂.saves⟩, run_append (run_append hbefore hsave) hrest, rfl, hfinal.finalize⟩

/-- The machine after a run. -/
def Machine.after (m : Machine) (ops : List Op) : Machine := (m.run ops).elim m Prod.snd

def barTable : Machine := Machine.start.after [.call (.add strBar true true)]

/-- The table has `bar`; `foobar` is added, lost and added again, and gets the index that it had. -/
theorem restore_undoes_foobar :
    ∃ m₃, Machine.start.run ([.call (.add strBar true true)] ++ .save true ::
          [.add strFoobar true true, .delref (some 1)].map .call ++ .restore ::
          [.call (.add strFoobar true true)])
        = some ([some 1] ++ [some 2] ++ [some 2], m₃) ∧
      m₃.saves = (barTable.after [.call (.add strFoobar true true)]).saves ∧
      ∀ mallocOk idxs, (m₃.table.finalize mallocOk).map (outcome idxs)
        = ((barTable.after [.call (.add strFoobar true true)]).table.finalize mallocOk).map
          (outcome idxs) :=
  restore_undoes [.call (.add strBar true true)] [.call (.add strFoobar true true)]
    [.add strFoobar true true, .delref (some 1)] barTable
    (barTable.after ([.add strFoobar true true, .delref (some 1)].map .call))
    (barTable.after [.call (.add strFoobar true true)]) [some 1] [some 2] [some 2] rfl rfl rfl
    (by decide)

end FusionBinutils.Bfd.Strtab
