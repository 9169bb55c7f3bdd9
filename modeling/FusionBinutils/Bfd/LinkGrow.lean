import FusionBinutils.Bfd.LinkUndefs

/-! Tables without indirect symbols: calls end, names keep their entries and the types of entries
only move on. -/
namespace FusionBinutils.Bfd.Linker

variable {info : Info} {hash hash' hash'' : Hash} {h i : Nat} {u v : HashU} {s : Sym}
  {e : HashEntry} {name : String}

/-- How much is known about a symbol. -/
def HashType.rank : HashType → Nat
  | .new => 0
  | .undefweak => 1
  | .undefined => 2
  | .defined | .defweak | .common => 3
  | .indirect | .warning => 4

/-- No entry is indirect, warnings are about real entries, and names have entries. -/
structure NoInd (hash : Hash) : Prop where
  direct : ∀ i v, hash.u i = some v → v.type ≠ .indirect
  warned : ∀ i j t, hash.u i = some (.warning j t) → ∃ v, hash.u j = some v ∧ Direct v
  known : ∀ n h, hash.table.lookup n = some h → ∃ v, hash.u h = some v

/-- The entry behind a warning. -/
def Hash.base (hash : Hash) (h : Nat) : Nat :=
  match hash.u h with
  | some (.warning j _) => j
  | _ => h

/-- The entry that a name leads to. -/
def Hash.real (hash : Hash) (name : String) : Option Nat :=
  (hash.table.lookup name).map hash.base

theorem base_of_direct (hu : hash.u h = some v) (hd : Direct v) : hash.base h = h := by
  unfold Hash.base
  rw [hu]
  cases v <;> simp_all [Direct, HashU.type]

theorem NoInd.direct_or_warning (hn : NoInd hash) (hu : hash.u h = some v) :
    Direct v ∨ ∃ j t, v = .warning j t := by
  have hd := hn.direct h v hu
  cases v <;> simp_all [Direct, HashU.type]

theorem NoInd.base_direct (hn : NoInd hash) (hu : hash.u h = some v) :
    ∃ w, hash.u (hash.base h) = some w ∧ Direct w := by
  obtain hd | ⟨j, t, rfl⟩ := hn.direct_or_warning hu
  · rw [base_of_direct hu hd]
    exact ⟨v, hu, hd⟩
  · obtain ⟨w, hw, hd⟩ := hn.warned h j t hu
    refine ⟨w, ?_, hd⟩
    simpa [Hash.base, hu] using hw

theorem follow_direct {k : Nat} (hu : hash.u h = some v) (hd : Direct v) :
    hash.follow (k + 1) h = some h := by
  rw [Hash.follow, hu]
  cases v <;> simp_all [Direct, HashU.type]

theorem NoInd.follow {k : Nat} (hn : NoInd hash) (hu : hash.u h = some v) :
    hash.follow (k + 2) h = some (hash.base h) := by
  obtain hd | ⟨j, t, rfl⟩ := hn.direct_or_warning hu
  · rw [base_of_direct hu hd]
    exact follow_direct hu hd
  · obtain ⟨w, hw, hd⟩ := hn.warned h j t hu
    rw [Hash.follow, hu]
    simp only [Hash.base, hu]
    exact follow_direct hw hd

/-- Names keep the entries they lead to, and these move on. -/
structure Grows (hash hash' : Hash) : Prop where
  real : ∀ n i, hash.real n = some i → hash'.real n = some i
  rank : ∀ i v, hash.u i = some v → Direct v →
    ∃ v', hash'.u i = some v' ∧ Direct v' ∧ v.type.rank ≤ v'.type.rank
  dom : ∀ i v, hash.u i = some v → ∃ v', hash'.u i = some v'
  new : ∀ n i, hash.real n = none → hash'.real n = some i → hash.u i = none

theorem Grows.refl (hash : Hash) : Grows hash hash := by
  refine ⟨fun _ _ h => h, fun i v hv hd => ⟨v, hv, hd, Nat.le_refl _⟩, fun i v hv => ⟨v, hv⟩, ?_⟩
  intro n i hnone hsome
  rw [hnone] at hsome
  cases hsome

theorem Grows.trans (h₁ : Grows hash hash') (h₂ : Grows hash' hash'') : Grows hash hash'' := by
  refine ⟨fun n i hi => h₂.real n i (h₁.real n i hi), ?_, ?_, ?_⟩
  · intro i v hv hd
    obtain ⟨v', hv', hd', hle⟩ := h₁.rank i v hv hd
    obtain ⟨v'', hv'', hd'', hle'⟩ := h₂.rank i v' hv' hd'
    exact ⟨v'', hv'', hd'', Nat.le_trans hle hle'⟩
  · intro i v hv
    obtain ⟨v', hv'⟩ := h₁.dom i v hv
    exact h₂.dom i v' hv'
  · intro n i hnone hsome
    cases hmid : hash'.real n with
    | some j =>
      rw [h₂.real n j hmid, Option.some.injEq] at hsome
      subst hsome
      exact h₁.new n j hnone hmid
    | none =>
      have hi := h₂.new n i hmid hsome
      cases hv : hash.u i with
      | none => rfl
      | some v =>
        obtain ⟨v', hv'⟩ := h₁.dom i v hv
        rw [hi] at hv'
        cases hv'

/-! Changes that leave names alone. -/

/-- A real entry moves on, a warning changes its text. -/
def Evolves (v v' : HashU) : Prop :=
  (Direct v ∧ Direct v' ∧ v.type.rank ≤ v'.type.rank) ∨
    ∃ j t t', v = .warning j t ∧ v' = .warning j t'

theorem NoInd.evolves_refl (hn : NoInd hash) (hu : hash.u h = some v) : Evolves v v := by
  obtain hd | ⟨j, t, rfl⟩ := hn.direct_or_warning hu
  · exact .inl ⟨hd, hd, Nat.le_refl _⟩
  · exact .inr ⟨j, t, t, rfl, rfl⟩

theorem Evolves.direct_iff (h : Evolves u v) : Direct u ↔ Direct v := by
  obtain ⟨hu, hv, -⟩ | ⟨j, t, t', rfl, rfl⟩ := h
  · exact ⟨fun _ => hv, fun _ => hu⟩
  · simp [Direct, HashU.type]

theorem grows_of_evolves (hn : NoInd hash) (ht : hash'.table = hash.table)
    (hev : ∀ i v, hash.u i = some v → ∃ v', hash'.u i = some v' ∧ Evolves v v')
    (hback : ∀ i v', hash'.u i = some v' → ∃ v, hash.u i = some v) :
    NoInd hash' ∧ Grows hash hash' := by
  have hbase : ∀ i v, hash.u i = some v → hash'.base i = hash.base i := by
    intro i v hv
    obtain ⟨v', hv', hd | ⟨j, t, t', rfl, rfl⟩⟩ := hev i v hv
    · rw [base_of_direct hv hd.1, base_of_direct hv' hd.2.1]
    · simp [Hash.base, hv, hv']
  have hreal : ∀ n, hash'.real n = hash.real n := by
    intro n
    unfold Hash.real
    rw [ht]
    cases hl : hash.table.lookup n with
    | none => rfl
    | some h =>
      obtain ⟨v, hv⟩ := hn.known n h hl
      rw [Option.map_some, Option.map_some, hbase h v hv]
  refine ⟨⟨?_, ?_, ?_⟩, ⟨?_, ?_, ?_, ?_⟩⟩
  · intro i v' hv'
    obtain ⟨v, hv⟩ := hback i v' hv'
    obtain ⟨w, hw, hd | ⟨j, t, t', -, rfl⟩⟩ := hev i v hv
    · rw [hv', Option.some.injEq] at hw
      rw [hw]
      exact hd.2.1.1
    · rw [hv', Option.some.injEq] at hw
      rw [hw]
      simp [HashU.type]
  · intro i j t hi
    obtain ⟨v, hv⟩ := hback i _ hi
    obtain ⟨w, hw, hd | ⟨j', t₁, t', rfl, rfl⟩⟩ := hev i v hv
    · rw [hi, Option.some.injEq] at hw
      rw [← hw] at hd
      exact absurd rfl hd.2.1.2
    · rw [hi, Option.some.injEq] at hw
      cases hw
      obtain ⟨x, hx, hdx⟩ := hn.warned i j t₁ hv
      obtain ⟨x', hx', hevx⟩ := hev j x hx
      exact ⟨x', hx', hevx.direct_iff.mp hdx⟩
  · intro n h hl
    rw [ht] at hl
    obtain ⟨v, hv⟩ := hn.known n h hl
    obtain ⟨v', hv', -⟩ := hev h v hv
    exact ⟨v', hv'⟩
  · intro n i hi
    rw [hreal, hi]
  · intro i v hv hd
    obtain ⟨v', hv', h | ⟨j, t, t', rfl, -⟩⟩ := hev i v hv
    · exact ⟨v', hv', h.2.1, h.2.2⟩
    · exact absurd rfl hd.2
  · intro i v hv
    obtain ⟨v', hv', -⟩ := hev i v hv
    exact ⟨v', hv'⟩
  · intro n i hnone hsome
    rw [hreal, hnone] at hsome
    cases hsome

theorem grows_of_u (hn : NoInd hash) (hu : ∀ i, hash'.u i = hash.u i)
    (ht : hash'.table = hash.table) : NoInd hash' ∧ Grows hash hash' :=
  grows_of_evolves hn ht (fun i v hv => ⟨v, (hu i).trans hv, hn.evolves_refl hv⟩)
    fun i v' hv' => ⟨v', (hu i).symm.trans hv'⟩

theorem grows_setU (hn : NoInd hash) (hu : hash.u h = some v) (hev : Evolves v u)
    (hu' : ∀ i, hash'.u i = (hash.setU h u).u i) (ht : hash'.table = hash.table) :
    NoInd hash' ∧ Grows hash hash' := by
  apply grows_of_evolves hn ht
  · intro i w hw
    rw [hu']
    by_cases hi : i = h
    · subst hi
      rw [hu, Option.some.injEq] at hw
      exact ⟨u, setU_u_self hu, hw ▸ hev⟩
    · exact ⟨w, (setU_u_ne hi).trans hw, hn.evolves_refl hw⟩
  · intro i w hw
    rw [hu'] at hw
    obtain ⟨rfl, -⟩ | ⟨-, hw⟩ := u_setU_cases hw
    · exact ⟨v, hu⟩
    · exact ⟨w, hw⟩

/-! New entries. -/

theorem lookup_map_replace {l : List (String × Nat)} {n : String} {sub : Nat} :
    (l.map fun p => if p.2 = h then (p.1, sub) else p).lookup n
      = (l.lookup n).map fun i => if i = h then sub else i := by
  induction l with
  | nil => rfl
  | cons p l ih =>
    obtain ⟨m, i⟩ := p
    by_cases hm : n == m
    · by_cases hi : i = h <;> simp [List.lookup_cons, hm, hi]
    · by_cases hi : i = h <;> simp [List.lookup_cons, hm, hi, ih]

theorem makeWarning_u (i : Nat) : (makeWarning hash s h e).u i =
    if i = hash.entries.length then some (.warning h (some s.string)) else hash.u i :=
  push_u (e := { e with u := .warning h (some s.string) }) rfl

theorem makeWarning_u_old (hv : hash.u i = some v) : (makeWarning hash s h e).u i = some v := by
  rw [makeWarning_u, if_neg (ne_length_of_u hv), hv]

theorem makeWarning_base_new : (makeWarning hash s h e).base hash.entries.length = h := by
  unfold Hash.base
  rw [makeWarning_u, if_pos rfl]

/-- A warning takes the place of the entry it is about, and leads to it. -/
theorem makeWarning_real (hn : NoInd hash) (he : hash.entries[h]? = some e) (hd : Direct e.u)
    (n : String) : (makeWarning hash s h e).real n = hash.real n := by
  have hu : hash.u h = some e.u := u_eq_some.mpr ⟨e, he, rfl⟩
  unfold Hash.real
  show Option.map _ (List.lookup n (hash.table.map _)) = _
  rw [lookup_map_replace]
  cases hl : hash.table.lookup n with
  | none => rfl
  | some k =>
    obtain ⟨v, hv⟩ := hn.known n k hl
    simp only [Option.map_some, Option.some.injEq]
    by_cases hk : k = h
    · rw [if_pos hk, makeWarning_base_new, hk, base_of_direct hu hd]
    · rw [if_neg hk]
      unfold Hash.base
      rw [makeWarning_u_old hv, hv]

theorem makeWarning_grows (hn : NoInd hash) (he : hash.entries[h]? = some e) (hd : Direct e.u) :
    NoInd (makeWarning hash s h e) ∧ Grows hash (makeWarning hash s h e) := by
  have hu : hash.u h = some e.u := u_eq_some.mpr ⟨e, he, rfl⟩
  refine ⟨⟨?_, ?_, ?_⟩, ⟨?_, ?_, ?_, ?_⟩⟩
  · intro i v hv
    rw [makeWarning_u] at hv
    split at hv
    · cases hv
      simp [HashU.type]
    · exact hn.direct i v hv
  · intro i j t hi
    rw [makeWarning_u] at hi
    split at hi
    · cases hi
      exact ⟨e.u, makeWarning_u_old hu, hd⟩
    · obtain ⟨v, hv, hdv⟩ := hn.warned i j t hi
      exact ⟨v, makeWarning_u_old hv, hdv⟩
  · intro n k hl
    replace hl : List.lookup n (hash.table.map _) = some k := hl
    rw [lookup_map_replace] at hl
    obtain ⟨k', hk', rfl⟩ := Option.map_eq_some_iff.mp hl
    by_cases hk : k' = h
    · rw [if_pos hk, makeWarning_u, if_pos rfl]
      exact ⟨_, rfl⟩
    · rw [if_neg hk]
      obtain ⟨v, hv⟩ := hn.known n k' hk'
      exact ⟨v, makeWarning_u_old hv⟩
  · intro n i hi
    rw [makeWarning_real hn he hd, hi]
  · intro i v hv hdv
    exact ⟨v, makeWarning_u_old hv, hdv, Nat.le_refl _⟩
  · intro i v hv
    exact ⟨v, makeWarning_u_old hv⟩
  · intro n i hnone hsome
    rw [makeWarning_real hn he hd, hnone] at hsome
    cases hsome

/-- The entry that a looked up name has is the one that the name leads to. -/
theorem lookupCreate_grows (hn : NoInd hash) (name : String) :
    NoInd (hash.lookupCreate name).2 ∧ Grows hash (hash.lookupCreate name).2 := by
  cases ht : hash.table.lookup name with
  | some h =>
    rw [lookupCreate_known ht]
    exact ⟨hn, .refl hash⟩
  | none =>
    have hu : ∀ i, (hash.lookupCreate name).2.u i =
        if i = hash.entries.length then some .new else hash.u i := fun i =>
      push_u (e := ⟨name, .new, none, false⟩) (by simp [Hash.lookupCreate, ht])
    have hold : ∀ i v, hash.u i = some v → (hash.lookupCreate name).2.u i = some v := by
      intro i v hv
      rw [hu, if_neg (ne_length_of_u hv), hv]
    have htable : (hash.lookupCreate name).2.table = (name, hash.entries.length) :: hash.table := by
      simp [Hash.lookupCreate, ht]
    have hlookup : ∀ n, (hash.lookupCreate name).2.table.lookup n =
        if n = name then some hash.entries.length else hash.table.lookup n := by
      intro n
      rw [htable, List.lookup_cons]
      by_cases hnm : n = name
      · simp [hnm]
      · simp [hnm, beq_eq_false_iff_ne.mpr hnm]
    refine ⟨⟨?_, ?_, ?_⟩, ⟨?_, ?_, ?_, ?_⟩⟩
    · intro i v hv
      rw [hu] at hv
      split at hv
      · cases hv
        simp [HashU.type]
      · exact hn.direct i v hv
    · intro i j t hi
      rw [hu] at hi
      split at hi
      · cases hi
      · obtain ⟨v, hv, hd⟩ := hn.warned i j t hi
        exact ⟨v, hold j v hv, hd⟩
    · intro n k hl
      rw [hlookup] at hl
      split at hl
      · cases hl
        exact ⟨.new, by rw [hu, if_pos rfl]⟩
      · obtain ⟨v, hv⟩ := hn.known n k hl
        exact ⟨v, hold k v hv⟩
    · intro n i hi
      obtain ⟨k, hk, rfl⟩ := Option.map_eq_some_iff.mp hi
      have hne : n ≠ name := by
        rintro rfl
        rw [ht] at hk
        cases hk
      obtain ⟨v, hv⟩ := hn.known n k hk
      unfold Hash.real
      rw [hlookup, if_neg hne, hk, Option.map_some]
      unfold Hash.base
      rw [hold k v hv, hv]
    · intro i v hv hd
      exact ⟨v, hold i v hv, hd, Nat.le_refl _⟩
    · intro i v hv
      exact ⟨v, hold i v hv⟩
    · intro n i hnone hsome
      obtain ⟨k, hk, rfl⟩ := Option.map_eq_some_iff.mp hsome
      rw [hlookup] at hk
      split at hk
      · cases hk
        have hbase : (hash.lookupCreate name).2.base hash.entries.length
            = hash.entries.length := base_of_direct (by rw [hu, if_pos rfl]) (by
              simp [Direct, HashU.type])
        rw [hbase]
        simp [Hash.u]
      · rw [Hash.real, hk] at hnone
        cases hnone

/-! One symbol. -/

/-- The name leads to an entry with a definition, or a common symbol. -/
def Settled (hash : Hash) (name : String) : Prop :=
  ∃ i v, hash.real name = some i ∧ hash.u i = some v ∧ Direct v ∧ 3 ≤ v.type.rank

theorem Settled.grows (hs : Settled hash name) (hg : Grows hash hash') : Settled hash' name := by
  obtain ⟨i, v, hi, hv, hd, hr⟩ := hs
  obtain ⟨v', hv', hd', hle⟩ := hg.rank i v hv hd
  exact ⟨i, v', hg.real name i hi, hv', hd', Nat.le_trans hr hle⟩

theorem Direct.rank_le (hd : Direct u) : u.type.rank ≤ 3 := by
  obtain ⟨hi, hw⟩ := hd
  cases u <;> simp_all [HashU.type, HashType.rank]

theorem linkAction_und {row : LinkRow} {t : HashType} (h : linkAction row t = .und) :
    t.rank ≤ 2 := by
  cases row <;> cases t <;> simp_all [linkAction, HashType.rank]

theorem linkAction_weak {row : LinkRow} {t : HashType} (h : linkAction row t = .weak) :
    t.rank ≤ 1 := by
  cases row <;> cases t <;> simp_all [linkAction, HashType.rank]

/-- A definition either takes effect, or there was one before. -/
theorem linkAction_def {row : LinkRow} {t : HashType} (hrow : row = .defn ∨ row = .defw)
    (ht : t ≠ .indirect ∧ t ≠ .warning) :
    linkAction row t = .defn ∨ linkAction row t = .defw ∨ linkAction row t = .cdef ∨
      ((linkAction row t = .mdef ∨ linkAction row t = .noact) ∧ 3 ≤ t.rank) := by
  obtain ⟨hi, hw⟩ := ht
  rcases hrow with rfl | rfl <;> cases t <;> simp_all [linkAction, HashType.rank]

theorem linkAction_direct {row : LinkRow} {t : HashType} (hrow : row ≠ .indr)
    (ht : t ≠ .indirect ∧ t ≠ .warning) :
    linkAction row t ≠ .ind ∧ linkAction row t ≠ .cind ∧ linkAction row t ≠ .mind ∧
      linkAction row t ≠ .warnc ∧ linkAction row t ≠ .cycle ∧ linkAction row t ≠ .refc := by
  obtain ⟨hi, hw⟩ := ht
  cases row <;> cases t <;> simp_all [linkAction]

/-- An entry that is set to a type that it can move on to. -/
theorem setU_moves (hn : NoInd hash) (hu : hash.u h = some v) (hd : Direct v) (hd' : Direct u)
    (hle : v.type.rank ≤ u.type.rank) (hu' : ∀ i, hash'.u i = (hash.setU h u).u i)
    (ht : hash'.table = hash.table) :
    NoInd hash' ∧ Grows hash hash' :=
  grows_setU hn hu (.inl ⟨hd, hd', hle⟩) hu' ht

theorem performAction_direct (info : Info) (s : Sym) (inh : Option Nat) {row : LinkRow}
    (hn : NoInd hash) (hrow : row ≠ .indr) (he : hash.entries[h]? = some e) (hd : Direct e.u) :
    ∃ hash', performAction info s inh hash h row e = some (.done hash') ∧
      NoInd hash' ∧ Grows hash hash' := by
  have hu : hash.u h = some e.u := u_eq_some.mpr ⟨e, he, rfl⟩
  have hr := hd.rank_le
  obtain ⟨h₁, h₂, h₃, h₄, h₅, h₆⟩ := linkAction_direct hrow hd
  have hcall : ∀ c, NoInd (hash.call c) ∧ Grows hash (hash.call c) := fun c =>
    grows_of_u hn (fun _ => rfl) rfl
  -- every type that an action sets, but for an undefined one, is the last one
  have hset : ∀ (u : HashU) (hash' : Hash), Direct u → 3 ≤ u.type.rank →
      (∀ i, hash'.u i = (hash.setU h u).u i) → hash'.table = hash.table →
      NoInd hash' ∧ Grows hash hash' := fun u hash' hdu hru hu' ht =>
    setU_moves hn hu hd hdu (Nat.le_trans hr hru) hu' ht
  unfold performAction
  cases ha : linkAction row e.u.type with
  | noact => exact ⟨hash, rfl, hn, .refl hash⟩
  | und =>
    refine ⟨_, rfl, ?_⟩
    refine setU_moves hn hu hd (u := .undefined (some s.abfd)) ?_ (linkAction_und ha)
      (fun i => addUndef_u) addUndef_table
    simp [Direct, HashU.type]
  | weak =>
    refine ⟨_, rfl, ?_⟩
    refine setU_moves hn hu hd (u := .undefweak (some s.abfd)) ?_ (linkAction_weak ha)
      (fun i => rfl) rfl
    simp [Direct, HashU.type]
  | cdef =>
    refine ⟨_, rfl, hset (.defined s.sec s.value) _ ?_ ?_ ?_ rfl⟩
    · simp [Direct, HashU.type]
    · simp [HashU.type, HashType.rank]
    · intro i
      rw [setU_u, setU_u, call_u, call_u]
  | defn =>
    refine ⟨_, rfl, hset (.defined s.sec s.value) _ ?_ ?_ (fun _ => rfl) rfl⟩
    · simp [Direct, HashU.type]
    · simp [HashU.type, HashType.rank]
  | defw =>
    refine ⟨_, rfl, hset (.defweak s.sec s.value) _ ?_ ?_ (fun _ => rfl) rfl⟩
    · simp [Direct, HashU.type]
    · simp [HashU.type, HashType.rank]
  | com =>
    refine ⟨_, rfl, hset (.common s.value (commonPower s.value) (commonSection s.abfd s.sec)) _
      ?_ ?_ ?_ ?_⟩
    · simp [Direct, HashU.type]
    · simp [HashU.type, HashType.rank]
    · intro i
      split
      · rw [setU_u, setU_u, addUndef_u, addUndef_u]
      · rfl
    · split <;> simp
  | ref =>
    exact ⟨_, rfl, grows_of_u hn (fun _ => markReferenced_u) markReferenced_table⟩
  | big =>
    cases heu : e.u with
    | common size power sec =>
      simp only
      split
      · refine ⟨_, rfl, hset (.common s.value (commonPower s.value)
          (commonSection s.abfd s.sec)) _ ?_ ?_ ?_ rfl⟩
        · simp [Direct, HashU.type]
        · simp [HashU.type, HashType.rank]
        · intro i
          rw [setU_u, setU_u, call_u, call_u]
      · exact ⟨_, rfl, hcall _⟩
    | _ =>
      rw [heu] at ha
      cases row <;> cases ha
  | cref => exact ⟨_, rfl, hcall _⟩
  | mdef => exact ⟨_, rfl, hcall _⟩
  | set => exact ⟨_, rfl, hcall _⟩
  | warn =>
    simp only
    split
    · exact ⟨_, rfl, hcall _⟩
    · exact ⟨_, rfl, makeWarning_grows hn he hd⟩
  | mwarn => exact ⟨_, rfl, makeWarning_grows hn he hd⟩
  | ind => exact absurd ha h₁
  | cind => exact absurd ha h₂
  | mind => exact absurd ha h₃
  | warnc => exact absurd ha h₄
  | cycle => exact absurd ha h₅
  | refc => exact absurd ha h₆

/-- After a definition the entry has one. -/
theorem performAction_defines {row : LinkRow} {inh : Option Nat} (hrow : row = .defn ∨ row = .defw)
    (he : hash.entries[h]? = some e) (hd : Direct e.u)
    (hp : performAction info s inh hash h row e = some (.done hash')) :
    ∃ v, hash'.u h = some v ∧ Direct v ∧ 3 ≤ v.type.rank := by
  have hu : hash.u h = some e.u := u_eq_some.mpr ⟨e, he, rfl⟩
  unfold performAction at hp
  obtain ha | ha | ha | ⟨ha | ha, hr⟩ := linkAction_def hrow hd
  all_goals
    rw [ha] at hp
    cases hp
  · exact ⟨_, setU_u_self hu, by simp [Direct, HashU.type], by simp [HashU.type, HashType.rank]⟩
  · exact ⟨_, setU_u_self hu, by simp [Direct, HashU.type], by simp [HashU.type, HashType.rank]⟩
  · exact ⟨_, setU_u_self (call_u.trans hu), by simp [Direct, HashU.type],
      by simp [HashU.type, HashType.rank]⟩
  · exact ⟨_, call_u.trans hu, hd, hr⟩
  · exact ⟨_, hu, hd, hr⟩

/-- The action on a warning ends the call, or goes on with the entry behind it. -/
theorem performAction_warning (info : Info) (s : Sym) (inh : Option Nat) (row : LinkRow)
    {j : Nat} {t : Option String} (hn : NoInd hash) (he : hash.entries[h]? = some e) (heu : e.u = .warning j t) :
    (row = .warn ∧ performAction info s inh hash h row e = some (.done hash)) ∨
      ∃ hash', performAction info s inh hash h row e = some (.again hash' j row) ∧
        NoInd hash' ∧ Grows hash hash' := by
  have hu : hash.u h = some (.warning j t) := u_eq_some.mpr ⟨e, he, heu⟩
  unfold performAction
  simp only [heu, HashU.type]
  cases row with
  | warn => exact .inl ⟨rfl, rfl⟩
  | undef | undefw | common =>
    right
    cases t with
    | none => exact ⟨hash, rfl, hn, .refl hash⟩
    | some text =>
      simp only [linkAction]
      split
      · exact ⟨hash, rfl, hn, .refl hash⟩
      · refine ⟨_, rfl, grows_setU hn hu (u := .warning j none) (.inr ⟨j, _, _, rfl, rfl⟩) ?_ rfl⟩
        intro i
        rw [setU_u, setU_u, call_u, call_u]
  | defn | defw | indr | set => exact .inr ⟨hash, rfl, hn, .refl hash⟩

/-- A call on a symbol that is not indirect ends, and leaves a definition if it is one. -/
theorem actionLoop_grows (info : Info) (s : Sym) (inh : Option Nat) (fuel : Nat) {row : LinkRow}
    (hn : NoInd hash) (hrow : row ≠ .indr) (hu : hash.u h = some u) :
    ∃ hash', actionLoop info s inh (fuel + 2) hash h row = some (true, hash') ∧
      NoInd hash' ∧ Grows hash hash' ∧
      (row = .defn ∨ row = .defw →
        ∃ v, hash'.u (hash.base h) = some v ∧ Direct v ∧ 3 ≤ v.type.rank) := by
  -- one round on a real entry
  have hround : ∀ (k : Nat) (hash : Hash) (h : Nat) (v : HashU), NoInd hash → hash.u h = some v →
      Direct v → ∃ hash', actionLoop info s inh (k + 1) hash h row = some (true, hash') ∧
        NoInd hash' ∧ Grows hash hash' ∧
        (row = .defn ∨ row = .defw → ∃ v, hash'.u h = some v ∧ Direct v ∧ 3 ≤ v.type.rank) := by
    intro k hash h v hn hv hd
    obtain ⟨e, he, rfl⟩ := u_eq_some.mp hv
    obtain ⟨hash', hp, hn', hg⟩ := performAction_direct info s inh hn hrow he hd
    refine ⟨hash', ?_, hn', hg, fun hdef => performAction_defines hdef he hd hp⟩
    rw [actionLoop, he]
    simp [hp]
  obtain hd | ⟨j, t, rfl⟩ := hn.direct_or_warning hu
  · rw [base_of_direct hu hd]
    exact hround (fuel + 1) hash h u hn hu hd
  · have hbase : hash.base h = j := by simp [Hash.base, hu]
    obtain ⟨w, hw, hdw⟩ := hn.warned h j t hu
    obtain ⟨e, he, heu⟩ := u_eq_some.mp hu
    rw [hbase, actionLoop, he]
    obtain ⟨rfl, hp⟩ | ⟨hash₁, hp, hn₁, hg₁⟩ := performAction_warning info s inh row hn he heu
    · refine ⟨hash, by simp [hp], hn, .refl hash, ?_⟩
      rintro (h | h) <;> cases h
    · obtain ⟨w₁, hw₁, hdw₁, -⟩ := hg₁.rank j w hw hdw
      obtain ⟨hash', hrun, hn', hg', hdef⟩ := hround fuel hash₁ j w₁ hn₁ hw₁ hdw₁
      exact ⟨hash', by simp [hp, hrun], hn', hg₁.trans hg', hdef⟩

/-- The name under which a symbol is looked up. -/
def Sym.lookupName (info : Info) (s : Sym) : String :=
  if s.row = .undef ∨ s.row = .undefw then info.wrap s.name else s.name

theorem lookupEntries_direct (hrow : s.row ≠ .indr) :
    lookupEntries info hash s = (none, hash.lookupCreate (s.lookupName info)) := by
  unfold lookupEntries
  rw [if_neg hrow]
  rfl

/-- A symbol that is not indirect is added, and its name has a definition after it if it is
one. -/
theorem addOneSymbol_grows (info : Info) (fuel : Nat) (hn : NoInd hash) (hrow : s.row ≠ .indr) :
    ∃ hash', addOneSymbol info (fuel + 2) hash s = some (true, hash') ∧ NoInd hash' ∧
      Grows hash hash' ∧ (s.row = .defn ∨ s.row = .defw → Settled hash' s.name) := by
  -- the message about a missing plugin comes first
  obtain ⟨hash₁, hn₁, hg₁, heq⟩ : ∃ hash₁, NoInd hash₁ ∧ Grows hash hash₁ ∧
      addOneSymbol info (fuel + 2) hash s = actionLoop info s none (fuel + 2)
        (hash₁.lookupCreate (s.lookupName info)).2 (hash₁.lookupCreate (s.lookupName info)).1
        s.row := by
    unfold addOneSymbol
    simp only [lookupEntries_direct hrow]
    split
    · obtain ⟨hn₁, hg₁⟩ := grows_of_u hn (fun _ => call_u) call_table
      exact ⟨_, hn₁, hg₁, rfl⟩
    · exact ⟨hash, hn, .refl hash, rfl⟩
  obtain ⟨hn₂, hg₂⟩ := lookupCreate_grows hn₁ (s.lookupName info)
  have hlook : (hash₁.lookupCreate (s.lookupName info)).2.table.lookup (s.lookupName info)
      = some (hash₁.lookupCreate (s.lookupName info)).1 := lookupCreate_lookup
  obtain ⟨v, hv⟩ := hn₂.known _ _ hlook
  obtain ⟨hash', hrun, hn', hg', hdef⟩ := actionLoop_grows info s none fuel hn₂ hrow hv
  refine ⟨hash', heq.trans hrun, hn', (hg₁.trans hg₂).trans hg', ?_⟩
  intro hd
  obtain ⟨w, hw, hdw, hr⟩ := hdef hd
  have hname : s.lookupName info = s.name := by
    unfold Sym.lookupName
    rw [if_neg]
    rcases hd with hd | hd <;> simp [hd]
  refine ⟨_, w, hg'.real _ _ ?_, hw, hdw, hr⟩
  unfold Hash.real
  rw [← hname, hlook]
  rfl

/-- The table and its list of undefined symbols, in a link without indirect symbols. -/
structure Ready (hash : Hash) (l : List Nat) : Prop where
  noInd : NoInd hash
  sound : Sound hash l

theorem addOneSymbol_ready (info : Info) (fuel : Nat) {l : List Nat} (hr : Ready hash l)
    (hrow : s.row ≠ .indr) :
    ∃ hash' l', addOneSymbol info (fuel + 2) hash s = some (true, hash') ∧ Ready hash' l' ∧
      Grows hash hash' ∧ l <+: l' ∧ (s.row = .defn ∨ s.row = .defw → Settled hash' s.name) := by
  obtain ⟨hash', hrun, hn', hg, hdef⟩ := addOneSymbol_grows info fuel hr.noInd hrow
  obtain ⟨l', hl, hs', -⟩ := addOneSymbol_keeps hr.sound hrun
  exact ⟨hash', l', hrun, ⟨hn', hs'⟩, hg, hl, hdef⟩

theorem noInd_init : NoInd Hash.init := by
  refine ⟨?_, ?_, ?_⟩ <;> simp [Hash.init, Hash.u]

/-- Object files without indirect symbols leave a table that is ready. -/
theorem addRun_ready {fuel : Nat} {syms : List Sym} (hrows : ∀ s ∈ syms, s.row ≠ .indr)
    (hrun : addRun info (fuel + 2) Hash.init syms = some hash) : ∃ l, Ready hash l := by
  induction syms using List.reverseRecOn generalizing hash with
  | nil =>
    cases hrun
    exact ⟨[], noInd_init, sound_init⟩
  | append_singleton syms s ih =>
    obtain ⟨hash₁, b, hrun₁, hadd⟩ := addRun_snoc hrun
    obtain ⟨l, hr⟩ := ih (fun t ht => hrows t (List.mem_append_left _ ht)) hrun₁
    obtain ⟨hash', l', hadd', hr', -⟩ := addOneSymbol_ready info fuel hr (hrows s (by simp))
    rw [hadd, Option.some.injEq, Prod.mk.injEq] at hadd'
    rw [hadd'.2]
    exact ⟨l', hr'⟩

/-- A name that leads to an undefined entry did so before, unless the list has a new tail. -/
theorem undefined_of_tail {l l' : List Nat} {abfd : Option Nat} (hr : Ready hash l)
    (hr' : Ready hash' l') (hg : Grows hash hash') (hl : l <+: l')
    (htail : hash.undefsTail = hash'.undefsTail) (hi : hash'.real name = some i)
    (hu : hash'.u i = some (.undefined abfd)) :
    ∃ abfd, hash.real name = some i ∧ hash.u i = some (.undefined abfd) := by
  obtain ⟨m, rfl⟩ := hl
  -- nothing was put on the list
  have hlinked := hr'.sound.linked
  rw [← htail] at hlinked
  have hm : m = [] := hr.sound.linked.eq_nil_of_tail hlinked
  rw [hm, List.append_nil] at hr'
  have hil : i ∈ l := hr'.sound.undefined i _ hu rfl
  obtain ⟨v, hv⟩ := hr.sound.known i hil
  cases hreal : hash.real name with
  | none =>
    rw [hg.new name i hreal hi] at hv
    cases hv
  | some j =>
    rw [hg.real name j hreal, Option.some.injEq] at hi
    subst hi
    obtain ⟨w, hw, hdw⟩ : ∃ w, hash.u j = some w ∧ Direct w := by
      obtain ⟨k, hk, rfl⟩ := Option.map_eq_some_iff.mp hreal
      obtain ⟨x, hx⟩ := hr.noInd.known name k hk
      exact hr.noInd.base_direct hx
    obtain ⟨w', hw', -, hle⟩ := hg.rank j w hw hdw
    rw [hu, Option.some.injEq] at hw'
    subst hw'
    have hfresh := hr.sound.fresh j w hw
    cases w with
    | undefined abfd' => exact ⟨abfd', rfl, hw⟩
    | new => exact absurd hil (hfresh rfl).1
    | undefweak _ => exact absurd hil (hfresh rfl).1
    | indirect _ => exact absurd rfl hdw.1
    | warning _ _ => exact absurd rfl hdw.2
    | _ => simp [HashU.type, HashType.rank] at hle

end FusionBinutils.Bfd.Linker
