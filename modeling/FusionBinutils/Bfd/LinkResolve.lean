import FusionBinutils.Bfd.LinkHash

/-! Symbols of one name resolve in the same way in whatever order they are added. -/
namespace FusionBinutils.Bfd.Linker

variable (info : Info) {hash : Hash} {h : Nat} {u : HashU} {s : Sym} {syms : List Sym}

/-- A symbol that is undefined, weak undefined, defined, weak defined or common. -/
def Plain (s : Sym) : Prop :=
  s.row = .undef ∨ s.row = .undefw ∨ s.row = .defn ∨ s.row = .defw ∨ s.row = .common

/-- The union that a plain symbol leaves in an entry which is neither indirect nor a warning. -/
def resolveU (u : HashU) (s : Sym) : HashU :=
  let com : HashU := .common s.value (commonPower s.value) (commonSection s.abfd s.sec)
  match linkAction s.row u.type with
  | .und => .undefined (some s.abfd)
  | .weak => .undefweak (some s.abfd)
  | .defn | .cdef => .defined s.sec s.value
  | .defw => .defweak s.sec s.value
  | .com => com
  | .big =>
    match u with
    | .common size _ _ => if size.toNat < s.value.toNat then com else u
    | _ => u
  | _ => u

def Callback.isMultipleDefinition : Callback → Bool
  | .multipleDefinition _ _ _ _ => true
  | _ => false

/-- Calls are added to the record, none of them about a multiple definition. -/
def QuietSince (calls calls' : List Callback) : Prop :=
  ∃ l, calls' = calls ++ l ∧ ∀ c ∈ l, c.isMultipleDefinition = false

theorem QuietSince.refl (calls : List Callback) : QuietSince calls calls :=
  ⟨[], by simp, by simp⟩

theorem QuietSince.trans {a b c : List Callback} (h : QuietSince a b) (h' : QuietSince b c) :
    QuietSince a c := by
  obtain ⟨l, rfl, hl⟩ := h
  obtain ⟨l', rfl, hl'⟩ := h'
  refine ⟨l ++ l', by simp, ?_⟩
  intro x hx
  rcases List.mem_append.mp hx with hx | hx
  · exact hl x hx
  · exact hl' x hx

theorem QuietSince.snoc (calls : List Callback) {c : Callback}
    (hc : c.isMultipleDefinition = false) : QuietSince calls (calls ++ [c]) :=
  ⟨[c], rfl, by simpa using hc⟩

/-- One action on a direct entry. -/
theorem performAction_plain {e : HashEntry} (hs : Plain s) (he : hash.entries[h]? = some e)
    (hdir : Direct e.u) (hdup : s.row = .defn → e.u.type ≠ .defined) :
    ∃ hash', performAction info s none hash h s.row e = some (.done hash') ∧
      hash'.table = hash.table ∧ hash'.u h = some (resolveU e.u s) ∧
      QuietSince hash.calls hash'.calls := by
  have hu : hash.u h = some e.u := u_eq_some.mpr ⟨e, he, rfl⟩
  have hq : ∀ t n, QuietSince hash.calls (hash.calls ++ [.multipleCommon h s.abfd t n]) :=
    fun t n => .snoc _ rfl
  obtain ⟨str, u, next, ir⟩ := e
  simp only at hu hdir hdup
  rcases hs with hs | hs | hs | hs | hs <;> rw [hs] at hdup ⊢ <;> cases u <;>
    simp_all [performAction, linkAction, HashU.type, resolveU, setU_u_self hu, QuietSince.refl,
      Direct]
  · exact setU_u_self (call_u.trans hu)
  · exact setU_u_self (addUndef_u.trans hu)
  · -- the larger of two common sizes stays
    split
    · exact ⟨_, rfl, rfl, setU_u_self (call_u.trans hu), hq _ _⟩
    · exact ⟨_, rfl, rfl, hu, hq _ _⟩

/-- A symbol added to a table that knows its name. -/
theorem addOneSymbol_plain (fuel : Nat) (hw : info.wrap = id) (hs : Plain s)
    (ht : hash.table.lookup s.name = some h) (hu : hash.u h = some u) (hdir : Direct u)
    (hdup : s.row = .defn → u.type ≠ .defined) :
    ∃ hash', addOneSymbol info (fuel + 1) hash s = some (true, hash') ∧
      hash'.table.lookup s.name = some h ∧ hash'.u h = some (resolveU u s) ∧
      QuietSince hash.calls hash'.calls := by
  have hrow : s.row ≠ .indr := by
    rcases hs with hs | hs | hs | hs | hs <;> simp [hs]
  -- the message about the missing plugin comes first
  obtain ⟨hash₁, h₁, ht₁, hu₁, hq₁⟩ : ∃ hash₁,
      (if s.row = .common ∧ !info.relocatable ∧ s.name = "__gnu_lto_slim" then
        hash.call (.errorHandler s.abfd "plugin needed to handle lto object") else hash) = hash₁ ∧
      hash₁.table = hash.table ∧ hash₁.u h = some u ∧ QuietSince hash.calls hash₁.calls := by
    split
    · exact ⟨_, rfl, rfl, hu, .snoc _ rfl⟩
    · exact ⟨_, rfl, rfl, hu, .refl _⟩
  have hlook : lookupEntries info hash₁ s = (none, h, hash₁) := by
    unfold lookupEntries
    simp only [if_neg hrow, hw, id, ite_self, Hash.lookupCreate, ht₁, ht]
  obtain ⟨e, he, rfl⟩ := u_eq_some.mp hu₁
  obtain ⟨hash₂, ha, ht₂, hu₂, hq₂⟩ := performAction_plain info hs he hdir hdup
  refine ⟨hash₂, ?_, ?_, hu₂, hq₁.trans hq₂⟩
  · unfold addOneSymbol
    simp only [h₁, hlook, actionLoop, he, ha, Option.bind_eq_bind, Option.bind_some]
  · rw [ht₂, ht₁, ht]

/-- The first symbol of a name makes a new entry for it. -/
theorem addOneSymbol_create (fuel : Nat) (hw : info.wrap = id) (hs : Plain s) :
    addOneSymbol info fuel hash s = addOneSymbol info fuel (hash.lookupCreate s.name).2 s := by
  have hrow : s.row ≠ .indr := by
    rcases hs with hs | hs | hs | hs | hs <;> simp [hs]
  have hlook : ∀ hash' : Hash, lookupEntries info hash' s
      = (none, (hash'.lookupCreate s.name).1, (hash'.lookupCreate s.name).2) := by
    intro hash'
    unfold lookupEntries
    simp only [if_neg hrow, hw, id, ite_self]
  have htwice : (hash.lookupCreate s.name).2.lookupCreate s.name
      = ((hash.lookupCreate s.name).1, (hash.lookupCreate s.name).2) :=
    lookupCreate_known lookupCreate_lookup
  unfold addOneSymbol
  split
  · simp only [hlook, lookupCreate_call, htwice]
  · simp only [hlook, htwice]

/-! What a sequence of plain symbols resolves to. -/

/-- No symbol of the row. -/
def NoneOf (row : LinkRow) (syms : List Sym) : Prop := ∀ s ∈ syms, s.row ≠ row

theorem NoneOf.snoc {row : LinkRow} (h : NoneOf row syms) (hs : s.row ≠ row) :
    NoneOf row (syms ++ [s]) := by
  intro t ht
  rcases List.mem_append.mp ht with ht | ht
  · exact h t ht
  · rw [List.mem_singleton.mp ht]
    exact hs

/-- The strong definition; or the largest common size; or the first weak definition; or a strong
reference; or a weak one. -/
inductive Resolved (syms : List Sym) : HashU → Prop where
  | new (hnil : syms = []) : Resolved syms .new
  | defined (d : Sym) (hd : d ∈ syms) (hrow : d.row = .defn) :
    Resolved syms (.defined d.sec d.value)
  | common (c : Sym) (sec : Sec) (hc : c ∈ syms) (hrow : c.row = .common)
      (hdef : NoneOf .defn syms)
      (hmax : ∀ t ∈ syms, t.row = .common → t.value.toNat ≤ c.value.toNat) :
    Resolved syms (.common c.value (min (bfdLog2 c.value) 4) sec)
  | defweak (w : Sym) (hw : syms.find? (·.row = .defw) = some w) (hdef : NoneOf .defn syms)
      (hcom : NoneOf .common syms) :
    Resolved syms (.defweak w.sec w.value)
  | undefined (abfd : Option Nat) (r : Sym) (hr : r ∈ syms) (hrow : r.row = .undef)
      (hdef : NoneOf .defn syms) (hcom : NoneOf .common syms) (hdefw : NoneOf .defw syms) :
    Resolved syms (.undefined abfd)
  | undefweak (abfd : Option Nat) (hne : syms ≠ []) (hdef : NoneOf .defn syms)
      (hcom : NoneOf .common syms) (hdefw : NoneOf .defw syms) (hundef : NoneOf .undef syms) :
    Resolved syms (.undefweak abfd)

theorem Resolved.direct (h : Resolved syms u) : Direct u := by
  cases h <;> simp [Direct, HashU.type]

/-- A strong definition is there once the entry is defined. -/
theorem Resolved.exists_def (h : Resolved syms u) (hu : u.type = .defined) :
    ∃ d ∈ syms, d.row = .defn := by
  cases h with
  | defined d hd hrow => exact ⟨d, hd, hrow⟩
  | _ => cases hu

theorem find?_snoc_defw (hn : NoneOf .defw syms) (hs : s.row = .defw) :
    (syms ++ [s]).find? (·.row = .defw) = some s := by
  rw [List.find?_append, List.find?_eq_none.mpr (by simpa [NoneOf] using hn)]
  simp [hs]

theorem find?_snoc_some {w : Sym} (hw : syms.find? (·.row = .defw) = some w) :
    (syms ++ [s]).find? (·.row = .defw) = some w := by
  rw [List.find?_append, hw]
  rfl

/-- The first common symbol of a sequence has the largest size. -/
theorem resolved_common (hdef : NoneOf .defn syms) (hcom : NoneOf .common syms)
    (hs : s.row = .common) (sec : Sec) :
    Resolved (syms ++ [s]) (.common s.value (commonPower s.value) sec) := by
  refine .common s sec (by simp) hs (hdef.snoc (by simp [hs])) ?_
  intro t ht htrow
  rcases List.mem_append.mp ht with ht | ht
  · exact absurd htrow (hcom t ht)
  · rw [List.mem_singleton.mp ht]

theorem noneOf_nil (row : LinkRow) : NoneOf row [] := by
  intro t ht
  cases ht

theorem resolved_step (h : Resolved syms u) (hs : Plain s)
    (hdup : s.row = .defn → u.type ≠ .defined) : Resolved (syms ++ [s]) (resolveU u s) := by
  have hmem : s ∈ syms ++ [s] := by simp
  have hold : ∀ {t}, t ∈ syms → t ∈ syms ++ [s] := fun ht => List.mem_append_left _ ht
  cases h with
  | new hnil =>
    subst hnil
    have hnone := noneOf_nil
    rcases hs with hs | hs | hs | hs | hs <;> simp only [resolveU, hs, HashU.type, linkAction]
    · exact .undefined _ s hmem hs ((hnone _).snoc (by simp [hs])) ((hnone _).snoc (by simp [hs]))
        ((hnone _).snoc (by simp [hs]))
    · exact .undefweak _ (by simp) ((hnone _).snoc (by simp [hs])) ((hnone _).snoc (by simp [hs]))
        ((hnone _).snoc (by simp [hs])) ((hnone _).snoc (by simp [hs]))
    · exact .defined s hmem hs
    · exact .defweak s (find?_snoc_defw (hnone _) hs) ((hnone _).snoc (by simp [hs]))
        ((hnone _).snoc (by simp [hs]))
    · exact resolved_common (hnone _) (hnone _) hs _
  | defined d hd hrow =>
    rcases hs with hs | hs | hs | hs | hs <;> simp only [resolveU, hs, HashU.type, linkAction] <;>
      exact .defined d (hold hd) hrow
  | common c sec hc hrow hdef hmax =>
    -- the size stays unless the new symbol is a larger common one
    have hkeep : s.row ≠ .defn → (s.row = .common → s.value.toNat ≤ c.value.toNat) →
        Resolved (syms ++ [s]) (.common c.value (min (bfdLog2 c.value) 4) sec) := by
      intro hsd hle
      refine .common c sec (hold hc) hrow (hdef.snoc hsd) ?_
      intro t ht htrow
      rcases List.mem_append.mp ht with ht | ht
      · exact hmax t ht htrow
      · rw [List.mem_singleton.mp ht] at htrow ⊢
        exact hle htrow
    rcases hs with hs | hs | hs | hs | hs <;> simp only [resolveU, hs, HashU.type, linkAction]
    · exact hkeep (by simp [hs]) (by simp [hs])
    · exact hkeep (by simp [hs]) (by simp [hs])
    · exact .defined s hmem hs
    · exact hkeep (by simp [hs]) (by simp [hs])
    · split
      · next hlt =>
        refine .common s _ hmem hs (hdef.snoc (by simp [hs])) ?_
        intro t ht htrow
        rcases List.mem_append.mp ht with ht | ht
        · have := hmax t ht htrow
          omega
        · rw [List.mem_singleton.mp ht]
      · next hle => exact hkeep (by simp [hs]) (fun _ => by omega)
  | defweak w hw hdef hcom =>
    have hkeep : s.row ≠ .defn → s.row ≠ .common →
        Resolved (syms ++ [s]) (.defweak w.sec w.value) :=
      fun hsd hsc => .defweak w (find?_snoc_some hw) (hdef.snoc hsd) (hcom.snoc hsc)
    rcases hs with hs | hs | hs | hs | hs <;> simp only [resolveU, hs, HashU.type, linkAction]
    · exact hkeep (by simp [hs]) (by simp [hs])
    · exact hkeep (by simp [hs]) (by simp [hs])
    · exact .defined s hmem hs
    · exact hkeep (by simp [hs]) (by simp [hs])
    · exact resolved_common hdef hcom hs _
  | undefined abfd r hr hrow hdef hcom hdefw =>
    have hkeep : s.row ≠ .defn → s.row ≠ .common → s.row ≠ .defw →
        Resolved (syms ++ [s]) (.undefined abfd) :=
      fun hsd hsc hsw =>
        .undefined abfd r (hold hr) hrow (hdef.snoc hsd) (hcom.snoc hsc) (hdefw.snoc hsw)
    rcases hs with hs | hs | hs | hs | hs <;> simp only [resolveU, hs, HashU.type, linkAction]
    · exact hkeep (by simp [hs]) (by simp [hs]) (by simp [hs])
    · exact hkeep (by simp [hs]) (by simp [hs]) (by simp [hs])
    · exact .defined s hmem hs
    · exact .defweak s (find?_snoc_defw hdefw hs) (hdef.snoc (by simp [hs]))
        (hcom.snoc (by simp [hs]))
    · exact resolved_common hdef hcom hs _
  | undefweak abfd hne hdef hcom hdefw hundef =>
    rcases hs with hs | hs | hs | hs | hs <;> simp only [resolveU, hs, HashU.type, linkAction]
    · exact .undefined _ s hmem hs (hdef.snoc (by simp [hs])) (hcom.snoc (by simp [hs]))
        (hdefw.snoc (by simp [hs]))
    · exact .undefweak abfd (by simp) (hdef.snoc (by simp [hs])) (hcom.snoc (by simp [hs]))
        (hdefw.snoc (by simp [hs])) (hundef.snoc (by simp [hs]))
    · exact .defined s hmem hs
    · exact .defweak s (find?_snoc_defw hdefw hs) (hdef.snoc (by simp [hs]))
        (hcom.snoc (by simp [hs]))
    · exact resolved_common hdef hcom hs _

/-! Runs. -/

/-- Add symbols one after the other; the flag tells whether every call returned TRUE. -/
def addSymbols (fuel : Nat) (hash : Hash) (syms : List Sym) : Option (Bool × Hash) :=
  syms.foldlM (fun r s => (addOneSymbol info fuel r.2 s).map fun r' => (r.1 && r'.1, r'.2))
    (true, hash)

theorem addSymbols_snoc (fuel : Nat) (hash : Hash) (syms : List Sym) (s : Sym) :
    addSymbols info fuel hash (syms ++ [s]) = (addSymbols info fuel hash syms).bind fun r =>
      (addOneSymbol info fuel r.2 s).map fun r' => (r.1 && r'.1, r'.2) := by
  simp [addSymbols, List.foldlM_append]

def AtMostOneDef (syms : List Sym) : Prop := syms.countP (·.row = .defn) ≤ 1

theorem AtMostOneDef.init (h : AtMostOneDef (syms ++ [s])) : AtMostOneDef syms := by
  unfold AtMostOneDef at *
  rw [List.countP_append] at h
  omega

/-- Behind a strong definition there is no other. -/
theorem AtMostOneDef.last (h : AtMostOneDef (syms ++ [s])) (hs : s.row = .defn)
    (hu : Resolved syms u) : u.type ≠ .defined := by
  intro hd
  obtain ⟨d, hd, hrow⟩ := hu.exists_def hd
  have hpos : 0 < syms.countP (·.row = .defn) :=
    List.countP_pos_iff.mpr ⟨d, hd, by simp [hrow]⟩
  unfold AtMostOneDef at h
  rw [List.countP_append, List.countP_singleton, if_pos (by simp [hs])] at h
  omega

/-- The run from an entry that is new. -/
theorem addSymbols_resolved (fuel : Nat) (hw : info.wrap = id) {name : String}
    (ht : hash.table.lookup name = some h) (hu : hash.u h = some .new)
    (hname : ∀ s ∈ syms, s.name = name) (hplain : ∀ s ∈ syms, Plain s)
    (hone : AtMostOneDef syms) :
    ∃ hash' u, addSymbols info (fuel + 1) hash syms = some (true, hash') ∧
      hash'.table.lookup name = some h ∧ hash'.u h = some u ∧ Resolved syms u ∧
      QuietSince hash.calls hash'.calls := by
  induction syms using List.reverseRecOn with
  | nil => exact ⟨hash, .new, rfl, ht, hu, .new rfl, .refl _⟩
  | append_singleton syms s ih =>
    have hin : ∀ t ∈ syms, t ∈ syms ++ [s] := fun t ht => List.mem_append_left _ ht
    have hs : s ∈ syms ++ [s] := by simp
    obtain ⟨hash₁, u, hrun, ht₁, hu₁, hres, hq⟩ :=
      ih (fun t ht => hname t (hin t ht)) (fun t ht => hplain t (hin t ht)) hone.init
    have hdup : s.row = .defn → u.type ≠ .defined := fun hd => hone.last hd hres
    rw [← hname s hs] at ht₁
    obtain ⟨hash₂, hadd, ht₂, hu₂, hq₂⟩ :=
      addOneSymbol_plain info fuel hw (hplain s hs) ht₁ hu₁ hres.direct hdup
    rw [hname s hs] at ht₂
    refine ⟨hash₂, _, ?_, ht₂, hu₂, resolved_step hres (hplain s hs) hdup, hq.trans hq₂⟩
    rw [addSymbols_snoc, hrun, Option.bind_some, hadd]
    rfl

/-- Looking the name up first makes no difference to a run that is not empty. -/
theorem addSymbols_create (fuel : Nat) (hw : info.wrap = id) {name : String} (hne : syms ≠ [])
    (hname : ∀ s ∈ syms, s.name = name) (hplain : ∀ s ∈ syms, Plain s) :
    addSymbols info fuel hash syms = addSymbols info fuel (hash.lookupCreate name).2 syms := by
  cases syms with
  | nil => exact absurd rfl hne
  | cons s syms =>
    have hs : s ∈ s :: syms := List.mem_cons_self
    simp only [addSymbols, List.foldlM_cons]
    rw [addOneSymbol_create info fuel hw (hplain s hs), hname s hs]

/-- Symbols of one name, added in any order to a table without the name. -/
theorem resolution_of_order (fuel : Nat) (hash : Hash) (name : String) (syms : List Sym)
    (hw : info.wrap = id) (hnew : hash.table.lookup name = none) (hne : syms ≠ [])
    (hname : ∀ s ∈ syms, s.name = name) (hplain : ∀ s ∈ syms, Plain s)
    (hone : AtMostOneDef syms) :
    ∃ hash' h u, addSymbols info (fuel + 1) hash syms = some (true, hash') ∧
      hash'.table.lookup name = some h ∧ hash'.u h = some u ∧ Resolved syms u ∧
      QuietSince hash.calls hash'.calls := by
  rw [addSymbols_create info _ hw hne hname hplain]
  obtain ⟨hash', u, hrun, ht, hu, hres, hq⟩ :=
    addSymbols_resolved info fuel hw lookupCreate_lookup (lookupCreate_new hnew) hname hplain hone
  rw [lookupCreate_calls] at hq
  exact ⟨hash', _, u, hrun, ht, hu, hres, hq⟩

/-- A global symbol of file `abfd`. -/
def globalSym (abfd : Nat) (name : String) (weak : Bool) (sec : Sec) (value : Vma) : Sym where
  abfd := abfd
  plugin := false
  name := name
  weak := weak
  indirect := false
  warning := false
  constructor := false
  sec := sec
  value := value
  string := name

def plainInfo : Info := ⟨id, false, false⟩

/-- A weak definition, a reference, two common symbols and a weak reference. -/
def commonWins : List Sym :=
  [globalSym 0 "x" true (.owned 0 ".data" false) 4, globalSym 1 "x" false .und 0,
    globalSym 2 "x" false .com 8, globalSym 3 "x" false .com 24, globalSym 4 "x" true .und 0]

theorem resolution_of_commonWins :
    ∃ hash' h u, addSymbols plainInfo 1 Hash.init commonWins = some (true, hash') ∧
      hash'.table.lookup "x" = some h ∧ hash'.u h = some u ∧ Resolved commonWins u ∧
      QuietSince Hash.init.calls hash'.calls :=
  resolution_of_order plainInfo 0 Hash.init "x" commonWins rfl rfl (by decide) (by decide)
    (by unfold Plain; decide) (by unfold AtMostOneDef; decide)

end FusionBinutils.Bfd.Linker
