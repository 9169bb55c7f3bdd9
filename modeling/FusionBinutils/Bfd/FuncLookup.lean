import Mathlib.Data.List.Basic
import Mathlib.Order.Nat
import Mathlib.Tactic.SplitIfs

/-! The lookup of a function by address (bfd/dwarf2.c): the table of the functions of a compilation
unit, sorted by their lowest addresses, against a search of all their ranges. -/
namespace FusionBinutils.Bfd.FuncLookup

/-- `struct arange` without its link. -/
structure Arange where
  low : Nat
  high : Nat
  deriving DecidableEq, Repr

/-- What the lookup reads of a `struct funcinfo`: where it lies in memory, its own range and the
ranges linked behind it. -/
structure FuncInfo where
  place : Nat
  arange : Arange
  next : List Arange
  deriving DecidableEq, Repr

def FuncInfo.aranges (f : FuncInfo) : List Arange := f.arange :: f.next

/-- `struct lookup_funcinfo`. -/
structure LookupFuncinfo where
  funcinfo : FuncInfo
  lowAddr : Nat
  highAddr : Nat
  deriving DecidableEq, Repr

/-! Building the table. -/

/-- "Calculate the lowest and highest address for this function entry." -/
def lookupEntry (each : FuncInfo) : LookupFuncinfo :=
  each.next.foldl (fun entry range =>
    { entry with
      lowAddr := if range.low < entry.lowAddr then range.low else entry.lowAddr
      highAddr := if entry.highAddr < range.high then range.high else entry.highAddr })
    ⟨each, each.arange.low, each.arange.high⟩

/-- `compare_lookup_funcinfos`. -/
def compareLookupFuncinfos (lookup1 lookup2 : LookupFuncinfo) : Int :=
  if lookup1.lowAddr < lookup2.lowAddr then -1
  else if lookup2.lowAddr < lookup1.lowAddr then 1
  else if lookup1.highAddr < lookup2.highAddr then -1
  else if lookup2.highAddr < lookup1.highAddr then 1
  else 0

/-- `qsort`: entries that compare equal may come in any order. -/
structure Qsort where
  sort : List LookupFuncinfo → List LookupFuncinfo
  perm : ∀ table, (sort table).Perm table
  sorted : ∀ table, (sort table).Pairwise fun a b => compareLookupFuncinfos a b ≤ 0

theorem compareLookupFuncinfos_le_iff (a b : LookupFuncinfo) :
    compareLookupFuncinfos a b ≤ 0 ↔
      a.lowAddr < b.lowAddr ∨ (a.lowAddr = b.lowAddr ∧ a.highAddr ≤ b.highAddr) := by
  unfold compareLookupFuncinfos
  split_ifs <;> omega

/-- A stable sort is one of them. -/
instance : Inhabited Qsort where
  default :=
    { sort := fun table => table.mergeSort fun a b => compareLookupFuncinfos a b ≤ 0
      perm := fun table => List.mergeSort_perm table _
      sorted := by
        intro table
        refine (List.pairwise_mergeSort ?_ ?_ table).imp of_decide_eq_true
        · intro a b c hab hbc
          rw [decide_eq_true_eq, compareLookupFuncinfos_le_iff] at *
          omega
        · intro a b
          rw [Bool.or_eq_true, decide_eq_true_eq, decide_eq_true_eq,
            compareLookupFuncinfos_le_iff, compareLookupFuncinfos_le_iff]
          omega }

/-- "Calculate the high watermark for each function in the lookup table." -/
def watermark (highAddr : Nat) : List LookupFuncinfo → List LookupFuncinfo
  | [] => []
  | entry :: rest =>
    if highAddr < entry.highAddr then entry :: watermark entry.highAddr rest
    else { entry with highAddr := highAddr } :: watermark highAddr rest

/-- `build_lookup_funcinfo_table`; the table is filled from its end. -/
def buildLookupFuncinfoTable (q : Qsort) (functionTable : List FuncInfo) : List LookupFuncinfo :=
  match q.sort (functionTable.map lookupEntry).reverse with
  | [] => []
  | entry :: rest => entry :: watermark entry.highAddr rest

/-! Looking up. -/

/-- "Find the first function in the lookup table which may contain the specified address." A read
behind the end of the table has no result. -/
def findFirst (table : List LookupFuncinfo) (addr : Nat) : Nat → Nat → Nat → Nat → Option Nat
  | 0, _, _, first => some first
  | fuel + 1, low, high, first =>
    if low < high then do
      let mid := (low + high) / 2
      let lookupFuncinfo ← table[mid]?
      if addr < lookupFuncinfo.lowAddr then findFirst table addr fuel low mid first
      else if lookupFuncinfo.highAddr ≤ addr then findFirst table addr fuel (mid + 1) high first
      else findFirst table addr fuel low mid mid
    else some first

/-- One range, against the best fit and its length. -/
def betterFit (addr : Nat) (bestFit : Option (FuncInfo × Nat)) (c : FuncInfo × Arange) :
    Option (FuncInfo × Nat) :=
  if addr < c.2.low ∨ c.2.high ≤ addr then bestFit
  else
    match bestFit with
    | none => some (c.1, c.2.high - c.2.low)
    | some (best, len) =>
      if c.2.high - c.2.low < len ∨ (c.2.high - c.2.low = len ∧ best.place < c.1.place) then
        some (c.1, c.2.high - c.2.low)
      else some (best, len)

/-- "Find the 'best' match for the address." -/
def scan (addr : Nat) : List LookupFuncinfo → Option (FuncInfo × Nat) → Option (FuncInfo × Nat)
  | [], bestFit => bestFit
  | entry :: rest, bestFit =>
    if addr < entry.lowAddr then bestFit
    else scan addr rest
      ((entry.funcinfo.aranges.map (entry.funcinfo, ·)).foldl (betterFit addr) bestFit)

/-- `lookup_address_in_function_table`: the function, if there is one. -/
def lookupAddressInFunctionTable (q : Qsort) (functionTable : List FuncInfo) (addr : Nat) :
    Option (Option FuncInfo) :=
  let numberOfFunctions := functionTable.length
  if numberOfFunctions = 0 then some none
  else do
    let table := buildLookupFuncinfoTable q functionTable
    let last ← table[numberOfFunctions - 1]?
    if last.highAddr < addr then some none
    else
      let first ← findFirst table addr numberOfFunctions 0 numberOfFunctions numberOfFunctions
      some ((scan addr (table.drop first) none).map Prod.fst)

/-! What the table says about its functions. -/

variable {q : Qsort} {functions : List FuncInfo} {f : FuncInfo} {e : LookupFuncinfo} {r : Arange}
  {addr highAddr low high first n k : Nat} {table rest : List LookupFuncinfo}

def Arange.Contains (r : Arange) (addr : Nat) : Prop := r.low ≤ addr ∧ addr < r.high

/-- An entry covers the ranges of its function. -/
def LookupFuncinfo.Covers (e : LookupFuncinfo) : Prop :=
  ∀ r ∈ e.funcinfo.aranges, e.lowAddr ≤ r.low ∧ r.high ≤ e.highAddr

/-- One more range of the function. -/
theorem lookupEntry_step (ranges : List Arange) (e : LookupFuncinfo) :
    let e' := ranges.foldl (fun entry range =>
      { entry with
        lowAddr := if range.low < entry.lowAddr then range.low else entry.lowAddr
        highAddr := if entry.highAddr < range.high then range.high else entry.highAddr }) e
    e'.funcinfo = e.funcinfo ∧ e'.lowAddr ≤ e.lowAddr ∧ e.highAddr ≤ e'.highAddr ∧
      ∀ r ∈ ranges, e'.lowAddr ≤ r.low ∧ r.high ≤ e'.highAddr := by
  induction ranges generalizing e with
  | nil => exact ⟨rfl, le_rfl, le_rfl, by simp⟩
  | cons range ranges ih =>
    obtain ⟨hfunc, hlow, hhigh, hrest⟩ := ih { e with
      lowAddr := if range.low < e.lowAddr then range.low else e.lowAddr
      highAddr := if e.highAddr < range.high then range.high else e.highAddr }
    have hl : (if range.low < e.lowAddr then range.low else e.lowAddr) ≤ e.lowAddr ∧
        (if range.low < e.lowAddr then range.low else e.lowAddr) ≤ range.low := by
      split <;> omega
    have hh : e.highAddr ≤ (if e.highAddr < range.high then range.high else e.highAddr) ∧
        range.high ≤ (if e.highAddr < range.high then range.high else e.highAddr) := by
      split <;> omega
    refine ⟨hfunc, hlow.trans hl.1, hh.1.trans hhigh, List.forall_mem_cons.mpr ⟨?_, hrest⟩⟩
    exact ⟨hlow.trans hl.2, hh.2.trans hhigh⟩

theorem lookupEntry_funcinfo (f : FuncInfo) : (lookupEntry f).funcinfo = f :=
  (lookupEntry_step f.next ⟨f, f.arange.low, f.arange.high⟩).1

theorem lookupEntry_covers (f : FuncInfo) : (lookupEntry f).Covers := by
  obtain ⟨hfunc, hlow, hhigh, hrest⟩ := lookupEntry_step f.next ⟨f, f.arange.low, f.arange.high⟩
  intro r hr
  rw [lookupEntry_funcinfo] at hr
  rcases List.mem_cons.mp hr with rfl | hr
  · exact ⟨hlow, hhigh⟩
  · exact hrest r hr

theorem lowAddr_le_of_compare {a b : LookupFuncinfo} (h : compareLookupFuncinfos a b ≤ 0) :
    a.lowAddr ≤ b.lowAddr := by
  rw [compareLookupFuncinfos_le_iff] at h
  omega

/-- What the lookup needs of the table. -/
structure Table (functions : List FuncInfo) (table : List LookupFuncinfo) : Prop where
  length : table.length = functions.length
  sound : ∀ e ∈ table, e.funcinfo ∈ functions
  complete : ∀ f ∈ functions, ∃ e ∈ table, e.funcinfo = f
  covers : ∀ e ∈ table, e.Covers
  lows : table.Pairwise fun a b => a.lowAddr ≤ b.lowAddr
  highs : table.Pairwise fun a b => a.highAddr ≤ b.highAddr

theorem watermark_cons (highAddr : Nat) (entry : LookupFuncinfo) (rest : List LookupFuncinfo) :
    watermark highAddr (entry :: rest) =
      if highAddr < entry.highAddr then entry :: watermark entry.highAddr rest
      else { entry with highAddr := highAddr } :: watermark highAddr rest :=
  rfl

/-- What the watermark leaves alone, and what it raises. -/
theorem watermark_entry (he : e ∈ watermark highAddr rest) :
    ∃ e₀ ∈ rest, e.funcinfo = e₀.funcinfo ∧ e.lowAddr = e₀.lowAddr ∧
      e₀.highAddr ≤ e.highAddr ∧ highAddr ≤ e.highAddr := by
  induction rest generalizing highAddr with
  | nil => cases he
  | cons entry rest ih =>
    rw [watermark_cons] at he
    split at he
    case isTrue hlt =>
      rcases List.mem_cons.mp he with rfl | he
      · exact ⟨_, List.mem_cons_self, rfl, rfl, le_rfl, hlt.le⟩
      · obtain ⟨e₀, he₀, hfunc, hlow, hhigh, hmark⟩ := ih he
        exact ⟨e₀, List.mem_cons_of_mem _ he₀, hfunc, hlow, hhigh, hlt.le.trans hmark⟩
    case isFalse hle =>
      rcases List.mem_cons.mp he with rfl | he
      · exact ⟨entry, List.mem_cons_self, rfl, rfl, not_lt.mp hle, le_rfl⟩
      · obtain ⟨e₀, he₀, hrest⟩ := ih he
        exact ⟨e₀, List.mem_cons_of_mem _ he₀, hrest⟩

theorem map_watermark (highAddr : Nat) (rest : List LookupFuncinfo) :
    (watermark highAddr rest).map (fun e => (e.funcinfo, e.lowAddr)) =
      rest.map fun e => (e.funcinfo, e.lowAddr) := by
  induction rest generalizing highAddr with
  | nil => rfl
  | cons entry rest ih =>
    rw [watermark_cons]
    split <;> simp [ih]

theorem pairwise_watermark (highAddr : Nat) (rest : List LookupFuncinfo) :
    (watermark highAddr rest).Pairwise fun a b => a.highAddr ≤ b.highAddr := by
  induction rest generalizing highAddr with
  | nil => exact .nil
  | cons entry rest ih =>
    rw [watermark_cons]
    split
    · refine List.pairwise_cons.mpr ⟨fun e he => ?_, ih _⟩
      obtain ⟨-, -, -, -, -, hmark⟩ := watermark_entry he
      exact hmark
    · refine List.pairwise_cons.mpr ⟨fun e he => ?_, ih _⟩
      obtain ⟨-, -, -, -, -, hmark⟩ := watermark_entry he
      exact hmark

/-- The whole table is the watermark of the sorted one. -/
theorem build_eq_watermark (q : Qsort) (functions : List FuncInfo) :
    buildLookupFuncinfoTable q functions =
      watermark 0 (q.sort (functions.map lookupEntry).reverse) := by
  rw [buildLookupFuncinfoTable]
  cases q.sort (functions.map lookupEntry).reverse with
  | nil => rfl
  | cons entry rest =>
    simp only [watermark_cons]
    split
    · rfl
    · have hzero : entry.highAddr = 0 := by omega
      rw [hzero, ← hzero]

theorem table_build (q : Qsort) (functions : List FuncInfo) :
    Table functions (buildLookupFuncinfoTable q functions) := by
  have hperm := q.perm (functions.map lookupEntry).reverse
  have hsorted := q.sorted (functions.map lookupEntry).reverse
  have hmem : ∀ e, e ∈ q.sort (functions.map lookupEntry).reverse ↔
      ∃ f ∈ functions, lookupEntry f = e := by
    intro e
    rw [hperm.mem_iff, List.mem_reverse, List.mem_map]
  have hlen : (q.sort (functions.map lookupEntry).reverse).length = functions.length := by
    rw [hperm.length_eq, List.length_reverse, List.length_map]
  rw [build_eq_watermark]
  generalize q.sort (functions.map lookupEntry).reverse = sorted at *
  have hmap := map_watermark 0 sorted
  refine ⟨?_, ?_, ?_, ?_, ?_, pairwise_watermark 0 sorted⟩
  · rw [← hlen]
    simpa using congrArg List.length hmap
  · intro e he
    obtain ⟨e₀, he₀, hfunc, -⟩ := watermark_entry he
    obtain ⟨f, hf, rfl⟩ := (hmem e₀).mp he₀
    rwa [hfunc, lookupEntry_funcinfo]
  · intro f hf
    have hpair : (f, (lookupEntry f).lowAddr) ∈ sorted.map fun e => (e.funcinfo, e.lowAddr) := by
      refine List.mem_map.mpr ⟨lookupEntry f, (hmem _).mpr ⟨f, hf, rfl⟩, ?_⟩
      rw [lookupEntry_funcinfo]
    rw [← hmap] at hpair
    obtain ⟨e, he, heq⟩ := List.mem_map.mp hpair
    exact ⟨e, he, (Prod.mk.inj heq).1⟩
  · intro e he r hr
    obtain ⟨e₀, he₀, hfunc, hlow, hhigh, -⟩ := watermark_entry he
    obtain ⟨f, -, rfl⟩ := (hmem e₀).mp he₀
    rw [hfunc] at hr
    obtain ⟨hl, hh⟩ := lookupEntry_covers f r hr
    exact ⟨hlow ▸ hl, hh.trans hhigh⟩
  · have hlows : (sorted.map fun e => (e.funcinfo, e.lowAddr)).Pairwise fun a b => a.2 ≤ b.2 :=
      List.pairwise_map.mpr (hsorted.imp lowAddr_le_of_compare)
    rw [← hmap, List.pairwise_map] at hlows
    exact hlows

/-! The search for the first entry. -/

/-- A sorted column of the table, by position. -/
theorem column_le {g : LookupFuncinfo → Nat} (h : table.Pairwise fun a b => g a ≤ g b) {i j : Nat}
    {a b : LookupFuncinfo} (hi : table[i]? = some a) (hj : table[j]? = some b) (hij : i ≤ j) :
    g a ≤ g b := by
  rcases Nat.lt_or_eq_of_le hij with hlt | rfl
  · obtain ⟨hi', rfl⟩ := List.getElem?_eq_some_iff.mp hi
    obtain ⟨hj', rfl⟩ := List.getElem?_eq_some_iff.mp hj
    exact List.pairwise_iff_getElem.mp h i j hi' hj' hlt
  · rw [hi, Option.some.injEq] at hj
    exact hj ▸ le_rfl

/-- The search does not go past an entry that may contain the address. -/
theorem findFirst_spec (hl : table.Pairwise fun a b => a.lowAddr ≤ b.lowAddr)
    (hh : table.Pairwise fun a b => a.highAddr ≤ b.highAddr) (hn : high ≤ table.length)
    (hfuel : high - low ≤ n)
    (hinv : ∀ k e, table[k]? = some e → e.lowAddr ≤ addr → addr < e.highAddr →
      low ≤ k ∧ (k < high ∨ first ≤ k)) :
    ∃ i, findFirst table addr n low high first = some i ∧
      ∀ k e, table[k]? = some e → e.lowAddr ≤ addr → addr < e.highAddr → i ≤ k := by
  induction n generalizing low high first with
  | zero =>
    refine ⟨first, rfl, fun k e hk hlow hhigh => ?_⟩
    obtain ⟨hle, hlt | hfirst⟩ := hinv k e hk hlow hhigh
    · omega
    · exact hfirst
  | succ n ih =>
    rw [findFirst]
    by_cases hlt : low < high
    · have hmid : (low + high) / 2 < table.length := by omega
      obtain ⟨entry, hentry⟩ : ∃ entry, table[(low + high) / 2]? = some entry :=
        ⟨_, List.getElem?_eq_getElem hmid⟩
      simp only [if_pos hlt, hentry, Option.bind_eq_bind, Option.bind_some]
      split
      case isTrue hbelow =>
        refine ih (by omega) (by omega) fun k e hk hlow hhigh => ?_
        obtain ⟨hle, hor⟩ := hinv k e hk hlow hhigh
        have hkmid : k < (low + high) / 2 := by
          by_contra hge
          have := column_le hl hentry hk (by omega)
          omega
        exact ⟨hle, .inl hkmid⟩
      case isFalse hnot =>
        split
        case isTrue habove =>
          refine ih hn (by omega) fun k e hk hlow hhigh => ?_
          obtain ⟨hle, hor⟩ := hinv k e hk hlow hhigh
          have hkmid : (low + high) / 2 < k := by
            by_contra hge
            have := column_le hh hk hentry (by omega)
            omega
          exact ⟨by omega, hor⟩
        case isFalse =>
          refine ih (by omega) (by omega) fun k e hk hlow hhigh => ?_
          obtain ⟨hle, hor⟩ := hinv k e hk hlow hhigh
          exact ⟨hle, by omega⟩
    · rw [if_neg hlt]
      refine ⟨first, rfl, fun k e hk hlow hhigh => ?_⟩
      obtain ⟨hle, hkhigh | hfirst⟩ := hinv k e hk hlow hhigh
      · omega
      · exact hfirst

/-! The scan for the best fit. -/

/-- The best fit among some ranges: the shortest one that contains the address. -/
def Best (addr : Nat) (seen : List (FuncInfo × Arange)) : Option (FuncInfo × Nat) → Prop
  | none => ∀ c ∈ seen, ¬ c.2.Contains addr
  | some (f, len) => (∃ r, (f, r) ∈ seen ∧ r.Contains addr ∧ r.high - r.low = len) ∧
      ∀ c ∈ seen, c.2.Contains addr → len ≤ c.2.high - c.2.low

theorem Best.step {seen : List (FuncInfo × Arange)} {best : Option (FuncInfo × Nat)}
    (h : Best addr seen best) (c : FuncInfo × Arange) :
    Best addr (seen ++ [c]) (betterFit addr best c) := by
  unfold betterFit
  split
  case isTrue hout =>
    have hnot : ¬ c.2.Contains addr := fun hc => by
      obtain ⟨hlow, hhigh⟩ := hc
      omega
    cases best with
    | none =>
      intro d hd
      rcases List.mem_append.mp hd with hd | hd
      · exact h d hd
      · rwa [List.mem_singleton.mp hd]
    | some b =>
      obtain ⟨⟨r, hr, hcontains, hlen⟩, hmin⟩ := h
      refine ⟨⟨r, List.mem_append_left _ hr, hcontains, hlen⟩, fun d hd hdc => ?_⟩
      rcases List.mem_append.mp hd with hd | hd
      · exact hmin d hd hdc
      · rw [List.mem_singleton.mp hd] at hdc
        exact absurd hdc hnot
  case isFalse hin =>
    have hc : c.2.Contains addr := ⟨by omega, by omega⟩
    have hmem : (c.1, c.2) ∈ seen ++ [c] := List.mem_append_right _ (List.mem_singleton_self c)
    cases best with
    | none =>
      refine ⟨⟨c.2, hmem, hc, rfl⟩, fun d hd hdc => ?_⟩
      rcases List.mem_append.mp hd with hd | hd
      · exact absurd hdc (h d hd)
      · rw [List.mem_singleton.mp hd]
    | some b =>
      obtain ⟨⟨r, hr, hcontains, hlen⟩, hmin⟩ := h
      dsimp only
      split
      case isTrue hbetter =>
        refine ⟨⟨c.2, hmem, hc, rfl⟩, fun d hd hdc => ?_⟩
        rcases List.mem_append.mp hd with hd | hd
        · have := hmin d hd hdc
          omega
        · rw [List.mem_singleton.mp hd]
      case isFalse hworse =>
        refine ⟨⟨r, List.mem_append_left _ hr, hcontains, hlen⟩, fun d hd hdc => ?_⟩
        rcases List.mem_append.mp hd with hd | hd
        · exact hmin d hd hdc
        · rw [List.mem_singleton.mp hd]
          omega

theorem Best.foldl {seen : List (FuncInfo × Arange)} {best : Option (FuncInfo × Nat)}
    (h : Best addr seen best) (cs : List (FuncInfo × Arange)) :
    Best addr (seen ++ cs) (cs.foldl (betterFit addr) best) := by
  induction cs generalizing seen best with
  | nil => simpa using h
  | cons c cs ih =>
    have := ih (h.step c)
    rwa [List.append_assoc, List.singleton_append] at this

/-- The ranges that a scan looks at, with their functions. -/
def candidates (entries : List LookupFuncinfo) : List (FuncInfo × Arange) :=
  entries.flatMap fun e => e.funcinfo.aranges.map (e.funcinfo, ·)

theorem mem_candidates {c : FuncInfo × Arange} {entries : List LookupFuncinfo} :
    c ∈ candidates entries ↔ ∃ e ∈ entries, e.funcinfo = c.1 ∧ c.2 ∈ c.1.aranges := by
  simp only [candidates, List.mem_flatMap, List.mem_map]
  constructor
  · rintro ⟨e, he, r, hr, rfl⟩
    exact ⟨e, he, rfl, hr⟩
  · rintro ⟨e, he, hfunc, hr⟩
    exact ⟨e, he, c.2, hfunc ▸ hr, by rw [hfunc]⟩

/-- The scan stops at the first entry above the address. -/
theorem scan_best {seen : List (FuncInfo × Arange)} {best : Option (FuncInfo × Nat)}
    (h : Best addr seen best) (entries : List LookupFuncinfo) :
    Best addr (seen ++ candidates (entries.takeWhile (·.lowAddr ≤ addr))) (scan addr entries best) := by
  induction entries generalizing seen best with
  | nil => simpa [candidates, scan] using h
  | cons e entries ih =>
    rw [scan]
    by_cases habove : addr < e.lowAddr
    · rw [if_pos habove, List.takeWhile_cons_of_neg (by simpa using habove)]
      simpa [candidates] using h
    · rw [if_neg habove, List.takeWhile_cons_of_pos (by simpa using habove)]
      have := ih (h.foldl (e.funcinfo.aranges.map (e.funcinfo, ·)))
      rwa [List.append_assoc] at this

theorem mem_takeWhile_low {entries : List LookupFuncinfo}
    (hl : entries.Pairwise fun a b => a.lowAddr ≤ b.lowAddr) (he : e ∈ entries)
    (hlow : e.lowAddr ≤ addr) : e ∈ entries.takeWhile (·.lowAddr ≤ addr) := by
  induction entries with
  | nil => cases he
  | cons d entries ih =>
    obtain ⟨hd, hrest⟩ := List.pairwise_cons.mp hl
    rcases List.mem_cons.mp he with rfl | he
    · rw [List.takeWhile_cons_of_pos (by simpa using hlow)]
      exact List.mem_cons_self
    · have hdlow : d.lowAddr ≤ addr := (hd e he).trans hlow
      rw [List.takeWhile_cons_of_pos (by simpa using hdlow)]
      exact List.mem_cons_of_mem _ (ih hrest he)

/-! The whole lookup. -/

/-- What the lookup is for: the function with the shortest range around the address, if any range
contains it. -/
def Finds (functions : List FuncInfo) (addr : Nat) : Option FuncInfo → Prop
  | none => ∀ f ∈ functions, ∀ r ∈ f.aranges, ¬ r.Contains addr
  | some f => f ∈ functions ∧ ∃ r ∈ f.aranges, r.Contains addr ∧
      ∀ g ∈ functions, ∀ r' ∈ g.aranges, r'.Contains addr → r.high - r.low ≤ r'.high - r'.low

/-- An entry of a function around the address. -/
theorem Table.entry (ht : Table functions table) (hf : f ∈ functions) (hr : r ∈ f.aranges)
    (hc : r.Contains addr) :
    ∃ (k : Nat) (e : LookupFuncinfo), table[k]? = some e ∧ e.funcinfo = f ∧ e.lowAddr ≤ addr ∧ addr < e.highAddr := by
  obtain ⟨e, he, hfunc⟩ := ht.complete f hf
  obtain ⟨k, hk⟩ := List.mem_iff_getElem?.mp he
  obtain ⟨hlow, hhigh⟩ := ht.covers e he r (hfunc ▸ hr)
  exact ⟨k, e, hk, hfunc, hlow.trans hc.1, lt_of_lt_of_le hc.2 hhigh⟩

/-- A best fit of the scan is what the lookup is for. -/
theorem Table.finds (ht : Table functions table)
    (hfirst : ∀ (k : Nat) (e : LookupFuncinfo), table[k]? = some e → e.lowAddr ≤ addr → addr < e.highAddr → first ≤ k) :
    Finds functions addr ((scan addr (table.drop first) none).map Prod.fst) := by
  have hnone : Best addr [] none := by
    intro c hc
    cases hc
  have hbest := scan_best hnone (table.drop first)
  have hseen : ∀ f ∈ functions, ∀ r ∈ f.aranges, r.Contains addr →
      (f, r) ∈ candidates ((table.drop first).takeWhile (·.lowAddr ≤ addr)) := by
    intro f hf r hr hc
    obtain ⟨k, e, hk, hfunc, hlow, hhigh⟩ := ht.entry hf hr hc
    have hmem : e ∈ table.drop first := by
      have hle := hfirst k e hk hlow hhigh
      refine List.mem_iff_getElem?.mpr ⟨k - first, ?_⟩
      rw [List.getElem?_drop, Nat.add_sub_cancel' hle, hk]
    have hdrop := ht.lows.sublist (List.drop_sublist first table)
    exact mem_candidates.mpr ⟨e, mem_takeWhile_low hdrop hmem hlow, hfunc, hr⟩
  rw [List.nil_append] at hbest
  cases hscan : scan addr (table.drop first) none with
  | none =>
    rw [hscan] at hbest
    intro f hf r hr hc
    exact hbest _ (hseen f hf r hr hc) hc
  | some b =>
    rw [hscan] at hbest
    obtain ⟨⟨r, hr, hc, hlen⟩, hmin⟩ := hbest
    obtain ⟨e, he, hfunc, hmem⟩ := mem_candidates.mp hr
    have hin : e ∈ table := List.mem_of_mem_drop ((List.takeWhile_sublist _).subset he)
    refine ⟨hfunc ▸ ht.sound e hin, r, hmem, hc, fun g hg r' hr' hc' => ?_⟩
    rw [hlen]
    exact hmin _ (hseen g hg r' hr' hc') hc'

/-- The lookup in the table is the search of all ranges of all functions. -/
theorem lookupAddressInFunctionTable_finds (q : Qsort) (functions : List FuncInfo) (addr : Nat) :
    ∃ found, lookupAddressInFunctionTable q functions addr = some found ∧
      Finds functions addr found := by
  rw [lookupAddressInFunctionTable]
  by_cases hzero : functions.length = 0
  · rw [if_pos hzero]
    refine ⟨none, rfl, fun f hf => ?_⟩
    rw [List.length_eq_zero_iff.mp hzero] at hf
    cases hf
  · have ht := table_build q functions
    generalize buildLookupFuncinfoTable q functions = table at ht
    obtain ⟨last, hlast⟩ : ∃ last, table[functions.length - 1]? = some last :=
      ⟨_, List.getElem?_eq_getElem (by rw [ht.length]; omega)⟩
    simp only [if_neg hzero, hlast, Option.bind_eq_bind, Option.bind_some]
    split
    case isTrue hbelow =>
      -- the last entry has the highest of all addresses
      refine ⟨none, rfl, fun f hf r hr hc => ?_⟩
      obtain ⟨k, e, hk, -, -, hhigh⟩ := ht.entry hf hr hc
      have hklt := (List.getElem?_eq_some_iff.mp hk).1
      have := column_le ht.highs hk hlast (by rw [ht.length] at hklt; omega)
      omega
    case isFalse =>
      have hstart : ∀ (k : Nat) (e : LookupFuncinfo), table[k]? = some e → e.lowAddr ≤ addr →
          addr < e.highAddr → 0 ≤ k ∧ (k < functions.length ∨ functions.length ≤ k) :=
        fun k _ _ _ _ => ⟨Nat.zero_le k, Nat.lt_or_ge k _⟩
      obtain ⟨first, hfind, hfirst⟩ :=
        findFirst_spec ht.lows ht.highs (Nat.le_of_eq ht.length.symm) (Nat.sub_le _ 0) hstart
      rw [hfind, Option.bind_some]
      exact ⟨_, rfl, ht.finds hfirst⟩

end FusionBinutils.Bfd.FuncLookup
