import FusionBinutils.Bfd.LineLow
import FusionBinutils.Lib.Cells

/-! What a line table answers for an address. -/
namespace FusionBinutils.Bfd.LineTable

open Cells

variable {info : LineInfo} {seq : LineSequence} {tbl : List LineSequence} {addr : Nat}

/-! Rows as a line program gives them. -/

/-- The rows of one sequence and the row that ends it. -/
structure RowSequence where
  rows : List LineInfo
  last : LineInfo
  plain : ∀ r ∈ rows, r.endSequence = false
  closing : last.endSequence = true
  above : ∀ r ∈ rows, r.address ≤ last.address

def RowSequence.all (s : RowSequence) : List LineInfo := s.rows ++ [s.last]

/-- The addresses from the lowest row up to the end. -/
def RowSequence.Covers (s : RowSequence) (addr : Nat) : Prop :=
  (∃ r ∈ s.all, r.address ≤ addr) ∧ addr < s.last.address

def Disjoint (seqs : List RowSequence) : Prop :=
  seqs.Pairwise fun s t => ∀ addr, ¬ (s.Covers addr ∧ t.Covers addr)

/-- The row that ends the sequence sorts after all others. -/
def RowSequence.Closed (s : RowSequence) : Prop :=
  ∀ r ∈ s.rows, newLineSortsAfter s.last r = true

def buildTable (seqs : List RowSequence) : List LineSequence :=
  (seqs.flatMap RowSequence.all).foldl addLineInfo []

/-! One sequence. -/

/-- A sequence of the table stands for the rows `s`. -/
structure Rep (seq : LineSequence) (s : RowSequence) : Prop where
  desc : Desc seq.lines
  mem : ∀ x ∈ seq.lines, x ∈ s.rows ∨ x.address = s.last.address
  row : ∀ r ∈ s.rows, ∃ x ∈ seq.lines, x.address = r.address
  high : seq.lastLine.address = s.last.address
  low : ∃ r ∈ s.all, seq.lowPc = r.address
  missed : (∀ r ∈ s.all, seq.lowPc ≤ r.address) ↔ ¬ Missed s.rows

theorem not_missed_nil : ¬ Missed [] := by
  rintro ⟨m, hm⟩
  obtain ⟨r, hr, -⟩ := hm.exists_min
  cases hr

theorem Rep.of_empty {s : RowSequence} (h : s.rows = []) : Rep (.start s.last) s where
  desc := List.pairwise_singleton _ _
  mem := fun x hx => .inr (by rw [List.mem_singleton.mp hx]; rfl)
  row := by simp [h]
  high := rfl
  low := ⟨s.last, by simp [RowSequence.all], rfl⟩
  missed := by
    rw [h]
    exact iff_of_true (by simp [RowSequence.all, h, LineSequence.start]) not_missed_nil

/-- The row that ends a sequence does not lower `low_pc`. -/
theorem add_last_lowPc {p : List LineInfo} (h : Holds seq p)
    (hle : ∀ r ∈ p, r.address ≤ info.address) : (seq.add info).lowPc = seq.lowPc := by
  obtain ⟨r, hr, hlow⟩ := h.lowPc
  have hmin := hle r hr
  unfold LineSequence.add
  split
  · rfl
  · obtain ⟨-, heq⟩ | ⟨-, -, -, heq⟩ | ⟨-, -, heq⟩ := insert_cases seq info
    · rw [heq]
    · rw [heq]
    · rw [heq]
      exact if_neg (by omega)

theorem Rep.of_rows {s : RowSequence} {r : LineInfo} {rs : List LineInfo} (h : s.rows = r :: rs) :
    Rep ((rs.foldl LineSequence.add (.start r)).add s.last) s := by
  have hholds : Holds (rs.foldl LineSequence.add (.start r)) s.rows := by
    rw [h]
    exact (Holds.start r).feed rs
  have hlow : LowState (rs.foldl LineSequence.add (.start r)) s.rows := by
    rw [h]
    refine (LowState.start r).feed (Holds.start r) (fun x hx => ?_) fun x hx => ?_
    · exact s.plain x (by rw [h, List.mem_singleton.mp hx]; simp)
    · exact s.plain x (by rw [h]; simp [hx])
  have hpc := add_last_lowPc hholds s.above
  have hall := hholds.add s.last
  generalize rs.foldl LineSequence.add (.start r) = seq at *
  have hle : ∀ x ∈ s.all, x.address ≤ s.last.address := by
    intro x hx
    rcases List.mem_append.mp hx with hx | hx
    · exact s.above x hx
    · exact Nat.le_of_eq (by rw [List.mem_singleton.mp hx])
  refine ⟨hall.desc, fun x hx => ?_, fun x hx => ?_, ?_, hall.lowPc, ?_⟩
  · rcases List.mem_append.mp (hall.mem x hx) with hx | hx
    · exact .inl hx
    · exact .inr (by rw [List.mem_singleton.mp hx])
  · obtain ⟨y, hy, hsame⟩ := hall.key x (by simp [hx])
    exact ⟨y, hy, (sameLine_iff.mp hsame).1⟩
  · have h₁ := hle _ hall.lastLine_mem
    have h₂ := address_le_of_not_sortsAfter (hall.le_lastLine s.last (by simp))
    omega
  · rw [← hlow.low_iff, hpc]
    obtain ⟨x, hx, hxlow⟩ := hholds.lowPc
    have hx' := s.above x hx
    exact ⟨fun hp y hy => hp y (List.mem_append_left _ hy),
      fun hp => forall_snoc hp (by omega)⟩

/-- A closed sequence ends in its last row. -/
theorem lastLine_of_closed {s : RowSequence} {r : LineInfo} {rs : List LineInfo}
    (h : s.rows = r :: rs) (hc : s.Closed) :
    ((rs.foldl LineSequence.add (.start r)).add s.last).lastLine = s.last := by
  have hholds : Holds (rs.foldl LineSequence.add (.start r)) s.rows := by
    rw [h]
    exact (Holds.start r).feed rs
  have hafter := hc _ hholds.lastLine_mem
  generalize rs.foldl LineSequence.add (.start r) = seq at *
  unfold LineSequence.add
  split
  · rfl
  · rw [LineSequence.insert, if_pos hafter]

/-! The table. -/

/-- The sequences of the table stand for those of the line program, the last one first; sequences
without rows may be missing. -/
structure TableRep (tbl : List LineSequence) (seqs : List RowSequence) : Prop where
  sub : ∃ sub, sub.Sublist seqs.reverse ∧ (∀ s ∈ seqs, s.rows ≠ [] → s ∈ sub) ∧
    List.Forall₂ Rep tbl sub

/-- The next row starts a new sequence. -/
def TableClosed (tbl : List LineSequence) : Prop :=
  ∀ seq, tbl.head? = some seq → seq.lastLine.endSequence = true

theorem foldl_addLineInfo_open {p rows : List LineInfo} (h : Holds seq p)
    (hp : ∀ r ∈ p, r.endSequence = false) (hrows : ∀ r ∈ rows, r.endSequence = false) :
    rows.foldl addLineInfo (seq :: tbl) = rows.foldl LineSequence.add seq :: tbl := by
  induction rows generalizing seq p with
  | nil => rfl
  | cons r rows ih =>
    have hr := hrows r (by simp)
    rw [List.foldl_cons, List.foldl_cons, addLineInfo_open (hp _ h.lastLine_mem)]
    exact ih (h.add r) (forall_snoc hp hr) fun x hx => hrows x (by simp [hx])

/-- The rows of a sequence go into a new one. -/
theorem foldl_rows {s : RowSequence} {r : LineInfo} {rs : List LineInfo} (h : s.rows = r :: rs)
    (hclosed : TableClosed tbl) : s.all.foldl addLineInfo tbl
      = (rs.foldl LineSequence.add (.start r)).add s.last :: tbl := by
  have hplain : ∀ x ∈ r :: rs, x.endSequence = false := h ▸ s.plain
  have hr := hplain r (by simp)
  have hstart : addLineInfo tbl r = .start r :: tbl := by
    cases tbl with
    | nil => rfl
    | cons seq rest =>
      have hend := hclosed seq rfl
      have hsame : sameLine seq.lastLine r = false := by
        simp [sameLine, hend, hr]
      rw [addLineInfo, hsame, hend, if_neg Bool.false_ne_true, if_pos rfl]
  have hholds := (Holds.start r).feed rs
  have hrest : rs.foldl addLineInfo (.start r :: tbl)
      = rs.foldl LineSequence.add (.start r) :: tbl :=
    foldl_addLineInfo_open (Holds.start r) (by simpa using hr) fun x hx => hplain x (by simp [hx])
  rw [RowSequence.all, h, List.foldl_append, List.foldl_cons, List.foldl_nil, List.foldl_cons,
    hstart, hrest, addLineInfo_open]
  exact hplain _ hholds.lastLine_mem

theorem Rep.replace {s : RowSequence} {last : LineInfo} (h : Rep seq s)
    (hs : sameLine seq.lastLine last = true) : Rep { seq with lastLine := last } s := by
  have heq := (sameLine_iff.mp hs).1
  refine ⟨Desc.replace h.desc hs, fun x hx => ?_, fun r hr => ?_, heq.symm.trans h.high, h.low,
    h.missed⟩
  · rcases List.mem_cons.mp hx with rfl | hx
    · exact .inr (heq.symm.trans h.high)
    · exact h.mem x (List.mem_cons_of_mem _ hx)
  · obtain ⟨x, hx, hxr⟩ := h.row r hr
    rcases List.mem_cons.mp hx with rfl | hx
    · exact ⟨last, List.mem_cons_self, heq.symm.trans hxr⟩
    · exact ⟨x, List.mem_cons_of_mem _ hx, hxr⟩

theorem TableRep.push {s : RowSequence} {seqs : List RowSequence} (h : TableRep tbl seqs)
    (hrep : Rep seq s) : TableRep (seq :: tbl) (seqs ++ [s]) := by
  obtain ⟨sub, hsub, hall, hforall⟩ := h.sub
  refine ⟨s :: sub, ?_, fun t ht hne => ?_, .cons hrep hforall⟩
  · rw [List.reverse_append]
    exact hsub.cons_cons s
  · rcases List.mem_append.mp ht with ht | ht
    · exact List.mem_cons_of_mem _ (hall t ht hne)
    · rw [List.mem_singleton.mp ht]
      exact List.mem_cons_self

theorem TableRep.step {s : RowSequence} {seqs : List RowSequence} (h : TableRep tbl seqs)
    (hclosed : TableClosed tbl) : TableRep (s.all.foldl addLineInfo tbl) (seqs ++ [s]) ∧
      (s.Closed → TableClosed (s.all.foldl addLineInfo tbl)) := by
  cases hrows : s.rows with
  | nil =>
    have hfold : s.all.foldl addLineInfo tbl = addLineInfo tbl s.last := by
      rw [RowSequence.all, hrows]
      rfl
    rw [hfold]
    cases tbl with
    | nil =>
      refine ⟨h.push (.of_empty hrows), fun _ seq hseq => ?_⟩
      cases hseq
      exact s.closing
    | cons seq rest =>
      rw [addLineInfo]
      split
      · next hsame =>
        refine ⟨?_, fun _ seq' hseq => ?_⟩
        · obtain ⟨sub, hsub, hall, hforall⟩ := h.sub
          cases hforall with
          | cons hrep hrest =>
            refine ⟨_, ?_, fun t ht hne => ?_, .cons (hrep.replace hsame) hrest⟩
            · rw [List.reverse_append]
              exact hsub.cons s
            · rcases List.mem_append.mp ht with ht | ht
              · exact hall t ht hne
              · rw [List.mem_singleton.mp ht] at hne
                exact absurd hrows hne
        · cases hseq
          exact s.closing
      · rw [if_pos (hclosed seq rfl)]
        refine ⟨h.push (.of_empty hrows), fun _ seq hseq => ?_⟩
        cases hseq
        exact s.closing
  | cons r rs =>
    rw [foldl_rows hrows hclosed]
    refine ⟨h.push (.of_rows hrows), fun hc seq hseq => ?_⟩
    cases hseq
    rw [lastLine_of_closed hrows hc]
    exact s.closing

theorem buildTable_snoc (seqs : List RowSequence) (s : RowSequence) :
    buildTable (seqs ++ [s]) = s.all.foldl addLineInfo (buildTable seqs) := by
  simp [buildTable]

theorem buildTable_closed {seqs : List RowSequence} (hc : ∀ s ∈ seqs, s.Closed) :
    TableRep (buildTable seqs) seqs ∧ TableClosed (buildTable seqs) := by
  induction seqs using List.reverseRecOn with
  | nil => exact ⟨⟨[], by simp, by simp, .nil⟩, by simp [TableClosed, buildTable]⟩
  | append_singleton seqs s ih =>
    obtain ⟨hrep, hclosed⟩ := ih fun t ht => hc t (by simp [ht])
    obtain ⟨hrep', hclosed'⟩ := hrep.step (s := s) hclosed
    rw [buildTable_snoc]
    exact ⟨hrep', hclosed' (hc s (by simp))⟩

theorem buildTable_rep {seqs : List RowSequence} (hc : ∀ s ∈ seqs.dropLast, s.Closed) :
    TableRep (buildTable seqs) seqs := by
  rcases List.eq_nil_or_concat seqs with rfl | ⟨seqs, s, rfl⟩
  · exact ⟨[], by simp, by simp, .nil⟩
  · rw [List.concat_eq_append] at *
    rw [List.dropLast_concat] at hc
    obtain ⟨hrep, hclosed⟩ := buildTable_closed hc
    rw [buildTable_snoc]
    exact (hrep.step hclosed).1

/-! Sorting. -/

/-- The range of a sequence is its own. -/
def Apart (a b : LineSequence) : Prop :=
  ∀ addr, ¬ ((a.lowPc ≤ addr ∧ addr < a.lastLine.address) ∧
    b.lowPc ≤ addr ∧ addr < b.lastLine.address)

/-- What the binary search needs of its array, and which sequences it has. -/
structure Searchable (tbl result : List LineSequence) : Prop where
  order : result.Pairwise fun a b => a.lastLine.address ≤ b.lowPc
  mem : ∀ seq ∈ result, seq ∈ tbl
  all : ∀ seq ∈ tbl, seq.lowPc < seq.lastLine.address → seq ∈ result

/-- Behind the sequence `seq` in the sorted order there is no range that starts before its end. -/
theorem le_lowPc_of_apart {a b : LineSequence} (hb : b.lowPc < b.lastLine.address) (hle : a.lowPc ≤ b.lowPc) (h : Apart a b) :
    a.lastLine.address ≤ b.lowPc := by
  by_contra hlt
  exact h b.lowPc ⟨⟨hle, Nat.not_le.mp hlt⟩, Nat.le_refl _, hb⟩

theorem trim_searchable (high : Nat) (hlow : ∀ seq ∈ tbl, seq.lowPc ≤ seq.lastLine.address)
    (hsorted : tbl.Pairwise fun a b => a.lowPc ≤ b.lowPc) (hapart : tbl.Pairwise Apart)
    (hhigh : ∀ seq ∈ tbl, seq.lowPc < seq.lastLine.address → high ≤ seq.lowPc) :
    Searchable tbl (trim high tbl) ∧ ∀ seq ∈ trim high tbl, high ≤ seq.lowPc := by
  induction tbl generalizing high with
  | nil => exact ⟨⟨.nil, by simp [trim], by simp⟩, by simp [trim]⟩
  | cons seq tbl ih =>
    obtain ⟨hle, hsorted⟩ := List.pairwise_cons.mp hsorted
    obtain ⟨haps, hapart⟩ := List.pairwise_cons.mp hapart
    have hlow' : ∀ x ∈ tbl, x.lowPc ≤ x.lastLine.address := fun x hx => hlow x (by simp [hx])
    have hseq := hlow seq (by simp)
    have hhead := hhigh seq (by simp)
    rw [trim]
    split
    · next hlt =>
      -- only an empty range lies below `last_high_pc`
      rw [if_pos (by omega)]
      obtain ⟨hs, hge⟩ := ih high hlow' hsorted hapart fun x hx => hhigh x (by simp [hx])
      refine ⟨⟨hs.order, fun x hx => by simp [hs.mem x hx], fun x hx hne => ?_⟩, hge⟩
      rcases List.mem_cons.mp hx with rfl | hx
      · omega
      · exact hs.all x hx hne
    · next hge =>
      obtain ⟨hs, hge'⟩ := ih seq.lastLine.address hlow' hsorted hapart
        fun x hx hne => le_lowPc_of_apart hne (hle x hx) (haps x hx)
      refine ⟨⟨List.pairwise_cons.mpr ⟨hge', hs.order⟩, fun x hx => ?_, fun x hx hne => ?_⟩, ?_⟩
      · rcases List.mem_cons.mp hx with rfl | hx
        · simp
        · simp [hs.mem x hx]
      · rcases List.mem_cons.mp hx with rfl | hx
        · simp
        · simp [hs.all x hx hne]
      · intro x hx
        rcases List.mem_cons.mp hx with rfl | hx
        · exact Nat.not_lt.mp hge
        · have := hge' x hx
          omega

theorem compareSequences_le_iff (a b : LineSequence) : compareSequences a b ≤ 0 ↔
    a.lowPc < b.lowPc ∨ (a.lowPc = b.lowPc ∧ (b.lastLine.address < a.lastLine.address ∨
      (b.lastLine.address = a.lastLine.address ∧ b.lastLine.opIndex ≤ a.lastLine.opIndex))) := by
  unfold compareSequences
  split_ifs <;> omega

theorem sortLineSequences_searchable (hlow : ∀ seq ∈ tbl, seq.lowPc ≤ seq.lastLine.address)
    (hapart : tbl.Pairwise Apart) : Searchable tbl (sortLineSequences tbl) := by
  have hperm := List.mergeSort_perm tbl fun a b => decide (compareSequences a b ≤ 0)
  have htrans : ∀ a b c, decide (compareSequences a b ≤ 0) = true →
      decide (compareSequences b c ≤ 0) = true → decide (compareSequences a c ≤ 0) = true := by
    intro a b c
    simp only [decide_eq_true_eq, compareSequences_le_iff]
    omega
  have htotal : ∀ a b, (decide (compareSequences a b ≤ 0) || decide (compareSequences b a ≤ 0))
      = true := by
    intro a b
    simp only [Bool.or_eq_true, decide_eq_true_eq, compareSequences_le_iff]
    omega
  have hsorted := List.pairwise_mergeSort htrans htotal tbl
  have hsym : ∀ {a b : LineSequence}, Apart a b → Apart b a :=
    fun h addr hab => h addr ⟨hab.2, hab.1⟩
  have hapart' := (hperm.pairwise_iff hsym).mpr hapart
  unfold sortLineSequences
  generalize tbl.mergeSort (fun a b => decide (compareSequences a b ≤ 0)) = sorted at *
  have hle : sorted.Pairwise fun a b => a.lowPc ≤ b.lowPc := by
    refine hsorted.imp fun {a b} hab => ?_
    rw [decide_eq_true_eq, compareSequences_le_iff] at hab
    omega
  cases sorted with
  | nil => exact ⟨.nil, by simp, fun seq hseq => absurd (hperm.mem_iff.mpr hseq) (by simp)⟩
  | cons seq rest =>
    obtain ⟨hfirst, hle⟩ := List.pairwise_cons.mp hle
    obtain ⟨haps, hapart'⟩ := List.pairwise_cons.mp hapart'
    have hlow' : ∀ x ∈ seq :: rest, x.lowPc ≤ x.lastLine.address :=
      fun x hx => hlow x (hperm.mem_iff.mp hx)
    obtain ⟨hs, hge⟩ := trim_searchable seq.lastLine.address
      (fun x hx => hlow' x (by simp [hx])) hle hapart'
      fun x hx hne => le_lowPc_of_apart hne (hfirst x hx) (haps x hx)
    refine ⟨List.pairwise_cons.mpr ⟨hge, hs.order⟩, fun x hx => hperm.mem_iff.mp ?_,
      fun x hx hne => ?_⟩
    · rcases List.mem_cons.mp hx with rfl | hx
      · simp
      · simp [hs.mem x hx]
    · rcases List.mem_cons.mp (hperm.mem_iff.mpr hx) with rfl | hx
      · simp
      · simp [hs.all x hx hne]

/-! Looking up. -/

/-- The line that is found for an address in the range of a sequence. -/
theorem lookupLine_found {s : RowSequence} (h : Rep seq s)
    (hlow : ∃ x ∈ seq.lines, x.address ≤ addr) (hhigh : addr < s.last.address) :
    ∃ info, lookupLine seq addr = some (some info) ∧ info ∈ s.rows ∧ info.address ≤ addr ∧
      ∀ r ∈ s.rows, r.address ≤ addr → r.address ≤ info.address := by
  have hmem : ∀ x, x ∈ seq.lines.reverse ↔ x ∈ seq.lines := fun x => List.mem_reverse
  have hasc : seq.lines.reverse.Pairwise fun a b => a.address ≤ b.address :=
    List.pairwise_reverse.mpr (h.desc.imp fun hab => address_le_of_not_sortsAfter hab)
  have hlast : ∃ x ∈ seq.lines.reverse, addr < x.address :=
    ⟨seq.lastLine, (hmem _).mpr List.mem_cons_self, by rw [h.high]; exact hhigh⟩
  unfold lookupLine
  generalize seq.lines.reverse = lines at *
  have hle : ∀ (i j : Nat) (hi : i < lines.length) (hj : j < lines.length), i ≤ j →
      lines[i].address ≤ lines[j].address := by
    intro i j hi hj hij
    rcases Nat.lt_or_eq_of_le hij with hij | rfl
    · exact List.pairwise_iff_getElem.mp hasc i j hi hj hij
    · exact Nat.le_refl _
  -- the first line above the address, and the one before it
  obtain ⟨k, hk⟩ : ∃ k, lines.findIdx? (fun x => decide (addr < x.address)) = some k := by
    obtain ⟨x, hx, hlt⟩ := hlast
    rw [← Option.isSome_iff_exists, List.findIdx?_isSome, List.any_eq_true]
    exact ⟨x, hx, by simpa using hlt⟩
  obtain ⟨hklt, hkabove, hkbelow⟩ := List.findIdx?_eq_some_iff_getElem.mp hk
  rw [decide_eq_true_eq] at hkabove
  have hbelow : ∀ (j : Nat) (hj : j < lines.length), j < k → lines[j].address ≤ addr := by
    intro j hj hjk
    have := hkbelow j hjk
    simpa using this
  have hkpos : 0 < k := by
    obtain ⟨x, hx, hxle⟩ := hlow
    obtain ⟨j, hj, rfl⟩ := List.getElem_of_mem ((hmem x).mpr hx)
    by_contra hk0
    have := hle k j hklt hj (by omega)
    omega
  obtain ⟨t, rfl⟩ : ∃ t, k = t + 1 := ⟨k - 1, by omega⟩
  have htlt : t < lines.length := by omega
  have htle := hbelow t htlt (Nat.lt_succ_self t)
  have hget : ∀ (i : Nat) (hi : i < lines.length), lines[i]? = some lines[i] :=
    fun i hi => List.getElem?_eq_getElem hi
  have hsearch : Bisect.search (cmpLine lines addr) lines.length 0 lines.length none
      = some (some t) := by
    refine Bisect.search_found (Nat.zero_le t) htlt ?_ (fun i _ hi => ?_) (fun i hi hih => ?_)
      (by omega)
    · simp only [cmpLine, hget t htlt, hget (t + 1) hklt, Option.bind_eq_bind, Option.bind_some,
        if_neg (Nat.not_lt.mpr htle), if_neg (Nat.not_le.mpr hkabove)]
    · have h₁ := hbelow i (by omega) (by omega)
      have h₂ := hbelow (i + 1) (by omega) (by omega)
      simp only [cmpLine, hget i (by omega), hget (i + 1) (by omega), Option.bind_eq_bind,
        Option.bind_some, if_neg (Nat.not_lt.mpr h₁), if_pos h₂]
    · have h₁ := hle (t + 1) i hklt hih hi
      simp only [cmpLine, hget i hih, Option.bind_eq_bind, Option.bind_some]
      rw [if_pos (by omega)]
  have hrow : lines[t] ∈ s.rows := by
    rcases h.mem _ ((hmem _).mp (List.getElem_mem htlt)) with hr | hr
    · exact hr
    · omega
  refine ⟨lines[t], ?_, hrow, htle, fun r hr hrle => ?_⟩
  · have hne : (t + 1 == lines.length) = false := by
      rw [beq_eq_false_iff_ne]
      omega
    simp only [hsearch, hget t htlt, hget (t + 1) hklt, Option.bind_eq_bind, Option.bind_some,
      if_pos htle, s.plain _ hrow, hne, decide_eq_true hkabove, Bool.or_false, Bool.not_false,
      Bool.and_true, if_true]
  · obtain ⟨x, hx, hxr⟩ := h.row r hr
    obtain ⟨j, hj, rfl⟩ := List.getElem_of_mem ((hmem x).mpr hx)
    rw [← hxr]
    by_cases hjt : j ≤ t
    · exact hle j t hj htlt hjt
    · have := hle (t + 1) j hklt hj (by omega)
      omega

theorem lookup_found {result : List LineSequence} (h : Searchable tbl result)
    (hlow : ∀ x ∈ tbl, x.lowPc ≤ x.lastLine.address) (hseq : seq ∈ tbl)
    (hle : seq.lowPc ≤ addr) (hlt : addr < seq.lastLine.address) :
    lookupAddressInLineInfoTable result addr = (lookupLine seq addr).bind fun info =>
      some (info.map fun info => (info, seq.lastLine.address - seq.lowPc)) := by
  obtain ⟨t, ht, rfl⟩ := List.getElem_of_mem (h.all seq hseq (by omega))
  have hget : ∀ (i : Nat) (hi : i < result.length), result[i]? = some result[i] :=
    fun i hi => List.getElem?_eq_getElem hi
  have hsearch : Bisect.search (cmpSequence result addr) result.length 0 result.length none
      = some (some t) := by
    refine Bisect.search_found (Nat.zero_le t) ht ?_ (fun i _ hi => ?_) (fun i hi hih => ?_)
      (by omega)
    · simp only [cmpSequence, hget t ht, Option.bind_eq_bind, Option.bind_some,
        if_neg (Nat.not_lt.mpr hle), if_neg (Nat.not_le.mpr hlt)]
    · have h₁ := List.pairwise_iff_getElem.mp h.order i t (by omega) ht hi
      have h₂ := hlow _ (h.mem _ (List.getElem_mem (show i < result.length by omega)))
      simp only [cmpSequence, hget i (by omega), Option.bind_eq_bind, Option.bind_some]
      rw [if_neg (by omega), if_pos (by omega)]
    · have h₁ := List.pairwise_iff_getElem.mp h.order t i ht hih hi
      simp only [cmpSequence, hget i hih, Option.bind_eq_bind, Option.bind_some]
      rw [if_pos (by omega)]
  have hin : (decide (addr < result[t].lowPc) || decide (result[t].lastLine.address ≤ addr))
      = false := by
    rw [decide_eq_false (Nat.not_lt.mpr hle), decide_eq_false (Nat.not_le.mpr hlt), Bool.or_false]
  simp only [lookupAddressInLineInfoTable, hsearch, hget t ht, hin, Option.bind_eq_bind,
    Option.bind_some, Bool.false_eq_true, if_false]

/-- An address in no range is not found. -/
theorem lookup_fails {result : List LineSequence} (h : Searchable tbl result)
    (hno : ∀ x ∈ tbl, ¬ (x.lowPc ≤ addr ∧ addr < x.lastLine.address)) :
    lookupAddressInLineInfoTable result addr = some none := by
  have hcmp : ∀ i, i < result.length → ∃ o, cmpSequence result addr i = some o := by
    intro i hi
    rw [cmpSequence, List.getElem?_eq_getElem hi]
    exact ⟨_, rfl⟩
  obtain ⟨r, hr, hcase⟩ := Bisect.search_total result.length 0 none hcmp
  rcases hcase with rfl | ⟨i, rfl, hi⟩
  · simp only [lookupAddressInLineInfoTable, hr, Option.bind_eq_bind, Option.bind_some]
  · have hout := hno _ (h.mem _ (List.getElem_mem hi))
    have htest : (decide (addr < result[i].lowPc) || decide (result[i].lastLine.address ≤ addr))
        = true := by
      rw [Bool.or_eq_true, decide_eq_true_eq, decide_eq_true_eq]
      omega
    simp only [lookupAddressInLineInfoTable, hr, List.getElem?_eq_getElem hi, Option.bind_eq_bind,
      Option.bind_some, htest, if_true]

/-- Every address gets a row of the sequence that covers it, of the greatest address that is not
above it, and nothing if there is none. -/
def Answers (seqs : List RowSequence) : Prop :=
  ∀ addr, (∀ s ∈ seqs, s.Covers addr → ∃ info range,
      lookupAddressInLineInfoTable (sortLineSequences (buildTable seqs)) addr
        = some (some (info, range)) ∧
      info ∈ s.rows ∧ info.address ≤ addr ∧
      ∀ r ∈ s.rows, r.address ≤ addr → r.address ≤ info.address) ∧
    ((∀ s ∈ seqs, ¬ s.Covers addr) →
      lookupAddressInLineInfoTable (sortLineSequences (buildTable seqs)) addr = some none)

theorem Rep.covers {s : RowSequence} (h : Rep seq s) (hle : seq.lowPc ≤ addr)
    (hlt : addr < seq.lastLine.address) : s.Covers addr := by
  obtain ⟨r, hr, hlow⟩ := h.low
  exact ⟨⟨r, hr, by omega⟩, by rw [← h.high]; exact hlt⟩

theorem Rep.low_le_high {s : RowSequence} (h : Rep seq s) :
    seq.lowPc ≤ seq.lastLine.address := by
  obtain ⟨r, hr, hlow⟩ := h.low
  rw [hlow, h.high]
  rcases List.mem_append.mp hr with hr | hr
  · exact s.above r hr
  · exact Nat.le_of_eq (by rw [List.mem_singleton.mp hr])

/-- If all sequences but the last are closed by their last row, the table answers right exactly when
no sequence misses its lowest address. -/
theorem lookup_answers_iff {seqs : List RowSequence} (hdisj : Disjoint seqs)
    (hclosed : ∀ s ∈ seqs.dropLast, s.Closed) :
    Answers seqs ↔ ∀ s ∈ seqs, ¬ Missed s.rows := by
  obtain ⟨sub, hsub, hkept, hforall⟩ := (buildTable_rep hclosed).sub
  have hin : ∀ s ∈ sub, s ∈ seqs := fun s hs => List.mem_reverse.mp (hsub.subset hs)
  have hrev : sub.Pairwise fun s t => ∀ addr, ¬ (s.Covers addr ∧ t.Covers addr) := by
    have h : seqs.reverse.Pairwise fun s t => ∀ addr, ¬ (s.Covers addr ∧ t.Covers addr) :=
      List.pairwise_reverse.mpr (hdisj.imp fun hst addr h => hst addr ⟨h.2, h.1⟩)
    exact h.sublist hsub
  have hapart : (buildTable seqs).Pairwise Apart := by
    refine pairwise_of_forall₂ hforall hrev fun a b s t ha hb hst addr h => ?_
    exact hst addr ⟨ha.covers h.1.1 h.1.2, hb.covers h.2.1 h.2.2⟩
  have hlow : ∀ x ∈ buildTable seqs, x.lowPc ≤ x.lastLine.address := by
    intro x hx
    obtain ⟨s, -, hrep⟩ := mem_of_forall₂ hforall hx
    exact hrep.low_le_high
  have hsearch := sortLineSequences_searchable hlow hapart
  constructor
  · intro hans s hs hmissed
    have hne : s.rows ≠ [] := fun hnil => not_missed_nil (hnil ▸ hmissed)
    obtain ⟨i, hi⟩ := List.getElem?_of_mem (hkept s hs hne)
    obtain ⟨x, hx, hrep⟩ : ∃ x, (buildTable seqs)[i]? = some x ∧ Rep x s :=
      getElem?_of_forall₂ hforall.flip hi
    -- the lowest row is below `low_pc`
    have hno : ¬ ∀ r ∈ s.all, x.lowPc ≤ r.address := fun h => hrep.missed.mp h hmissed
    push Not at hno
    obtain ⟨r, hr, hlt⟩ := hno
    have hcov : s.Covers r.address :=
      ⟨⟨r, hr, Nat.le_refl _⟩, by have := hrep.low_le_high; rw [← hrep.high]; omega⟩
    obtain ⟨info, range, hfound, -⟩ := (hans r.address).1 s hs hcov
    rw [lookup_fails hsearch] at hfound
    · cases hfound
    · rintro y hy ⟨hyle, hylt⟩
      obtain ⟨j, hj⟩ := List.getElem?_of_mem hy
      obtain ⟨t, ht, hrept⟩ := getElem?_of_forall₂ hforall hj
      have hcov' := hrept.covers hyle hylt
      obtain ⟨hilt, rfl⟩ := List.getElem?_eq_some_iff.mp hi
      obtain ⟨hjlt, rfl⟩ := List.getElem?_eq_some_iff.mp ht
      rcases Nat.lt_trichotomy i j with hij | rfl | hij
      · exact List.pairwise_iff_getElem.mp hrev i j hilt hjlt hij _ ⟨hcov, hcov'⟩
      · rw [hx, Option.some.injEq] at hj
        subst hj
        omega
      · exact List.pairwise_iff_getElem.mp hrev j i hjlt hilt hij _ ⟨hcov', hcov⟩
  · intro hseen addr
    refine ⟨fun s hs hcov => ?_, fun hnone => lookup_fails hsearch fun x hx hin' => ?_⟩
    · have hne : s.rows ≠ [] := by
        intro hnil
        obtain ⟨⟨r, hr, hle⟩, hlt⟩ := hcov
        rw [RowSequence.all, hnil, List.nil_append, List.mem_singleton] at hr
        rw [hr] at hle
        omega
      obtain ⟨x, hx, hrep⟩ : ∃ x ∈ buildTable seqs, Rep x s :=
        mem_of_forall₂ hforall.flip (hkept s hs hne)
      have hmin := hrep.missed.mpr (hseen s hs)
      obtain ⟨⟨r, hr, hle⟩, hlt⟩ := hcov
      have hr' : r ∈ s.rows := by
        rcases List.mem_append.mp hr with hr | hr
        · exact hr
        · rw [List.mem_singleton.mp hr] at hle
          omega
      obtain ⟨y, hy, hyr⟩ := hrep.row r hr'
      obtain ⟨info, hfound, hinfo⟩ := lookupLine_found hrep ⟨y, hy, by omega⟩ hlt
      refine ⟨info, x.lastLine.address - x.lowPc, ?_, hinfo⟩
      rw [lookup_found hsearch hlow hx (Nat.le_trans (hmin r hr) hle) (by rw [hrep.high]; exact hlt),
        hfound]
      rfl
    · obtain ⟨s, hs, hrep⟩ := mem_of_forall₂ hforall hx
      exact hnone s (hin s hs) (hrep.covers hin'.1 hin'.2)

def plainRow (address line : Nat) : LineInfo := ⟨address, 0, none, line, 0, 0, false⟩

def endRow (address : Nat) : LineInfo := ⟨address, 0, none, 0, 0, 0, true⟩

def inOrder : RowSequence where
  rows := [plainRow 16 1, plainRow 32 2]
  last := endRow 48
  plain := by decide
  closing := rfl
  above := by decide

theorem lookup_answers_inOrder : Answers [inOrder] := by
  refine (lookup_answers_iff (List.pairwise_singleton _ _) (by simp)).mpr ?_
  intro s hs hm
  rw [List.mem_singleton.mp hs] at hm
  obtain ⟨m, hm⟩ := hm
  exact hm.not_ascending (by unfold Ascending; decide)

/-- The second row is below the first. -/
def outOfOrder : RowSequence where
  rows := [plainRow 32 2, plainRow 16 1]
  last := endRow 48
  plain := by decide
  closing := rfl
  above := by decide

/-- The address 24 belongs to the row at 16, but `low_pc` is still 32. -/
theorem outOfOrder_not_found : Disjoint [outOfOrder] ∧ ¬ Answers [outOfOrder] := by
  refine ⟨List.pairwise_singleton _ _, fun h => ?_⟩
  have hcov : outOfOrder.Covers 24 := by
    refine ⟨⟨plainRow 16 1, ?_, ?_⟩, ?_⟩ <;> decide
  obtain ⟨info, range, hfound, -⟩ := (h 24).1 outOfOrder (by simp) hcov
  have htable : buildTable [outOfOrder] = [⟨32, endRow 48, [plainRow 32 2], [plainRow 16 1]⟩] := by
    decide
  have hnone : lookupAddressInLineInfoTable
      [⟨32, endRow 48, [plainRow 32 2], [plainRow 16 1]⟩] 24 = some none := by decide
  rw [htable, sortLineSequences, List.mergeSort_singleton] at hfound
  simp only [trim] at hfound
  rw [hnone] at hfound
  cases hfound

end FusionBinutils.Bfd.LineTable
