import FusionBinutils.Bfd.SrecRead

/-! S-record files read back as they were written, or not. -/
namespace FusionBinutils.Bfd.Srec
open HexFile
open Memory (Block Same Holds Chain cellsOf)
variable {st st' : ScanState} {n base type len start : Nat} {blk : Block BfdByte}
  {l l' mid post : List (Block BfdByte)} {sec : Sec}

/-! What the reader has after some data records. -/

/-- The records of `mid`, with `post` behind them, are those of a section. -/
structure SecOf (type base : Nat) (l mid post : List (Block BfdByte)) (sec : Sec) : Prop where
  split : ∃ pre, l = pre ++ mid ++ post ∧ sec.filepos = base + (dataText type pre).length
  chain : Chain sec.vma mid
  size : sec.size = (cellsOf mid).length
  stops : ∀ blk ∈ post.head?, blk.start ≠ sec.vma + sec.size

/-- The section that is being built, and the ones before it, make up the memory of the records. -/
def Built (type base : Nat) (l : List (Block BfdByte)) (st : ScanState) : Prop :=
  (l = [] ∧ st.secs = [] ∧ st.building = false) ∨
    st.building = true ∧ ∃ g : Sec × List (Block BfdByte), ∃ rest, st.secs = g.1 :: rest.map Prod.fst ∧
      SecOf type base l g.2 [] g.1 ∧ (∀ x ∈ rest, ∃ blk post, SecOf type base l x.2 (blk :: post) x.1) ∧
      Same ((g :: rest).map fun x => ⟨x.1.vma, cellsOf x.2⟩) l

theorem SecOf.append (h : SecOf type base l mid (blk :: post) sec) (l' : List (Block BfdByte)) :
    SecOf type base (l ++ l') mid (blk :: post ++ l') sec := by
  obtain ⟨pre, rfl, hpos⟩ := h.split
  exact ⟨⟨pre, by simp, hpos⟩, h.chain, h.size, by simpa using h.stops⟩

/-- The record behind the others starts a section. -/
theorem secOf_fresh (l : List (Block BfdByte)) (blk : Block BfdByte) :
    SecOf type base (l ++ [blk]) [blk] []
      ⟨blk.start, blk.cells.length, base + (dataText type l).length⟩ :=
  ⟨⟨l, by simp, rfl⟩, ⟨rfl, trivial⟩, by simp [cellsOf], by simp⟩

/-- The record behind the others goes on with the section. -/
theorem SecOf.snoc (h : SecOf type base l mid [] sec) (hblk : sec.vma + sec.size = blk.start) :
    SecOf type base (l ++ [blk]) (mid ++ [blk]) []
      { sec with size := sec.size + blk.cells.length } := by
  obtain ⟨pre, hl, hpos⟩ := h.split
  rw [h.size] at hblk
  refine ⟨⟨pre, by rw [hl]; simp, hpos⟩, h.chain.snoc hblk.symm, ?_, by simp⟩
  rw [Memory.cellsOf_append, List.length_append, ← h.size]
  simp [cellsOf]

/-- The record behind the others does not go on with the section. -/
theorem SecOf.stop (h : SecOf type base l mid [] sec) (hblk : sec.vma + sec.size ≠ blk.start) :
    SecOf type base (l ++ [blk]) mid [blk] sec := by
  obtain ⟨pre, hl, hpos⟩ := h.split
  refine ⟨⟨pre, by rw [hl]; simp, hpos⟩, h.chain, h.size, fun x hx => ?_⟩
  obtain rfl : blk = x := by simpa using hx
  exact fun heq => hblk heq.symm

/-- A data record adds its bytes, to the section that is being built or in one of its own. -/
theorem Built.snoc (h : Built type base l st) (blk : Block BfdByte) :
    Built type base (l ++ [blk])
      (dataRecord st (base + (dataText type l).length) blk.start blk.cells.length) := by
  have hone : cellsOf [blk] = blk.cells := by simp [cellsOf]
  rcases h with ⟨rfl, hsecs, hb⟩ | ⟨hb, g, rest, hsecs, hg, hrest, hmem⟩
  · refine .inr ?_
    simp only [dataRecord, hb, hsecs]
    refine ⟨trivial, (_, [blk]), [], rfl, secOf_fresh [] blk, by simp, fun a c => ?_⟩
    rw [List.map_singleton, hone, List.nil_append]
  · refine .inr ?_
    have hold : ∀ x ∈ rest, ∃ b post, SecOf type base (l ++ [blk]) x.2 (b :: post) x.1 := by
      intro x hx
      obtain ⟨b, post, hsec⟩ := hrest x hx
      exact ⟨b, _, hsec.append [blk]⟩
    simp only [dataRecord, hb, hsecs]
    split
    · next hcont =>
      refine ⟨rfl, ({ g.1 with size := g.1.size + blk.cells.length }, g.2 ++ [blk]), rest, rfl,
        hg.snoc hcont, hold, fun a c => ?_⟩
      have hmem' := hmem a c
      simp only [List.map_cons, Memory.holds_cons, Memory.holds_append, Memory.holds_nil,
        or_false] at hmem' ⊢
      rw [Memory.cellsOf_append, Memory.has_append, hone, ← hg.size, hcont, ← hmem']
      tauto
    · next hcont =>
      refine ⟨rfl, (_, [blk]), g :: rest, by rw [List.map_cons], secOf_fresh l blk, ?_,
        fun a c => ?_⟩
      · intro x hx
        rcases List.mem_cons.mp hx with rfl | hx
        · exact ⟨blk, [], hg.stop hcont⟩
        · exact hold x hx
      · rw [List.map_cons, Memory.holds_cons, Memory.holds_append, hmem a c, hone]
        simp only [Memory.holds_cons, Memory.holds_nil, or_false]
        exact or_comm

/-- The scan over the data records and the termination record. -/
theorem scanLoop_data (n size start : Nat) (h : DataType type) (hfit : ∀ blk ∈ l', Fits type blk)
    (hbuilt : Built type base l st)
    (hsize : base + (dataText type (l ++ l') ++ (terminator type start).text).length = size)
    (hn : (dataText type l').length + 3 ≤ n) :
    ∃ st', scanLoop size n (dataText type l' ++ (terminator type start).text) st = some st' ∧
      st'.start = start % 256 ^ (type + 1) ∧ Built type base (l ++ l') st' := by
  induction l' generalizing n l st with
  | nil =>
    obtain ⟨n, rfl⟩ : ∃ k, n = k + 3 := ⟨n - 3, by omega⟩
    have hk : (terminator type start).Known := by
      rcases h with rfl | rfl | rfl <;> simp [Record.Known, terminator]
    have hcount : (terminator type start).count < 256 := by
      rcases h with rfl | rfl | rfl <;> simp [terminator, Record.count, Record.fields, addrBytes]
    have hscan : scanLoop size (n + 3) ((terminator type start).text ++ []) st = _ :=
      scanLoop_record size (base + (dataText type l).length) hk hcount (by
        simp only [List.append_nil, List.length_append] at hsize ⊢
        omega)
    rw [List.append_nil] at hscan
    refine ⟨{ st with start := start % 256 ^ (type + 1) }, ?_, rfl, by simpa [Built] using hbuilt⟩
    refine hscan.trans ?_
    have hterm : (terminator type start).type = 10 - type := rfl
    rw [hterm, scanRecord_terminator h]
  | cons blk l' ih =>
    have hb := hfit blk (by simp)
    have hl : l ++ blk :: l' = l ++ [blk] ++ l' := by simp
    rw [dataText_cons, List.length_append, Record.length_text] at hn
    obtain ⟨n, rfl⟩ : ∃ k, n = k + 3 := ⟨n - 3, by omega⟩
    have hscan : scanLoop size (n + 3) (Record.text ⟨type, blk.start % 2 ^ 64, blk.cells⟩ ++
        (dataText type l' ++ (terminator type start).text)) st = _ :=
      scanLoop_record size (base + (dataText type l).length)
        (h.known (blk.start % 2 ^ 64) blk.cells) (by
        rw [h.count]
        have := hb.length
        rcases h with rfl | rfl | rfl <;> omega) (by
        simp only [dataText_append, dataText_cons, List.length_append] at hsize ⊢
        omega)
    obtain ⟨st', hrest, hstart, hbuilt'⟩ := ih (n := n) (fun x hx => hfit x (by simp [hx]))
      (hbuilt.snoc blk) (by rw [← hl]; exact hsize) (by omega)
    refine ⟨st', ?_, hstart, by rwa [hl]⟩
    rw [dataText_cons, List.append_assoc, hscan]
    simp only [scanRecord_data h, hb.address_mod h]
    exact hrest

/-! The whole file. -/

/-- The sections of a file of data records are read as the memory of the records. -/
theorem Built.readSections {front : List Char} (start : Nat) (h : Built type front.length l st)
    (htype : DataType type) (hfit : ∀ blk ∈ l, Fits type blk) :
    ∃ blocks, readSections (front ++ (dataText type l ++ (terminator type start).text)) st.secs =
      some blocks ∧ Same blocks l := by
  -- one section
  have hread : ∀ {mid post sec}, SecOf type front.length l mid post sec →
      readSection (front ++ (dataText type l ++ (terminator type start).text)) sec =
        some (cellsOf mid) := by
    intro mid post sec hsec
    obtain ⟨pre, rfl, hpos⟩ := hsec.split
    have hstops := hsec.stops
    rw [hsec.size] at hstops
    rw [readSection, hpos, ← List.drop_drop, List.drop_left' rfl, List.append_assoc pre,
      dataText_append, List.append_assoc, List.drop_left' rfl]
    refine readLoop_data htype (fun x hx => hfit x (by simp [hx])) (fun x hx => hfit x (by simp [hx]))
      hsec.chain hstops ?_
    simp only [List.length_append]
    omega
  have hall : ∀ found : List (Sec × List (Block BfdByte)),
      (∀ x ∈ found, ∃ post, SecOf type front.length l x.2 post x.1) →
      Srec.readSections (front ++ (dataText type l ++ (terminator type start).text))
        (found.map Prod.fst) = some (found.map fun x => ⟨x.1.vma, cellsOf x.2⟩) := by
    intro found hfound
    induction found with
    | nil => rfl
    | cons g found ih =>
      obtain ⟨post, hsec⟩ := hfound g (by simp)
      have hrest := ih fun x hx => hfound x (by simp [hx])
      simp only [Srec.readSections] at hrest ⊢
      simp [hread hsec, hrest]
  rcases h with ⟨rfl, hsecs, -⟩ | ⟨-, g, rest, hsecs, hg, hrest, hmem⟩
  · exact ⟨[], by rw [hsecs]; rfl, fun _ _ => Iff.rfl⟩
  · refine ⟨_, ?_, hmem⟩
    rw [hsecs, ← List.map_cons]
    refine hall (g :: rest) fun x hx => ?_
    rcases List.mem_cons.mp hx with rfl | hx
    · exact ⟨[], hg⟩
    · obtain ⟨b, post, hsec⟩ := hrest x hx
      exact ⟨_, hsec⟩

/-! The loops of the writer. -/

/-- Where the last record of a block starts. -/
def lastStart (len : Nat) (blk : Block BfdByte) : Nat :=
  blk.start + (blk.cells.length - 1) / len * len

theorem octetsThisChunk_eq {left : Nat} (h : left < 2 ^ 32) : octetsThisChunk len left = min len left := by
  rw [octetsThisChunk, Nat.mod_eq_of_lt h]
  split <;> omega

theorem lastStart_step {address d : Nat} (hlen : 0 < len) (h : len < d) :
    address + len + (d - len - 1) / len * len = address + (d - 1) / len * len := by
  have hd : d - 1 = d - len - 1 + len := by omega
  rw [hd, Nat.add_div_right _ hlen, Nat.succ_mul]
  omega

/-- What the records of a block are. -/
structure Chunks (len : Nat) (blk : Block BfdByte) (l : List (Block BfdByte)) : Prop where
  chain : Chain blk.start l
  cells : cellsOf l = blk.cells
  ne : ∀ r ∈ l, r.cells ≠ []
  length : ∀ r ∈ l, r.cells.length ≤ len
  le : ∀ r ∈ l, r.start ≤ lastStart len blk
  last : blk.cells ≠ [] → ∃ r ∈ l, r.start = lastStart len blk

theorem writeSection_some (address : Nat) {data : List BfdByte} (hlen : 0 < len)
    (hsize : data.length < 2 ^ 32) (hn : data.length ≤ n) :
    ∃ l, writeSection len n address data = some l ∧ Chunks len ⟨address, data⟩ l := by
  induction n generalizing address data with
  | zero =>
    obtain rfl := List.length_eq_zero_iff.mp (Nat.le_zero.mp hn)
    exact ⟨[], rfl, trivial, rfl, by simp, by simp, by simp, by simp⟩
  | succ n ih =>
    cases hdata : data with
    | nil => exact ⟨[], rfl, trivial, rfl, by simp, by simp, by simp, by simp⟩
    | cons x xs =>
      rw [← hdata]
      have hpos : 0 < data.length := by rw [hdata]; simp
      have htake : (data.take (min len data.length)).length = min len data.length := by simp
      have hdrop : (data.drop (min len data.length)).length = data.length - min len data.length :=
        List.length_drop
      obtain ⟨l, heq, hchunks⟩ := @ih (address + min len data.length)
        (data.drop (min len data.length)) (by omega) (by omega)
      refine ⟨⟨address, data.take (min len data.length)⟩ :: l, ?_, ⟨rfl, ?_⟩, ?_, ?_, ?_, ?_, ?_⟩
      · rw [hdata, writeSection, ← hdata, octetsThisChunk_eq hsize]
        rw [if_neg (by omega), heq]
        rfl
      · rw [Block.stop, htake]
        exact hchunks.chain
      · rw [cellsOf, List.flatMap_cons, ← cellsOf, hchunks.cells, List.take_append_drop]
      · refine List.forall_mem_cons.mpr ⟨?_, hchunks.ne⟩
        rw [← List.length_pos_iff, htake]
        omega
      · refine List.forall_mem_cons.mpr ⟨?_, hchunks.length⟩
        rw [htake]
        omega
      · refine List.forall_mem_cons.mpr ⟨Nat.le_add_right _ _, fun r hr => ?_⟩
        have hle := hchunks.le r hr
        rcases Nat.lt_or_ge len data.length with hlt | hge
        · rw [lastStart, hdrop, Nat.min_eq_left hlt.le] at hle
          exact hle.trans_eq (lastStart_step hlen hlt)
        · -- there is no record behind the first one
          have hcells := hchunks.cells
          rw [Nat.min_eq_right hge, List.drop_length] at hcells
          have hnil := List.flatMap_eq_nil_iff.mp hcells r hr
          exact absurd hnil (hchunks.ne r hr)
      · intro _
        rcases Nat.lt_or_ge len data.length with hlt | hge
        · obtain ⟨r, hr, hstart⟩ := hchunks.last (by rw [← List.length_pos_iff, hdrop]; omega)
          refine ⟨r, List.mem_cons_of_mem _ hr, hstart.trans ?_⟩
          rw [lastStart, hdrop, Nat.min_eq_left hlt.le]
          exact lastStart_step hlen hlt
        · refine ⟨_, List.mem_cons_self, ?_⟩
          have hzero : (data.length - 1) / len = 0 := Nat.div_eq_of_lt (by omega)
          rw [lastStart, hzero, Nat.zero_mul, Nat.add_zero]

/-- A block of `2 ^ 32` bytes or more: the loop comes to a chunk of no octets. -/
theorem writeSection_none {address : Nat} {data : List BfdByte} (hsize : 2 ^ 32 ≤ data.length) :
    writeSection len n address data = none := by
  induction n generalizing address data with
  | zero =>
    cases data with
    | nil => simp at hsize
    | cons x xs => rfl
  | succ n ih =>
    cases hdata : data with
    | nil => simp [hdata] at hsize
    | cons x xs =>
      rw [writeSection, ← hdata]
      by_cases hchunk : octetsThisChunk len data.length = 0
      · rw [if_pos hchunk]
      · have hle : octetsThisChunk len data.length ≤ data.length % 2 ^ 32 := by
          rw [octetsThisChunk]
          split <;> omega
        rw [if_neg hchunk, ih (by rw [List.length_drop]; omega)]
        rfl

/-- What the records of some blocks are. -/
structure AllChunks (len : Nat) (bs l : List (Block BfdByte)) : Prop where
  same : Same l bs
  ne : ∀ r ∈ l, r.cells ≠ []
  length : ∀ r ∈ l, r.cells.length ≤ len
  within : ∀ r ∈ l, ∃ blk ∈ bs, blk.start ≤ r.start ∧ r.stop ≤ blk.stop ∧ r.start ≤ lastStart len blk
  last : ∀ blk ∈ bs, blk.cells ≠ [] → ∃ r ∈ l, r.start = lastStart len blk

theorem Chunks.within {r : Block BfdByte} (h : Chunks len blk l) (hr : r ∈ l) :
    blk.start ≤ r.start ∧ r.stop ≤ blk.stop ∧ r.start ≤ lastStart len blk := by
  obtain ⟨hstart, hstop⟩ := h.chain.mem hr
  rw [h.cells] at hstop
  exact ⟨hstart, hstop, h.le r hr⟩

theorem writeSections_some {bs : List (Block BfdByte)} (hlen : 0 < len)
    (hsize : ∀ blk ∈ bs, blk.cells.length < 2 ^ 32) (hbs : bs.Pairwise fun x y => x.stop ≤ y.start) :
    ∃ l, writeSections len bs = some l ∧ AllChunks len bs l ∧
      l.Pairwise fun x y => x.stop ≤ y.start := by
  induction bs with
  | nil => exact ⟨[], rfl, ⟨fun _ _ => Iff.rfl, by simp, by simp, by simp, by simp⟩, .nil⟩
  | cons blk bs ih =>
    obtain ⟨hblk, hbs⟩ := List.pairwise_cons.mp hbs
    obtain ⟨l₁, heq₁, h₁⟩ :=
      writeSection_some blk.start hlen (hsize blk (by simp)) le_rfl
    obtain ⟨l₂, heq₂, h₂, hpair₂⟩ := ih (fun x hx => hsize x (by simp [hx])) hbs
    refine ⟨l₁ ++ l₂, by simp [writeSections, heq₁, heq₂], ⟨?_, ?_, ?_, ?_, ?_⟩, ?_⟩
    · intro a c
      rw [Memory.holds_append, Memory.holds_cons, h₂.same a c, ← h₁.chain.has_iff, h₁.cells]
    · exact fun r hr => (List.mem_append.mp hr).elim (h₁.ne r) (h₂.ne r)
    · exact fun r hr => (List.mem_append.mp hr).elim (h₁.length r) (h₂.length r)
    · intro r hr
      rcases List.mem_append.mp hr with hr | hr
      · exact ⟨blk, by simp, h₁.within hr⟩
      · obtain ⟨b, hb, hwithin⟩ := h₂.within r hr
        exact ⟨b, by simp [hb], hwithin⟩
    · intro b hb hne
      rcases List.mem_cons.mp hb with rfl | hb
      · obtain ⟨r, hr, hstart⟩ := h₁.last hne
        exact ⟨r, by simp [hr], hstart⟩
      · obtain ⟨r, hr, hstart⟩ := h₂.last b hb hne
        exact ⟨r, by simp [hr], hstart⟩
    · refine List.pairwise_append.mpr ⟨h₁.chain.pairwise, hpair₂, fun x hx y hy => ?_⟩
      obtain ⟨b, hb, hy', -⟩ := h₂.within y hy
      exact (h₁.within hx).2.1.trans ((hblk b hb).trans hy')

theorem writeSections_none {bs : List (Block BfdByte)}
    (hsize : ∃ blk ∈ bs, 2 ^ 32 ≤ blk.cells.length) : writeSections len bs = none := by
  induction bs with
  | nil => simp at hsize
  | cons blk bs ih =>
    rw [writeSections]
    by_cases hblk : 2 ^ 32 ≤ blk.cells.length
    · rw [writeSection_none hblk]
      rfl
    · obtain ⟨b, hb, hlarge⟩ := hsize
      have hrest : b ∈ bs := by
        rcases List.mem_cons.mp hb with rfl | hb
        · exact absurd hlarge hblk
        · exact hb
      rw [ih ⟨b, hrest, hlarge⟩]
      cases writeSection len blk.cells.length blk.start blk.cells <;> rfl

/-! The type of the records. -/

variable {o : Options} {calls : List SetCall}

/-- The type that a block needs for its own addresses. -/
def neededType (forceS3 : Bool) (blk : Block BfdByte) : Nat :=
  if forceS3 then 3 else if blk.stop ≤ 2 ^ 16 then 1 else if blk.stop ≤ 2 ^ 24 then 2 else 3

theorem setType_eq (forceS3 : Bool) {c : SetCall} (h : DataType type)
    (hfits : c.loadable → c.block.stop ≤ 2 ^ 64) : setType forceS3 type c =
      if c.loadable then max type (neededType forceS3 c.block) else type := by
  rw [setType]
  by_cases hc : c.loadable
  · have hpos : 0 < c.contents.length := by
      simp only [SetCall.loadable, Bool.and_eq_true] at hc
      simpa [List.length_pos_iff] using hc.1.1
    have hstop := hfits hc
    have hle : 1 ≤ type ∧ type ≤ 3 := by
      rcases h with rfl | rfl | rfl <;> decide
    have hlast : (c.lma + (c.offset + c.contents.length) + (2 ^ 64 - 1)) % 2 ^ 64 =
        c.block.stop - 1 := by
      simp only [SetCall.block, Block.stop] at hstop ⊢
      omega
    have hstop' : 0 < c.block.stop := by
      simp only [SetCall.block, Block.stop]
      omega
    simp only [hlast, hc, Bool.not_true, Bool.false_eq_true, if_false, if_true, neededType]
    cases forceS3
    · simp only [Bool.false_eq_true, if_false]
      by_cases h16 : c.block.stop ≤ 2 ^ 16
      · rw [if_pos (by omega), if_pos h16, Nat.max_eq_left hle.1]
      · rw [if_neg (by omega), if_neg h16]
        split <;> split <;> omega
    · simp only [if_true]
      omega
  · simp [hc]

theorem setType_dataType {forceS3 : Bool} {c : SetCall} (h : DataType type) :
    DataType (setType forceS3 type c) := by
  rw [setType]
  split
  · exact h
  · split
    · exact .inr (.inr rfl)
    · dsimp only
      split
      · exact h
      · split
        · exact .inr (.inl rfl)
        · exact .inr (.inr rfl)

theorem recordType_dataType (forceS3 : Bool) (calls : List SetCall) :
    DataType (recordType forceS3 calls) := by
  have hrun : ∀ type, DataType type → DataType (calls.foldl (setType forceS3) type) := by
    induction calls with
    | nil => exact fun type h => h
    | cons c calls ih => exact fun type h => ih _ (setType_dataType h)
  exact hrun 1 (.inl rfl)

/-- The type of the records is the largest one that is needed. -/
theorem recordType_spec (forceS3 : Bool) (hfits : ∀ blk ∈ image calls, blk.stop ≤ 2 ^ 64) :
    (∀ blk ∈ image calls, neededType forceS3 blk ≤ recordType forceS3 calls) ∧
      (recordType forceS3 calls = 1 ∨
        ∃ blk ∈ image calls, neededType forceS3 blk = recordType forceS3 calls) := by
  have hrun : ∀ type, DataType type → type ≤ calls.foldl (setType forceS3) type ∧
      (∀ blk ∈ image calls, neededType forceS3 blk ≤ calls.foldl (setType forceS3) type) ∧
      (calls.foldl (setType forceS3) type = type ∨
        ∃ blk ∈ image calls, neededType forceS3 blk = calls.foldl (setType forceS3) type) := by
    induction calls with
    | nil => exact fun type h => ⟨le_rfl, by simp [image], .inl rfl⟩
    | cons c calls ih =>
      intro type h
      by_cases hc : c.loadable
      · have himage : image (c :: calls) = c.block :: image calls := by simp [image, hc]
        rw [himage] at hfits ⊢
        obtain ⟨hle, hall, hlast⟩ := ih (fun blk hblk => hfits blk (by simp [hblk]))
          (setType forceS3 type c) (setType_dataType h)
        have heq := setType_eq forceS3 h fun _ => hfits c.block (by simp)
        rw [if_pos hc] at heq
        rw [List.foldl_cons]
        refine ⟨by omega, List.forall_mem_cons.mpr ⟨by omega, hall⟩, ?_⟩
        rcases hlast with hlast | ⟨blk, hblk, hlast⟩
        · rcases Nat.le_total (neededType forceS3 c.block) type with hmax | hmax
          · exact .inl (by omega)
          · exact .inr ⟨c.block, by simp, by omega⟩
        · exact .inr ⟨blk, by simp [hblk], hlast⟩
      · have himage : image (c :: calls) = image calls := by simp [image, hc]
        rw [himage] at hfits ⊢
        have heq := setType_eq forceS3 h fun hload => absurd hload hc
        rw [if_neg hc] at heq
        rw [List.foldl_cons, heq]
        exact ih hfits type h
  exact (hrun 1 (.inl rfl)).2

/-! What the reader makes of a file. -/

/-- A record with the part of its address that is written. -/
def cut (type : Nat) (blk : Block BfdByte) : Block BfdByte := ⟨blk.start % 256 ^ (type + 1), blk.cells⟩

theorem text_cut (h : DataType type) (a : Nat) (cells : List BfdByte) :
    Record.text ⟨type, a % 256 ^ (type + 1) % 2 ^ 64, cells⟩ =
      Record.text ⟨type, a % 2 ^ 64, cells⟩ := by
  have haddr : addrBytes type (a % 256 ^ (type + 1) % 2 ^ 64) = addrBytes type (a % 2 ^ 64) := by
    rcases h with rfl | rfl | rfl
    all_goals
      simp only [addrBytes, List.cons.injEq, ← BitVec.toNat_inj,
        BitVec.toNat_ofNat, Nat.shiftRight_eq_div_pow, and_true]
      omega
  simp only [Record.text, Record.count, Record.checksum, Record.fields, haddr]

theorem dataText_cut (h : DataType type) (l : List (Block BfdByte)) :
    dataText type (l.map (cut type)) = dataText type l := by
  induction l with
  | nil => rfl
  | cons blk l ih => rw [List.map_cons, dataText_cons, dataText_cons, ih, cut, text_cut h]

theorem recordLen_pos (h : DataType type) (len : Nat) : 0 < recordLen type len := by
  rw [recordLen]
  rcases h with rfl | rfl | rfl <;> split <;> first | omega | split <;> omega

/-- The file is read as the records with what is left of their addresses. -/
theorem written (o : Options) (start : Nat) (h : (image calls).Pairwise Memory.Apart)
    (hsize : ∀ blk ∈ image calls, blk.cells.length < 2 ^ 32) :
    ∃ l file st blocks, writeObjectContents o calls start = some file ∧ scan file = some st ∧
      st.start = start % 256 ^ (recordType o.forceS3 calls + 1) ∧
      readSections file st.secs = some blocks ∧
      Same blocks (l.map (cut (recordType o.forceS3 calls))) ∧
      AllChunks (recordLen (recordType o.forceS3 calls) o.len) (dataList calls) l ∧
      l.Pairwise fun x y => x.stop ≤ y.start := by
  have htype := recordType_dataType o.forceS3 calls
  generalize hk : recordType o.forceS3 calls = type at *
  obtain ⟨l, heq, hchunks, hpair⟩ := writeSections_some (recordLen_pos htype o.len)
    (fun blk hblk => hsize blk (mem_dataList.mp hblk)) (dataList_pairwise h)
  have hfit : ∀ blk ∈ l.map (cut type), Fits type blk := by
    intro blk hblk
    obtain ⟨r, hr, rfl⟩ := List.mem_map.mp hblk
    exact ⟨Nat.mod_lt _ (by positivity), (hchunks.length r hr).trans (recordLen_le htype o.len)⟩
  have hheader : (headerRecord o.filename).count < 256 := by
    simp [headerRecord, Record.count, Record.fields, addrBytes]
    omega
  have hbuilt : Built type (headerRecord o.filename).text.length [] ⟨0, [], false, []⟩ :=
    .inl ⟨rfl, rfl, rfl⟩
  obtain ⟨st, hscan, hstart, hbuilt'⟩ := scanLoop_data
    ((dataText type (l.map (cut type)) ++ (terminator type start).text).length +
      (headerRecord o.filename).text.length + 1 - 3)
    ((headerRecord o.filename).text ++ (dataText type (l.map (cut type)) ++
      (terminator type start).text)).length start htype hfit hbuilt (by simp)
    (by
      have := Record.length_text (terminator type start)
      have := Record.length_text (headerRecord o.filename)
      rw [List.length_append]
      omega)
  obtain ⟨blocks, hread, hsame⟩ := hbuilt'.readSections start htype hfit
  refine ⟨l, (headerRecord o.filename).text ++ (dataText type (l.map (cut type)) ++
    (terminator type start).text), st, blocks, ?_, ?_, hstart, hread, hsame, hchunks, hpair⟩
  · rw [writeObjectContents]
    simp only [hk, heq, Option.map_some, dataText_cut htype, List.append_assoc]
  · rw [← hscan, scan]
    have hn : ((headerRecord o.filename).text ++ (dataText type (l.map (cut type)) ++
        (terminator type start).text)).length + 1 =
        (dataText type (l.map (cut type)) ++ (terminator type start).text).length +
          (headerRecord o.filename).text.length + 1 - 3 + 3 := by
      have := Record.length_text (headerRecord o.filename)
      rw [List.length_append]
      omega
    rw [hn, scanLoop_record _ 0 (by simp [headerRecord, Record.Known]) hheader (by simp)]
    rfl

/-! When the file reads back. -/

/-- The file that is written is read as the same memory, with the same start address. -/
def ReadsBack (o : Options) (calls : List SetCall) (start : Nat) : Prop :=
  ∃ file st blocks, writeObjectContents o calls start = some file ∧ scan file = some st ∧
    st.start = start ∧ readSections file st.secs = some blocks ∧ Same blocks (image calls)

/-- Every record starts below `2 ^ 32`, in blocks whose size is an `unsigned int`, and the start
address needs no more bytes than the addresses of the data. -/
structure Representable (o : Options) (calls : List SetCall) (start : Nat) : Prop where
  size : ∀ blk ∈ image calls, blk.cells.length < 2 ^ 32
  data : ∀ blk ∈ image calls, lastStart (recordLen 3 o.len) blk < 2 ^ 32
  start : start < 2 ^ 16 ∨ ∃ blk ∈ image calls, start < 256 ^ (neededType o.forceS3 blk + 1)

theorem lastStart_lt (len : Nat) (hne : blk.cells ≠ []) : lastStart len blk < blk.stop := by
  have hpos := List.length_pos_iff.mpr hne
  have hle := Nat.div_mul_le_self (blk.cells.length - 1) len
  rw [lastStart, Block.stop]
  omega

theorem stop_le_of_needed {forceS3 : Bool} (h : DataType type) (hneeded : neededType forceS3 blk ≤ type) :
    type = 3 ∨ blk.stop ≤ 256 ^ (type + 1) := by
  rw [neededType] at hneeded
  rcases h with rfl | rfl | rfl
  · right
    split at hneeded
    · omega
    · split at hneeded
      · omega
      · split at hneeded <;> omega
  · right
    split at hneeded
    · omega
    · split at hneeded
      · omega
      · split at hneeded <;> omega
  · exact .inl rfl

/-- The start address that is left is the whole one when some address needs as many bytes. -/
theorem start_lt_iff {forceS3 : Bool} (hfits : ∀ blk ∈ image calls, blk.stop ≤ 2 ^ 64) :
    start < 256 ^ (recordType forceS3 calls + 1) ↔
      start < 2 ^ 16 ∨ ∃ blk ∈ image calls, start < 256 ^ (neededType forceS3 blk + 1) := by
  obtain ⟨hall, hlast⟩ := recordType_spec forceS3 hfits
  have hone : 1 ≤ recordType forceS3 calls := by
    rcases recordType_dataType forceS3 calls with h | h | h <;> omega
  constructor
  · intro hlt
    rcases hlast with hlast | ⟨blk, hblk, hlast⟩
    · rw [hlast] at hlt
      exact .inl (by omega)
    · exact .inr ⟨blk, hblk, by rwa [hlast]⟩
  · rintro (hlt | ⟨blk, hblk, hlt⟩)
    · calc start < 256 ^ (1 + 1) := by omega
        _ ≤ 256 ^ (recordType forceS3 calls + 1) := Nat.pow_le_pow_right (by decide) (by omega)
    · exact hlt.trans_le (Nat.pow_le_pow_right (by decide) (Nat.succ_le_succ (hall blk hblk)))

/-- Cut addresses give the memory only when all records start below `2 ^ 32`. -/
theorem start_lt_of_same (htype : DataType type) (hlen : len ≤ 253 - type)
    (hchunks : AllChunks len (dataList calls) l) (hpair : l.Pairwise fun x y => x.stop ≤ y.start)
    (hsize : ∀ blk ∈ image calls, blk.cells.length < 2 ^ 32)
    (hthree : (∀ blk ∈ image calls, blk.stop ≤ 2 ^ 64) →
      ∀ blk ∈ image calls, type = 3 ∨ blk.stop ≤ 256 ^ (type + 1))
    (hsame : Same (l.map (cut type)) (image calls)) {r : Block BfdByte} (hr : r ∈ l) :
    r.start < 2 ^ 32 := by
  -- the first byte of each record comes from some record that was read
  have hfrom : ∀ x ∈ l, ∃ q ∈ l, q.start % 256 ^ (type + 1) ≤ x.start ∧
      x.start < q.start % 256 ^ (type + 1) + q.cells.length := by
    intro x hx
    obtain ⟨c, cs, hcells⟩ := List.exists_cons_of_ne_nil (hchunks.ne x hx)
    have hholds : Holds l x.start c := ⟨x, hx, le_rfl, by simp [hcells]⟩
    have himage := (Same.of_perm (dataList_perm calls) _ _).mp ((hchunks.same _ _).mp hholds)
    obtain ⟨y, hy, hhas⟩ := (hsame _ _).mpr himage
    obtain ⟨q, hq, rfl⟩ := List.mem_map.mp hy
    exact ⟨q, hq, hhas.1, hhas.lt⟩
  have hmod : ∀ a, a % 256 ^ (type + 1) < 2 ^ 32 := by
    intro a
    rcases htype with rfl | rfl | rfl <;> omega
  have hnear : ∀ x ∈ l, x.start < 2 ^ 32 + 253 := by
    intro x hx
    obtain ⟨q, hq, -, hlt⟩ := hfrom x hx
    have := hchunks.length q hq
    have := hmod q.start
    omega
  have hfits : ∀ blk ∈ image calls, blk.stop ≤ 2 ^ 64 := by
    intro blk hblk
    obtain ⟨x, hx, hstart⟩ := hchunks.last blk (mem_dataList.mpr hblk) (mem_image hblk)
    have := hnear x hx
    have := hsize blk hblk
    rw [lastStart] at hstart
    rw [Block.stop]
    omega
  by_contra hhigh
  obtain ⟨blk, hblk, -, hstop, -⟩ := hchunks.within r hr
  have hrnear := hnear r hr
  obtain rfl : type = 3 := by
    rcases hthree hfits blk (mem_dataList.mp hblk) with h | h
    · exact h
    · simp only [Block.stop] at hstop h
      rcases htype with rfl | rfl | rfl
      · omega
      · omega
      · rfl
  obtain ⟨q, hq, hle, hlt⟩ := hfrom r hr
  have hqlen := hchunks.length q hq
  have hqnear := hnear q hq
  by_cases hqlow : q.start < 2 ^ 32
  · -- two records with the same address
    have hne : q ≠ r := by
      rintro rfl
      exact hhigh hqlow
    have hapart : l.Pairwise Memory.Apart := hpair.imp .inl
    have hqr := hapart.forall hq hr hne
    simp only [Memory.Apart, Block.stop] at hqr
    omega
  · omega

/-- Cut addresses give the memory when no record reaches past what its type can express. -/
theorem map_cut (htype : DataType type) (hchunks : AllChunks len (dataList calls) l)
    (hthree : ∀ blk ∈ image calls, type = 3 ∨ blk.stop ≤ 256 ^ (type + 1))
    (hdata : type = 3 → ∀ blk ∈ image calls, lastStart len blk < 2 ^ 32) :
    l.map (cut type) = l := by
  conv_rhs => rw [← List.map_id l]
  refine List.map_congr_left fun r hr => ?_
  obtain ⟨blk, hblk, -, hstop, hlast⟩ := hchunks.within r hr
  have hblk' := mem_dataList.mp hblk
  have hpos := List.length_pos_iff.mpr (hchunks.ne r hr)
  have hlt : r.start < 256 ^ (type + 1) := by
    rcases hthree blk hblk' with rfl | hle
    · have := hdata rfl blk hblk'
      omega
    · simp only [Block.stop] at hstop hle
      omega
  rw [cut, Nat.mod_eq_of_lt hlt]
  rfl

/-- Two pieces, the first one of them behind the other. -/
def backwards : List SetCall :=
  [⟨0x20000, true, true, 4, [3#8, 4#8]⟩, ⟨0xfffe, true, true, 0, [1#8, 2#8, 5#8]⟩]

end FusionBinutils.Bfd.Srec
