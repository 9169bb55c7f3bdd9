import FusionBinutils.Bfd.IhexRead

/-! Intel Hex files read back as they were written. -/
namespace FusionBinutils.Bfd.Ihex
open HexFile
open Memory (Block Same Holds)
variable {r : Record} {rs rs' mid post : List Record} {st st' st'' : ScanState} {b : Bases}
  {mem mem' : List (Block BfdByte)} {n address : Nat} {data : List BfdByte} {sec : Sec}

/-! What the reader has after some records. -/

/-- The sections found in the records `rs`, each with its own records, make up the memory `mem`. -/
def Built (rs : List Record) (st : ScanState) (mem : List (Block BfdByte)) : Prop :=
  ∃ found : List (Sec × List Record), st.secs = found.map Prod.fst ∧
    (∀ g ∈ found, ∃ post, SecOf rs g.2 post g.1) ∧
    (st.building = true → ∃ g rest, found = g :: rest ∧ SecOf rs g.2 [] g.1) ∧
    Same (found.map fun g => ⟨g.1.vma, recordBytes g.2⟩) mem

/-- A record without data ends the section that is being built. -/
theorem Built.other (h : Built rs st mem) (hsecs : st'.secs = st.secs)
    (hbuild : st'.building = false) : Built (rs ++ rs') st' mem := by
  obtain ⟨found, hfst, hof, -, hmem⟩ := h
  refine ⟨found, by rw [hsecs, hfst], fun g hg => ?_, fun hb => ?_, hmem⟩
  · obtain ⟨post, hsec⟩ := hof g hg
    exact ⟨_, hsec.append rs'⟩
  · rw [hbuild] at hb
    cases hb

/-- A section that starts with the record behind the others. -/
theorem secOf_fresh (hr : r.IsData) (vma : Nat) :
    SecOf (rs ++ [r]) [r] [] ⟨vma, r.data.length, (fileText rs).length⟩ :=
  ⟨⟨rs, by simp, rfl⟩, by simpa using hr, by simp, by simp [recordBytes]⟩

/-- A section that goes on with the record behind the others. -/
theorem SecOf.snoc (h : SecOf rs mid [] sec) (hr : r.IsData) :
    SecOf (rs ++ [r]) (mid ++ [r]) [] { sec with size := sec.size + r.data.length } := by
  obtain ⟨pre, hrs, hpos⟩ := h.split
  refine ⟨⟨pre, by rw [hrs]; simp, hpos⟩, fun x hx => ?_, by simp, by simp [recordBytes, h.size]⟩
  rcases List.mem_append.mp hx with hx | hx
  · exact h.data x hx
  · rw [List.mem_singleton.mp hx]
    exact hr

/-- A data record adds its bytes, to the section that is being built or in one of its own. -/
theorem Built.snoc (h : Built rs st mem) (hr : r.IsData) :
    Built (rs ++ [r]) (dataRecord st (fileText rs).length r.addr r.data.length)
      (mem ++ [⟨st.bases.extbase + st.bases.segbase + r.addr, r.data⟩]) := by
  obtain ⟨found, hfst, hof, hbuild, hmem⟩ := h
  have hold : ∀ g ∈ found, ∃ post, SecOf (rs ++ [r]) g.2 post g.1 := by
    intro g hg
    obtain ⟨post, hsec⟩ := hof g hg
    exact ⟨_, hsec.append [r]⟩
  have hlen : 0 < r.data.length := List.length_pos_iff.mpr hr.data
  have hfresh : Built (rs ++ [r]) { st with
      secs := ⟨st.bases.extbase + st.bases.segbase + r.addr, r.data.length,
        (fileText rs).length⟩ :: st.secs, building := true }
      (mem ++ [⟨st.bases.extbase + st.bases.segbase + r.addr, r.data⟩]) := by
    refine ⟨(⟨st.bases.extbase + st.bases.segbase + r.addr, r.data.length,
      (fileText rs).length⟩, [r]) :: found, by simp [hfst], fun g hg => ?_,
      fun _ => ⟨_, _, rfl, secOf_fresh hr _⟩, fun a c => ?_⟩
    · rcases List.mem_cons.mp hg with rfl | hg
      · exact ⟨[], secOf_fresh hr _⟩
      · exact hold g hg
    · have hone : recordBytes [r] = r.data := by simp [recordBytes]
      rw [List.map_cons, Memory.holds_cons, Memory.holds_append, hmem a c, hone]
      simp only [Memory.holds_cons, Memory.holds_nil, or_false]
      exact or_comm
  simp only [dataRecord, if_pos hlen]
  split
  · next sec secs hb hsecs =>
    split
    · next hcont =>
      obtain ⟨g, rest, rfl, hsec⟩ := hbuild hb
      have hg : g.1 = sec ∧ rest.map Prod.fst = secs := by
        rw [hsecs] at hfst
        simpa [eq_comm] using hfst
      obtain ⟨rfl, rfl⟩ := hg
      refine ⟨({ g.1 with size := g.1.size + r.data.length }, g.2 ++ [r]) :: rest, rfl,
        fun x hx => ?_, fun _ => ⟨_, _, rfl, hsec.snoc hr⟩, fun a c => ?_⟩
      · rcases List.mem_cons.mp hx with rfl | hx
        · exact ⟨[], hsec.snoc hr⟩
        · exact hold x (by simp [hx])
      · have hmem' := hmem a c
        have hbytes : recordBytes (g.2 ++ [r]) = recordBytes g.2 ++ r.data := by simp [recordBytes]
        simp only [List.map_cons, Memory.holds_cons, Memory.holds_append, Memory.holds_nil,
          or_false] at hmem' ⊢
        rw [hbytes, Memory.has_append, ← hsec.size, hcont, ← hmem']
        tauto
    · exact hfresh
  · exact hfresh

/-! Writer and reader side by side. -/

/-- The reader after the records `rs`: it has the writer's bases and the memory written so far. -/
structure Tracks (rs : List Record) (b : Bases) (st : ScanState) (mem : List (Block BfdByte)) :
    Prop where
  bases : st.bases = b
  start : st.start = 0
  built : Built rs st mem

theorem Tracks.same (h : Tracks rs b st mem) (hmem : Same mem mem') : Tracks rs b st mem' := by
  obtain ⟨found, hfst, hof, hbuild, hsame⟩ := h.built
  exact ⟨h.bases, h.start, found, hfst, hof, hbuild, fun a c => (hsame a c).trans (hmem a c)⟩

/-- The scan goes from behind `rs` over the records `rs'`. -/
def Leads (rs : List Record) (st : ScanState) (rs' : List Record) (st' : ScanState) : Prop :=
  ∀ tail, scanRecords (fileText rs).length st (rs' ++ tail) =
    scanRecords (fileText (rs ++ rs')).length st' tail

theorem Leads.refl (rs : List Record) (st : ScanState) : Leads rs st [] st := by
  intro tail
  simp

theorem Leads.trans {rs₁ rs₂ : List Record} (h : Leads rs st rs₁ st')
    (h' : Leads (rs ++ rs₁) st' rs₂ st'') : Leads rs st (rs₁ ++ rs₂) st'' := by
  intro tail
  rw [List.append_assoc, h, h', List.append_assoc]

theorem leads_of_scanRecord (h : scanRecord st (fileText rs).length r = some (.more st')) :
    Leads rs st [r] st' := by
  intro tail
  have hlen : (fileText (rs ++ [r])).length = (fileText rs).length + r.text.length := by
    simp [fileText]
  rw [List.singleton_append, scanRecords, h, hlen]

/-- A data record. -/
theorem Tracks.snoc (h : Tracks rs b st mem) (hr : r.IsData) :
    ∃ st', Leads rs st [r] st' ∧
      Tracks (rs ++ [r]) b st' (mem ++ [⟨b.extbase + b.segbase + r.addr, r.data⟩]) := by
  refine ⟨dataRecord st (fileText rs).length r.addr r.data.length,
    leads_of_scanRecord (by simp only [scanRecord, hr.type]), ?_, ?_, ?_⟩
  · rw [← h.bases, dataRecord]
    split
    · split
      · rfl
      · split <;> rfl
    · split <;> rfl
  · rw [← h.start, dataRecord]
    split
    · split
      · rfl
      · split <;> rfl
    · split <;> rfl
  · rw [← h.bases]
    exact h.built.snoc hr

/-- An extended address record. -/
theorem Tracks.segment {x y : BfdByte} (h : Tracks rs b st mem) :
    ∃ st', Leads rs st [⟨0, 2, [x, y]⟩] st' ∧
      Tracks (rs ++ [⟨0, 2, [x, y]⟩]) { b with segbase := (x.toNat * 256 + y.toNat) * 16 } st' mem :=
  ⟨_, leads_of_scanRecord rfl, by rw [← h.bases]; rfl, h.start, h.built.other rfl rfl⟩

/-- An extended linear address record. -/
theorem Tracks.linear {x y : BfdByte} (h : Tracks rs b st mem) :
    ∃ st', Leads rs st [⟨0, 4, [x, y]⟩] st' ∧
      Tracks (rs ++ [⟨0, 4, [x, y]⟩])
        { b with extbase := (x.toNat * 256 + y.toNat) * 2 ^ 16 } st' mem :=
  ⟨_, leads_of_scanRecord rfl, by rw [← h.bases]; rfl, h.start, h.built.other rfl rfl⟩

/-- The records `rs'` take the reader from the base `b` to the base `b'`, with `blk` in memory. -/
def Writes (b : Bases) (rs' : List Record) (b' : Bases) (blk : List (Block BfdByte)) : Prop :=
  (∀ r ∈ rs', r.Valid) ∧ ∀ rs st mem, Tracks rs b st mem →
    ∃ st', Leads rs st rs' st' ∧ Tracks (rs ++ rs') b' st' (mem ++ blk)

theorem Writes.nil (b : Bases) : Writes b [] b [] :=
  ⟨by simp, fun rs st mem h => ⟨st, .refl rs st, by simpa using h⟩⟩

theorem Writes.append {b₁ b₂ b₃ : Bases} {rs₁ rs₂ : List Record} {l₁ l₂ : List (Block BfdByte)}
    (h : Writes b₁ rs₁ b₂ l₁) (h' : Writes b₂ rs₂ b₃ l₂) :
    Writes b₁ (rs₁ ++ rs₂) b₃ (l₁ ++ l₂) := by
  refine ⟨fun r hr => (List.mem_append.mp hr).elim (h.1 r) (h'.1 r), fun rs st mem ht => ?_⟩
  obtain ⟨st', hlead, htrack⟩ := h.2 rs st mem ht
  obtain ⟨st'', hlead', htrack'⟩ := h'.2 _ _ _ htrack
  refine ⟨st'', hlead.trans hlead', ?_⟩
  simpa [List.append_assoc] using htrack'

theorem Writes.same {b' : Bases} {l l' : List (Block BfdByte)} (h : Writes b rs b' l)
    (hl : Same l l') : Writes b rs b' l' := by
  refine ⟨h.1, fun rs₀ st mem ht => ?_⟩
  obtain ⟨st', hlead, htrack⟩ := h.2 rs₀ st mem ht
  refine ⟨st', hlead, htrack.same fun a c => ?_⟩
  rw [Memory.holds_append, Memory.holds_append, hl a c]

/-! The writer's bases. -/

/-- One of the bases is zero, the other at the start of one of the 64K that it can reach. -/
structure Bases.Ok (b : Bases) : Prop where
  aligned : b.segbase % 65536 = 0 ∧ b.extbase % 65536 = 0
  bound : b.segbase ≤ 0xf0000 ∧ b.extbase ≤ 0xffff0000
  one : b.segbase = 0 ∨ b.extbase = 0
  far : b.extbase = 0 ∨ 0x100000 ≤ b.extbase

/-- The sum of the bases. -/
def Bases.base (b : Bases) : Nat := b.extbase + b.segbase

theorem and_high (x w : Nat) : x &&& (2 ^ w - 1) <<< 16 = x / 65536 % 2 ^ w * 65536 := by
  rw [← Nat.and_two_pow_sub_one_eq_mod, ← Nat.shiftLeft_eq _ 16, ← Nat.shiftRight_eq_div_pow x 16]
  apply Nat.eq_of_testBit_eq
  intro i
  simp only [Nat.testBit_and, Nat.testBit_shiftLeft, Nat.testBit_shiftRight]
  by_cases h : 16 ≤ i <;> simp [h]

theorem writes_segment {x y : BfdByte} :
    Writes b [⟨0, 2, [x, y]⟩] { b with segbase := (x.toNat * 256 + y.toNat) * 16 } [] :=
  ⟨fun r hr => by
    rw [List.mem_singleton.mp hr]
    exact ⟨by simp, by simp, by simp⟩, fun rs st mem h => by simpa using h.segment⟩

theorem writes_linear {x y : BfdByte} :
    Writes b [⟨0, 4, [x, y]⟩] { b with extbase := (x.toNat * 256 + y.toNat) * 2 ^ 16 } [] :=
  ⟨fun r hr => by
    rw [List.mem_singleton.mp hr]
    exact ⟨by simp, by simp, by simp⟩, fun rs st mem h => by simpa using h.linear⟩

/-- The base of an address: the last multiple of 64K. -/
structure BaseOf (address base : Nat) : Prop where
  aligned : base % 65536 = 0
  le : base ≤ address
  near : address ≤ base + 0xffff

/-- The base of an address below `2 ^ 20`, and how its record gives it back. -/
theorem segment_base (h : address ≤ 0xfffff) :
    ∃ base, address &&& 0xf0000 = base ∧ BaseOf address base ∧
      ((BitVec.ofNat 8 (base >>> 12)).toNat * 256 + (BitVec.ofNat 8 (base >>> 4)).toNat) * 16 =
        base := by
  have hmask := and_high address 4
  simp only [Nat.reducePow, Nat.add_one_sub_one, Nat.reduceShiftLeft] at hmask
  refine ⟨_, hmask, ⟨by omega, by omega, by omega⟩, ?_⟩
  simp only [BitVec.toNat_ofNat, Nat.shiftRight_eq_div_pow]
  omega

/-- The same for an address below `2 ^ 32`. -/
theorem linear_base (h : address < 2 ^ 32) :
    ∃ base, address &&& 0xffff0000 = base ∧ BaseOf address base ∧
      ((BitVec.ofNat 8 (base >>> 24)).toNat * 256 + (BitVec.ofNat 8 (base >>> 16)).toNat) * 2 ^ 16 =
        base := by
  have hmask := and_high address 16
  simp only [Nat.reducePow, Nat.add_one_sub_one, Nat.reduceShiftLeft] at hmask
  refine ⟨_, hmask, ⟨by omega, by omega, by omega⟩, ?_⟩
  simp only [BitVec.toNat_ofNat, Nat.shiftRight_eq_div_pow]
  omega

/-- The records for a new base take the reader there. -/
theorem newBase_ok (hb : b.Ok) (hle : b.base ≤ address) (hlt : address < 2 ^ 32) :
    ∃ rs b', newBase b address = .ok (rs, b') ∧ Writes b rs b' [] ∧ b'.Ok ∧
      BaseOf address b'.base := by
  obtain ⟨⟨hseg, hext⟩, ⟨hsegle, hextle⟩, hone, hfar⟩ := hb
  rw [Bases.base] at hle
  by_cases hnew : b.segbase + b.extbase + 0xffff < address
  · by_cases hlow : address ≤ 0xfffff
    · -- an extended address record
      obtain ⟨base, hmask, ⟨haligned, hbase, hnear⟩, hback⟩ := segment_base hlow
      have heq : newBase b address =
          .ok ([⟨0, 2, [.ofNat 8 (base >>> 12), .ofNat 8 (base >>> 4)]⟩], ⟨base, b.extbase⟩) := by
        rw [newBase, if_pos hnew, if_pos hlow, hmask]
      have hwrites := writes_segment (b := b) (x := .ofNat 8 (base >>> 12))
        (y := .ofNat 8 (base >>> 4))
      rw [hback] at hwrites
      have hzero : b.extbase = 0 := by omega
      exact ⟨_, _, heq, hwrites, ⟨⟨haligned, hext⟩, ⟨show base ≤ _ by omega, hextle⟩, .inr hzero,
        .inl hzero⟩, by rw [Bases.base, hzero, Nat.zero_add]; exact ⟨haligned, hbase, hnear⟩⟩
    · -- an extended linear address record
      obtain ⟨base, hmask, ⟨haligned, hbase, hnear⟩, hback⟩ := linear_base hlt
      have heq : newBase b address =
          .ok ((if b.segbase ≠ 0 then [⟨0, 2, [0#8, 0#8]⟩] else []) ++
            [⟨0, 4, [.ofNat 8 (base >>> 24), .ofNat 8 (base >>> 16)]⟩], ⟨0, base⟩) := by
        rw [newBase, if_pos hnew, if_neg hlow, hmask]
        dsimp only
        rw [if_neg (by omega)]
      have hclear : Writes b (if b.segbase ≠ 0 then [⟨0, 2, [0#8, 0#8]⟩] else [])
          ⟨0, b.extbase⟩ [] := by
        by_cases hz : b.segbase = 0
        · rw [if_neg (not_not.mpr hz), ← hz]
          exact .nil b
        · rw [if_pos hz]
          exact writes_segment
      have hwrites := writes_linear (b := ⟨0, b.extbase⟩) (x := .ofNat 8 (base >>> 24))
        (y := .ofNat 8 (base >>> 16))
      rw [hback] at hwrites
      exact ⟨_, _, heq, hclear.append hwrites, ⟨⟨rfl, haligned⟩, ⟨Nat.zero_le _,
        show base ≤ _ by omega⟩, .inl rfl, .inr (show _ ≤ base by omega)⟩,
        ⟨haligned, hbase, hnear⟩⟩
  · rw [newBase, if_neg hnew]
    refine ⟨[], b, rfl, .nil b, ⟨⟨hseg, hext⟩, ⟨hsegle, hextle⟩, hone, hfar⟩, ?_, hle, ?_⟩
    all_goals rw [Bases.base]
    all_goals omega

theorem newBase_error (hb : b.Ok) (h : 2 ^ 32 ≤ address) :
    newBase b address = .error (.outOfRange address) := by
  obtain ⟨-, ⟨hsegle, hextle⟩, hone, -⟩ := hb
  have hmask : address &&& 0xffff0000 ≤ 0xffff0000 := Nat.and_le_right
  rw [newBase, if_pos (by omega), if_neg (by omega), if_pos (by omega)]

/-! The loops of the writer. -/

/-- The next record has some bytes and does not go past the 64K of its base. -/
theorem nowBytes_bounds (recAddr : Nat) {count : Nat} (hrec : recAddr ≤ 0xffff) (hcount : 0 < count) :
    0 < nowBytes recAddr count ∧ nowBytes recAddr count ≤ count ∧
      nowBytes recAddr count ≤ 16 ∧ recAddr + nowBytes recAddr count ≤ 0x10000 := by
  simp only [nowBytes]
  split <;> split <;> omega

/-- A data record of the writer. -/
theorem writes_data (haddr : address < 65536) (hne : data ≠ []) (hlen : data.length ≤ 16) :
    Writes b [⟨address, 0, data⟩] b [⟨b.base + address, data⟩] := by
  have hr : Record.IsData ⟨address, 0, data⟩ :=
    ⟨⟨show data.length < 256 by omega, haddr, show 0 < 256 by decide⟩, rfl, hne⟩
  refine ⟨fun r hr' => ?_, fun rs st mem h => h.snoc hr⟩
  rw [List.mem_singleton.mp hr']
  exact hr.valid

/-- One element of the list that ends below `2 ^ 32`. -/
theorem writeData_ok (hb : b.Ok) (hle : b.base ≤ address) (hlen : data.length ≤ n)
    (hlt : address + data.length ≤ 2 ^ 32) :
    ∃ rs b', writeData n b address data = .ok (rs, b') ∧ Writes b rs b' [⟨address, data⟩] ∧
      b'.Ok ∧ b'.base ≤ address + data.length := by
  induction n generalizing b address data with
  | zero =>
    obtain rfl := List.length_eq_zero_iff.mp (Nat.le_zero.mp hlen)
    exact ⟨[], b, rfl, (Writes.nil b).same (by intro a c; simp), hb, hle⟩
  | succ n ih =>
    cases hdata : data with
    | nil => exact ⟨[], b, rfl, (Writes.nil b).same (by intro a c; simp), hb, hle⟩
    | cons x xs =>
      rw [← hdata]
      have hpos : 0 < data.length := by rw [hdata]; simp
      obtain ⟨rs, b₁, hnew, hwrites, hb₁, -, hbase, hnear⟩ := newBase_ok hb hle (by omega)
      obtain ⟨hnow, hcount, h16, hcross⟩ :=
        nowBytes_bounds (address - b₁.base) (by omega) hpos
      generalize hk : nowBytes (address - b₁.base) data.length = now at *
      have htake : (data.take now).length = now := by simp; omega
      obtain ⟨rs', b₂, hrest, hwrites', hb₂, hbase₂⟩ :=
        @ih b₁ (address + now) (data.drop now) hb₁ (by omega)
          (by simp; omega) (by simp; omega)
      have hrec : Writes b₁ [⟨address - b₁.base, 0, data.take now⟩] b₁
          [⟨b₁.base + (address - b₁.base), data.take now⟩] :=
        writes_data (by omega) (by rw [← List.length_pos_iff]; omega) (by omega)
      rw [Nat.add_sub_cancel' hbase] at hrec
      refine ⟨rs ++ ⟨address - b₁.base, 0, data.take now⟩ :: rs', b₂, ?_, ?_, hb₂, ?_⟩
      · rw [hdata, writeData, hnew]
        simp only [bind, Except.bind, ← hdata]
        rw [← Bases.base, hk, hrest]
      · have hall := (hwrites.append hrec).append hwrites'
        rw [List.append_assoc, List.singleton_append] at hall
        refine hall.same fun a c => ?_
        have hsplit : (Block.mk address (data.take now ++ data.drop now)).Has a c ↔ _ :=
          Memory.has_append
        rw [List.take_append_drop, htake] at hsplit
        simp [hsplit]
      · rw [List.length_drop] at hbase₂
        omega

/-- One element of the list that goes past `2 ^ 32`. -/
theorem writeData_error (hb : b.Ok) (hle : b.base ≤ address) (hlen : data.length ≤ n)
    (hne : data ≠ []) (hlt : 2 ^ 32 < address + data.length) :
    ∃ a, writeData n b address data = .error (.outOfRange a) := by
  induction n generalizing b address data with
  | zero => exact absurd (List.length_eq_zero_iff.mp (Nat.le_zero.mp hlen)) hne
  | succ n ih =>
    obtain ⟨x, xs, hdata⟩ := List.exists_cons_of_ne_nil hne
    by_cases hhigh : 2 ^ 32 ≤ address
    · refine ⟨address, ?_⟩
      rw [hdata, writeData, newBase_error hb hhigh]
      rfl
    · obtain ⟨rs, b₁, hnew, -, hb₁, haligned, hbase, hnear⟩ := newBase_ok hb hle (by omega)
      obtain ⟨hnow, hcount, h16, hcross⟩ :=
        nowBytes_bounds (address - b₁.base) (by omega) (List.length_pos_iff.mpr hne)
      generalize hk : nowBytes (address - b₁.base) data.length = now at *
      have hdrop : (data.drop now).length = data.length - now := List.length_drop
      -- the record ends in the 64K of its base, so that some bytes are left
      obtain ⟨a, hrest⟩ := @ih b₁ (address + now) (data.drop now) hb₁
        (by omega) (by omega) (by rw [← List.length_pos_iff]; omega) (by omega)
      refine ⟨a, ?_⟩
      rw [hdata, writeData, hnew]
      simp only [bind, Except.bind, ← hdata]
      rw [← Bases.base, hk, hrest]

theorem writeList_ok {l : List (Block BfdByte)} (hb : b.Ok) (hbase : ∀ blk ∈ l, b.base ≤ blk.start)
    (hl : l.Pairwise fun x y => x.stop ≤ y.start) (hfits : ∀ blk ∈ l, blk.stop ≤ 2 ^ 32) :
    ∃ rs b', writeList b l = .ok rs ∧ Writes b rs b' l := by
  induction l generalizing b with
  | nil => exact ⟨[], b, rfl, .nil b⟩
  | cons blk l ih =>
    obtain ⟨hblk, hl⟩ := List.pairwise_cons.mp hl
    obtain ⟨rs, b₁, heq, hwrites, hb₁, hbase₁⟩ :=
      writeData_ok hb (hbase blk (by simp)) le_rfl (hfits blk (by simp))
    obtain ⟨rs', b₂, heq', hwrites'⟩ := ih hb₁ (fun x hx => hbase₁.trans (hblk x hx)) hl
      fun x hx => hfits x (by simp [hx])
    refine ⟨rs ++ rs', b₂, ?_, hwrites.append hwrites'⟩
    simp only [writeList, heq, heq', bind, Except.bind]

theorem writeList_error {l : List (Block BfdByte)} (hb : b.Ok)
    (hbase : ∀ blk ∈ l, b.base ≤ blk.start) (hl : l.Pairwise fun x y => x.stop ≤ y.start)
    (hne : ∀ blk ∈ l, blk.cells ≠ []) (hhigh : ∃ blk ∈ l, 2 ^ 32 < blk.stop) :
    ∃ a, writeList b l = .error (.outOfRange a) := by
  induction l generalizing b with
  | nil => simp at hhigh
  | cons blk l ih =>
    obtain ⟨hblk, hl⟩ := List.pairwise_cons.mp hl
    by_cases hfits : blk.stop ≤ 2 ^ 32
    · obtain ⟨rs, b₁, heq, -, hb₁, hbase₁⟩ :=
        writeData_ok hb (hbase blk (by simp)) le_rfl hfits
      obtain ⟨x, hx, hhigh⟩ := hhigh
      have hx' : x ∈ l := by
        rcases List.mem_cons.mp hx with rfl | hx
        · omega
        · exact hx
      obtain ⟨a, heq'⟩ := ih hb₁ (fun y hy => hbase₁.trans (hblk y hy)) hl
        (fun y hy => hne y (by simp [hy])) ⟨x, hx', hhigh⟩
      refine ⟨a, ?_⟩
      simp only [writeList, heq, heq', bind, Except.bind]
    · obtain ⟨a, heq⟩ := writeData_error hb (hbase blk (by simp)) le_rfl (hne blk (by simp))
        (Nat.lt_of_not_le hfits)
      refine ⟨a, ?_⟩
      simp only [writeList, heq, bind, Except.bind]

/-! The start address and the end of the file. -/

/-- The reader adds up the start address below `2 ^ 32`. -/
theorem scanRecords_start (start : Nat) (h : st.start = 0) :
    ∃ st', scanRecords n st (startRecord start ++ [⟨0, 1, []⟩]) = some st' ∧
      st'.start = start % 2 ^ 32 ∧ st'.secs = st.secs := by
  rw [startRecord]
  by_cases h0 : start = 0
  · rw [if_pos h0]
    refine ⟨_, rfl, ?_, rfl⟩
    simp [h, h0]
  · rw [if_neg h0]
    by_cases hlow : start ≤ 0xfffff
    · obtain ⟨base, hmask, hbase, -⟩ := segment_base hlow
      obtain ⟨haligned, hle, hnear⟩ := hbase
      rw [if_pos hlow, hmask]
      refine ⟨_, rfl, ?_, rfl⟩
      simp only [h, hex4, List.getD_cons_zero, List.getD_cons_succ, BitVec.toNat_ofNat,
        Nat.shiftRight_eq_div_pow]
      split <;> omega
    · rw [if_neg hlow]
      refine ⟨_, rfl, ?_, rfl⟩
      simp only [hex4, List.getD_cons_zero, List.getD_cons_succ, BitVec.toNat_ofNat,
        Nat.shiftRight_eq_div_pow]
      split <;> omega

theorem startRecord_valid (start : Nat) (h : r ∈ startRecord start ++ [⟨0, 1, []⟩]) :
    r.Valid := by
  simp only [startRecord] at h
  split at h
  · simp only [List.nil_append, List.mem_singleton] at h
    subst h
    exact ⟨by simp, by simp, by simp⟩
  · split at h
    all_goals
      simp only [List.cons_append, List.nil_append, List.mem_cons, List.not_mem_nil, or_false] at h
      rcases h with rfl | rfl <;> exact ⟨by simp, by simp, by simp⟩

/-! The whole file. -/

/-- The sections that were built are read with the memory they stand for. -/
theorem Built.readSections (h : Built rs st mem) (hsecs : st'.secs = st.secs) (rs' : List Record) :
    ∃ blocks, readSections (fileText (rs ++ rs')) st'.secs = some blocks ∧ Same blocks mem := by
  obtain ⟨found, hfst, hof, -, hmem⟩ := h
  refine ⟨_, ?_, hmem⟩
  rw [hsecs, hfst]
  clear hfst hmem
  induction found with
  | nil => rfl
  | cons g found ih =>
    obtain ⟨post, hsec⟩ := hof g (by simp)
    have hread := readSection_secOf (hsec.append rs')
    have hrest := ih fun x hx => hof x (by simp [hx])
    simp only [Ihex.readSections] at hrest ⊢
    simp [hread, hrest]

variable {calls : List SetCall} {start : Nat}

/-- Every address is one of the format, which has 32 bits for it. -/
structure Expressible (calls : List SetCall) (start : Nat) : Prop where
  data : ∀ blk ∈ image calls, blk.stop ≤ 2 ^ 32
  start : start < 2 ^ 32

/-- The file that is written is read as the same memory, with the start address `entry`. -/
def ReadsAs (calls : List SetCall) (start entry : Nat) : Prop :=
  ∃ file st blocks, writeObjectContents calls start = .ok file ∧ scan file = some st ∧
    st.start = entry ∧ readSections file st.secs = some blocks ∧ Same blocks (image calls)

/-- Writing stops with an error about some address. -/
def Refused (calls : List SetCall) (start : Nat) : Prop :=
  ∃ a, writeObjectContents calls start = .error (.outOfRange a)

/-- What the bases are before any record. -/
theorem ok_init : Bases.Ok ⟨0, 0⟩ :=
  ⟨⟨rfl, rfl⟩, ⟨Nat.zero_le _, Nat.zero_le _⟩, .inl rfl, .inl rfl⟩

theorem tracks_init : Tracks [] ⟨0, 0⟩ ⟨⟨0, 0⟩, 0, [], false⟩ [] :=
  ⟨rfl, rfl, [], rfl, by simp, by simp, fun _ _ => Iff.rfl⟩

/-- The data comes back, and of the start address what fits in 32 bits. -/
theorem readsAs_of_data (start : Nat) (h : (image calls).Pairwise Memory.Apart)
    (hdata : ∀ blk ∈ image calls, blk.stop ≤ 2 ^ 32) : ReadsAs calls start (start % 2 ^ 32) := by
  obtain ⟨rs, b', heq, hvalid, hwrites⟩ := writeList_ok ok_init (fun _ _ => Nat.zero_le _)
    (dataList_pairwise h) fun blk hblk => hdata blk (mem_dataList.mp hblk)
  obtain ⟨st, hlead, htrack⟩ := hwrites [] _ [] tracks_init
  obtain ⟨st', hscan, hstart, hsecs⟩ := scanRecords_start
    (n := (fileText rs).length) start htrack.start
  obtain ⟨blocks, hread, hsame⟩ := htrack.built.readSections hsecs
    (startRecord start ++ [⟨0, 1, []⟩])
  refine ⟨fileText (rs ++ (startRecord start ++ [⟨0, 1, []⟩])), st', blocks, ?_, ?_, hstart, hread,
    fun a c => (hsame a c).trans (Same.of_perm (dataList_perm calls) a c)⟩
  · rw [writeObjectContents, writeRecords, heq]
    simp [bind, Except.bind, Except.map]
  · rw [scan_text]
    · exact (hlead _).trans hscan
    · intro r hr
      rcases List.mem_append.mp hr with hr | hr
      · exact hvalid r hr
      · exact startRecord_valid start hr

theorem refused_of_data (h : (image calls).Pairwise Memory.Apart)
    (hdata : ∃ blk ∈ image calls, 2 ^ 32 < blk.stop) : Refused calls start := by
  obtain ⟨blk, hblk, hhigh⟩ := hdata
  obtain ⟨a, heq⟩ := writeList_error ok_init (fun _ _ => Nat.zero_le _) (dataList_pairwise h)
    (fun x hx => mem_image (mem_dataList.mp hx)) ⟨blk, mem_dataList.mpr hblk, hhigh⟩
  refine ⟨a, ?_⟩
  rw [writeObjectContents, writeRecords, heq]
  rfl

/-- An Intel Hex file reads back as it was written and addresses that it cannot express are refused,
unless only the start address is one of them: it is cut to 32 bits. -/
theorem ihex_reads_back_iff (h : (image calls).Pairwise Memory.Apart) :
    ((Expressible calls start → ReadsAs calls start start) ∧
      (¬ Expressible calls start → Refused calls start)) ↔
    (start < 2 ^ 32 ∨ ∃ blk ∈ image calls, 2 ^ 32 < blk.stop) := by
  by_cases hhigh : ∃ blk ∈ image calls, 2 ^ 32 < blk.stop
  · obtain ⟨blk, hblk, hlt⟩ := hhigh
    refine iff_of_true ⟨fun hx => ?_, fun _ => refused_of_data h ⟨blk, hblk, hlt⟩⟩
      (.inr ⟨blk, hblk, hlt⟩)
    exact absurd (hx.data blk hblk) (by omega)
  · have hdata : ∀ blk ∈ image calls, blk.stop ≤ 2 ^ 32 := by
      intro blk hblk
      by_contra hlt
      exact hhigh ⟨blk, hblk, by omega⟩
    have hread := readsAs_of_data start h hdata
    constructor
    · rintro ⟨-, hrefused⟩
      by_contra hnot
      have hstart : ¬ start < 2 ^ 32 := fun hs => hnot (.inl hs)
      obtain ⟨a, herror⟩ := hrefused fun hx => hstart hx.start
      obtain ⟨file, st, blocks, hok, -⟩ := hread
      rw [hok] at herror
      cases herror
    · intro hcond
      have hstart : start < 2 ^ 32 := hcond.resolve_right hhigh
      rw [Nat.mod_eq_of_lt hstart] at hread
      exact ⟨fun _ => hread, fun hx => absurd ⟨hdata, hstart⟩ hx⟩

/-- Two pieces on both sides of a 64K boundary, set in the order opposite to their addresses. -/
def twoPieces : List SetCall :=
  [⟨0x20000, true, true, 4, [3#8, 4#8]⟩, ⟨0x1fffe, true, true, 0, [1#8, 2#8, 5#8]⟩]

theorem ihex_reads_back_twoPieces : ReadsAs twoPieces 0x1fffe 0x1fffe :=
  ((ihex_reads_back_iff (by
    rw [twoPieces, image]
    simp [SetCall.loadable, SetCall.block, Memory.Apart, Block.stop])).mpr (.inl (by decide))).1
    ⟨by
      rw [twoPieces, image]
      simp [SetCall.loadable, SetCall.block, Block.stop], by decide⟩

/-- A start address of `2 ^ 32` is written, and read as another one. -/
theorem large_start_not_refused :
    (image []).Pairwise Memory.Apart ∧ ¬ Expressible [] (2 ^ 32) ∧ ¬ Refused [] (2 ^ 32) ∧
      (scan <$> (writeObjectContents [] (2 ^ 32)).toOption).join.map (·.start) = some 0 := by
  refine ⟨by simp [image], fun h => absurd h.start (by decide), ?_, by decide⟩
  rintro ⟨a, h⟩
  cases h

end FusionBinutils.Bfd.Ihex
