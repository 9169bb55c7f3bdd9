import FusionBinutils.Gas.LineOpcodes

/-! The line and address skips of the line-number program, as written and as read. -/
namespace FusionBinutils.Gas.LineProgram
open Bfd.LineMachine
variable {u : CompUnit} {m m' : Machine} {rest bs : List BfdByte} {ad x : Nat}
  {lineDelta : BitVec 32} {tgt : Target}

/-! Line and address skips. -/

/-- The line that the special opcode carries, next to what `DW_LNS_advance_line` adds. -/
theorem opcodeLine_eq (lineDelta : BitVec 32) :
    ∃ x, x < 14 ∧ opcodeLine lineDelta = 13 + x ∧
      (needCopy lineDelta ∨ lineDelta = 0#32 → x = 5) ∧
      (needCopy lineDelta = false → lineDelta.toInt = (x : Int) - 5) := by
  by_cases hc : needCopy lineDelta
  · exact ⟨5, by decide, by simp [opcodeLine, hc, lineBase, lineOpcodeBase], fun _ => rfl,
      fun h => by simp [hc] at h⟩
  · have hlo := BitVec.le_toInt lineDelta
    have hhi := BitVec.toInt_lt (x := lineDelta)
    have hx : biasedLine lineDelta < 14 ∧ lineDelta.toInt = (biasedLine lineDelta : Int) - 5 := by
      have hlt : ¬ 14 ≤ biasedLine lineDelta := by
        rwa [needCopy, decide_eq_true_eq] at hc
      simp only [biasedLine, lineBase] at hlt ⊢
      omega
    refine ⟨biasedLine lineDelta, hx.1, by simp [opcodeLine, hc, lineOpcodeBase, Nat.add_comm],
      ?_, fun _ => hx.2⟩
    rintro (h | rfl)
    · exact absurd h hc
    · decide

/-- What the choice between the address skips comes to. -/
theorem addrSkip_cases (ad : Nat) (hx : x < 14) :
    (addrSkip (13 + x) ad = .special (13 + x + ad * 14) ∧ 13 + x + ad * 14 ≤ 255) ∨
      (∃ a, ad = a + 17 ∧ addrSkip (13 + x) ad = .constAddPc (13 + x + a * 14) ∧
        13 + x + a * 14 ≤ 255) ∨
      (addrSkip (13 + x) ad = .advancePc ∧ 17 ≤ ad) := by
  have hmax : maxSpecialAddrDelta = 17 := rfl
  have hop (a : Nat) (ha : a < 273) : specialOpcode (13 + x) a = 13 + x + a * 14 := by
    simp only [specialOpcode, lineRange]
    omega
  by_cases hnear : ad < 256 + maxSpecialAddrDelta
  · simp only [addrSkip, if_pos hnear, hop ad (by omega)]
    by_cases hs : 13 + x + ad * 14 ≤ 255
    · exact .inl ⟨if_pos hs, hs⟩
    · obtain ⟨a, rfl⟩ : ∃ a, ad = a + 17 := ⟨ad - 17, by omega⟩
      have ha : ((a + 17 : Nat) : Int) - maxSpecialAddrDelta = a := by rw [hmax]; omega
      rw [if_neg hs, ha, hop a (by omega)]
      by_cases hk : 13 + x + a * 14 ≤ 255
      · exact .inr (.inl ⟨a, rfl, if_pos hk, hk⟩)
      · exact .inr (.inr ⟨if_neg hk, by omega⟩)
  · exact .inr (.inr ⟨if_neg hnear, by omega⟩)

/-- The sizer and the emitter agree. -/
theorem length_incLineAddr (lineDelta : BitVec 32) (ad : Nat) :
    (incLineAddr lineDelta ad).length = sizeIncLineAddr lineDelta ad := by
  have huleb (v : Nat) : (outputUleb128 v).length = sizeofUleb128 v := Leb128.length_unsigned v
  have hsleb (v : Int) : (outputSleb128 v).length = sizeofSleb128 v := Leb128.length_signed v
  obtain ⟨x, hx, hline, h5, -⟩ := opcodeLine_eq lineDelta
  simp only [incLineAddr, sizeIncLineAddr]
  by_cases hend : lineDelta = intMax
  · rw [if_pos hend, if_pos hend, List.length_append]
    split <;> simp [huleb, Nat.add_comm]
  · rw [if_neg hend, if_neg hend, List.length_append]
    have hadv : (if needCopy lineDelta then 3#8 :: outputSleb128 lineDelta.toInt else []).length =
        if needCopy lineDelta then 1 + sizeofSleb128 lineDelta.toInt else 0 := by
      split <;> simp [hsleb, Nat.add_comm]
    rw [hadv, emitAddr, hline]
    by_cases hcopy : (needCopy lineDelta ∨ lineDelta = 0#32) ∧ scaleAddrDelta ad = 0
    · rw [if_pos hcopy, h5 hcopy.1, hcopy.2]
      rfl
    · rw [if_neg hcopy]
      obtain ⟨hs, hle⟩ | ⟨a, ha, hs, hle⟩ | ⟨hs, hle⟩ :=
        addrSkip_cases (scaleAddrDelta ad) hx
      · rw [hs]
        rfl
      · rw [hs]
        rfl
      · rw [hs]
        simp only [List.length_cons, List.length_append, huleb, List.length_nil]
        omega

/-! What the state machine does with a skip. -/

/-- The machine behind a skip of the line and of the address, with its row. -/
def skipped (m : Machine) (rest : List BfdByte) (lineDelta : BitVec 32) (address : Nat) : Machine :=
  if lineDelta = intMax then Machine.addLineInfo { m with linePtr := rest, address := address } true
  else
    Machine.addLineInfo { m with
      linePtr := rest, address := address, line := (m.line + lineDelta.toNat) % 2 ^ 32 } false

/-- The address skip, behind the line that goes into `DW_LNS_advance_line`. -/
theorem decode_emitAddr (he : m.endSequence = false) (hline : m.line < 2 ^ 32)
    (had : ad < 2 ^ 64) (hx : x < 14) (hop : opcodeLine lineDelta = 13 + x)
    (h5 : needCopy lineDelta → x = 5) (hp : m.linePtr = emitAddr lineDelta ad ++ rest) :
    decodeLines u gasHead m = decodeLines u gasHead (Machine.addLineInfo { m with
      linePtr := rest, address := (m.address + ad) % 2 ^ 64
      line := (((m.line : Int) - 5 + x) % 2 ^ 32).toNat } false) := by
  have hbyte (n : Nat) (hn : n ≤ 255) : (BitVec.ofNat 8 n).toNat = n := by simp; omega
  rw [emitAddr, hop] at hp
  obtain ⟨hs, hle⟩ | ⟨a, rfl, hs, hle⟩ | ⟨hs, -⟩ := addrSkip_cases ad hx
  · rw [hs] at hp
    exact decode_special he hp hx (hbyte _ hle)
  · rw [hs] at hp
    have haddr : ((m.address + maxSpecialAddrDelta) % 2 ^ 64 + a) % 2 ^ 64 =
        (m.address + (a + 17)) % 2 ^ 64 := by
      have hmax : maxSpecialAddrDelta = 17 := rfl
      omega
    refine (decode_const_add_pc he hp).trans ?_
    rw [← haddr]
    exact decode_special he rfl hx (hbyte _ hle)
  · rw [hs] at hp
    simp only [List.cons_append, List.append_assoc, List.nil_append] at hp
    refine (decode_advance_pc he had hp).trans ?_
    by_cases hc : needCopy lineDelta
    · have hsame : (((m.line : Int) - 5 + x) % 2 ^ 32).toNat = m.line := by
        rw [h5 hc]
        omega
      rw [if_pos hc, hsame]
      exact decode_copy he rfl
    · rw [if_neg hc]
      have hb := hbyte (13 + x) (by omega)
      refine (decode_special (a := 0) ?_ rfl hx (by omega)).trans ?_
      · exact he
      · simp only [Nat.add_zero, Nat.mod_mod]

/-- The row, behind the line that goes into `DW_LNS_advance_line`. -/
theorem decode_row (he : m.endSequence = false) (hline : m.line < 2 ^ 32)
    (haddr : m.address < 2 ^ 64) (had : ad < 2 ^ 64) (hx : x < 14) (hop : opcodeLine lineDelta = 13 + x)
    (h5 : needCopy lineDelta ∨ lineDelta = 0#32 → x = 5)
    (hp : m.linePtr = (if (needCopy lineDelta ∨ lineDelta = 0#32) ∧ ad = 0 then [1#8]
      else emitAddr lineDelta ad) ++ rest) :
    decodeLines u gasHead m = decodeLines u gasHead (Machine.addLineInfo { m with
      linePtr := rest, address := (m.address + ad) % 2 ^ 64
      line := (((m.line : Int) - 5 + x) % 2 ^ 32).toNat } false) := by
  by_cases hcopy : (needCopy lineDelta ∨ lineDelta = 0#32) ∧ ad = 0
  · have hsame : (((m.line : Int) - 5 + x) % 2 ^ 32).toNat = m.line := by
      rw [h5 hcopy.1]
      omega
    rw [if_pos hcopy] at hp
    rw [hsame, hcopy.2, Nat.add_zero, Nat.mod_eq_of_lt haddr]
    exact decode_copy he hp
  · rw [if_neg hcopy] at hp
    exact decode_emitAddr he hline had hx hop (fun hc => h5 (.inl hc)) hp

/-- `emit_inc_line_addr` and the state machine. -/
theorem decode_incLineAddr (he : m.endSequence = false) (hline : m.line < 2 ^ 32)
    (haddr : m.address < 2 ^ 64) (had : ad < 2 ^ 64)
    (hp : m.linePtr = incLineAddr lineDelta ad ++ rest) :
    decodeLines u gasHead m =
      decodeLines u gasHead (skipped m rest lineDelta ((m.address + ad) % 2 ^ 64)) := by
  have hscale : scaleAddrDelta ad = ad := rfl
  simp only [incLineAddr, hscale] at hp
  by_cases hend : lineDelta = intMax
  · rw [skipped, if_pos hend]
    rw [if_pos hend] at hp
    by_cases hmax : ad = maxSpecialAddrDelta
    · rw [if_pos hmax] at hp
      rw [hmax]
      exact (decode_const_add_pc he hp).trans (decode_end_sequence he rfl)
    · rw [if_neg hmax] at hp
      simp only [List.cons_append, List.append_assoc, List.nil_append] at hp
      exact (decode_advance_pc he had hp).trans (decode_end_sequence he rfl)
  · rw [skipped, if_neg hend]
    rw [if_neg hend] at hp
    obtain ⟨x, hx, hop, h5, hnear⟩ := opcodeLine_eq lineDelta
    have hint := BitVec.toInt_eq_toNat_cond lineDelta
    by_cases hc : needCopy lineDelta
    · obtain ⟨n, hn, hlt⟩ : ∃ n, (m.line + lineDelta.toNat) % 2 ^ 32 = n ∧ n < 2 ^ 32 :=
        ⟨_, rfl, Nat.mod_lt _ (by decide)⟩
      have hlast : (((n : Int) - 5 + x) % 2 ^ 32).toNat = n := by
        rw [h5 (.inl hc)]
        omega
      rw [if_pos hc, List.append_assoc] at hp
      refine (decode_advance_line he hp).trans ?_
      rw [hn]
      refine (decode_row ?_ ?_ ?_ had hx hop h5 rfl).trans ?_
      · exact he
      · exact hlt
      · exact haddr
      · rw [hlast]
    · have hlast : (((m.line : Int) - 5 + x) % 2 ^ 32).toNat =
          (m.line + lineDelta.toNat) % 2 ^ 32 := by
        have hdelta := hnear (by simpa using hc)
        split at hint <;> omega
      rw [if_neg hc, List.nil_append] at hp
      rw [← hlast]
      exact decode_row he hline haddr had hx hop h5 hp

/-- What a reader knows of the target. -/
def Target.unit (tgt : Target) : CompUnit := ⟨tgt.addrSize, tgt.bigEndian⟩

/-- The bytes take the state machine over a line skip and from one address to another. -/
def Skips (tgt : Target) (bs : List BfdByte) (lineDelta : BitVec 32) (old new : Nat) : Prop :=
  ∀ (m : Machine) (rest : List BfdByte), m.endSequence = false → m.line < 2 ^ 32 →
    m.address = old → m.opIndex = 0 → m.linePtr = bs ++ rest →
    decodeLines tgt.unit gasHead m = decodeLines tgt.unit gasHead (skipped m rest lineDelta new)

variable {fragAddress : Nat → Nat} {last lab : Label} {old new : Nat}

theorem skips_incLineAddr (h : old + ad < 2 ^ 64) :
    Skips tgt (incLineAddr lineDelta ad) lineDelta old (old + ad) := by
  intro m rest he hline haddr _ hp
  have hm := decode_incLineAddr (u := tgt.unit) he hline (by omega) (by omega) hp
  rwa [haddr, Nat.mod_eq_of_lt h] at hm

/-- The bytes of `emit_fixed_inc_line_addr`. -/
def fixedBytes (tgt : Target) (lineDelta : BitVec 32) (ad new : Nat) : List BfdByte :=
  (if lineDelta = intMax then [] else 3#8 :: outputSleb128 lineDelta.toInt) ++
    ((if addrDeltaLimit < ad then
      0#8 :: (outputUleb128 (tgt.addrSize.bytes + 1) ++
        2#8 :: Endian.put tgt.bigEndian tgt.addrSize.bytes new)
      else 9#8 :: Endian.put tgt.bigEndian 2 ad) ++
    if lineDelta = intMax then [0#8, 1#8, 1#8] else [1#8])

/-- The address part of the fixed form. -/
theorem decode_fixed_addr (he : m.endSequence = false) (haddr : m.address = old)
    (hop : m.opIndex = 0) (h : old + ad < 2 ^ 64)
    (hfit : old + ad < 2 ^ (8 * tgt.addrSize.bytes))
    (hp : m.linePtr = (if addrDeltaLimit < ad then
      0#8 :: (outputUleb128 (tgt.addrSize.bytes + 1) ++
        2#8 :: Endian.put tgt.bigEndian tgt.addrSize.bytes (old + ad))
      else 9#8 :: Endian.put tgt.bigEndian 2 ad) ++ rest) :
    decodeLines tgt.unit gasHead m = decodeLines tgt.unit gasHead { m with
      linePtr := rest, address := old + ad } := by
  by_cases hfar : addrDeltaLimit < ad
  · simp only [if_pos hfar, List.cons_append, List.append_assoc] at hp
    refine (decode_set_address he (u := tgt.unit) hfit hp).trans ?_
    rw [← hop]
  · have hlt : ad < 2 ^ 16 := by simp only [addrDeltaLimit] at hfar; omega
    simp only [if_neg hfar, List.cons_append] at hp
    refine (decode_fixed_advance_pc he (u := tgt.unit) hlt hp).trans ?_
    rw [haddr, Nat.mod_eq_of_lt h, ← hop]

theorem skips_fixedBytes (h : old + ad < 2 ^ 64) (hfit : old + ad < 2 ^ (8 * tgt.addrSize.bytes)) :
    Skips tgt (fixedBytes tgt lineDelta ad (old + ad)) lineDelta old (old + ad) := by
  intro m rest he hline haddr hop hp
  by_cases hend : lineDelta = intMax
  · simp only [fixedBytes, if_pos hend, List.nil_append, List.append_assoc] at hp
    rw [skipped, if_pos hend]
    exact (decode_fixed_addr he haddr hop h hfit hp).trans (decode_end_sequence he rfl)
  · simp only [fixedBytes, if_neg hend, List.cons_append, List.append_assoc] at hp
    rw [skipped, if_neg hend]
    refine (decode_advance_line he hp).trans ?_
    refine (decode_fixed_addr ?_ ?_ ?_ h hfit rfl).trans ?_
    · exact he
    · exact haddr
    · exact hop
    · exact decode_copy he rfl

/-! What becomes of the pieces. -/

theorem contents_append (ps qs : List Piece) :
    contents tgt fragAddress (ps ++ qs) = (contents tgt fragAddress ps).bind fun a =>
      (contents tgt fragAddress qs).map (a ++ ·) := by
  simp only [contents, List.mapM_append]
  cases ps.mapM (convertFrag tgt fragAddress) with
  | none => rfl
  | some a =>
    cases qs.mapM (convertFrag tgt fragAddress) with
    | none => rfl
    | some b => simp

theorem contents_singleton (piece : Piece) :
    contents tgt fragAddress [piece] = (convertFrag tgt fragAddress piece).map
      fun ps => ps.flatMap (Piece.contents tgt fragAddress) := by
  cases h : convertFrag tgt fragAddress piece <;> simp [contents, h]

theorem contents_bytes (bs : List BfdByte) : contents tgt fragAddress [.bytes bs] = some bs := by
  rw [contents_singleton]
  simp [convertFrag, Piece.contents]

theorem estimateSize_le (tgt : Target) (lineDelta : BitVec 32) (had : ad < 2 ^ 64) :
    estimateSize tgt lineDelta ad ≤ estimateSize tgt lineDelta (2 ^ 64 - lineMinInsnLength) := by
  have hpos := Leb128.sizeUnsigned_pos (tgt.addrSize.bytes + 1)
  have hmono : sizeofUleb128 ad ≤ sizeofUleb128 (2 ^ 64 - lineMinInsnLength) :=
    Leb128.sizeUnsigned_mono (by rw [lineMinInsnLength]; omega)
  have hbig : sizeofUleb128 (2 ^ 64 - lineMinInsnLength) ≠ 0 := (Leb128.sizeUnsigned_pos _).ne'
  simp only [estimateSize]
  split
  · simp only [sizeFixedIncLineAddr, sizeofUleb128]
    rw [if_pos (show addrDeltaLimit < 2 ^ 64 - lineMinInsnLength by decide)]
    split <;> split <;> omega
  · have hscale (v : Nat) : scaleAddrDelta v = v := rfl
    have hskip (tmp : Nat) : addrSkip tmp (2 ^ 64 - lineMinInsnLength) = .advancePc := by
      rw [addrSkip, if_neg (by decide)]
    simp only [sizeIncLineAddr, hscale, hskip]
    split
    · rw [if_neg (show ¬ 2 ^ 64 - lineMinInsnLength = maxSpecialAddrDelta by decide)]
      split <;> omega
    · split <;> omega

theorem addrDiff_eq (h : last.address fragAddress ≤ lab.address fragAddress)
    (hlt : lab.address fragAddress < 2 ^ 64) :
    addrDiff fragAddress lab last = lab.address fragAddress - last.address fragAddress := by
  simp only [addrDiff]
  omega

theorem outIncLineAddr_eq (lineDelta : BitVec 32) (ad : Nat) :
    outIncLineAddr lineDelta ad =
      if ad < 2 ^ 63 then some [.bytes (incLineAddr lineDelta ad)] else none := by
  simp only [outIncLineAddr, emitIncLineAddr, length_incLineAddr, and_true]

theorem emitFixed_eq (lineDelta : BitVec 32) (ad : Nat) (lab last : Label) :
    emitFixedIncLineAddr tgt lineDelta ad lab last (sizeFixedIncLineAddr tgt lineDelta ad) =
      if ad < 2 ^ 63 then some (fixedIncLineAddr tgt lineDelta ad lab last) else none := by
  have huleb (v : Nat) : (outputUleb128 v).length = sizeofUleb128 v := Leb128.length_unsigned v
  have hsleb (v : Int) : (outputSleb128 v).length = sizeofSleb128 v := Leb128.length_signed v
  have hlen : ((fixedIncLineAddr tgt lineDelta ad lab last).map Piece.length).sum =
      sizeFixedIncLineAddr tgt lineDelta ad := by
    simp only [fixedIncLineAddr, sizeFixedIncLineAddr]
    split <;> split <;> simp [Piece.length, huleb, hsleb] <;> omega
  simp only [emitFixedIncLineAddr, hlen, and_true]

theorem fixedIncLineAddr_contents (tgt : Target) (lineDelta : BitVec 32)
    (h : last.address fragAddress ≤ lab.address fragAddress)
    (hlt : lab.address fragAddress < 2 ^ 64) :
    (fixedIncLineAddr tgt lineDelta (lab.address fragAddress - last.address fragAddress) lab
      last).flatMap (Piece.contents tgt fragAddress) =
      fixedBytes tgt lineDelta (lab.address fragAddress - last.address fragAddress)
        (lab.address fragAddress) := by
  simp only [fixedIncLineAddr, fixedBytes]
  split <;> split <;> simp [Piece.contents, addrDiff_eq h hlt]

/-- The bytes of a skip between two labels, and when they are written. -/
theorem outSkip_contents (tgt : Target) (lineDelta : BitVec 32)
    (h : last.address fragAddress ≤ lab.address fragAddress)
    (hlt : lab.address fragAddress < 2 ^ 64)
    (hfit : lab.address fragAddress < 2 ^ (8 * tgt.addrSize.bytes)) :
    ∃ bs, Skips tgt bs lineDelta (last.address fragAddress) (lab.address fragAddress) ∧
      (outSkip tgt lineDelta last lab).bind (contents tgt fragAddress) =
        if lab.address fragAddress - last.address fragAddress < 2 ^ 63 then some bs else none := by
  obtain ⟨ad, had⟩ : ∃ ad, lab.address fragAddress = last.address fragAddress + ad :=
    ⟨_, (Nat.add_sub_cancel' h).symm⟩
  have hdiff : addrDiff fragAddress lab last = ad := by rw [addrDiff_eq h hlt]; omega
  have hsub : lab.address fragAddress - last.address fragAddress = ad := by omega
  have hsize : estimateSize tgt lineDelta ad ≤
      estimateSize tgt lineDelta (2 ^ 64 - lineMinInsnLength) :=
    estimateSize_le tgt lineDelta (by omega)
  rw [hsub]
  by_cases hfixed : tgt.useFixedAdvancePc
  · refine ⟨fixedBytes tgt lineDelta ad (lab.address fragAddress), ?_, ?_⟩
    · rw [had]
      exact skips_fixedBytes (by omega) (had ▸ hfit)
    · have hc := fixedIncLineAddr_contents tgt lineDelta h hlt
      rw [hsub] at hc
      have hest : estimateSize tgt lineDelta ad = sizeFixedIncLineAddr tgt lineDelta ad :=
        if_pos hfixed
      rw [outSkip, if_neg (by simp [hfixed]), Option.bind_some, contents_singleton,
        relaxIncLineAddr, convertFrag, hdiff, if_neg (by omega), if_pos hfixed, hest, emitFixed_eq]
      split
      · rw [Option.map_some, hc]
      · rfl
  · refine ⟨incLineAddr lineDelta ad, had ▸ skips_incLineAddr (by omega), ?_⟩
    rw [outSkip]
    by_cases hfrag : lab.frag = last.frag
    · have hofs : ((lab.value - last.value : Int) % 2 ^ 64).toNat = ad := by
        simp only [Label.address, hfrag] at had hlt
        omega
      rw [if_pos ⟨hfrag, by simp [hfixed]⟩, hofs, outIncLineAddr_eq]
      split
      · rw [Option.bind_some, contents_bytes]
      · rfl
    · have hest : estimateSize tgt lineDelta ad = sizeIncLineAddr lineDelta ad := if_neg hfixed
      rw [if_neg (fun hc => hfrag hc.1), Option.bind_some, contents_singleton, relaxIncLineAddr,
        convertFrag, hdiff, if_neg (by omega), if_neg hfixed, hest, ← outIncLineAddr,
        outIncLineAddr_eq]
      split
      · simp [Piece.contents]
      · rfl

/-- The bytes of an entry's row, and when they are written. -/
theorem outRow_contents (lineDelta : BitVec 32) (last : Option Label)
    (h : ∀ l ∈ last, l.address fragAddress ≤ lab.address fragAddress)
    (hlt : lab.address fragAddress < 2 ^ 64)
    (hfit : lab.address fragAddress < 2 ^ (8 * tgt.addrSize.bytes)) :
    ∃ bs, Skips tgt bs lineDelta ((last.map (·.address fragAddress)).getD 0)
        (lab.address fragAddress) ∧
      (outRow tgt lineDelta last lab).bind (contents tgt fragAddress) =
        if ∀ l ∈ last, lab.address fragAddress - l.address fragAddress < 2 ^ 63 then some bs
        else none := by
  cases last with
  | some last =>
    obtain ⟨bs, hskips, hbs⟩ := outSkip_contents tgt lineDelta (h last rfl) hlt hfit
    exact ⟨bs, hskips, by simpa [outRow] using hbs⟩
  | none =>
    refine ⟨0#8 :: (outputUleb128 (tgt.addrSize.bytes + 1) ++
      2#8 :: (Endian.put tgt.bigEndian tgt.addrSize.bytes (lab.address fragAddress) ++
        incLineAddr lineDelta 0)), ?_, ?_⟩
    · intro m rest he hline haddr hop hp
      simp only [List.cons_append, List.append_assoc] at hp
      refine (decode_set_address he (u := tgt.unit) hfit hp).trans ?_
      have hzero : lab.address fragAddress + 0 < 2 ^ 64 := hlt
      refine (skips_incLineAddr hzero _ rest ?_ ?_ rfl rfl rfl).trans ?_
      · exact he
      · exact hline
      · rw [Nat.add_zero, skipped, skipped, ← hop]
    · rw [outRow, outIncLineAddr_eq, if_pos (by decide), Option.map_some, Option.bind_some,
        contents_append, contents_bytes]
      simp [outSetAddr, contents, convertFrag, Piece.contents]

end FusionBinutils.Gas.LineProgram
