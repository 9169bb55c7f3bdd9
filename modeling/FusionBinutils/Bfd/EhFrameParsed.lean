import FusionBinutils.Bfd.EhFrameCompact

/-! What the entries are like that `_bfd_elf_parse_eh_frame` finds. -/
namespace FusionBinutils.Bfd.EhFrame

namespace Bytes
variable {b : Bytes} {iter iter' length width last count count' p q start : Nat} {locs : List Nat}

/-! Nothing is read behind the end. -/

theorem skipBytes_le (hi : iter ≤ b.stop) (hs : b.stop < 2 ^ 64)
    (h : b.skipBytes iter length = some iter') : iter' ≤ b.stop := by
  rw [skipBytes] at h
  split at h
  · cases h
  · next hlen =>
    cases h
    omega

theorem skipBlock_le (hs : b.stop < 2 ^ 64) (h : b.skipBlock iter = some iter') :
    iter' ≤ b.stop := by
  obtain ⟨⟨len, p⟩, hp, h⟩ := Option.bind_eq_some_iff.mp h
  exact skipBytes_le (lt_of_readUleb128 hp).2 hs h

theorem skipOperands_le {args : Operands} (hi : iter ≤ b.stop) (hs : b.stop < 2 ^ 64)
    (h : b.skipOperands iter args = some iter') : iter' ≤ b.stop := by
  cases args with
  | nothing =>
    cases h
    exact hi
  | oneLeb128 => exact (lt_of_skipLeb128 h).2
  | twoLeb128 =>
    obtain ⟨p, -, h⟩ := Option.bind_eq_some_iff.mp h
    exact (lt_of_skipLeb128 h).2
  | block => exact skipBlock_le hs h
  | leb128Block =>
    obtain ⟨p, -, h⟩ := Option.bind_eq_some_iff.mp h
    exact skipBlock_le hs h
  | bytes n => exact skipBytes_le hi hs h

theorem skipCfaOp_le (hs : b.stop < 2 ^ 64) (h : b.skipCfaOp width iter = some iter') :
    iter' ≤ b.stop := by
  obtain ⟨⟨op, p⟩, hp, h⟩ := Option.bind_eq_some_iff.mp h
  obtain ⟨args, -, h⟩ := Option.bind_eq_some_iff.mp h
  have hread := lt_of_readByte hp
  exact skipOperands_le (by omega) hs h

theorem skipNonNopsFrom_le (hs : b.stop < 2 ^ 64) (hl : last ≤ b.stop) (hlast : last ≤ iter)
    (h : b.skipNonNopsFrom width iter last count = some (iter', count')) :
    last ≤ iter' ∧ iter' ≤ b.stop := by
  fun_induction skipNonNopsFrom b width iter last count with
  | case1 iter last count hlt hnop ih => exact ih hl (by omega) h
  | case2 => cases h
  | case3 iter last count hlt hnop next hnext ih =>
    have hle := skipCfaOp_le hs hnext
    have hgt := lt_of_skipCfaOp hnext
    have := ih hle le_rfl h
    omega
  | case4 =>
    cases h
    exact ⟨le_rfl, hl⟩

theorem skipNonNops_le (hs : b.stop < 2 ^ 64) (hi : iter ≤ b.stop)
    (h : b.skipNonNops iter width = some (iter', count')) : iter ≤ iter' ∧ iter' ≤ b.stop :=
  skipNonNopsFrom_le hs hi le_rfl h

end Bytes

/-! The header of a CIE. -/

section cie
variable {rels : Rels} {ptrSize start lo buf buf' rel rel' : Nat} {b : Bytes} {a a' : Augment}
  {encoding letter : BfdByte} {letters : List BfdByte} {head : CieHead}

/-- What the augmentation data have said is between `lo` and `buf`: there is the personality
pointer, with a relocation and behind the byte for its encoding. -/
structure Augment.Read (rels : Rels) (ptrSize lo stop : Nat) (a : Augment) : Prop where
  low : lo ≤ a.buf
  high : a.buf ≤ stop
  personality : a.perEncoding ≠ peOmit → ∃ r, rels[a.personality]? = some r ∧
    lo + 1 ≤ r.offset ∧ r.offset + peWidth a.perEncoding ptrSize ≤ a.buf ∧
    0 < peWidth a.perEncoding ptrSize

theorem Augment.Read.next (h : a.Read rels ptrSize lo b.stop) (hle : a.buf ≤ a'.buf)
    (hstop : a'.buf ≤ b.stop) (hper : a'.perEncoding = a.perEncoding)
    (hrel : a'.personality = a.personality) : a'.Read rels ptrSize lo b.stop := by
  refine ⟨h.low.trans hle, hstop, ?_⟩
  intro hne
  rw [hper] at hne ⊢
  rw [hrel]
  obtain ⟨r, hr, hlow, hhigh, hpos⟩ := h.personality hne
  exact ⟨r, hr, hlow, hhigh.trans hle, hpos⟩

theorem readEncoding_read (h : readEncoding rels ptrSize b a = some (encoding, buf, rel)) :
    buf = a.buf + 1 ∧ buf ≤ b.stop := by
  obtain ⟨⟨e, p⟩, hp, h⟩ := Option.bind_eq_some_iff.mp h
  obtain ⟨r, -, h⟩ := Option.bind_eq_some_iff.mp h
  obtain ⟨_, -, h⟩ := Option.bind_eq_some_iff.mp h
  cases h
  have := Bytes.lt_of_readByte hp
  omega

theorem guard_eq_some {c : Prop} [Decidable c] {v : Unit} (h : (guard c : Option Unit) = some v) :
    c := by
  by_contra hc
  simp [guard, hc] at h

theorem getReloc_eq_some (h : (getReloc rels rel buf).isSome) :
    ∃ r, rels[rel]? = some r ∧ r.offset = buf := by
  obtain ⟨r, hr⟩ := Option.isSome_iff_exists.mp h
  obtain ⟨hget, hoff⟩ := Option.filter_eq_some_iff.mp hr
  exact ⟨r, hget, of_decide_eq_true hoff⟩

theorem skipAlignment_le (hs : b.stop < 2 ^ 64) (hbuf : buf ≤ b.stop)
    (h : skipAlignment ptrSize b encoding buf = some buf') : buf ≤ buf' ∧ buf' ≤ b.stop := by
  unfold skipAlignment at h
  split at h
  · have := Bytes.le_of_skipBytes h
    exact ⟨by omega, Bytes.skipBytes_le hbuf hs h⟩
  · cases h
    exact ⟨le_rfl, hbuf⟩

theorem readPersonality_read (hs : b.stop < 2 ^ 64) (ha : a.Read rels ptrSize lo b.stop)
    (h : readPersonality rels ptrSize b start a = some a') : a'.Read rels ptrSize lo b.stop := by
  obtain ⟨⟨perEncoding, p⟩, hp, h⟩ := Option.bind_eq_some_iff.mp h
  obtain ⟨_, hguard, h⟩ := Option.bind_eq_some_iff.mp h
  obtain ⟨buf, hbuf, h⟩ := Option.bind_eq_some_iff.mp h
  obtain ⟨rel, -, h⟩ := Option.bind_eq_some_iff.mp h
  obtain ⟨_, hreloc, h⟩ := Option.bind_eq_some_iff.mp h
  obtain ⟨next, hnext, h⟩ := Option.bind_eq_some_iff.mp h
  cases h
  have hread := Bytes.lt_of_readByte hp
  have hlow := ha.low
  obtain ⟨hle, hle'⟩ := skipAlignment_le hs (by omega) hbuf
  have hwidth := Bytes.le_of_skipBytes hnext
  obtain ⟨r, hr, hoff⟩ := getReloc_eq_some (guard_eq_some hreloc)
  have hpos := guard_eq_some hguard
  refine ⟨by dsimp only; omega, Bytes.skipBytes_le hle' hs hnext, fun _ => ⟨r, hr, ?_, ?_, ?_⟩⟩
  · omega
  · dsimp only
    omega
  · dsimp only
    omega

theorem readLetter_read (hs : b.stop < 2 ^ 64) (ha : a.Read rels ptrSize lo b.stop)
    (h : readLetter rels ptrSize b start a letter = some a') : a'.Read rels ptrSize lo b.stop := by
  unfold readLetter at h
  split at h
  · obtain ⟨⟨e, buf, rel⟩, he, h⟩ := Option.map_eq_some_iff.mp h
    cases h
    have := readEncoding_read he
    exact ha.next (by dsimp only; omega) this.2 rfl rfl
  · split at h
    · obtain ⟨⟨e, buf, rel⟩, he, h⟩ := Option.map_eq_some_iff.mp h
      cases h
      have := readEncoding_read he
      exact ha.next (by dsimp only; omega) this.2 rfl rfl
    · split at h
      · cases h
        exact ha
      · split at h
        · exact readPersonality_read hs ha h
        · cases h

theorem readLetters_read (hs : b.stop < 2 ^ 64) (ha : a.Read rels ptrSize lo b.stop)
    (h : readLetters rels ptrSize b start a letters = some a') :
    a'.Read rels ptrSize lo b.stop := by
  induction letters generalizing a with
  | nil =>
    cases h
    exact ha
  | cons letter letters ih =>
    obtain ⟨a₁, ha₁, h⟩ := Option.bind_eq_some_iff.mp h
    exact ih (readLetter_read hs ha ha₁) h

/-- Before anything is said there is no personality routine. -/
theorem read_omit (buf rel : Nat) (hbuf : buf ≤ b.stop) :
    Augment.Read rels ptrSize buf b.stop ⟨buf, rel, peOmit, peOmit, peOmit, 0, 0, false⟩ :=
  ⟨le_rfl, hbuf, fun h => absurd rfl h⟩

theorem readRaColumn_le {version : BfdByte} {ra : BitVec 64}
    (h : readRaColumn b version buf = some (ra, buf')) : buf < buf' ∧ buf' ≤ b.stop := by
  unfold readRaColumn at h
  split at h
  · split at h
    · cases h
      omega
    · cases h
  · exact Bytes.lt_of_readUleb128 h

theorem readAugmentationSize_le {size : BitVec 64} {rest : List BfdByte} (hbuf : buf ≤ b.stop)
    (h : readAugmentationSize rels b rel buf letters = some (size, rel', buf', rest)) :
    buf ≤ buf' ∧ buf' ≤ b.stop := by
  unfold readAugmentationSize at h
  split at h
  · split at h
    · obtain ⟨⟨v, p⟩, hp, h⟩ := Option.bind_eq_some_iff.mp h
      obtain ⟨r, -, h⟩ := Option.bind_eq_some_iff.mp h
      cases h
      have := Bytes.lt_of_readUleb128 hp
      omega
    · cases h
      exact ⟨le_rfl, hbuf⟩
  · cases h
    exact ⟨le_rfl, hbuf⟩

theorem skipEhData_le (h : skipEhData rels ptrSize b rel buf = some (rel', buf')) : buf ≤ buf' := by
  unfold skipEhData at h
  split at h
  · obtain ⟨p, hp, h⟩ := Option.map_eq_some_iff.mp h
    cases h
    have := Bytes.le_of_skipBytes hp
    omega
  · cases h
    exact le_rfl

theorem skipAddressSizes_le {version : BfdByte}
    (h : skipAddressSizes ptrSize b version buf = some buf') : buf ≤ buf' := by
  unfold skipAddressSizes at h
  split at h
  · split at h
    · cases h
      omega
    · cases h
  · cases h
    exact le_rfl

/-- How the header of a CIE has been read: the places behind its string, behind what old compilers
and newer versions put there, and behind each of the three numbers. -/
structure HeadRead (rels : Rels) (ptrSize : Nat) (b : Bytes) (start : Nat) (head : CieHead)
    (p₂ p₃ p₄ p₅ p₆ p₇ : Nat) : Prop where
  version : b.readByte start = some (head.version, start + 1)
  known : head.version = 1 ∨ head.version = 3 ∨ head.version = 4
  string : readAugmentation b (start + 1) = some (head.augmentation, p₂)
  eh : ∃ r r', skipEhData rels ptrSize b r p₂ = some (r', p₃)
  sizes : skipAddressSizes ptrSize b head.version p₃ = some p₄
  codeAlign : b.readUleb128 p₄ = some (head.codeAlign, p₅)
  dataAlign : b.readSleb128 p₅ = some (head.dataAlign, p₆)
  raColumn : readRaColumn b head.version p₆ = some (head.raColumn, p₇)
  /-- What the letters of the string say; the old compilers' string is not looked into. -/
  data : (startsEh head.augmentation ∧ head.augmentationSize = 0 ∧
      ∃ r, head.augment = ⟨p₇, r, peOmit, peOmit, peOmit, 0, 0, false⟩) ∨
    ¬ startsEh head.augmentation ∧ ∃ r r' p₈ letters,
      readAugmentationSize rels b r p₇ head.augmentation =
        some (head.augmentationSize, r', p₈, letters) ∧
      readLetters rels ptrSize b start ⟨p₈, r', peOmit, peOmit, peOmit, 0, 0, false⟩ letters =
        some head.augment

theorem headRead_of_readCieHead (h : readCieHead rels ptrSize b start rel = some head) :
    ∃ p₂ p₃ p₄ p₅ p₆ p₇, HeadRead rels ptrSize b start head p₂ p₃ p₄ p₅ p₆ p₇ := by
  obtain ⟨⟨version, p₁⟩, h₁, hrest⟩ := Option.bind_eq_some_iff.mp h
  obtain ⟨rfl, -⟩ := Bytes.lt_of_readByte h₁
  obtain ⟨_, hknown, h⟩ := Option.bind_eq_some_iff.mp hrest
  obtain ⟨⟨augmentation, p₂⟩, h₂, h⟩ := Option.bind_eq_some_iff.mp h
  obtain ⟨rel₂, -, h⟩ := Option.bind_eq_some_iff.mp h
  obtain ⟨⟨rel₃, p₃⟩, h₃, h⟩ := Option.bind_eq_some_iff.mp h
  obtain ⟨p₄, h₄, h⟩ := Option.bind_eq_some_iff.mp h
  obtain ⟨⟨codeAlign, p₅⟩, h₅, h⟩ := Option.bind_eq_some_iff.mp h
  obtain ⟨⟨dataAlign, p₆⟩, h₆, h⟩ := Option.bind_eq_some_iff.mp h
  obtain ⟨⟨raColumn, p₇⟩, h₇, h⟩ := Option.bind_eq_some_iff.mp h
  obtain ⟨rel₇, -, h⟩ := Option.bind_eq_some_iff.mp h
  refine ⟨p₂, p₃, p₄, p₅, p₆, p₇, ?_⟩
  dsimp only at h
  split at h
  · next heh =>
    cases h
    exact ⟨h₁, guard_eq_some hknown, h₂, ⟨rel₂, rel₃, h₃⟩, h₄, h₅, h₆, h₇,
      .inl ⟨heh, rfl, rel₇, rfl⟩⟩
  · next heh =>
    obtain ⟨⟨size, rel₈, p₈, letters⟩, h₈, h⟩ := Option.bind_eq_some_iff.mp h
    obtain ⟨a, ha, h⟩ := Option.bind_eq_some_iff.mp h
    cases h
    exact ⟨h₁, guard_eq_some hknown, h₂, ⟨rel₂, rel₃, h₃⟩, h₄, h₅, h₆, h₇,
      .inr ⟨heh, rel₇, rel₈, p₈, letters, h₈, ha⟩⟩

theorem HeadRead.lt {p₂ p₃ p₄ p₅ p₆ p₇ : Nat}
    (h : HeadRead rels ptrSize b start head p₂ p₃ p₄ p₅ p₆ p₇) :
    start + 1 < p₂ ∧ p₂ ≤ p₃ ∧ p₃ ≤ p₄ ∧ p₄ < p₅ ∧ p₅ < p₆ ∧ p₆ < p₇ ∧ p₇ ≤ b.stop := by
  obtain ⟨r, r', heh⟩ := h.eh
  have hstring : start + 1 < p₂ := by
    have hread := h.string
    simp only [readAugmentation] at hread
    split at hread
    · obtain ⟨-, rfl⟩ := Prod.mk.inj (Option.some.inj hread)
      omega
    · cases hread
  have hra := readRaColumn_le h.raColumn
  exact ⟨hstring, skipEhData_le heh, skipAddressSizes_le h.sizes,
    (Bytes.lt_of_readUleb128 h.codeAlign).1, (Bytes.lt_of_readSleb128 h.dataAlign).1, hra.1, hra.2⟩

/-- An augmentation string is what comes before a zero. -/
theorem readAugmentation_spec {string : List BfdByte}
    (h : readAugmentation b buf = some (string, buf')) : buf' = buf + string.length + 1 ∧
      string.length < 20 ∧ (b.ehbuf.drop buf).take (string.length + 1) = string ++ [0] ∧
      ∀ c ∈ string, c ≠ 0 := by
  simp only [readAugmentation] at h
  split at h
  · next hlen =>
    obtain ⟨hs, hbuf⟩ := Prod.mk.inj (Option.some.inj h)
    rw [hs] at hlen hbuf
    have hsplit := List.takeWhile_append_dropWhile (p := (· ≠ (0 : BfdByte))) (l := b.ehbuf.drop buf)
    rw [hs] at hsplit
    have hletters : ∀ c ∈ string, c ≠ 0 := by
      intro c hc
      rw [← hs] at hc
      have hne := List.mem_takeWhile_imp hc
      simpa using hne
    refine ⟨hbuf.symm, hlen.2, ?_, hletters⟩
    cases hd : (b.ehbuf.drop buf).dropWhile (· ≠ (0 : BfdByte)) with
    | nil =>
      rw [hd, List.append_nil] at hsplit
      have hall := congrArg List.length hsplit
      rw [List.length_drop] at hall
      omega
    | cons c rest =>
      have hzero := List.head?_dropWhile_not (· ≠ (0 : BfdByte)) (b.ehbuf.drop buf)
      rw [hd] at hzero hsplit
      rw [← hsplit, List.take_append, List.take_of_length_le (by omega), Nat.add_sub_cancel_left]
      have hc : c = 0 := by simpa using hzero
      rw [hc]
      rfl
  · cases h

theorem byteAt_of_take {l : List BfdByte} {n i : Nat} (h : (b.ehbuf.drop buf).take n = l)
    (hi : i < l.length) : b.byteAt (buf + i) = l[i] := by
  subst h
  rw [List.getElem_take, List.getElem_drop, Bytes.byteAt, List.getD_eq_getElem?_getD,
    List.getElem?_eq_getElem]
  rfl

theorem last_of_skipLeb128 {iter iter' : Nat} (h : b.skipLeb128 iter = some iter') :
    b.byteAt (iter' - 1) &&& 0x80 = 0 := by
  fun_induction Bytes.skipLeb128 b iter with
  | case1 => cases h
  | case2 iter hstop hlast =>
    cases h
    exact hlast
  | case3 iter hstop hmore ih => exact ih h

theorem last_of_readUleb128 {v : BitVec 64} (h : b.readUleb128 buf = some (v, buf')) :
    b.byteAt (buf' - 1) &&& 0x80 = 0 := by
  obtain ⟨p, hp, he⟩ := Option.map_eq_some_iff.mp h
  cases he
  exact last_of_skipLeb128 hp

theorem last_of_readSleb128 {v : BitVec 64} (h : b.readSleb128 buf = some (v, buf')) :
    b.byteAt (buf' - 1) &&& 0x80 = 0 := by
  obtain ⟨p, hp, he⟩ := Option.map_eq_some_iff.mp h
  cases he
  exact last_of_skipLeb128 hp

theorem readAugmentationSize_cases {size : BitVec 64} {rest : List BfdByte}
    (h : readAugmentationSize rels b rel buf letters = some (size, rel', buf', rest)) :
    (letters.head? = some letterZ ∧ ∃ v, b.readUleb128 buf = some (v, buf')) ∨
      letters.head? ≠ some letterZ ∧ buf' = buf := by
  unfold readAugmentationSize at h
  split at h
  · next letter rest' =>
    split at h
    · next hz =>
      obtain ⟨⟨v, p⟩, hp, h⟩ := Option.bind_eq_some_iff.mp h
      obtain ⟨r, -, h⟩ := Option.bind_eq_some_iff.mp h
      cases h
      exact .inl ⟨congrArg some hz, _, hp⟩
    · next hz =>
      cases h
      exact .inr ⟨fun hc => hz (Option.some.inj hc), rfl⟩
  · cases h
    exact .inr ⟨fun hc => Option.some_ne_none _ hc.symm, rfl⟩

/-- Up to `limit` there are the augmentation string of the CIE at `offset` and three numbers, and
one more byte behind a `z`. -/
def HeaderEnds (byteAt : Nat → BfdByte) (offset limit : Nat) : Prop :=
  ∃ p₀ p₁ p₂ p₃, offset + 9 ≤ p₀ ∧ byteAt p₀ = 0 ∧ p₀ + 1 < p₁ ∧ byteAt (p₁ - 1) &&& 0x80 = 0 ∧
    p₁ < p₂ ∧ byteAt (p₂ - 1) &&& 0x80 = 0 ∧ p₂ < p₃ ∧ byteAt (p₃ - 1) &&& 0x80 = 0 ∧
    p₃ + (if byteAt (offset + 9) = letterZ then 1 else 0) ≤ limit

/-- A return address column that is taken for more than a byte. -/
def LongColumn (version : BfdByte) (raColumn : BitVec 64) (augmentation : List BfdByte) : Prop :=
  version = 1 ∧ 128 ≤ raColumn.toNat ∧ augmentation.head? ≠ some letterZ

theorem and_0x80_eq_zero {c : BfdByte} (h : c.toNat < 128) : c &&& 0x80 = 0 := by
  have hand := BitField.toNat_and_field (x := c) (m := 0x80) 7 1 (by decide)
  apply BitVec.eq_of_toNat_eq
  rw [hand]
  show _ = 0
  omega

/-- The personality pointer is behind all of this, unless the column is too long. -/
theorem HeadRead.ends {p₂ p₃ p₄ p₅ p₆ p₇ offset : Nat} {r : Rela} (hs : b.stop < 2 ^ 64)
    (h : HeadRead rels ptrSize b start head p₂ p₃ p₄ p₅ p₆ p₇) (hstart : start = offset + 8)
    (hper : head.augment.perEncoding ≠ peOmit) (hr : rels[head.augment.personality]? = some r)
    (hra : ¬ LongColumn head.version head.raColumn head.augmentation) :
    HeaderEnds b.byteAt offset r.offset := by
  obtain ⟨h₁, h₂, h₃, h₄, h₅, h₆, h₇⟩ := h.lt
  obtain ⟨hend, -, hstring, hletters⟩ := readAugmentation_spec h.string
  have hzero : b.byteAt (p₂ - 1) = 0 := by
    have hlast := byteAt_of_take (i := head.augmentation.length) hstring (by simp)
    rw [List.getElem_append_right le_rfl] at hlast
    rw [hend, Nat.add_sub_cancel, hlast]
    simp
  have hfirst : b.byteAt (offset + 9) = letterZ ↔ head.augmentation.head? = some letterZ := by
    have hletter := byteAt_of_take (i := 0) hstring (by simp)
    rw [show offset + 9 = start + 1 + 0 by omega, hletter]
    cases hl : head.augmentation with
    | nil => simp [letterZ]
    | cons c rest => simp
  rcases h.data with ⟨-, -, r, ha⟩ | ⟨-, r', r'', p₈, letters, hsize, ha⟩
  · rw [ha] at hper
    exact absurd rfl hper
  · have hle := readAugmentationSize_le h₇ hsize
    obtain ⟨r₁, hr₁, hbehind, -⟩ := (readLetters_read hs (read_omit p₈ r'' hle.2) ha).personality hper
    rw [hr] at hr₁
    cases hr₁
    have hcode := last_of_readUleb128 h.codeAlign
    have hdata := last_of_readSleb128 h.dataAlign
    -- where the third number ends, as the writer has it
    obtain ⟨p, hp, hlast, hlimit⟩ : ∃ p, p₆ < p ∧ b.byteAt (p - 1) &&& 0x80 = 0 ∧
        p + (if b.byteAt (offset + 9) = letterZ then 1 else 0) ≤ r.offset := by
      rcases readAugmentationSize_cases hsize with ⟨hz, v, hv⟩ | ⟨hz, rfl⟩
      · have hv' := Bytes.lt_of_readUleb128 hv
        rw [if_pos (hfirst.mpr hz)]
        by_cases hcolumn : b.byteAt (p₇ - 1) &&& 0x80 = 0
        · exact ⟨p₇, h₆, hcolumn, by omega⟩
        · exact ⟨p₈, by omega, last_of_readUleb128 hv, hbehind⟩
      · rw [if_neg (fun hc => hz (hfirst.mp hc))]
        refine ⟨p₈, h₆, ?_, by omega⟩
        have hread := h.raColumn
        unfold readRaColumn at hread
        split at hread
        · next hone =>
          split at hread
          · obtain ⟨hcolumn, hp₈⟩ := Prod.mk.inj (Option.some.inj hread)
            rw [← hp₈, Nat.add_sub_cancel]
            apply and_0x80_eq_zero
            by_contra hge
            refine hra ⟨hone, ?_, hz⟩
            rw [← hcolumn, BitVec.toNat_setWidth]
            omega
          · cases hread
        · exact last_of_readUleb128 hread
    exact ⟨p₂ - 1, p₅, p₆, p, by omega, hzero, by omega, hcode, h₅, hdata, hp, hlast, hlimit⟩

/-- The augmentation data are behind a version, a string and three numbers. -/
theorem readCieHead_read (hs : b.stop < 2 ^ 64)
    (h : readCieHead rels ptrSize b start rel = some head) :
    ∃ lo, start + 5 ≤ lo ∧ head.augment.Read rels ptrSize lo b.stop := by
  obtain ⟨p₂, p₃, p₄, p₅, p₆, p₇, hread⟩ := headRead_of_readCieHead h
  have hlt := hread.lt
  rcases hread.data with ⟨-, -, r, ha⟩ | ⟨-, r, r', p₈, letters, hsize, ha⟩
  · rw [ha]
    exact ⟨p₇, by omega, read_omit p₇ r hlt.2.2.2.2.2.2⟩
  · have hle := readAugmentationSize_le hlt.2.2.2.2.2.2 hsize
    exact ⟨p₈, by omega, readLetters_read hs (read_omit p₈ r' hle.2) ha⟩

/-- Without a string nothing is said. -/
theorem readCieHead_empty (h : readCieHead rels ptrSize b start rel = some head)
    (he : head.augmentation = []) :
    head.augment.lsdaEncoding = peOmit ∧ head.augment.fdeEncoding = peOmit := by
  obtain ⟨p₂, p₃, p₄, p₅, p₆, p₇, hread⟩ := headRead_of_readCieHead h
  rcases hread.data with ⟨-, -, r, ha⟩ | ⟨-, r, r', p₈, letters, hsize, ha⟩
  · rw [ha]
    exact ⟨rfl, rfl⟩
  · rw [he] at hsize
    obtain rfl : [] = letters := congrArg (fun t => t.2.2.2) (Option.some.inj hsize)
    rw [← Option.some.inj ha]
    exact ⟨rfl, rfl⟩

end cie

/-! Entries. -/

/-- What is known of an entry of a section once it is parsed. -/
structure Parsed (info : LinkInfo) (sec : EhSec) (rels : Rels) (e : Entry) : Prop where
  sized : e.size ≠ 4 → 8 ≤ e.size
  /-- An augmentation size is added where nothing was said and addresses become relative. -/
  added : e.addAugmentationSize → info.pic ∧ e.makeRelative ∧ e.lsdaEncoding = peOmit ∧
    e.fdeEncoding = peAbsptr ∧ e.lsdaOffset = 0
  letter : ∀ u full, e.kind = .cie u full →
    full.lsdaEncoding = e.lsdaEncoding ∧ full.fdeEncoding = e.fdeEncoding ∧
      (u.addFdeEncoding → e.makeRelative) ∧ e.setLoc = none
  personality : ∀ u full, e.kind = .cie u full → full.perEncoding ≠ peOmit →
    ∃ r, rels[full.personality]? = some r ∧ e.offset + 10 ≤ r.offset ∧
      r.offset + peWidth full.perEncoding sec.ptrSize ≤ e.offset + e.size ∧
      0 < peWidth full.perEncoding sec.ptrSize
  header : ∀ u full r, e.kind = .cie u full → full.perEncoding ≠ peOmit →
    rels[full.personality]? = some r → ¬ LongColumn full.version full.raColumn full.augmentation →
    HeaderEnds (sec.contents.getD · 0) e.offset r.offset
  range : ∀ i, e.kind = .fde i → e.size ≠ 4 →
    8 + 2 * peWidth e.fdeEncoding sec.ptrSize ≤ e.size
  setLoc : ∀ locs, e.setLoc = some locs → ∀ loc ∈ locs,
    2 * peWidth e.fdeEncoding sec.ptrSize < loc

section entry
variable {info : LinkInfo} {sec : EhSec} {rels : Rels} {rsec : Rela → Option Nat} {b : Bytes}
  {offset hdrLength relocIndex start rel rel' hdrId i buf count : Nat} {e e' : Entry}
  {entries entries' l : List Entry}

theorem parseCie_parsed (hb : b.ehbuf = sec.contents) (hs : b.stop < 2 ^ 64) (hstop : b.stop = offset + 4 + hdrLength)
    (hstart : start = offset + 8)
    (h : parseCie info sec rels b offset hdrLength relocIndex start rel = some (e, rel')) :
    Parsed info sec rels e ∧ e.offset = offset ∧ e.size ≠ 4 ∧ e.size ≤ 4 + hdrLength := by
  obtain ⟨head, hhead, h⟩ := Option.bind_eq_some_iff.mp h
  obtain ⟨rel₂, -, h⟩ := Option.bind_eq_some_iff.mp h
  obtain ⟨⟨insnsEnd, setLocCount⟩, hinsns, h⟩ := Option.bind_eq_some_iff.mp h
  obtain ⟨_, -, h⟩ := Option.bind_eq_some_iff.mp h
  cases h
  obtain ⟨lo, hlo, hread⟩ := readCieHead_read hs hhead
  have hlow := hread.low
  obtain ⟨hle, hle'⟩ := Bytes.skipNonNops_le hs hread.high hinsns
  refine ⟨⟨?_, ?_, ?_, ?_, ?_, ?_, ?_⟩, rfl, ?_, ?_⟩
  · intro _
    dsimp only
    omega
  · intro hadd
    obtain ⟨hfde, hempty⟩ := (Bool.and_eq_true _ _).mp hadd
    obtain ⟨hlsda, henc⟩ := readCieHead_empty hhead (List.isEmpty_iff.mp hempty)
    refine ⟨?_, ?_, hlsda, ?_, rfl⟩
    · simp only [Bool.and_eq_true] at hfde
      exact hfde.1.1.1.1
    · exact (Bool.or_eq_true _ _).mpr (.inr hfde)
    · dsimp only
      rw [henc]
      rfl
  · intro u full hk
    cases hk
    refine ⟨rfl, rfl, ?_, rfl⟩
    intro hfde
    exact (Bool.or_eq_true _ _).mpr (.inr hfde)
  · intro u full hk hper
    cases hk
    obtain ⟨r, hr, hfirst, hlast, hpos⟩ := hread.personality hper
    refine ⟨r, hr, by dsimp only; omega, ?_, hpos⟩
    dsimp only at hlast ⊢
    omega
  · intro u full r hk hper hr hra
    cases hk
    obtain ⟨p₂, p₃, p₄, p₅, p₆, p₇, hhead'⟩ := headRead_of_readCieHead hhead
    have hends := hhead'.ends hs hstart hper hr hra
    have hbytes : b.byteAt = (sec.contents.getD · 0) := by
      rw [← hb]
      rfl
    rwa [hbytes] at hends
  · intro i hk
    cases hk
  · intro locs hlocs
    cases hlocs
  · dsimp only
    omega
  · dsimp only
    omega

/-- The operands of `DW_CFA_set_loc` are behind the place from which they are looked for. -/
theorem lt_of_setLocsFrom {width p : Nat} {locs : List Nat} (hp : start ≤ p)
    (h : setLocsFrom b width start p = some locs) : ∀ loc ∈ locs, p < start + loc := by
  fun_induction setLocsFrom b width start p generalizing locs with
  | case1 p hlt hskip => cases h
  | case2 p hlt next hnext ih =>
    obtain ⟨rest, hrest, h⟩ := Option.bind_eq_some_iff.mp h
    have hgt := Bytes.lt_of_skipCfaOp hnext
    have hbehind := ih (by omega) hrest
    cases h
    intro loc hloc
    split at hloc
    · rcases List.mem_cons.mp hloc with rfl | hloc
      · omega
      · have := hbehind loc hloc
        omega
    · have := hbehind loc hloc
      omega
  | case3 p hlt =>
    cases h
    intro loc hloc
    cases hloc

theorem findCie_eq_some {inf : CieInf} {cie : Cie}
    (h : findCie entries offset = some (i, e, inf, cie)) : e ∈ entries ∧ e.kind = .cie inf cie := by
  obtain ⟨⟨e', j⟩, hmem, h⟩ := List.exists_of_findSome?_eq_some h
  dsimp only at h
  split at h
  · next u full hk =>
    split at h
    · cases h
      exact ⟨(List.mem_zipIdx hmem).2.2 ▸ List.getElem_mem _, hk⟩
    · cases h
  · cases h

theorem Parsed.setMakeLsdaRelative (h : Parsed info sec rels e) :
    Parsed info sec rels e.setMakeLsdaRelative := by
  unfold Entry.setMakeLsdaRelative
  split
  · next u full hk =>
    refine ⟨h.sized, h.added, ?_, ?_, ?_, ?_, h.setLoc⟩
    · intro u' full' hk'
      cases hk'
      exact h.letter u full hk
    · intro u' full' hk'
      cases hk'
      exact h.personality u full hk
    · intro u' full' r hk'
      cases hk'
      exact h.header u full r hk
    · intro i hk'
      cases hk'
  · exact h

theorem readFdeSize_le {sized : Bool} {size : BitVec 64} {buf' : Nat} (hbuf : buf ≤ b.stop)
    (h : readFdeSize b sized buf = some (size, buf')) : buf ≤ buf' ∧ buf' ≤ b.stop := by
  unfold readFdeSize at h
  split at h
  · have := Bytes.lt_of_readUleb128 h
    omega
  · cases h
    exact ⟨le_rfl, hbuf⟩

/-- An FDE comes behind the entries before it, of which its CIE may be marked. -/
theorem parseFde_parsed (hs : b.stop < 2 ^ 64) (hstop : b.stop = offset + 4 + hdrLength)
    (hstart : start = offset + 8) (hle : start ≤ b.stop)
    (hentries : ∀ e ∈ entries, Parsed info sec rels e)
    (h : parseFde sec rels rsec b entries offset hdrLength relocIndex start rel hdrId =
      some (entries', rel')) :
    ∃ e, (entries' = entries ++ [e] ∨
        ∃ i, entries' = entries.modify i Entry.setMakeLsdaRelative ++ [e]) ∧
      Parsed info sec rels e ∧ e.offset = offset ∧ e.size ≠ 4 ∧ e.size ≤ 4 + hdrLength := by
  obtain ⟨⟨i, inf, u, cie⟩, hcie, h⟩ := Option.bind_eq_some_iff.mp h
  obtain ⟨rel₁, -, h⟩ := Option.bind_eq_some_iff.mp h
  obtain ⟨_, -, h⟩ := Option.bind_eq_some_iff.mp h
  obtain ⟨p₁, h₁, h⟩ := Option.bind_eq_some_iff.mp h
  obtain ⟨⟨size, p₂⟩, h₂, h⟩ := Option.bind_eq_some_iff.mp h
  obtain ⟨insns, h₃, h⟩ := Option.bind_eq_some_iff.mp h
  obtain ⟨⟨insnsEnd, setLocCount⟩, h₄, h⟩ := Option.bind_eq_some_iff.mp h
  obtain ⟨setLoc, h₅, h⟩ := Option.bind_eq_some_iff.mp h
  dsimp only at h₁ h₂ h₃ h₄ h₅ h
  obtain ⟨hmem, hkind⟩ := findCie_eq_some hcie
  have hinf := hentries inf hmem
  obtain ⟨hlsda, hfde, -⟩ := hinf.letter u cie hkind
  have hrange := Bytes.le_of_skipBytes h₁
  have hrange' := Bytes.skipBytes_le hle hs h₁
  obtain ⟨hsize, hsize'⟩ := readFdeSize_le hrange' h₂
  have hinsns := Bytes.le_of_skipBytes h₃
  have hinsns' := Bytes.skipBytes_le hsize' hs h₃
  obtain ⟨hend, hend'⟩ := Bytes.skipNonNops_le hs hinsns' h₄
  obtain ⟨hlist, -⟩ := Prod.mk.inj (Option.some.inj h)
  have hform : ∀ (c : Bool) (e : Entry),
      (if c then entries.modify i Entry.setMakeLsdaRelative else entries) ++ [e] = entries ++ [e] ∨
        ∃ j, (if c then entries.modify i Entry.setMakeLsdaRelative else entries) ++ [e] =
          entries.modify j Entry.setMakeLsdaRelative ++ [e] := by
    intro c e
    cases c
    · exact .inl rfl
    · exact .inr ⟨i, rfl⟩
  rw [← hlist]
  refine ⟨_, hform _ _, ⟨?_, ?_, ?_, ?_, ?_, ?_, ?_⟩, rfl, ?_, ?_⟩
  · intro _
    dsimp only
    omega
  · intro hadd
    obtain ⟨hpic, hrel, homit, habs, -⟩ := hinf.added hadd
    rw [← hlsda] at homit
    exact ⟨hpic, hrel, homit, hfde.trans habs, if_neg (not_not_intro homit)⟩
  · intro u' full' hk
    cases hk
  · intro u' full' hk
    cases hk
  · intro u' full' r hk
    cases hk
  · intro j _ _
    dsimp only
    omega
  · intro locs hlocs loc hloc
    obtain rfl : setLoc = some locs := hlocs
    unfold findSetLocs at h₅
    split at h₅
    · obtain ⟨locs', hlocs', heq⟩ := Option.map_eq_some_iff.mp h₅
      cases heq
      have := lt_of_setLocsFrom (by omega) hlocs' loc hloc
      dsimp only
      omega
    · cases h₅
  · dsimp only
    omega
  · dsimp only
    omega

/-! The section. -/

/-- The entries up to `buf`, of which none is a terminator. -/
structure Sequence (info : LinkInfo) (sec : EhSec) (rels : Rels) (buf : Nat) (l : List Entry) :
    Prop where
  parsed : ∀ e ∈ l, Parsed info sec rels e
  apart : Apart l
  bound : ∀ e ∈ l, e.offset + e.size ≤ buf
  proper : ∀ e ∈ l, e.size ≠ 4

theorem Sequence.snoc (h : Sequence info sec rels offset l) (hp : Parsed info sec rels e)
    (ho : e.offset = offset) (hs : e.size ≠ 4) (hle : offset + e.size ≤ buf) :
    Sequence info sec rels buf (l ++ [e]) := by
  refine ⟨?_, ?_, ?_, ?_⟩
  · intro e' he'
    rcases List.mem_append.mp he' with he' | he'
    · exact h.parsed e' he'
    · cases List.mem_singleton.mp he'
      exact hp
  · refine List.pairwise_append.mpr ⟨h.apart, List.pairwise_singleton _ _, ?_⟩
    intro e₁ h₁ e₂ h₂
    cases List.mem_singleton.mp h₂
    rw [ho]
    exact h.bound e₁ h₁
  · intro e' he'
    rcases List.mem_append.mp he' with he' | he'
    · have := h.bound e' he'
      omega
    · cases List.mem_singleton.mp he'
      omega
  · intro e' he'
    rcases List.mem_append.mp he' with he' | he'
    · exact h.proper e' he'
    · cases List.mem_singleton.mp he'
      exact hs

theorem setMakeLsdaRelative_offset (e : Entry) : e.setMakeLsdaRelative.offset = e.offset := by
  unfold Entry.setMakeLsdaRelative
  split <;> rfl

theorem setMakeLsdaRelative_size (e : Entry) : e.setMakeLsdaRelative.size = e.size := by
  unfold Entry.setMakeLsdaRelative
  split <;> rfl

theorem mem_modify {α : Type*} {f : α → α} {x : α} {xs : List α} {n : Nat} (h : x ∈ xs.modify n f) :
    x ∈ xs ∨ ∃ y ∈ xs, x = f y := by
  obtain ⟨j, hj⟩ := List.mem_iff_getElem?.mp h
  rw [List.getElem?_modify] at hj
  obtain ⟨y, hy, hx⟩ := Option.map_eq_some_iff.mp hj
  have hmem := List.mem_of_getElem? hy
  split at hx
  · exact .inr ⟨y, hmem, hx.symm⟩
  · exact .inl (hx ▸ hmem)

/-- A change that `g` does not see. -/
theorem map_modify {α β : Type*} {f : α → α} {g : α → β} (hfg : ∀ x, g (f x) = g x) (xs : List α)
    (n : Nat) : (xs.modify n f).map g = xs.map g := by
  induction xs generalizing n with
  | nil => rw [List.modify_nil]
  | cons x xs ih =>
    cases n with
    | zero => rw [List.modify_zero_cons, List.map_cons, List.map_cons, hfg]
    | succ n => rw [List.modify_succ_cons, List.map_cons, List.map_cons, ih]

theorem Sequence.modify (h : Sequence info sec rels buf l) (i : Nat) :
    Sequence info sec rels buf (l.modify i Entry.setMakeLsdaRelative) := by
  refine ⟨?_, ?_, ?_, ?_⟩
  · intro e he
    rcases mem_modify he with he | ⟨e', he', rfl⟩
    · exact h.parsed e he
    · exact (h.parsed e' he').setMakeLsdaRelative
  · have hmap := map_modify (f := Entry.setMakeLsdaRelative) (g := fun e => (e.offset, e.size))
      (fun e => by rw [setMakeLsdaRelative_offset, setMakeLsdaRelative_size]) l i
    have hpairs : (l.map fun e => (e.offset, e.size)).Pairwise fun x y => x.1 + x.2 ≤ y.1 :=
      List.pairwise_map.mpr h.apart
    rw [← hmap] at hpairs
    exact List.pairwise_map.mp hpairs
  · intro e he
    rcases mem_modify he with he | ⟨e', he', rfl⟩
    · exact h.bound e he
    · rw [setMakeLsdaRelative_offset, setMakeLsdaRelative_size]
      exact h.bound e' he'
  · intro e he
    rcases mem_modify he with he | ⟨e', he', rfl⟩
    · exact h.proper e he
    · rw [setMakeLsdaRelative_size]
      exact h.proper e' he'

/-- One more entry. -/
theorem parseEntry_sequence {len : Nat} (hs : sec.contents.length < 2 ^ 32)
    (hlen : buf + 4 + len ≤ sec.contents.length) (h : Sequence info sec rels buf l)
    (hentry : parseEntry info sec rels rsec l buf len rel = some (entries', rel')) :
    Sequence info sec rels (buf + 4 + len) entries' := by
  obtain ⟨start, hstart, hentry⟩ := Option.bind_eq_some_iff.mp hentry
  have hbody := Bytes.le_of_skipBytes hstart
  have hle := Bytes.skipBytes_le (Nat.le_add_right _ _) (show buf + 4 + len < 2 ^ 64 by omega) hstart
  dsimp only at hentry hle
  split at hentry
  · obtain ⟨⟨e, rel''⟩, he, hentry⟩ := Option.bind_eq_some_iff.mp hentry
    cases hentry
    obtain ⟨hp, ho, hne, hsize⟩ :=
      parseCie_parsed rfl (show buf + 4 + len < 2 ^ 64 by omega) rfl (by omega) he
    exact h.snoc hp ho hne (show buf + e.size ≤ buf + 4 + len by omega)
  · obtain ⟨e, hlist, hp, ho, hne, hsize⟩ :=
      parseFde_parsed (show buf + 4 + len < 2 ^ 64 by omega) rfl (by omega) hle h.parsed hentry
    rcases hlist with rfl | ⟨i, rfl⟩
    · exact h.snoc hp ho hne (by omega)
    · exact (h.modify i).snoc hp ho hne (by omega)

/-- The run over the section ends behind all entries or with a terminator. -/
theorem parseFrom_sequence (hs : sec.contents.length < 2 ^ 32)
    (hl : Sequence info sec rels buf l) (hbuf : buf ≤ sec.contents.length)
    (h : parseFrom info sec rels rsec buf rel l = some entries) :
    Sequence info sec rels sec.contents.length entries ∨
      ∃ pre pos r, entries = pre ++ [terminator pos r] ∧ Sequence info sec rels pos pre ∧
        get32 sec pos = 0 ∧ pos + 4 ≤ sec.contents.length := by
  fun_induction parseFrom info sec rels rsec buf rel l with
  | case1 buf rel l hend =>
    cases h
    obtain rfl : buf = sec.contents.length := by omega
    exact .inl hl
  | case2 buf rel l hlt hlen hzero hwords =>
    cases h
    exact .inr ⟨l, buf, rel, rfl, hl, hzero, by omega⟩
  | case3 => cases h
  | case4 buf rel l hlt hlen hzero ih =>
    obtain ⟨⟨l', rel'⟩, hentry, h⟩ := Option.bind_eq_some_iff.mp h
    exact ih l' rel' (parseEntry_sequence hs hlen hl hentry) hlen h
  | case5 => cases h

theorem terminator_parsed (pos r : Nat) : Parsed info sec rels (terminator pos r) := by
  refine ⟨fun h => absurd rfl h, ?_, ?_, ?_, ?_, fun i _ h => absurd rfl h, ?_⟩
  · intro h
    cases h
  · intro u full h
    cases h
  · intro u full h
    cases h
  · intro u full r h
    cases h
  · intro locs h
    cases h

/-- The contents of a section as they are read. -/
def contentsOf (sec : EhSec) : Contents := fun p => ⟨sec.contents.getD p 0, some p⟩

theorem zero_of_get32 {pos k : Nat} (hpos : pos + 4 ≤ sec.contents.length) (h : get32 sec pos = 0)
    (hk : k < 4) : sec.contents.getD (pos + k) 0 = 0 := by
  have hget : ((sec.contents.drop pos).take 4)[k]? = sec.contents[pos + k]? := by
    rw [List.getElem?_take_of_lt hk, List.getElem?_drop]
  have hmem : sec.contents.getD (pos + k) 0 ∈ (sec.contents.drop pos).take 4 := by
    rw [List.getD_eq_getElem?_getD, ← hget, List.getElem?_eq_getElem]
    · exact List.getElem_mem _
    · rw [List.length_take, List.length_drop]
      omega
  apply Endian.eq_zero_of_get h
  rw [Bytes.slice, Nat.add_sub_cancel_left]
  exact hmem

/-- The entries of an accepted section. -/
theorem parseEhFrame_spec (h : parseEhFrame info sec rels rsec = some l) :
    sec.contents.length < 2 ^ 32 ∧ (∀ e ∈ l, Parsed info sec rels e) ∧
      Sectioned (contentsOf sec) l ∧ ∀ e ∈ l, e.offset + e.size ≤ sec.contents.length := by
  obtain ⟨_, hguard, h⟩ := Option.bind_eq_some_iff.mp h
  obtain ⟨count, -, h⟩ := Option.bind_eq_some_iff.mp h
  obtain ⟨-, -, hs, -⟩ := guard_eq_some hguard
  have hnil : Sequence info sec rels 0 [] := by
    refine ⟨?_, List.Pairwise.nil, ?_, ?_⟩
    all_goals
      intro e he
      cases he
  have hsized : ∀ {buf : Nat} {l : List Entry}, Sequence info sec rels buf l →
      ∀ e ∈ l, 4 ≤ e.size := by
    intro buf l hl e he
    have := (hl.parsed e he).sized (hl.proper e he)
    omega
  refine ⟨hs, ?_⟩
  rcases parseFrom_sequence hs hnil (Nat.zero_le _) h with hl | ⟨pre, pos, r, rfl, hpre, hzero, hpos⟩
  · refine ⟨hl.parsed, ⟨hl.apart, hsized hl, ?_, ?_⟩, hl.bound⟩
    · apply List.Pairwise.imp_of_mem ?_ hl.apart
      intro x y hx _ _
      exact hl.proper x hx
    · intro e he hfour
      exact absurd hfour (hl.proper e he)
  · have hcases : ∀ e ∈ pre ++ [terminator pos r], e ∈ pre ∨ e = terminator pos r := by
      intro e he
      rcases List.mem_append.mp he with he | he
      · exact .inl he
      · exact .inr (List.mem_singleton.mp he)
    refine ⟨?_, ⟨?_, ?_, ?_, ?_⟩, ?_⟩
    · intro e he
      rcases hcases e he with he | rfl
      · exact hpre.parsed e he
      · exact terminator_parsed pos r
    · refine List.pairwise_append.mpr ⟨hpre.apart, List.pairwise_singleton _ _, ?_⟩
      intro x hx y hy
      cases List.mem_singleton.mp hy
      exact hpre.bound x hx
    · intro e he
      rcases hcases e he with he | rfl
      · exact hsized hpre e he
      · exact le_rfl
    · refine List.pairwise_append.mpr ⟨?_, List.pairwise_singleton _ _, ?_⟩
      · apply List.Pairwise.imp_of_mem ?_ hpre.apart
        intro x y hx _ _
        exact hpre.proper x hx
      · intro x hx y hy
        exact hpre.proper x hx
    · intro e he hfour k hk
      rcases hcases e he with he | rfl
      · exact absurd hfour (hpre.proper e he)
      · exact zero_of_get32 hpos hzero hk
    · intro e he
      rcases hcases e he with he | rfl
      · have := hpre.bound e he
        omega
      · exact hpos

end entry

/-! The run over the section. -/

section run
variable {info : LinkInfo} {sec : EhSec} {rels : Rels} {rsec : Rela → Option Nat} {b : Bytes}
  {offset hdrLength relocIndex start rel rel' hdrId buf : Nat} {e : Entry}
  {entries entries' l : List Entry} {P : Entry → Prop}

theorem parseFde_kind (h : parseFde sec rels rsec b entries offset hdrLength relocIndex start rel
    hdrId = some (entries', rel')) : ∃ e, (entries' = entries ++ [e] ∨
      ∃ n, entries' = entries.modify n Entry.setMakeLsdaRelative ++ [e]) ∧ ∃ i, e.kind = .fde i := by
  obtain ⟨⟨i, inf, u, cie⟩, -, h⟩ := Option.bind_eq_some_iff.mp h
  obtain ⟨rel₁, -, h⟩ := Option.bind_eq_some_iff.mp h
  obtain ⟨_, -, h⟩ := Option.bind_eq_some_iff.mp h
  obtain ⟨p₁, -, h⟩ := Option.bind_eq_some_iff.mp h
  obtain ⟨⟨size, p₂⟩, -, h⟩ := Option.bind_eq_some_iff.mp h
  obtain ⟨insns, -, h⟩ := Option.bind_eq_some_iff.mp h
  obtain ⟨⟨insnsEnd, setLocCount⟩, -, h⟩ := Option.bind_eq_some_iff.mp h
  obtain ⟨setLoc, -, h⟩ := Option.bind_eq_some_iff.mp h
  obtain ⟨hlist, -⟩ := Prod.mk.inj (Option.some.inj h)
  rw [← hlist]
  generalize (_ && _ && _ : Bool) = marked
  cases marked
  · refine ⟨_, .inl rfl, ?_⟩
    exact ⟨_, rfl⟩
  · refine ⟨_, .inr ⟨i, rfl⟩, ?_⟩
    exact ⟨_, rfl⟩

/-- What holds of every CIE where it is parsed, and of FDEs, holds of all entries, if it does not
depend on what FDEs want. -/
theorem parseFrom_forall
    (hcie : ∀ buf rel e rel', buf + 4 + get32 sec buf ≤ sec.contents.length →
      get32 sec (buf + 4) = 0 → 4 ≤ get32 sec buf →
      parseCie info sec rels ⟨sec.contents, buf + 4 + get32 sec buf⟩ buf (get32 sec buf) rel (buf + 8)
        rel = some (e, rel') → P e)
    (hfde : ∀ e i, e.kind = .fde i → P e) (hmark : ∀ e, P e → P e.setMakeLsdaRelative)
    (hs : sec.contents.length < 2 ^ 32) (hl : ∀ e ∈ l, P e)
    (h : parseFrom info sec rels rsec buf rel l = some entries) : ∀ e ∈ entries, P e := by
  have hsnoc : ∀ {l : List Entry} {e : Entry}, (∀ e ∈ l, P e) → P e → ∀ e' ∈ l ++ [e], P e' := by
    intro l e hl he e' he'
    rcases List.mem_append.mp he' with he' | he'
    · exact hl e' he'
    · cases List.mem_singleton.mp he'
      exact he
  fun_induction parseFrom info sec rels rsec buf rel l with
  | case1 =>
    cases h
    exact hl
  | case2 =>
    cases h
    exact hsnoc hl (hfde _ _ rfl)
  | case3 => cases h
  | case4 buf rel l hlt hlen hzero ih =>
    obtain ⟨⟨l', rel'⟩, hentry, h⟩ := Option.bind_eq_some_iff.mp h
    refine ih l' rel' ?_ h
    obtain ⟨start, hstart, hentry⟩ := Option.bind_eq_some_iff.mp hentry
    have hbody := Bytes.le_of_skipBytes hstart
    have hle := Bytes.skipBytes_le (Nat.le_add_right _ _)
      (show buf + 4 + get32 sec buf < 2 ^ 64 by omega) hstart
    dsimp only at hentry hle
    split at hentry
    · next hid =>
      obtain ⟨⟨e, rel''⟩, he, hentry⟩ := Option.bind_eq_some_iff.mp hentry
      cases hentry
      obtain rfl : start = buf + 8 := by omega
      exact hsnoc hl (hcie buf rel e rel'' hlen hid (by omega) he)
    · obtain ⟨e, hlist, i, hkind⟩ := parseFde_kind hentry
      rcases hlist with rfl | ⟨n, rfl⟩
      · exact hsnoc hl (hfde e i hkind)
      · refine hsnoc ?_ (hfde e i hkind)
        intro e' he'
        rcases mem_modify he' with he' | ⟨y, hy, rfl⟩
        · exact hl e' he'
        · exact hmark y (hl y hy)
  | case5 => cases h

end run

end FusionBinutils.Bfd.EhFrame
