import FusionBinutils.Gas.EhOpt

/-! An advance that was made shorter is still the same advance. -/
namespace FusionBinutils.Gas.EhOpt

variable {kind : SectionKind} {env env₁ env₂ : Env} {d : FrameData} {s : Section} {exp : ExpressionS}
  {v diff : Vma} {x : BitVec 32} {op : BfdByte} {bytes rest : List BfdByte} {k n : Nat}

/-- The operand of an advance. -/
def takeOperand (n : Nat) (rest : List BfdByte) : Option (Nat × List BfdByte) :=
  if n ≤ rest.length then some (Endian.get true (rest.take n), rest.drop n) else none

/-- An instruction that advances the location, as a reader of the frames sees it: the distance and
what follows. -/
def decodeAdvance : List BfdByte → Option (Nat × List BfdByte)
  | [] => none
  | op :: rest =>
    if op &&& 0xc0 = dwCfaAdvanceLoc then some ((op &&& 0x3f).toNat, rest)
    else if op = dwCfaAdvanceLoc1 then takeOperand 1 rest
    else if op = dwCfaAdvanceLoc2 then takeOperand 2 rest
    else if op = dwCfaAdvanceLoc4 then takeOperand 4 rest
    else none

/-- The bytes are an advance by the value. -/
def Says (bytes : List BfdByte) (v : Vma) : Prop :=
  decodeAdvance bytes = some (v.toNat % 2 ^ 32, [])

/-- The values that survive: a negative one does if its low half is a short advance. -/
def Survives (v : Vma) : Prop := 0 ≤ v.toInt ∨ v.toNat % 2 ^ 32 < 0x40

/-- A constant for `emit_expr`. -/
def constant (n : Vma) : ExpressionS := ⟨.constant, n, ⟨0, false, .other, 0⟩, ⟨0, false, .other, 0⟩⟩

/-- `.byte 4` followed by a directive of four bytes. -/
def emitAdvance (kind : SectionKind) (env₁ env₂ : Env) (d : FrameData) (s : Section)
    (exp : ExpressionS) : Checked :=
  let c := emitExpr kind env₁ d s (constant (dwCfaAdvanceLoc4.setWidth 64)) 1
  emitExpr kind env₂ c.data c.sect exp 4

/-- The byte is taken for an opcode, and its operand stands before the end of the CIE or FDE. -/
def Recognised (kind : SectionKind) (env₁ env₂ : Env) (d : FrameData) : Prop :=
  kind ≠ .plain ∧ (endOfSize env₁ d).state = .waitLoc4 ∧ env₂.defined d.sizeEndSym = false

/-! Encodings of an advance. -/

/-- A single byte is an advance unless it has the bit above those of the opcode. -/
theorem decode_single (w : BfdByte) : decodeAdvance [0x40#8 ||| w] =
    if w.toNat < 128 then some (w.toNat % 64, []) else none := by
  revert w
  decide +kernel

theorem decode_operand (h : op = dwCfaAdvanceLoc1 ∧ n = 1 ∨ op = dwCfaAdvanceLoc2 ∧ n = 2 ∨
    op = dwCfaAdvanceLoc4 ∧ n = 4) (v : Vma) :
    decodeAdvance (op :: Endian.put true n v.toNat) = some (v.toNat % 256 ^ n, []) := by
  have htake : takeOperand n (Endian.put true n v.toNat) = some (v.toNat % 256 ^ n, []) := by
    have hlen := Endian.length_put true n v.toNat
    rw [takeOperand, if_pos hlen.ge, List.take_of_length_le hlen.le, List.drop_of_length_le hlen.le,
      Endian.get_put]
  rcases h with ⟨rfl, rfl⟩ | ⟨rfl, rfl⟩ | ⟨rfl, rfl⟩
  · exact htake
  · exact htake
  · exact htake

/-- The opcode with the distance in it says what it should exactly for the values that survive. -/
theorem says_short_iff (h : v.toInt < 0x40) :
    Says [(dwCfaAdvanceLoc.setWidth 64 ||| v).setWidth 8] v ↔ Survives v := by
  have hbyte : (dwCfaAdvanceLoc.setWidth 64 ||| v).setWidth 8 = 0x40#8 ||| v.setWidth 8 := by
    rw [BitVec.setWidth_or]
    rfl
  have hv := v.isLt
  have hw : (v.setWidth 8).toNat = v.toNat % 2 ^ 8 := BitVec.toNat_setWidth 8 v
  rw [BitVec.toInt_eq_toNat_cond] at h
  rw [Says, hbyte, decode_single, Survives, hw, BitVec.toInt_eq_toNat_cond]
  constructor
  · intro he
    split at he
    · have := (Prod.mk.inj (Option.some.inj he)).1
      split <;> omega
    · cases he
  · intro hs
    rw [if_pos (by split at hs <;> omega)]
    congr 2
    split at h <;> split at hs <;> omega

theorem says_operand (h : op = dwCfaAdvanceLoc1 ∧ n = 1 ∨ op = dwCfaAdvanceLoc2 ∧ n = 2 ∨
    op = dwCfaAdvanceLoc4 ∧ n = 4) (hlt : n < 4 → v.toNat < 256 ^ n) :
    Says (op :: Endian.put true n v.toNat) v := by
  rw [Says, decode_operand h]
  congr 2
  rcases h with ⟨-, rfl⟩ | ⟨-, rfl⟩ | ⟨-, rfl⟩
  · have := hlt (by decide)
    omega
  · have := hlt (by decide)
    omega
  · rfl

/-- A value at or above a positive bound is not negative. -/
theorem toNat_of_toInt_ge (h : 0 ≤ v.toInt) : v.toInt = v.toNat := by
  rw [BitVec.toInt_eq_toNat_cond] at h ⊢
  have := v.isLt
  split at h <;> omega

/-! The bytes of a section. -/

@[simp]
theorem bytes_fragNew (s : Section) : s.fragNew.bytes = s.bytes := by
  simp [Section.fragNew, Section.bytes]

@[simp]
theorem bytes_fragGrow (s : Section) (k : Nat) : (s.fragGrow k).bytes = s.bytes := by
  induction k generalizing s with
  | zero => rfl
  | succ k ih => rw [Section.fragGrow, ih, bytes_fragNew]

@[simp]
theorem bytes_emit (s : Section) (k : Nat) (bytes : List BfdByte) :
    (s.emit k bytes).bytes = s.bytes ++ bytes := by
  rw [← bytes_fragGrow s k]
  simp [Section.emit, Section.bytes]

/-- The frags before the last opcode, and what stands before it in its frag. -/
structure AtOpcode (s s₁ : Section) (c : FrameData) : Prop where
  frag : c.loc4Frag = s₁.frags.length
  now : ∃ front, s₁.now = front ++ [dwCfaAdvanceLoc4] ∧ c.loc4Fix = front.length ∧
    s.bytes = s₁.frags.flatMap FragS.frLiteral ++ front

theorem endOfSize_of_state (env : Env) (d : FrameData) (h : (endOfSize env d).state ≠ .idle) : endOfSize env d = d := by
  unfold endOfSize at h ⊢
  split_ifs with hend
  · rw [if_pos hend] at h
    exact absurd rfl h
  · rfl

theorem endOfSize_ne_sawLoc4 (env : Env) (h : d.state ≠ .sawLoc4) :
    (endOfSize env d).state ≠ .sawLoc4 := by
  unfold endOfSize
  split_ifs
  · intro he
    cases he
  · exact h

theorem seeAugSize_ne_sawLoc4 (d : FrameData) (exp : ExpressionS) (nbytes : BitVec 32)
    (h : d.state ≠ .sawLoc4) : (seeAugSize d exp nbytes).state ≠ .sawLoc4 := by
  unfold seeAugSize
  dsimp only
  split_ifs <;> simp_all

theorem skipAug_ne_sawLoc4 (d : FrameData) (nbytes : BitVec 32) (h : d.state ≠ .sawLoc4) :
    (skipAug d nbytes).state ≠ .sawLoc4 := by
  unfold skipAug
  dsimp only
  split_ifs <;> simp_all

theorem sawPcBegin_ne_sawLoc4 (kind : SectionKind) (env : Env) (d : FrameData) (s : Section) :
    (sawPcBegin kind env d s).state ≠ .sawLoc4 := by
  unfold sawPcBegin
  dsimp only
  split
  · simp
  · split_ifs <;> simp

/-- A call that is neither at the opcode of an advance nor at its operand changes the state at
most, and nothing waits for an operand afterwards. -/
theorem check_passive (env : Env) (s : Section) (exp : ExpressionS) {nbytes : BitVec 32}
    (hkind : kind ≠ .plain) (hsaw : (endOfSize env d).state = .sawLoc4 → nbytes ≠ 4)
    (hwait : (endOfSize env d).state = .waitLoc4 → nbytes ≠ 1) :
    ∃ d', checkEhFrame kind env d s exp nbytes = ⟨d', s, nbytes, false, false, none⟩ ∧
      d'.state ≠ .sawLoc4 := by
  simp only [checkEhFrame, if_neg hkind]
  split
  · next h =>
    refine ⟨_, rfl, ?_⟩
    unfold sawIdle
    split_ifs
    · simp
    · simp [h]
  · exact ⟨_, rfl, by simp⟩
  · exact ⟨_, rfl, by simp⟩
  · exact ⟨_, rfl, sawPcBegin_ne_sawLoc4 _ _ _ _⟩
  · next h => exact ⟨_, rfl, seeAugSize_ne_sawLoc4 _ _ _ (by simp [h])⟩
  · next h => exact ⟨_, rfl, skipAug_ne_sawLoc4 _ _ (by simp [h])⟩
  · next h =>
    rw [waitLoc4, if_neg fun he => hwait h he.1]
    exact ⟨_, rfl, by simp [h]⟩
  · next h =>
    rw [sawLoc4, if_pos (hsaw h)]
    exact ⟨_, rfl, by simp⟩
  · next h => exact ⟨_, rfl, by simp [h]⟩

theorem emit_passive {d' : FrameData} {nbytes : BitVec 32}
    (h : checkEhFrame kind env d s exp nbytes = ⟨d', s, nbytes, false, false, none⟩) :
    emitExpr kind env d s exp nbytes = ⟨d', s.emit env.grow (Endian.put true nbytes.toNat
      (if exp.op = .constant then exp.addNumber.toNat else 0)), nbytes, false, false, none⟩ := by
  simp only [emitExpr, h]
  rfl

/-- What the byte of the opcode leaves. -/
structure OpcodeEmitted (kind : SectionKind) (env : Env) (d : FrameData) (s : Section)
    (c : Checked) : Prop where
  bytes : c.sect.bytes = s.bytes ++ [dwCfaAdvanceLoc4]
  passed : kind ≠ .plain → (endOfSize env d).state ≠ .waitLoc4 → c.data.state ≠ .sawLoc4
  seen : kind ≠ .plain → (endOfSize env d).state = .waitLoc4 → c.data.state = .sawLoc4 ∧
    AtOpcode s c.sect c.data ∧ c.data.sizeEndSym = d.sizeEndSym ∧ c.data.cieInfo = d.cieInfo

theorem emit_opcode (kind : SectionKind) (env : Env) (d : FrameData) (s : Section) :
    OpcodeEmitted kind env d s
      (emitExpr kind env d s (constant (dwCfaAdvanceLoc4.setWidth 64)) 1) := by
  by_cases hkind : kind = .plain
  · have hcheck : checkEhFrame kind env d s (constant (dwCfaAdvanceLoc4.setWidth 64)) 1 =
        ⟨d, s, 1, false, false, none⟩ := by
      rw [checkEhFrame, if_pos hkind]
    rw [emit_passive hcheck]
    exact ⟨bytes_emit _ _ _, fun h => absurd hkind h, fun h => absurd hkind h⟩
  · by_cases hwait : (endOfSize env d).state = .waitLoc4
    · have hd := endOfSize_of_state env d (by rw [hwait]; decide)
      rw [hd] at hwait
      have hemit : emitExpr kind env d s (constant (dwCfaAdvanceLoc4.setWidth 64)) 1 =
          ⟨{ d with state := .sawLoc4, loc4Frag := (s.fragGrow env.grow).frags.length
                    loc4Fix := (s.fragGrow env.grow).now.length },
            (s.fragGrow env.grow).emit 0 [dwCfaAdvanceLoc4], 1, true, false, none⟩ := by
        simp only [emitExpr, checkEhFrame, if_neg hkind, hd, hwait, waitLoc4]
        rfl
      rw [hemit]
      refine ⟨?_, ?_, ?_⟩
      · rw [bytes_emit, bytes_fragGrow]
      · intro _ hne
        rw [hd] at hne
        exact absurd hwait hne
      · intro _ _
        refine ⟨rfl, ⟨rfl, _, rfl, rfl, ?_⟩, rfl, rfl⟩
        exact (bytes_fragGrow s env.grow).symm
    · have hsize : (1 : BitVec 32) ≠ 4 := by decide
      obtain ⟨d', hcheck, hstate⟩ := check_passive env s (constant (dwCfaAdvanceLoc4.setWidth 64))
        hkind (fun _ => hsize) fun h => absurd h hwait
      rw [emit_passive hcheck]
      exact ⟨bytes_emit _ _ _, fun _ _ => hstate, fun _ h => absurd h hwait⟩

/-- The opcode is changed in its place. -/
theorem AtOpcode.patch_bytes {s₁ : Section} {c : FrameData} (h : AtOpcode s s₁ c) (op : BfdByte) :
    (s₁.patch c.loc4Frag c.loc4Fix op).bytes = s.bytes ++ [op] := by
  obtain ⟨hfrag, front, hnow, hfix, hbytes⟩ := h
  rw [Section.patch, if_pos hfrag, Section.bytes, hnow, hfix, hbytes]
  simp

/-! Constants. -/

/-- An operand that is a constant behind a recognised opcode. -/
theorem sawConstant_says {c : FrameData} {s₁ : Section} (h : AtOpcode s s₁ c) (env : Env)
    (hop : exp.op = .constant) (hsaw : c.state = .sawLoc4) (hkind : kind ≠ .plain)
    (hopen : env.defined c.sizeEndSym = false) :
    ∃ bytes, (emitExpr kind env c s₁ exp 4).sect.bytes = s.bytes ++ bytes ∧
      (Says bytes exp.addNumber ↔ Survives exp.addNumber) := by
  have hc : endOfSize env c = c := by
    rw [endOfSize, if_neg]
    rintro ⟨-, hdef⟩
    rw [hopen] at hdef
    cases hdef
  have hcheck : checkEhFrame kind env c s₁ exp 4 =
      sawConstant { c with state := .waitLoc4 } s₁ exp.addNumber 4 := by
    simp only [checkEhFrame, if_neg hkind, hc, hsaw, sawLoc4, hop]
    rfl
  have hbytes := h.patch_bytes
  simp only [emitExpr, hcheck, hop, if_true]
  by_cases h1 : exp.addNumber.toInt < 0x40
  · simp only [sawConstant, if_pos h1]
    exact ⟨_, hbytes _, says_short_iff h1⟩
  · have hnat := toNat_of_toInt_ge (show 0 ≤ exp.addNumber.toInt by omega)
    have hsurvives : Survives exp.addNumber := .inl (by omega)
    by_cases h2 : exp.addNumber.toInt < 0x100
    · simp only [sawConstant, if_neg h1, if_pos h2]
      refine ⟨dwCfaAdvanceLoc1 :: Endian.put true 1 exp.addNumber.toNat, ?_, ?_⟩
      · simp [hbytes]
      · refine iff_of_true (says_operand (.inl ⟨rfl, rfl⟩) fun _ => ?_) hsurvives
        omega
    · by_cases h3 : exp.addNumber.toInt < 0x10000
      · simp only [sawConstant, if_neg h1, if_neg h2, if_pos h3]
        refine ⟨dwCfaAdvanceLoc2 :: Endian.put true 2 exp.addNumber.toNat, ?_, ?_⟩
        · simp [hbytes]
        · refine iff_of_true (says_operand (.inr (.inl ⟨rfl, rfl⟩)) fun _ => ?_) hsurvives
          omega
      · simp only [sawConstant, if_neg h1, if_neg h2, if_neg h3]
        obtain ⟨-, front, hnow, -, hfront⟩ := h
        refine ⟨dwCfaAdvanceLoc4 :: Endian.put true 4 exp.addNumber.toNat, ?_, ?_⟩
        · rw [if_neg (by decide), bytes_emit, Section.bytes, hnow, hfront]
          simp
        · refine iff_of_true (says_operand (.inr (.inr ⟨rfl, rfl⟩)) fun h => ?_) hsurvives
          omega

/-- An operand that nothing waits for is stored as it is. -/
theorem operand_passive {c : Checked} (env₂ : Env) (exp : ExpressionS)
    (h : OpcodeEmitted kind env₁ d s c)
    (hno : ¬ Recognised kind env₁ env₂ d) : ∃ d', checkEhFrame kind env₂ c.data c.sect exp 4 =
      ⟨d', c.sect, 4, false, false, none⟩ := by
  by_cases hkind : kind = .plain
  · exact ⟨c.data, by rw [checkEhFrame, if_pos hkind]⟩
  · have hstate : (endOfSize env₂ c.data).state ≠ .sawLoc4 := by
      by_cases hwait : (endOfSize env₁ d).state = .waitLoc4
      · obtain ⟨hsaw, -, hsym, -⟩ := h.seen hkind hwait
        have hdef : env₂.defined c.data.sizeEndSym = true := by
          rw [hsym]
          by_contra hdef
          exact hno ⟨hkind, hwait, by simpa using hdef⟩
        rw [endOfSize, if_pos ⟨by rw [hsaw]; decide, hdef⟩]
        intro he
        cases he
      · exact endOfSize_ne_sawLoc4 env₂ (h.passed hkind hwait)
    have hsize : (4 : BitVec 32) ≠ 1 := by decide
    obtain ⟨d', hcheck, -⟩ := check_passive env₂ c.sect exp hkind (fun h => absurd h hstate)
      fun _ => hsize
    exact ⟨d', hcheck⟩

/-- The advance by a constant is kept exactly if it was not recognised, or survives. -/
theorem constant_kept_iff (kind : SectionKind) (env₁ env₂ : Env) (d : FrameData) (s : Section)
    (hop : exp.op = .constant) :
    (∃ bytes, (emitAdvance kind env₁ env₂ d s exp).sect.bytes = s.bytes ++ bytes ∧
      Says bytes exp.addNumber) ↔ (Recognised kind env₁ env₂ d → Survives exp.addNumber) := by
  have hopcode := emit_opcode kind env₁ d s
  unfold emitAdvance
  dsimp only
  generalize emitExpr kind env₁ d s (constant (dwCfaAdvanceLoc4.setWidth 64)) 1 = c at hopcode ⊢
  by_cases hrec : Recognised kind env₁ env₂ d
  · obtain ⟨hkind, hwait, hopen⟩ := hrec
    obtain ⟨hsaw, hat, hsym, -⟩ := hopcode.seen hkind hwait
    obtain ⟨bytes, hbytes, hiff⟩ := sawConstant_says hat env₂ hop hsaw hkind (by rwa [hsym])
    rw [imp_iff_right ⟨hkind, hwait, hopen⟩, ← hiff]
    constructor
    · rintro ⟨bytes', hbytes', hsays⟩
      rwa [List.append_cancel_left (hbytes.symm.trans hbytes')]
    · intro hsays
      exact ⟨bytes, hbytes, hsays⟩
  · refine iff_of_true ?_ fun h => absurd h hrec
    obtain ⟨d', hcheck⟩ := operand_passive env₂ exp hopcode hrec
    rw [emit_passive hcheck]
    refine ⟨dwCfaAdvanceLoc4 :: Endian.put true 4 exp.addNumber.toNat, ?_, ?_⟩
    · rw [bytes_emit, hopcode.bytes, if_pos hop, List.append_assoc]
      rfl
    · refine says_operand (.inr (.inr ⟨rfl, rfl⟩)) fun h => ?_
      omega

/-! Frags that wait for relaxation. -/

variable {ca i : Nat} {first : Vma} {passes : List Pass}

/-- The alignment and the length in a subtype. -/
structure Holds (x : BitVec 32) (ca n : Nat) : Prop where
  alignment : x >>> 3 = .ofNat 32 ca
  length : (x &&& 7).toNat = n

theorem lengthFor_le (v : Vma) : lengthFor v ≤ 4 := by
  unfold lengthFor
  split_ifs <;> decide

/-- The length is put below the alignment. -/
theorem holds_setLength {m : Nat} (h : Holds x ca m) (hn : n < 8) :
    Holds ((x &&& ~~~7) ||| .ofNat 32 n) ca n := by
  have hand : (x &&& ~~~7#32).toNat = x.toNat / 2 ^ 3 % 2 ^ 29 * 2 ^ 3 :=
    BitField.toNat_and_field 3 29 (by decide)
  have hlen : (BitVec.ofNat 32 n).toNat = n := by
    rw [BitVec.toNat_ofNat]
    omega
  have hor := BitField.toNat_or_high_low (b := BitVec.ofNat 32 n) 3 _ hand (by omega)
  have hx := x.isLt
  rw [hlen] at hor
  constructor
  · rw [← h.alignment]
    apply BitVec.eq_of_toNat_eq
    rw [BitVec.toNat_ushiftRight, BitVec.toNat_ushiftRight, Nat.shiftRight_eq_div_pow,
      Nat.shiftRight_eq_div_pow]
    change (x &&& ~~~7#32 ||| .ofNat 32 n).toNat / 2 ^ 3 = _
    rw [hor]
    omega
  · have hlow : (((x &&& ~~~7#32) ||| .ofNat 32 n) &&& 7#32).toNat =
        ((x &&& ~~~7#32) ||| .ofNat 32 n).toNat / 2 ^ 0 % 2 ^ 3 * 2 ^ 0 :=
      BitField.toNat_and_field 0 3 (by decide)
    rw [hor] at hlow
    change (((x &&& ~~~7#32) ||| .ofNat 32 n) &&& 7#32).toNat = n
    rw [hlow]
    omega

/-- The subtype that the frag is made with. -/
theorem holds_new (h : ca < 128) : Holds (BitVec.ofNat 32 ca <<< 3) ca 0 := by
  have hca : (BitVec.ofNat 32 ca).toNat = ca := by
    rw [BitVec.toNat_ofNat]
    omega
  have hshift : (BitVec.ofNat 32 ca <<< 3).toNat = ca * 8 := by
    rw [BitVec.toNat_shiftLeft, hca, Nat.shiftLeft_eq]
    omega
  constructor
  · apply BitVec.eq_of_toNat_eq
    rw [BitVec.toNat_ushiftRight, hshift, hca, Nat.shiftRight_eq_div_pow]
    omega
  · have hlow : ((BitVec.ofNat 32 ca <<< 3) &&& 7#32).toNat =
        (BitVec.ofNat 32 ca <<< 3).toNat / 2 ^ 0 % 2 ^ 3 * 2 ^ 0 :=
      BitField.toNat_and_field 0 3 (by decide)
    change ((BitVec.ofNat 32 ca <<< 3) &&& 7#32).toNat = 0
    rw [hlow, hshift]
    omega

/-- The advance that a frag stands for. -/
def advanceOf (ca : Nat) (diff : Vma) : Vma := diff.sdiv (.ofNat 64 ca)

theorem scaled_eq (h : Holds x ca n) (hca : 0 < ca ∧ ca < 128) (diff : Vma) :
    scaled x diff = some (advanceOf ca diff) := by
  have hne : BitVec.ofNat 32 ca ≠ 0 := by
    intro he
    have := congrArg BitVec.toNat he
    rw [BitVec.toNat_ofNat] at this
    change ca % 2 ^ 32 = 0 at this
    omega
  have hwide : (BitVec.ofNat 32 ca).setWidth 64 = BitVec.ofNat 64 ca := by
    apply BitVec.eq_of_toNat_eq
    rw [BitVec.toNat_setWidth, BitVec.toNat_ofNat, BitVec.toNat_ofNat]
    omega
  simp only [scaled, h.alignment, if_neg hne, hwide, advanceOf]

theorem estimate_spec (h : Holds x ca n) (hca : 0 < ca ∧ ca < 128) (diff : Vma) :
    ∃ y, estimateSizeBeforeRelax x diff = some (y, lengthFor (advanceOf ca diff)) ∧
      Holds y ca (lengthFor (advanceOf ca diff)) := by
  have hlt : lengthFor (advanceOf ca diff) < 8 := by
    have := lengthFor_le (advanceOf ca diff)
    omega
  rw [estimateSizeBeforeRelax, scaled_eq h hca]
  exact ⟨_, rfl, holds_setLength h hlt⟩

/-- A pass leaves the length for the difference that it saw, and has counted up to it. -/
theorem runPass_spec (h : Holds x ca n) (hca : 0 < ca ∧ ca < 128) (q : Pass) :
    ∃ y, runPass (x, n) q = some (y, (lengthFor (advanceOf ca q.diff) : Int)) ∧
      Holds y ca (lengthFor (advanceOf ca q.diff)) := by
  obtain ⟨y, hy, hholds⟩ := estimate_spec h hca q.diff
  refine ⟨y, ?_, hholds⟩
  cases q with
  | estimate diff =>
    simp only [runPass, Pass.diff] at hy ⊢
    rw [hy]
    rfl
  | relax diff =>
    simp only [runPass, relaxFrag, Pass.diff] at hy ⊢
    rw [hy]
    simp only [Option.map_some, h.length]
    congr 2
    omega

theorem runPasses_spec (hca : 0 < ca ∧ ca < 128) : ∀ (passes : List Pass) (first : Vma) (x : BitVec 32),
    Holds x ca (lengthFor (advanceOf ca first)) →
      ∃ y, passes.foldlM runPass (x, (lengthFor (advanceOf ca first) : Int)) =
          some (y, (lengthFor (advanceOf ca (lastDiff first passes)) : Int)) ∧
        Holds y ca (lengthFor (advanceOf ca (lastDiff first passes))) := by
  intro passes
  induction passes with
  | nil =>
    intro first x h
    exact ⟨x, rfl, h⟩
  | cons q qs ih =>
    intro first x h
    obtain ⟨y, hy, hholds⟩ := runPass_spec h hca q
    obtain ⟨z, hz, hlast⟩ := ih q.diff y hholds
    have hdiff : lastDiff first (q :: qs) = lastDiff q.diff qs := by
      rw [lastDiff, lastDiff, List.getLast?_cons]
      cases qs.getLast? <;> rfl
    rw [hdiff]
    refine ⟨z, ?_, hlast⟩
    rw [List.foldlM_cons, hy]
    exact hz

theorem relaxation_spec (h : Holds x ca n) (hca : 0 < ca ∧ ca < 128) (first : Vma)
    (passes : List Pass) : ∃ y, relaxation x first passes =
        some (y, (lengthFor (advanceOf ca (lastDiff first passes)) : Int)) ∧
      Holds y ca (lengthFor (advanceOf ca (lastDiff first passes))) := by
  obtain ⟨y, hy, hholds⟩ := estimate_spec h hca first
  obtain ⟨z, hz, hlast⟩ := runPasses_spec hca passes first y hholds
  refine ⟨z, ?_, hlast⟩
  rw [relaxation, List.foldlM_cons]
  simp only [runPass, hy]
  exact hz

/-- What is written for the length that relaxation has found. -/
theorem convertAdvance_spec (hca : 0 < ca ∧ ca < 128) (diff : Vma)
    (h : Holds x ca (lengthFor (advanceOf ca diff))) :
    ∃ op operand, convertAdvance x diff = some (op, operand) ∧
      operand.length = lengthFor (advanceOf ca diff) ∧
      (Says (op.getD dwCfaAdvanceLoc4 :: operand) (advanceOf ca diff) ↔
        Survives (advanceOf ca diff)) := by
  have hscaled := scaled_eq h hca diff
  have hlen := h.length
  generalize advanceOf ca diff = v at hscaled hlen ⊢
  simp only [convertAdvance, hscaled, Option.bind_eq_bind, Option.bind_some, hlen]
  by_cases h1 : v.toInt < 0x40
  · simp only [lengthFor, if_pos h1]
    exact ⟨_, _, rfl, rfl, says_short_iff h1⟩
  · have hnat := toNat_of_toInt_ge (show 0 ≤ v.toInt by omega)
    have hsurvives : Survives v := .inl (by omega)
    by_cases h2 : v.toInt < 0x100
    · simp only [lengthFor, if_neg h1, if_pos h2]
      have hput : Endian.put true 1 v.toNat = [v.setWidth 8] := by
        simp only [Endian.put, Endian.little, if_true, List.reverse_singleton]
        congr 1
        apply BitVec.eq_of_toNat_eq
        rw [BitVec.toNat_ofNat, BitVec.toNat_setWidth]
        omega
      refine ⟨_, _, rfl, rfl, iff_of_true ?_ hsurvives⟩
      rw [← hput]
      refine says_operand (.inl ⟨rfl, rfl⟩) fun _ => ?_
      omega
    · by_cases h3 : v.toInt < 0x10000
      · simp only [lengthFor, if_neg h1, if_neg h2, if_pos h3]
        refine ⟨_, _, rfl, Endian.length_put _ _ _, iff_of_true ?_ hsurvives⟩
        refine says_operand (.inr (.inl ⟨rfl, rfl⟩)) fun _ => ?_
        omega
      · simp only [lengthFor, if_neg h1, if_neg h2, if_neg h3]
        refine ⟨_, _, rfl, Endian.length_put _ _ _, iff_of_true ?_ hsurvives⟩
        refine says_operand (.inr (.inr ⟨rfl, rfl⟩)) fun h => ?_
        omega

/-! The frag in its section. -/

variable {front empties : List FragS} {later : List FragS} {now' : List BfdByte} {cfa : Cfa}

theorem modify_append (front : List FragS) (f : FragS) (rest : List FragS) (g : FragS → FragS) :
    (front ++ f :: rest).modify front.length g = front ++ g f :: rest := by
  induction front with
  | nil => rfl
  | cons e front ih => rw [List.cons_append, List.length_cons, List.modify_succ_cons, ih]; rfl

theorem set_append (front : List FragS) (f g : FragS) (rest : List FragS) :
    (front ++ f :: rest).set front.length g = front ++ g :: rest := by
  rw [List.set_append_right _ _ (Nat.le_refl _), Nat.sub_self, List.set_cons_zero]

theorem getElem?_append (front : List FragS) (f : FragS) (rest : List FragS) :
    (front ++ f :: rest)[front.length]? = some f := by
  rw [List.getElem?_append_right (Nat.le_refl _), Nat.sub_self, List.getElem?_cons_zero]

/-- The opcode is in the frag that waits, or in one before it, and the operand follows it. -/
inductive Waiting (s : Section) (cfa : Cfa) : List FragS → Nat → Prop where
  | same {front : List FragS} {pre : List BfdByte} (hfrag : cfa.loc4Frag = front.length)
      (hfix : cfa.loc4Fix = pre.length)
      (hbytes : s.bytes = front.flatMap FragS.frLiteral ++ pre) :
      Waiting s cfa (front ++ [⟨pre ++ [dwCfaAdvanceLoc4], some cfa⟩]) front.length
  | apart {front empties : List FragS} {pre : List BfdByte} (hfrag : cfa.loc4Frag = front.length)
      (hfix : cfa.loc4Fix = pre.length)
      (hbytes : s.bytes = front.flatMap FragS.frLiteral ++ pre)
      (hempty : empties.flatMap FragS.frLiteral = []) :
      Waiting s cfa (front ++ ⟨pre ++ [dwCfaAdvanceLoc4], none⟩ :: (empties ++ [⟨[], some cfa⟩]))
        (front.length + 1 + empties.length)

theorem fragGrow_empty (front : List FragS) (k : Nat) : ∃ empties,
    Section.fragGrow ⟨front, []⟩ k = ⟨front ++ empties, []⟩ ∧
      empties.flatMap FragS.frLiteral = [] := by
  induction k generalizing front with
  | zero => exact ⟨[], by rw [List.append_nil]; rfl, rfl⟩
  | succ k ih =>
    obtain ⟨empties, hgrow, hempty⟩ := ih (front ++ [⟨[], none⟩])
    refine ⟨⟨[], none⟩ :: empties, ?_, ?_⟩
    · rw [Section.fragGrow, Section.fragNew, hgrow, List.append_assoc]
      rfl
    · rw [List.flatMap_cons, hempty]
      rfl

theorem AtOpcode.waiting {s₁ : Section} {c : FrameData} (h : AtOpcode s s₁ c) (k : Nat)
    (subtype : BitVec 32) :
    Waiting s ⟨subtype, c.loc4Frag, c.loc4Fix⟩
        (s₁.fragVar k ⟨subtype, c.loc4Frag, c.loc4Fix⟩).frags
        ((s₁.fragVar k ⟨subtype, c.loc4Frag, c.loc4Fix⟩).frags.length - 1) ∧
      (s₁.fragVar k ⟨subtype, c.loc4Frag, c.loc4Fix⟩).now = [] := by
  obtain ⟨hfrag, pre, hnow, hfix, hbytes⟩ := h
  refine ⟨?_, rfl⟩
  cases k with
  | zero =>
    rw [Section.fragVar, Section.fragGrow, hnow]
    dsimp only
    rw [List.length_append, List.length_singleton, Nat.add_sub_cancel]
    exact .same hfrag hfix hbytes
  | succ k =>
    obtain ⟨empties, hgrow, hempty⟩ := fragGrow_empty (s₁.frags ++ [⟨s₁.now, none⟩]) k
    rw [Section.fragVar, Section.fragGrow, Section.fragNew, hgrow, hnow]
    dsimp only
    have happend : ∀ f g : FragS, s₁.frags ++ [f] ++ empties ++ [g] =
        s₁.frags ++ f :: (empties ++ [g]) := by simp
    have hlen : ∀ f g : FragS, (s₁.frags ++ f :: (empties ++ [g])).length - 1 =
        s₁.frags.length + 1 + empties.length := by
      intro f g
      simp only [List.length_append, List.length_cons, List.length_nil]
      omega
    rw [happend, hlen]
    exact .apart hfrag hfix hbytes hempty

/-- The opcode after conversion, changed or not. -/
theorem patch_opcode (front : List FragS) (pre : List BfdByte) (c : Option Cfa) (rest : List FragS)
    (now' : List BfdByte) (op : Option BfdByte) :
    Section.patchIf ⟨front ++ ⟨pre ++ [dwCfaAdvanceLoc4], c⟩ :: rest, now'⟩ front.length pre.length op =
      ⟨front ++ ⟨pre ++ [op.getD dwCfaAdvanceLoc4], c⟩ :: rest, now'⟩ := by
  cases op with
  | none => rfl
  | some op =>
    have hne : front.length ≠
        (front ++ FragS.mk (pre ++ [dwCfaAdvanceLoc4]) c :: rest).length := by simp
    dsimp only [Section.patchIf, Section.patch]
    rw [if_neg hne, modify_append]
    simp

/-- Relaxation and conversion put the opcode and the operand behind the bytes before them. -/
theorem Waiting.converted {frags : List FragS} {i : Nat} (h : Waiting s cfa frags i)
    {first : Vma} {passes : List Pass} {diff : Vma} {y : BitVec 32} {size : Int}
    {op : Option BfdByte} {operand : List BfdByte}
    (hrelax : relaxation cfa.frSubtype first passes = some (y, size))
    (hconvert : convertAdvance y diff = some (op, operand)) (later : List FragS)
    (now' : List BfdByte) : ∃ s₄ s₅, relaxCfa ⟨frags ++ later, now'⟩ i first passes = some (s₄, size) ∧
      convertFrag s₄ i diff = some s₅ ∧ s₅.bytes = s.bytes ++ op.getD dwCfaAdvanceLoc4 :: operand ++
        (later.flatMap FragS.frLiteral ++ now') := by
  cases h with
  | @same front pre hfrag hfix hbytes =>
    rw [List.append_assoc, List.singleton_append]
    refine ⟨⟨front ++ ⟨pre ++ [dwCfaAdvanceLoc4], some { cfa with frSubtype := y }⟩ :: later, now'⟩,
      ⟨front ++ ⟨pre ++ [op.getD dwCfaAdvanceLoc4] ++ operand, none⟩ :: later, now'⟩, ?_, ?_, ?_⟩
    · simp only [relaxCfa, getElem?_append, Option.bind_eq_bind, Option.bind_some, hrelax, set_append]
    · simp only [convertFrag, getElem?_append, Option.bind_eq_bind, Option.bind_some, hconvert, hfrag,
        hfix]
      rw [patch_opcode, modify_append]
    · rw [Section.bytes, hbytes]
      simp
  | @apart front empties pre hfrag hfix hbytes hempty =>
    -- the frag that waits, behind that of the opcode
    have hsplit : ∀ (f : FragS) (g : FragS), front ++ f :: (empties ++ [g]) ++ later =
        (front ++ f :: empties) ++ g :: later := by simp
    have hlen : ∀ f : FragS, front.length + 1 + empties.length = (front ++ f :: empties).length := by
      intro f
      simp only [List.length_append, List.length_cons]
      omega
    have hjoin : ∀ (f : FragS) (g : FragS), (front ++ f :: empties) ++ g :: later =
        front ++ f :: (empties ++ g :: later) := by simp
    refine ⟨⟨(front ++ ⟨pre ++ [dwCfaAdvanceLoc4], none⟩ :: empties) ++
        ⟨[], some { cfa with frSubtype := y }⟩ :: later, now'⟩,
      ⟨(front ++ ⟨pre ++ [op.getD dwCfaAdvanceLoc4], none⟩ :: empties) ++ ⟨operand, none⟩ :: later, now'⟩,
      ?_, ?_, ?_⟩
    · rw [hsplit, hlen ⟨pre ++ [dwCfaAdvanceLoc4], none⟩]
      simp only [relaxCfa, getElem?_append, Option.bind_eq_bind, Option.bind_some, hrelax, set_append]
    · rw [hlen ⟨pre ++ [dwCfaAdvanceLoc4], none⟩]
      simp only [convertFrag, getElem?_append, Option.bind_eq_bind, Option.bind_some, hconvert, hfrag,
        hfix]
      rw [hjoin, patch_opcode, ← hlen ⟨pre ++ [dwCfaAdvanceLoc4], none⟩,
        hlen ⟨pre ++ [op.getD dwCfaAdvanceLoc4], none⟩, ← hjoin, modify_append, List.nil_append]
    · rw [Section.bytes, hbytes]
      simp [hempty]

theorem emitExpr_made (kind : SectionKind) (env : Env) (d : FrameData) (s : Section)
    (exp : ExpressionS) (nbytes : BitVec 32) :
    (emitExpr kind env d s exp nbytes).made = (checkEhFrame kind env d s exp nbytes).made := by
  unfold emitExpr
  dsimp only
  split <;> rfl

/-- The frag that is set up holds the code alignment and the place of the opcode. -/
theorem sawLoc4_made {c : FrameData} {i : Nat} (h : (sawLoc4 env c s exp 4).made = some i) :
    0 < c.cieInfo.codeAlignment ∧ sawLoc4 env c s exp 4 =
      let s := s.fragVar env.grow
        ⟨BitVec.ofNat 32 c.cieInfo.codeAlignment <<< 3, c.loc4Frag, c.loc4Fix⟩
      ⟨{ c with state := .waitLoc4 }, s, 4, true, true, some (s.frags.length - 1)⟩ := by
  have hsize : ¬ (4 : BitVec 32) ≠ 4 := not_not.2 rfl
  by_cases hconst : exp.op = .constant
  · simp only [sawLoc4, if_neg hsize, if_pos hconst, sawConstant] at h
    split_ifs at h
  · by_cases hsub : exp.op = .subtract ∧ c.cieInfo.codeAlignment = 1
    · refine ⟨by omega, ?_⟩
      simp only [sawLoc4, if_neg hsize, if_neg hconst, if_pos hsub]
      rw [hsub.2]
    · by_cases hdiv : dividesByAlignment { c with state := .waitLoc4 } exp = true
      · have hca : 1 < c.cieInfo.codeAlignment := by
          simp only [dividesByAlignment, decide_eq_true_eq] at hdiv
          exact hdiv.2.1
        refine ⟨by omega, ?_⟩
        simp only [sawLoc4, if_neg hsize, if_neg hconst, if_neg hsub, if_pos hdiv]
      · simp only [sawLoc4, if_neg hsize, if_neg hconst, if_neg hsub, if_neg hdiv] at h
        cases h

/-- An operand that has to wait for relaxation. -/
def Deferred (d : FrameData) (exp : ExpressionS) : Prop :=
  exp.op = .subtract ∧ d.cieInfo.codeAlignment = 1 ∨ dividesByAlignment d exp = true

theorem sawLoc4_made_iff {c : FrameData} :
    (∃ i, (sawLoc4 env c s exp 4).made = some i) ↔ Deferred c exp := by
  have hsize : ¬ (4 : BitVec 32) ≠ 4 := not_not.2 rfl
  have hdata : dividesByAlignment { c with state := .waitLoc4 } exp = dividesByAlignment c exp := rfl
  by_cases hconst : exp.op = .constant
  · refine iff_of_false ?_ ?_
    · rintro ⟨i, h⟩
      simp only [sawLoc4, if_neg hsize, if_pos hconst, sawConstant] at h
      split_ifs at h
    · rintro (⟨h, -⟩ | h)
      · rw [hconst] at h
        cases h
      · simp [dividesByAlignment, hconst] at h
  · simp only [sawLoc4, if_neg hsize, if_neg hconst, Deferred, hdata]
    by_cases hsub : exp.op = .subtract ∧ c.cieInfo.codeAlignment = 1
    · rw [if_pos hsub]
      exact iff_of_true ⟨_, rfl⟩ (.inl hsub)
    · rw [if_neg hsub]
      by_cases hdiv : dividesByAlignment c exp = true
      · rw [if_pos hdiv]
        exact iff_of_true ⟨_, rfl⟩ (.inr hdiv)
      · rw [if_neg hdiv]
        refine iff_of_false ?_ fun h => h.elim hsub hdiv
        rintro ⟨i, h⟩
        cases h

/-- The operand of a recognised opcode comes to its case. -/
theorem operand_recognised {c : Checked} (env₂ : Env) (exp : ExpressionS)
    (h : OpcodeEmitted kind env₁ d s c) (hrec : Recognised kind env₁ env₂ d) :
    checkEhFrame kind env₂ c.data c.sect exp 4 = sawLoc4 env₂ c.data c.sect exp 4 := by
  obtain ⟨hkind, hwait, hopen⟩ := hrec
  obtain ⟨hsaw, -, hsym, -⟩ := h.seen hkind hwait
  have hc : endOfSize env₂ c.data = c.data := by
    rw [endOfSize, if_neg]
    rintro ⟨-, hdef⟩
    rw [hsym, hopen] at hdef
    cases hdef
  simp only [checkEhFrame, if_neg hkind, hc, hsaw]

/-- Only a recognised opcode makes a frag that waits. -/
theorem emitAdvance_made {i : Nat} (h : (emitAdvance kind env₁ env₂ d s exp).made = some i) :
    (0 < d.cieInfo.codeAlignment) ∧ ∃ cfa : Cfa,
      cfa.frSubtype = BitVec.ofNat 32 d.cieInfo.codeAlignment <<< 3 ∧
      Waiting s cfa (emitAdvance kind env₁ env₂ d s exp).sect.frags i ∧
      (emitAdvance kind env₁ env₂ d s exp).sect.now = [] := by
  have hopcode := emit_opcode kind env₁ d s
  unfold emitAdvance at h ⊢
  dsimp only at h ⊢
  generalize emitExpr kind env₁ d s (constant (dwCfaAdvanceLoc4.setWidth 64)) 1 = c at hopcode h ⊢
  by_cases hrec : Recognised kind env₁ env₂ d
  · have hcheck := operand_recognised env₂ exp hopcode hrec
    obtain ⟨-, hat, -, hinfo⟩ := hopcode.seen hrec.1 hrec.2.1
    rw [emitExpr_made, hcheck] at h
    obtain ⟨hca, hsaw⟩ := sawLoc4_made h
    obtain ⟨hwaiting, hnow⟩ := hat.waiting env₂.grow
      (BitVec.ofNat 32 c.data.cieInfo.codeAlignment <<< 3)
    rw [hsaw] at h hcheck
    obtain rfl := Option.some.inj h
    rw [← hinfo]
    refine ⟨hca, ⟨BitVec.ofNat 32 c.data.cieInfo.codeAlignment <<< 3, c.data.loc4Frag,
      c.data.loc4Fix⟩, rfl, ?_, ?_⟩
    · simp only [emitExpr, hcheck, if_true]
      exact hwaiting
    · simp only [emitExpr, hcheck, if_true]
      exact hnow
  · obtain ⟨d', hcheck⟩ := operand_passive env₂ exp hopcode hrec
    rw [emit_passive hcheck] at h
    cases h

/-- The advance that a frag stands for is kept exactly if it survives. Relaxation may look at the
frag any number of times, and anything may follow it in the section. -/
theorem relaxed_kept_iff {i : Nat} (h : (emitAdvance kind env₁ env₂ d s exp).made = some i)
    (later : List FragS) (now' : List BfdByte) (first : Vma) (passes : List Pass) :
    (∃ s₄ size s₅ op operand,
      relaxCfa ⟨(emitAdvance kind env₁ env₂ d s exp).sect.frags ++ later, now'⟩ i first passes =
        some (s₄, size) ∧
      convertFrag s₄ i (lastDiff first passes) = some s₅ ∧
      s₅.bytes = s.bytes ++ op :: operand ++ (later.flatMap FragS.frLiteral ++ now') ∧
      Says (op :: operand) (advanceOf d.cieInfo.codeAlignment (lastDiff first passes)) ∧
      operand.length = size) ↔
    Survives (advanceOf d.cieInfo.codeAlignment (lastDiff first passes)) := by
  obtain ⟨hca, cfa, hsubtype, hwaiting, -⟩ := emitAdvance_made h
  have hsmall := d.cieInfo.small
  have hholds := holds_new hsmall
  rw [← hsubtype] at hholds
  obtain ⟨y, hrelax, hy⟩ := relaxation_spec hholds ⟨hca, hsmall⟩ first passes
  obtain ⟨op, operand, hconvert, hlen, hiff⟩ := convertAdvance_spec ⟨hca, hsmall⟩ _ hy
  obtain ⟨s₄, s₅, hs₄, hs₅, hbytes⟩ := hwaiting.converted hrelax hconvert later now'
  rw [← hiff]
  constructor
  · rintro ⟨s₄', size', s₅', op', operand', hs₄', hs₅', hbytes', hsays, -⟩
    cases hs₄.symm.trans hs₄'
    cases hs₅.symm.trans hs₅'
    have hsame := List.append_cancel_right (hbytes.symm.trans hbytes')
    rwa [List.append_cancel_left hsame]
  · intro hsays
    refine ⟨s₄, _, s₅, _, operand, hs₄, hs₅, hbytes, hsays, ?_⟩
    rw [hlen]

/-- The advance by the value of the operand is in the section in the end: at once for a constant,
and for a frag that waits once relaxation has taken its passes and the frag is converted, its
operand as long as relaxation has it. -/
def AdvanceKept (kind : SectionKind) (env₁ env₂ : Env) (d : FrameData) (s : Section)
    (exp : ExpressionS) (later : List FragS) (now' : List BfdByte) (first : Vma)
    (passes : List Pass) : Prop :=
  let c := emitAdvance kind env₁ env₂ d s exp
  (exp.op = .constant → ∃ bytes, c.sect.bytes = s.bytes ++ bytes ∧ Says bytes exp.addNumber) ∧
    ∀ i, c.made = some i → ∃ s₄ size s₅ op operand,
      relaxCfa ⟨c.sect.frags ++ later, now'⟩ i first passes = some (s₄, size) ∧
      convertFrag s₄ i (lastDiff first passes) = some s₅ ∧
      s₅.bytes = s.bytes ++ op :: operand ++ (later.flatMap FragS.frLiteral ++ now') ∧
      Says (op :: operand) (advanceOf d.cieInfo.codeAlignment (lastDiff first passes)) ∧
      operand.length = size

theorem emitAdvance_made_iff (kind : SectionKind) (env₁ env₂ : Env) (d : FrameData) (s : Section)
    (exp : ExpressionS) : (∃ i, (emitAdvance kind env₁ env₂ d s exp).made = some i) ↔
      Recognised kind env₁ env₂ d ∧ Deferred d exp := by
  have hopcode := emit_opcode kind env₁ d s
  unfold emitAdvance
  dsimp only
  generalize emitExpr kind env₁ d s (constant (dwCfaAdvanceLoc4.setWidth 64)) 1 = c at hopcode ⊢
  rw [emitExpr_made]
  by_cases hrec : Recognised kind env₁ env₂ d
  · obtain ⟨-, -, -, hinfo⟩ := hopcode.seen hrec.1 hrec.2.1
    rw [operand_recognised env₂ exp hopcode hrec, sawLoc4_made_iff, and_iff_right hrec]
    simp only [Deferred, dividesByAlignment, hinfo]
  · obtain ⟨d', hcheck⟩ := operand_passive env₂ exp hopcode hrec
    rw [hcheck]
    refine iff_of_false ?_ fun h => hrec h.1
    rintro ⟨i, h⟩
    cases h

/-- Making an advance shorter keeps it exactly if a recognised operand, known at once or after
relaxation, survives. -/
theorem advanceKept_iff (kind : SectionKind) (env₁ env₂ : Env) (d : FrameData) (s : Section)
    (exp : ExpressionS) (later : List FragS) (now' : List BfdByte) (first : Vma)
    (passes : List Pass) : AdvanceKept kind env₁ env₂ d s exp later now' first passes ↔
      (Recognised kind env₁ env₂ d → (exp.op = .constant → Survives exp.addNumber) ∧
        (Deferred d exp →
          Survives (advanceOf d.cieInfo.codeAlignment (lastDiff first passes)))) := by
  have hmade := emitAdvance_made_iff kind env₁ env₂ d s exp
  constructor
  · rintro ⟨hconst, hvar⟩ hrec
    refine ⟨?_, ?_⟩
    · intro hop
      exact (constant_kept_iff kind env₁ env₂ d s hop).1 (hconst hop) hrec
    · intro hdef
      obtain ⟨i, hi⟩ := hmade.2 ⟨hrec, hdef⟩
      exact (relaxed_kept_iff hi later now' first passes).1 (hvar i hi)
  · intro h
    refine ⟨?_, ?_⟩
    · intro hop
      exact (constant_kept_iff kind env₁ env₂ d s hop).2 fun hrec => (h hrec).1 hop
    · intro i hi
      obtain ⟨hrec, hdef⟩ := hmade.1 ⟨i, hi⟩
      exact (relaxed_kept_iff hi later now' first passes).2 ((h hrec).2 hdef)

/-! A frame section in which the opcode of an advance may come next. -/

def sampleEnv : Env := ⟨fun _ => false, [], 0⟩

def sampleData : FrameData := ⟨.waitLoc4, true, ⟨1, false, by decide⟩, 0, 0, 0, 0, 0⟩

/-- An advance by -1 becomes the opcode 0xff. -/
theorem negative_advance_lost : ¬ AdvanceKept .ehFrame sampleEnv sampleEnv sampleData ⟨[], []⟩
    (constant (-1)) [] [] 0 [] := by
  rw [advanceKept_iff]
  intro h
  have hsurvives := (h ⟨by decide, by decide, rfl⟩).1 rfl
  exact absurd hsurvives (by unfold Survives; decide)

end FusionBinutils.Gas.EhOpt
