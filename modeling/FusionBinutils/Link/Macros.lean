import FusionBinutils.Gas.Macros
import FusionBinutils.Link.LoadImmediate

/-! What the instructions of a macro hold once they are linked. -/
namespace FusionBinutils.Link

open Opcode Bfd Gas BitField

set_option maxRecDepth 4000

variable {seg : Segment} {frag : FragRef} {pos a c : Vma} {sym : Symbol} {buf : Contents}
  {sec : Asection} {index : PlainSym → Vma} {map : LinkMap} {regs : List InsnT}
  {code : RelocCode} {word : InsnT}

/-- What the assembler leaves for an instruction that a macro has built. -/
def emitBuilt (seg : Segment) (frag : FragRef) (pos : Vma) (as : Assembled) (buf : Contents) :
    Option Applied := do
  let (fix, _) ← appendInsn as frag pos
  let (_, ap) ← fixupFix seg .absolute (adjustRelocSyms seg fix)
    (bfdPutb32 (as.word.setWidth 64) buf pos)
  return ap

/-- The words of consecutive instructions after their fixups. -/
def emittedWords (seg : Segment) (frag : FragRef) :
    Vma → List Assembled → Contents → Option (List InsnT)
  | _, [], _ => some []
  | pos, as :: rest, buf => do
    let ap ← emitBuilt seg frag pos as buf
    let words ← emittedWords seg frag (pos + 4) rest ap.buf
    return wordAt ap.buf pos :: words

/-- The immediate of the instruction with the given selector, 0 if there is none. -/
def fieldOf (dsel : InsnT) (words : List InsnT) : Nat :=
  ((words.find? (getDselLi · = dsel)).map fun w => (getImmLi w).toNat).getD 0

/-- A constant that `la` takes without an error is a 32-bit one and is loaded in its two halves,
by a `lui` and a `li`. -/
def LoadsConstant (seg : Segment) (frag : FragRef) (pos : Vma) (regs : List InsnT) (c : Vma)
    (buf : Contents) : Prop :=
  ∀ insns, mdAssembleMacro laRow ⟨regs, ⟨.constant, c⟩⟩ = some (insns, []) →
    (-(2 : Int) ^ 31 ≤ c.toInt ∧ c.toInt < 2 ^ 32) ∧
      ∃ words, emittedWords seg frag pos insns buf = some words ∧
        fieldOf 0x04 words * 2 ^ 16 + fieldOf 0x00 words = c.toNat % 2 ^ 32

/-- For `sym + a`, `la` leaves a pair that holds the two halves of the address after linking. -/
def LoadsSymbol (map : LinkMap) (index : PlainSym → Vma) (sec : Asection) (seg : Segment)
    (frag : FragRef) (pos : Vma) (regs : List InsnT) (sym : Symbol) (a : Vma) (buf : Contents) :
    Prop :=
  ∃ hi lo, mdAssembleMacro laRow ⟨regs, ⟨.symbol sym, a⟩⟩ = some ([hi, lo], []) ∧
    LinksTo map index sec (emitBuilt seg frag pos hi buf) fun w =>
      LinksTo map index sec (emitBuilt seg frag (pos + 4) lo buf) fun w' =>
        (immField w).toNat * 2 ^ 16 + (immField w').toNat = (map.symAddr sym + a).toNat % 2 ^ 32

theorem emitBuilt_eq (seg : Segment) (frag : FragRef) (pos a : Vma) (sym : Symbol) (buf : Contents)
    (word : InsnT) (hcode : code.Plain ∨ code = .fusion21) :
    emitBuilt seg frag pos ⟨word, ⟨.symbol sym, a⟩, code, []⟩ buf =
      fixedSymbol seg frag pos sym a code (bfdPutb32 (word.setWidth 64) buf pos) := by
  simp only [emitBuilt, Option.bind_eq_bind]
  rw [appendInsn_symbol sym a rfl hcode, Option.bind_some, fixedSymbol]
  cases fixupFix _ _ _ _ <;> rfl

/-! The words that are built. -/

def liWord (dsel rd : InsnT) : InsnT := genOpc opcLi ||| genDselLi dsel ||| genRd rd

theorem macroBuild_lui (ep : ExpressionS) (rd : InsnT) :
    macroBuild ep "lui" ['d', ',', 'i'] [.reg rd, .reloc .fusionHi16] =
      some ⟨liWord 0x04 rd, ep, .fusionHi16, []⟩ := rfl

theorem macroBuild_lni (ep : ExpressionS) (rd : InsnT) :
    macroBuild ep "lni" ['d', ',', 'i'] [.reg rd, .reloc .r16] =
      some ⟨liWord 0x08 rd, ep, .r16, []⟩ := rfl

theorem immField_liWord (dsel rd : InsnT) : immField (liWord dsel rd) = 0 := by
  rw [immField_eq, liWord, genOpc, genDselLi, genRd, BitVec.setWidth_or, BitVec.setWidth_or,
    BitVec.setWidth_and, BitVec.setWidth_and, low_shiftLeft _ (by decide), low_shiftLeft _ (by decide),
    low_shiftLeft _ (by decide), BitVec.zero_and, BitVec.zero_and, BitVec.or_self, BitVec.or_self]
  rfl

theorem assembleInsnBin_la (txt : OperandText) : ∃ word,
    assembleInsnBin laRow txt = some ⟨word, txt.expr, .r16, []⟩ :=
  ⟨_, assembleInsnBin_li rfl rfl (by decide) (by decide) (.inr rfl) txt⟩

/-- The pair for a symbol, when there is one. -/
theorem mdAssembleMacro_la (regs : List InsnT) (sym : Symbol) (a : Vma) : ∃ rd,
    mdAssembleMacro laRow ⟨regs, ⟨.symbol sym, a⟩⟩ =
      if isSext32BitNum a then
        some ([⟨liWord 0x04 rd, ⟨.symbol sym, a⟩, .fusionHi16, []⟩,
          ⟨liWord 0x08 rd, ⟨.symbol sym, a⟩, .r16, []⟩], [])
      else some ([], []) := by
  obtain ⟨word, has⟩ := assembleInsnBin_la ⟨regs, ⟨.symbol sym, a⟩⟩
  refine ⟨getRd word, ?_⟩
  simp only [mdAssembleMacro, has, Option.bind_eq_bind, Option.bind_some]
  change loadAddress (getRd word) ⟨.symbol sym, a⟩ = _
  simp only [loadAddress, macroBuild_lui, macroBuild_lni, Option.bind_eq_bind, Option.bind_some]
  rfl

/-- `la` of a constant ends the assembler. -/
theorem mdAssembleMacro_la_constant (regs : List InsnT) (c : Vma) :
    mdAssembleMacro laRow ⟨regs, ⟨.constant, c⟩⟩ = none := by
  obtain ⟨word, has⟩ := assembleInsnBin_la ⟨regs, ⟨.constant, c⟩⟩
  simp only [mdAssembleMacro, has, Option.bind_eq_bind, Option.bind_some]
  exact loadConst_constant (getRd word) c

theorem halves_toNat (v : Vma) :
    (highHalf v).toNat * 2 ^ 16 + (lowHalf v).toNat = v.toNat % 2 ^ 32 := by
  simp only [highHalf, lowHalf, BitVec.toNat_setWidth, BitVec.toNat_ushiftRight,
    Nat.shiftRight_eq_div_pow]
  omega

/-- Two instructions are linked independently of each other. -/
theorem linksTo_pair {α β : Type} {first second : Option Applied} {f : InsnT → α} {g : InsnT → β}
    {x : α} {y : β} (hx : ∀ P : α → Prop, LinksTo map index sec first (fun w => P (f w)) ↔ P x)
    (hy : ∀ P : β → Prop, LinksTo map index sec second (fun w => P (g w)) ↔ P y)
    (Q : α → β → Prop) :
    (LinksTo map index sec first fun w => LinksTo map index sec second fun w' => Q (f w) (g w')) ↔
      Q x y :=
  (hx fun u => LinksTo map index sec second fun w' => Q u (g w')).trans (hy (Q x))

/-- The half that a built instruction holds after linking. -/
theorem emitBuilt_half (map : LinkMap) (index : PlainSym → Vma) (seg : Segment) (sym : Symbol)
    (a : Vma) (buf : Contents) (dsel rd : InsnT) (P : BitVec 16 → Prop)
    (hcode : code = .fusionHi16 ∨ code = .r16)
    (hin : relocOffsetInRange 4 sec (fileWord (frag.frAddress + pos))) :
    LinksTo map index sec
        (emitBuilt seg frag pos ⟨liWord dsel rd, ⟨.symbol sym, a⟩, code, []⟩ buf)
        (fun w => P (immField w)) ↔
      P (codeHalf code (map.symAddr sym + a + sym.extra seg a)) := by
  have hplain : code.Plain := by rcases hcode with rfl | rfl <;> simp [RelocCode.Plain]
  have hword : immField (wordAt (bfdPutb32 ((liWord dsel rd).setWidth 64) buf pos) pos) = 0 := by
    rw [wordAt_bfdPutb32, BitVec.setWidth_setWidth_of_le _ (by decide), BitVec.setWidth_eq,
      immField_liWord]
  rw [emitBuilt_eq seg frag pos a sym buf _ (.inl hplain),
    fixedSymbol_half map index seg sym a _ P hcode hin, hword]
  by_cases hnum : sym.isNumber = true
  · obtain ⟨-, hextra⟩ := isNumber_link map seg a hnum
    rw [if_pos hnum, hextra, BitVec.ofNat_eq_ofNat, BitVec.ofNat_eq_ofNat, BitVec.or_zero,
      BitVec.add_zero]
  · rw [if_neg hnum]

theorem loadsSymbol_iff (hin : relocOffsetInRange 4 sec (fileWord (frag.frAddress + pos)))
    (hin' : relocOffsetInRange 4 sec (fileWord (frag.frAddress + (pos + 4)))) :
    LoadsSymbol map index sec seg frag pos regs sym a buf ↔
      isSext32BitNum a = true ∧ (sym.extra seg a).setWidth 32 = 0 := by
  obtain ⟨rd, hbuilt⟩ := mdAssembleMacro_la regs sym a
  by_cases hsext : isSext32BitNum a = true
  · rw [if_pos hsext] at hbuilt
    have hpair : LoadsSymbol map index sec seg frag pos regs sym a buf ↔
        LinksTo map index sec (emitBuilt seg frag pos
            ⟨liWord 0x04 rd, ⟨.symbol sym, a⟩, .fusionHi16, []⟩ buf) fun w =>
          LinksTo map index sec (emitBuilt seg frag (pos + 4)
              ⟨liWord 0x08 rd, ⟨.symbol sym, a⟩, .r16, []⟩ buf) fun w' =>
            (immField w).toNat * 2 ^ 16 + (immField w').toNat =
              (map.symAddr sym + a).toNat % 2 ^ 32 := by
      simp [LoadsSymbol, hbuilt]
    rw [hpair, linksTo_pair
      (fun P => emitBuilt_half map index seg sym a buf 0x04 rd P (.inl rfl) hin)
      (fun P => emitBuilt_half map index seg sym a buf 0x08 rd P (.inr rfl) hin')
      fun x y => x.toNat * 2 ^ 16 + y.toNat = (map.symAddr sym + a).toNat % 2 ^ 32]
    change (highHalf (map.symAddr sym + a + sym.extra seg a)).toNat * 2 ^ 16 +
      (lowHalf (map.symAddr sym + a + sym.extra seg a)).toNat = _ ↔ _
    rw [halves_toNat, ← BitVec.toNat_setWidth, ← BitVec.toNat_setWidth, BitVec.toNat_inj,
      setWidth_add32]
    simp only [hsext, true_and]
    exact add_eq_left
  · rw [if_neg hsext] at hbuilt
    simp [LoadsSymbol, hbuilt, hsext]

/-- `la` brings its operand into the register exactly when it is a symbol with a 32-bit addend
and nothing is counted twice. A constant never comes through. -/
theorem la_loads_iff (hin : relocOffsetInRange 4 sec (fileWord (frag.frAddress + pos)))
    (hin' : relocOffsetInRange 4 sec (fileWord (frag.frAddress + (pos + 4)))) :
    (mdAssembleMacro laRow ⟨regs, ⟨.constant, c⟩⟩ = none ∧
        LoadsConstant seg frag pos regs c buf) ∧
      (LoadsSymbol map index sec seg frag pos regs sym a buf ↔
        isSext32BitNum a = true ∧ (sym.extra seg a).setWidth 32 = 0) := by
  have hnone := mdAssembleMacro_la_constant regs c
  refine ⟨⟨hnone, fun insns hsome => ?_⟩, loadsSymbol_iff hin hin'⟩
  rw [hnone] at hsome
  cases hsome

theorem la_loads_undefined :
    (mdAssembleMacro laRow ⟨[1], ⟨.constant, 5⟩⟩ = none ∧
        LoadsConstant sampleSeg ⟨0, 0⟩ 8 [1] 5 (fun _ => 0)) ∧
      LoadsSymbol (sampleMap 0x12345) (fun _ => 1) sampleText sampleSeg ⟨0, 0⟩ 8 [1]
        (.plain (sampleGlobal .undefined 0)) 4 (fun _ => 0) :=
  (la_loads_iff (by decide) (by decide)).imp_right (fun h => h.2 (by decide))

/-- `la` of a global symbol four bytes into its own section loads the address after it. -/
theorem la_misses_global :
    ¬ LoadsSymbol (sampleMap 0) (fun _ => 1) sampleText sampleSeg ⟨0, 0⟩ 8 [1]
      (.plain (sampleGlobal sampleSeg 4)) 0 (fun _ => 0) := by
  rw [loadsSymbol_iff (by decide) (by decide)]
  decide

/-! The jump of a call. -/

theorem mdApplyFix_jump (fix : FixS) (v : Vma) (buf : Contents) (hcode : fix.fxRType = .fusion21) :
    ∃ ap, mdApplyFix fix v buf = some ap ∧
      ap.fix.fxDone = (fix.fxDone || (v ≠ 0 && fix.fxAddsy.isNone)) ∧
      (v ≠ 0 → fix.fxAddsy = none →
        wordAt ap.buf fix.fxWhere = (genJImm v).setWidth 32 ||| wordAt buf fix.fxWhere) := by
  by_cases hv : v = 0
  · refine ⟨⟨{ fix with fxAddnumber := v }, buf, []⟩, ?_, ?_, fun h => absurd hv h⟩
    · simp only [mdApplyFix, hcode, hv, if_true]
    · simp [hv]
  · cases hsym : fix.fxAddsy with
    | none =>
      refine ⟨⟨{ fix with fxAddnumber := v, fxDone := true },
        orAtFix fix (((genJImm v).setWidth 32).setWidth 64) buf, []⟩, ?_, ?_,
        fun _ _ => wordAt_orAtFix fix _ buf⟩
      · simp only [mdApplyFix, hcode, hv, if_false, hsym, fusionApplyConstReloc]
        rfl
      · have hnz : ¬ v = 0#64 := hv
        simp [hnz]
    | some s =>
      refine ⟨_, by simp only [mdApplyFix, hcode, hv, if_false, hsym]; rfl, by simp,
        fun _ h => by cases h⟩

theorem writeReloc_jump {fix : FixS} {s : PlainSym} (hcode : fix.fxRType = .fusion21)
    (hopen : fix.fxDone = false) (hsym : fix.fxAddsy = some s) :
    writeReloc fix = some ⟨s, some (fix.fxFrag.frAddress + fix.fxWhere),
      some (genJImm fix.fxAddnumber), .jumpO⟩ := by
  simp only [writeReloc, hopen, hsym, tcGenReloc, hcode, fusionRelocTypeLookup,
    Bool.false_eq_true, if_false, Option.bind_some]

/-- The linker puts its value under the two halves of the mask as it stands. -/
theorem jumpO_immediate (sec : Asection) (rel : Rela) (v x : Vma) :
    (getImmJ ((relocatedWord .jumpO sec rel v x).setWidth 32)).toNat =
      (v + rel.rAddend).toNat / 2 ^ 21 % 2 ^ 5 * 2 ^ 16 + (v + rel.rAddend).toNat % 2 ^ 16 := by
  have hword : relocatedWord .jumpO sec rel v x = BitField.insert (howtoOf .jumpO).dstMask x
      ((x &&& 0#64) + (v + rel.rAddend) >>> 0) := rfl
  rw [BitVec.and_zero, BitVec.zero_add, BitVec.ushiftRight_zero] at hword
  have hhi := insert_field (m := (howtoOf .jumpO).dstMask) x (v + rel.rAddend) 21 5 maskImmHiJ
    (by decide) (by decide)
  have hlo := insert_field (m := (howtoOf .jumpO).dstMask) x (v + rel.rAddend) 0 16 maskImmLoJ
    (by decide) (by decide)
  rw [← hword] at hhi hlo
  rw [getImmJ_toNat (by decide), BitVec.toNat_setWidth]
  omega

/-- Bits 21 to 25 of the linked value: those of the address, the bits 16 to 20 of the addend that
`tc_gen_reloc` has put there, and what is carried out of the bits below. -/
def jumpHigh (r n : Vma) : Nat :=
  (r.toNat / 2 ^ 21 + n.toNat / 2 ^ 16 % 2 ^ 5 + (r.toNat % 2 ^ 21 + n.toNat % 2 ^ 16) / 2 ^ 21) %
    2 ^ 5

/-- The offset that the jump holds after linking. -/
def jumpField (r n : Vma) : Nat := jumpHigh r n * 2 ^ 16 + (r + n).toNat % 2 ^ 16

theorem jumpO_field (sec : Asection) (rel : Rela) (r n x : Vma)
    (hadd : rel.rAddend = ((genJImm n).setWidth 32).signExtend 64) :
    (getImmJ ((relocatedWord .jumpO sec rel r x).setWidth 32)).toNat = jumpField r n := by
  have hgen := genJImm_toNat (by decide) n
  have hlt : (genJImm n).toNat < 2 ^ 26 := by omega
  have hmsb : ((genJImm n).setWidth 32).msb = false := by
    rw [BitVec.msb_eq_false_iff_two_mul_lt, BitVec.toNat_setWidth]
    omega
  have hval : rel.rAddend.toNat = (genJImm n).toNat := by
    rw [hadd, BitVec.signExtend_eq_setWidth_of_msb_false hmsb, BitVec.toNat_setWidth,
      BitVec.toNat_setWidth]
    omega
  rw [jumpO_immediate, jumpField, jumpHigh, BitVec.toNat_add, BitVec.toNat_add, hval, hgen]
  have hr := r.isLt
  have hn := n.isLt
  omega

/-- The same for a jump whose offset the assembler has filled in. -/
theorem jump_or_field (word : InsnT) (n : Vma) (hword : getImmJ word = 0) :
    (getImmJ ((genJImm n).setWidth 32 ||| word)).toNat = jumpField 0 n := by
  have hor (x y : InsnT) : getImmJ (x ||| y) = getImmJ x ||| getImmJ y := by
    simp only [getImmJ, BitVec.and_or_distrib_left, BitVec.ushiftRight_or_distrib]
    ac_rfl
  have hgen := genJImm_toNat (by decide) n
  have hn := n.isLt
  rw [hor, hword, BitVec.ofNat_eq_ofNat, BitVec.or_zero, getImmJ_toNat (by decide),
    BitVec.toNat_setWidth, hgen, jumpField, jumpHigh, BitVec.ofNat_eq_ofNat, BitVec.zero_add,
    BitVec.toNat_zero]
  omega

theorem emitBuilt_jump (map : LinkMap) (index : PlainSym → Vma) (seg : Segment) (sym : Symbol)
    (a : Vma) (buf : Contents) (P : Nat → Prop) (hword : getImmJ word = 0)
    (hin : relocOffsetInRange 4 sec (fileWord (frag.frAddress + pos))) :
    LinksTo map index sec (emitBuilt seg frag pos ⟨word, ⟨.symbol sym, a⟩, .fusion21, []⟩ buf)
        (fun w => P (getImmJ w).toNat) ↔
      P (jumpField (map.addr (sym.linkSym seg a)) (sym.linkAddend seg a + sym.extra seg a)) := by
  rw [emitBuilt_eq seg frag pos a sym buf word (.inr rfl)]
  have hput : wordAt (bfdPutb32 (word.setWidth 64) buf pos) pos = word := by
    rw [wordAt_bfdPutb32, BitVec.setWidth_setWidth_of_le _ (by decide), BitVec.setWidth_eq]
  generalize bfdPutb32 (word.setWidth 64) buf pos = buf' at hput ⊢
  obtain ⟨fix', hadd, hfsym, hsame', hfdone⟩ := fixupAdd_symbol 4 sym .absolute
    (rfl : adjustRelocSyms seg (symbolFix frag pos 4 sym a .fusion21) = _)
  obtain ⟨ap, hap, hdone, hdoneWord⟩ := mdApplyFix_jump fix'
    (sym.linkAddend seg a + sym.extra seg a) buf' hsame'.code
  obtain ⟨msgs, hfix⟩ := fixupFix_eq _ seg .absolute rfl rfl hadd hap
  obtain ⟨-, hsame, hnum, hsym⟩ := fixupFix_symbol hfix
  have hfixed : fixedSymbol seg frag pos sym a .fusion21 buf' =
      some ⟨ap.fix.withAbs, ap.buf, msgs⟩ := by
    rw [fixedSymbol, hfix, Option.map_some]
  have hplace : place ap.fix.withAbs = fileWord (frag.frAddress + pos) := by
    rw [place, hsame.frag, hsame.pos]
  -- a number other than 0 is done with at once, and its section stands at 0
  by_cases hopen : ap.fix.withAbs.fxDone = true
  · obtain ⟨hv, hnone⟩ : sym.linkAddend seg a + sym.extra seg a ≠ 0 ∧ fix'.fxAddsy = none := by
      have h : ap.fix.fxDone = true := hopen
      rw [hdone, hfdone] at h
      simpa using h
    have hisnum : sym.isNumber = true := by
      by_contra hnot
      rw [hfsym, if_neg hnot] at hnone
      cases hnone
    rw [(isNumber_link map seg a hisnum).1, ← jump_or_field word _ hword]
    refine linksTo_of_word map index sec (fun w => P (getImmJ w).toNat) hfixed fun c hc => ?_
    rw [linkedWord, if_pos hopen, hc]
    have hw := hdoneWord hv hnone
    rw [hsame'.pos, hput] at hw
    rw [hsame.pos, hw]
  · have hopen' : ap.fix.withAbs.fxDone = false := by simpa using hopen
    have hw := writeReloc_jump hsame.code hopen' (hsym hopen')
    obtain ⟨rel, hradd, hl⟩ := linkedWord_reloc map.addr index hopen' hw
      ⟨by decide, by decide⟩ (hplace ▸ hin)
    rw [hnum] at hradd
    rw [← jumpO_field sec rel _ _ ((wordAt ap.buf ap.fix.withAbs.fxWhere).setWidth 64) hradd]
    refine linksTo_of_word map index sec (fun w => P (getImmJ w).toNat) hfixed fun c hc => ?_
    rw [hl c, bfdGetb32_eq_wordAt, hc]

/-- For `sym + a`, `call` leaves a `lui` and a `jrl` that go to the address together. -/
def CallsSymbol (map : LinkMap) (index : PlainSym → Vma) (sec : Asection) (seg : Segment)
    (frag : FragRef) (pos : Vma) (regs : List InsnT) (sym : Symbol) (a : Vma) (buf : Contents) :
    Prop :=
  ∃ hi jump, mdAssembleMacro callRow ⟨regs, ⟨.symbol sym, a⟩⟩ = some ([hi, jump], []) ∧
    LinksTo map index sec (emitBuilt seg frag pos hi buf) fun w =>
      LinksTo map index sec (emitBuilt seg frag (pos + 4) jump buf) fun w' =>
        ((immField w).toNat * 2 ^ 16 + (getImmJ w').toNat) % 2 ^ 32 =
          (map.symAddr sym + a).toNat % 2 ^ 32

/-- What comes on top of the upper half from the jump and from a value counted twice is just the
carry out of the low halves. -/
def CarryFits (map : LinkMap) (seg : Segment) (sym : Symbol) (a : Vma) : Prop :=
  lowHalf (sym.extra seg (lowerPart a)) = 0 ∧
    (jumpHigh (map.addr (sym.linkSym seg (lowerPart a)))
          (sym.linkAddend seg (lowerPart a) + sym.extra seg (lowerPart a)) +
        (sym.extra seg (a - lowerPart a)).toNat / 2 ^ 16 +
        ((map.symAddr sym).toNat % 2 ^ 16 +
          (sym.extra seg (a - lowerPart a)).toNat % 2 ^ 16) / 2 ^ 16) % 2 ^ 16 =
      ((map.symAddr sym).toNat % 2 ^ 16 + a.toNat % 2 ^ 16) / 2 ^ 16

theorem mdAssembleMacro_call (regs : List InsnT) (sym : Symbol) (a : Vma) :
    mdAssembleMacro callRow ⟨regs, ⟨.symbol sym, a⟩⟩ =
      some ([⟨liWord 0x04 22, ⟨.symbol sym, a - lowerPart a⟩, .fusionHi16, []⟩,
        ⟨genOpc opcJlnk ||| 0 ||| genRsa 22, ⟨.symbol sym, lowerPart a⟩, .fusion21, []⟩], []) := by
  have has : ∃ word reloc, assembleInsnBin callRow ⟨regs, ⟨.symbol sym, a⟩⟩ =
      some ⟨word, ⟨.symbol sym, a⟩, reloc, []⟩ := ⟨_, _, rfl⟩
  obtain ⟨word, reloc, has⟩ := has
  simp only [mdAssembleMacro, has, Option.bind_eq_bind, Option.bind_some]
  rfl

theorem lowerPart_toNat (a : Vma) : (lowerPart a).toNat = a.toNat % 2 ^ 16 := by
  have h := toNat_and_field (x := a.setWidth 32) (m := 0x0000ffff#32) 0 16 (by decide)
  rw [lowerPart, BitVec.toNat_setWidth, h, BitVec.toNat_setWidth]
  omega

/-- The two instructions against the address, as numbers: `s` is the symbol, `u` and `l` are the
parts of the offset, `x` and `y` what is counted twice with each. -/
theorem carry_iff {s u l x y j : Nat} (hu : u % 2 ^ 16 = 0) (hl : l < 2 ^ 16) :
    ((s + u + x) / 2 ^ 16 % 2 ^ 16 * 2 ^ 16 + (j * 2 ^ 16 + (s + l + y) % 2 ^ 16)) % 2 ^ 32 =
        (s + u + l) % 2 ^ 32 ↔
      y % 2 ^ 16 = 0 ∧
        (j + x / 2 ^ 16 + (s % 2 ^ 16 + x % 2 ^ 16) / 2 ^ 16) % 2 ^ 16 =
          (s % 2 ^ 16 + l) / 2 ^ 16 := by
  omega

/-- What the two instructions hold. -/
theorem callsSymbol_fields (hin : relocOffsetInRange 4 sec (fileWord (frag.frAddress + pos)))
    (hin' : relocOffsetInRange 4 sec (fileWord (frag.frAddress + (pos + 4)))) :
    CallsSymbol map index sec seg frag pos regs sym a buf ↔
      ((highHalf (map.symAddr sym + (a - lowerPart a) + sym.extra seg (a - lowerPart a))).toNat *
          2 ^ 16 + jumpField (map.addr (sym.linkSym seg (lowerPart a)))
            (sym.linkAddend seg (lowerPart a) + sym.extra seg (lowerPart a))) % 2 ^ 32 =
        (map.symAddr sym + a).toNat % 2 ^ 32 := by
  have hpair : CallsSymbol map index sec seg frag pos regs sym a buf ↔
      LinksTo map index sec (emitBuilt seg frag pos
          ⟨liWord 0x04 22, ⟨.symbol sym, a - lowerPart a⟩, .fusionHi16, []⟩ buf) fun w =>
        LinksTo map index sec (emitBuilt seg frag (pos + 4)
            ⟨genOpc opcJlnk ||| 0 ||| genRsa 22, ⟨.symbol sym, lowerPart a⟩, .fusion21, []⟩ buf)
          fun w' => ((immField w).toNat * 2 ^ 16 + (getImmJ w').toNat) % 2 ^ 32 =
            (map.symAddr sym + a).toNat % 2 ^ 32 := by
    simp [CallsSymbol, mdAssembleMacro_call]
  rw [hpair]
  exact linksTo_pair
    (fun P => emitBuilt_half map index seg sym (a - lowerPart a) buf 0x04 22 P (.inl rfl) hin)
    (fun P => emitBuilt_jump map index seg sym (lowerPart a) buf P (by decide) hin')
    fun x y => (x.toNat * 2 ^ 16 + y) % 2 ^ 32 = (map.symAddr sym + a).toNat % 2 ^ 32

theorem highHalf_toNat (v : Vma) : (highHalf v).toNat = v.toNat / 2 ^ 16 % 2 ^ 16 := by
  rw [highHalf, BitVec.toNat_setWidth, BitVec.toNat_ushiftRight, Nat.shiftRight_eq_div_pow]

theorem high_mod (m : Nat) : m % 2 ^ 64 / 2 ^ 16 % 2 ^ 16 = m / 2 ^ 16 % 2 ^ 16 := by omega

theorem lowHalf_eq_zero_iff (v : Vma) : lowHalf v = 0 ↔ v.toNat % 2 ^ 16 = 0 := by
  rw [lowHalf, ← BitVec.toNat_inj, BitVec.toNat_setWidth]
  rfl

/-- `call` goes to its operand exactly when the carries fit. -/
theorem call_reaches_iff (hin : relocOffsetInRange 4 sec (fileWord (frag.frAddress + pos)))
    (hin' : relocOffsetInRange 4 sec (fileWord (frag.frAddress + (pos + 4)))) :
    CallsSymbol map index sec seg frag pos regs sym a buf ↔ CarryFits map seg sym a := by
  have hsum : map.addr (sym.linkSym seg (lowerPart a)) +
      (sym.linkAddend seg (lowerPart a) + sym.extra seg (lowerPart a)) =
      map.symAddr sym + lowerPart a + sym.extra seg (lowerPart a) := by
    rw [← BitVec.add_assoc, linkSym_add_linkAddend]
  rw [callsSymbol_fields hin hin', jumpField, hsum, CarryFits, lowHalf_eq_zero_iff,
    highHalf_toNat]
  generalize jumpHigh _ _ = j
  generalize sym.extra seg (lowerPart a) = y
  generalize hx : sym.extra seg (a - lowerPart a) = x
  generalize map.symAddr sym = s
  have hlow := lowerPart_toNat a
  have hup : (a - lowerPart a).toNat = a.toNat - a.toNat % 2 ^ 16 := by
    rw [BitVec.toNat_sub, hlow]
    have ha := a.isLt
    omega
  have hhi : (s + (a - lowerPart a) + x).toNat / 2 ^ 16 % 2 ^ 16 =
      (s.toNat + (a.toNat - a.toNat % 2 ^ 16) + x.toNat) / 2 ^ 16 % 2 ^ 16 := by
    rw [BitVec.toNat_add, BitVec.toNat_add, hup, Nat.mod_add_mod]
    exact high_mod _
  have hlo : (s + lowerPart a + y).toNat % 2 ^ 16 =
      (s.toNat + a.toNat % 2 ^ 16 + y.toNat) % 2 ^ 16 := by
    rw [BitVec.toNat_add, BitVec.toNat_add, hlow, Nat.mod_add_mod]
    exact Nat.mod_mod_of_dvd _ (by decide)
  have haddr : (s + a).toNat % 2 ^ 32 =
      (s.toNat + (a.toNat - a.toNat % 2 ^ 16) + a.toNat % 2 ^ 16) % 2 ^ 32 := by
    rw [BitVec.toNat_add, Nat.add_assoc, Nat.sub_add_cancel (Nat.mod_le _ _)]
    exact Nat.mod_mod_of_dvd _ (by decide)
  rw [hhi, hlo, haddr]
  exact carry_iff (Nat.sub_mod_eq_zero_of_mod_eq (Nat.mod_mod _ _).symm) (Nat.mod_lt _ (by decide))

theorem call_reaches_low :
    CallsSymbol (sampleMap 0x1000) (fun _ => 1) sampleText sampleSeg ⟨0, 0⟩ 8 []
      (.plain (sampleGlobal .undefined 0)) 4 (fun _ => 0) :=
  (call_reaches_iff (by decide) (by decide)).2 (by unfold CarryFits; decide)

/-- With the symbol at 0x200000 the `lui` and the offset of the jump both hold bit 21. -/
theorem call_misses_high :
    ¬ CallsSymbol (sampleMap 0x200000) (fun _ => 1) sampleText sampleSeg ⟨0, 0⟩ 8 []
      (.plain (sampleGlobal .undefined 0)) 0 (fun _ => 0) := by
  rw [callsSymbol_fields (by decide) (by decide)]
  decide

end FusionBinutils.Link
