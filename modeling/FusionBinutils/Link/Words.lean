import FusionBinutils.Bfd.Displacement
import FusionBinutils.Gas.Addend
import FusionBinutils.Opcode.Decode

/-! Words with a symbolic operand, from the assembler through the linker. -/
namespace FusionBinutils.Link

open Opcode Bfd Gas BitField

variable {seg addSeg addSeg' : Segment} {frag : FragRef} {pos a : Vma} {sym : Symbol}
  {code : RelocCode} {buf c : Contents} {ap : Applied} {sec : Asection} {index : PlainSym → Vma}

/-- Final addresses. A local symbol stands at its offset from the place of its section, and the
absolute section is at 0. -/
structure LinkMap where
  addr : PlainSym → Vma
  local_addr : ∀ s, sForceReloc s true = false → addr s = addr (sectionSymbol s.seg) + s.value
  absolute_addr : addr (sectionSymbol .absolute) = 0

variable {map : LinkMap}

/-- The final address of a symbol. -/
def LinkMap.symAddr (map : LinkMap) (sym : Symbol) : Vma := map.addr sym.base + sym.shift

/-- The right addend makes up for the choice of the symbol in the relocation. -/
theorem linkSym_add_linkAddend (map : LinkMap) (seg : Segment) (sym : Symbol) (a : Vma) :
    map.addr (sym.linkSym seg a) + sym.linkAddend seg a = map.symAddr sym + a := by
  by_cases hin : sym.inSection seg a = true
  · have hforce : sForceReloc sym.base true = false := by
      simp only [Symbol.inSection, Bool.or_eq_true] at hin
      rcases hin with h | h
      · exact (reduces_base h).2.1
      · simp only [Symbol.isNumber, Bool.and_eq_true, Bool.not_eq_true'] at h
        exact h.2
    simp only [Symbol.linkSym, Symbol.linkAddend, hin, if_true, LinkMap.symAddr,
      map.local_addr _ hforce]
    ac_rfl
  · simp only [Symbol.linkSym, Symbol.linkAddend, hin, LinkMap.symAddr]
    simp only [Bool.false_eq_true, if_false]
    ac_rfl

theorem isNumber_link (map : LinkMap) (seg : Segment) (a : Vma) (h : sym.isNumber = true) :
    map.addr (sym.linkSym seg a) = 0 ∧ sym.extra seg a = 0 := by
  have habs : sym.base.seg = .absolute := by
    simp only [Symbol.isNumber, Bool.and_eq_true, beq_iff_eq] at h
    exact h.1
  have hin : sym.inSection seg a = true := by simp [Symbol.inSection, h]
  constructor
  · rw [Symbol.linkSym, if_pos hin, habs, map.absolute_addr]
  · simp [Symbol.extra, hin]

/-- A 32-bit field of the object file. -/
def fileWord (v : Vma) : Vma := (v.setWidth 32).setWidth 64

/-- The record that `elf_write_relocs` puts into the file, as the linker reads it back. -/
def relaOf (r : Arelent) (symIndex : Vma) : Option Rela := do
  let address ← r.address
  let addend ← r.addend
  return ⟨fileWord address, fileWord ((symIndex <<< 8) + BitVec.ofNat 64 r.howto.number),
    (addend.setWidth 32).signExtend 64⟩

/-- The place of a fixup in its section. -/
def place (fix : FixS) : Vma := fileWord (fix.fxFrag.frAddress + fix.fxWhere)

/-- The word in the output: the relocation, if the assembler left one, is applied to the section
contents `c`. `index` numbers the symbols and `addr` gives their values to the linker. -/
def linkedWord (addr index : PlainSym → Vma) (sec : Asection) (c : Contents) (fix : FixS) :
    Option InsnT :=
  if fix.fxDone then some (wordAt c (place fix))
  else do
    let r ← writeReloc fix
    let rel ← relaOf r (index r.sym)
    match ← dispatch sec c rel (addr r.sym) with
    | .applied .ok c' => return wordAt c' (place fix)
    | _ => none

theorem relaOf_rType {r : Arelent} {i : Vma} {rel : Rela} (h : relaOf r i = some rel) :
    rel.rType = r.howto.number := by
  obtain ⟨address, -, h⟩ := Option.bind_eq_some_iff.1 h
  obtain ⟨addend, -, h⟩ := Option.bind_eq_some_iff.1 h
  cases h
  have hnum : r.howto.number < 2 ^ 8 := by cases r.howto <;> decide
  have hand := toNat_and_field (x := fileWord ((i <<< 8) + BitVec.ofNat 64 r.howto.number))
    (m := 0xff#64) 0 8 (by decide)
  rw [Rela.rType, hand, fileWord, BitVec.toNat_setWidth, BitVec.toNat_setWidth, BitVec.toNat_add,
    BitVec.toNat_shiftLeft, BitVec.toNat_ofNat, Nat.shiftLeft_eq]
  omega

/-- The relocation of a plain code that was left open. -/
theorem writeReloc_plain {t : RFusion} {fix : FixS} {s : PlainSym} (hcode : fix.fxRType.Plain)
    (ht : fusionRelocTypeLookup fix.fxRType = some t) (hopen : fix.fxDone = false)
    (hsym : fix.fxAddsy = some s) :
    writeReloc fix = some ⟨s, some (fix.fxFrag.frAddress + fix.fxWhere), some fix.fxAddnumber, t⟩ := by
  rcases hcode with h | h | h | h | h | h | h <;> rw [h] at ht <;>
    simp only [writeReloc, hopen, hsym, tcGenReloc, h, ht, Bool.false_eq_true, if_false,
      Option.bind_some]

/-- The word that an open relocation makes of the one in the section. -/
theorem linkedWord_reloc (addr index : PlainSym → Vma) {t : RFusion} {fix : FixS} {s : PlainSym}
    {addend : Vma} (hopen : fix.fxDone = false)
    (hw : writeReloc fix = some ⟨s, some (fix.fxFrag.frAddress + fix.fxWhere), some addend, t⟩)
    (hfield : t.HasField) (hin : relocOffsetInRange 4 sec (place fix)) :
    ∃ rel : Rela, rel.rAddend = (addend.setWidth 32).signExtend 64 ∧
      ∀ c, linkedWord addr index sec c fix =
        some ((relocatedWord t sec rel (addr s) (bfdGetb32 c (place fix))).setWidth 32) := by
  obtain ⟨rel, hrel, hoff, hadd⟩ : ∃ rel, relaOf ⟨s, some (fix.fxFrag.frAddress + fix.fxWhere),
      some addend, t⟩ (index s) = some rel ∧ rel.rOffset = place fix ∧
      rel.rAddend = (addend.setWidth 32).signExtend 64 := ⟨_, rfl, rfl, rfl⟩
  refine ⟨rel, hadd, fun c => ?_⟩
  have hd := dispatch_inRange (c := c) (v := addr s) hfield (relaOf_rType hrel) (hoff ▸ hin)
  rw [hoff] at hd
  simp only [linkedWord, hopen, hw, hrel, hd, Bool.false_eq_true, if_false, Option.bind_eq_bind,
    Option.bind_some, Option.pure_def, wordAt_bfdPutb32]

/-- Whatever section of the object file the word is emitted to, linking it gives one with `P`. -/
def LinksTo (map : LinkMap) (index : PlainSym → Vma) (sec : Asection) (ap : Option Applied)
    (P : InsnT → Prop) : Prop :=
  ∃ ap', ap = some ap' ∧ ∀ c, wordAt c (place ap'.fix) = wordAt ap'.buf ap'.fix.fxWhere →
    ∃ w, linkedWord map.addr index sec c ap'.fix = some w ∧ P w

/-- The fixup of an operand `sym + a` after its turn in `fixup_segment`. -/
def fixedSymbol (seg : Segment) (frag : FragRef) (pos : Vma) (sym : Symbol) (a : Vma)
    (code : RelocCode) (buf : Contents) : Option Applied :=
  (fixupFix seg .absolute (adjustRelocSyms seg (symbolFix frag pos 4 sym a code)) buf).map
    Prod.snd

/-- Linking is decided by one word when the section matters only through the word at the fixup. -/
theorem linksTo_of_word (map : LinkMap) (index : PlainSym → Vma) (sec : Asection)
    (P : InsnT → Prop) {fixed : Option Applied} {w : InsnT} (hfixed : fixed = some ap)
    (hlinked : ∀ c, wordAt c (place ap.fix) = wordAt ap.buf ap.fix.fxWhere →
      linkedWord map.addr index sec c ap.fix = some w) :
    LinksTo map index sec fixed P ↔ P w := by
  constructor
  · rintro ⟨ap', hap', hall⟩
    cases hfixed.symm.trans hap'
    -- a section that holds the word at its place
    have hc : wordAt (bfdPutb32 ((wordAt ap.buf ap.fix.fxWhere).setWidth 64) (fun _ => 0)
        (place ap.fix)) (place ap.fix) = wordAt ap.buf ap.fix.fxWhere := by
      rw [wordAt_bfdPutb32]
      exact BitVec.setWidth_setWidth_of_le _ (by decide)
    obtain ⟨w', hw, hP⟩ := hall _ hc
    cases (hlinked _ hc).symm.trans hw
    exact hP
  · intro hP
    exact ⟨ap, hfixed, fun c hc => ⟨w, hlinked c hc, hP⟩⟩

/-- Assembling and linking are decided by one word. -/
theorem linksTo_iff (map : LinkMap) (index : PlainSym → Vma) (seg : Segment) (sym : Symbol) (a : Vma)
    (buf : Contents) (P : InsnT → Prop) {t : RFusion} {k : InsnT} (hcode : code.Plain)
    (ht : fusionRelocTypeLookup code = some t) (hfield : t.HasField)
    (hk : fusionApplyConstReloc code (sym.linkAddend seg a + sym.extra seg a) = some k)
    (hin : relocOffsetInRange 4 sec (fileWord (frag.frAddress + pos))) :
    ∃ rel : Rela,
      rel.rAddend = ((sym.linkAddend seg a + sym.extra seg a).setWidth 32).signExtend 64 ∧
      (LinksTo map index sec (fixedSymbol seg frag pos sym a code buf) P ↔
        P (if sym.isNumber then k ||| wordAt buf pos
          else (relocatedWord t sec rel (map.addr (sym.linkSym seg a))
            ((k ||| wordAt buf pos).setWidth 64)).setWidth 32)) := by
  obtain ⟨addSeg', ap, k', hfix, hk', hdone, hword⟩ := fixupFix_symbol_plain seg
    .absolute frag pos 4 sym a buf hcode
  obtain ⟨-, hsame, hnum, hsym⟩ := fixupFix_symbol hfix
  cases hk.symm.trans hk'
  have hplace : place ap.fix = fileWord (frag.frAddress + pos) := by
    rw [place, hsame.frag, hsame.pos]
  -- the linked word depends on the section only through the word at the fixup
  obtain ⟨rel, hadd, hlinked⟩ : ∃ rel : Rela,
      rel.rAddend = ((sym.linkAddend seg a + sym.extra seg a).setWidth 32).signExtend 64 ∧
      ∀ c, wordAt c (place ap.fix) = wordAt ap.buf ap.fix.fxWhere →
        linkedWord map.addr index sec c ap.fix =
          some (if sym.isNumber then k ||| wordAt buf pos
            else (relocatedWord t sec rel (map.addr (sym.linkSym seg a))
              ((k ||| wordAt buf pos).setWidth 64)).setWidth 32) := by
    by_cases hopen : sym.isNumber = true
    · refine ⟨⟨0, 0, _⟩, rfl, fun c hc => ?_⟩
      rw [linkedWord, hdone, if_pos hopen, if_pos hopen, hc, hsame.pos, hword]
    · have hopen' : ap.fix.fxDone = false := by rw [hdone]; simpa using hopen
      have hw := writeReloc_plain (hsame.code ▸ hcode) (hsame.code ▸ ht) hopen' (hsym hopen')
      obtain ⟨rel, hadd, hl⟩ := linkedWord_reloc map.addr index hopen' hw hfield (hplace ▸ hin)
      refine ⟨rel, by rw [hadd, hnum], fun c hc => ?_⟩
      rw [hl c, if_neg hopen, bfdGetb32_eq_wordAt, hc, hsame.pos, hword]
  have hfixed : fixedSymbol seg frag pos sym a code buf = some ap := by
    rw [fixedSymbol, hfix, Option.map_some]
  exact ⟨rel, hadd, linksTo_of_word map index sec P hfixed hlinked⟩

/-! Data words. -/

/-- What the assembler leaves for a directive of four bytes: `emit_expr_fix` clears the bytes and
makes the fixup. -/
def emitExprFix (seg : Segment) (frag : FragRef) (pos : Vma) (sym : Symbol) (a : Vma)
    (buf : Contents) : Option Applied :=
  fixedSymbol seg frag pos sym a .r32 (bfdPutb32 0 buf pos)

theorem setWidth_add32 (x y : Vma) : (x + y).setWidth 32 = x.setWidth 32 + y.setWidth 32 :=
  BitVec.setWidth_add x y (by decide)

theorem setWidth_signExtend (m : InsnT) : (m.signExtend 64).setWidth 32 = m := by
  ext i hi
  rw [BitVec.getElem_setWidth, BitVec.getLsbD_signExtend]
  simp [hi, show i < 64 by omega]

/-- The addend is in the word and in the record, and the linker adds both. -/
theorem relocatedWord_r32 (rel : Rela) (r n : Vma)
    (hadd : rel.rAddend = (n.setWidth 32).signExtend 64) :
    (relocatedWord .r32 sec rel r ((n.setWidth 32).setWidth 64)).setWidth 32 =
      n.setWidth 32 + (r.setWidth 32 + n.setWidth 32) := by
  have hval : finalLinkValue (howtoOf .r32) sec rel r = r + (n.setWidth 32).signExtend 64 := by
    rw [← hadd]
    rfl
  have hword (x : Vma) : relocatedWord .r32 sec rel r x = (x &&& ~~~0xffffffff#64) |||
      (((x &&& 0xffffffff#64) + finalLinkValue (howtoOf .r32) sec rel r >>> 0) &&&
        0xffffffff#64) := rfl
  have hlow (v : Vma) : (v &&& 0xffffffff#64).setWidth 32 = v.setWidth 32 := by
    rw [BitVec.setWidth_and]
    exact BitVec.and_allOnes
  have hhigh (v : Vma) : (v &&& ~~~0xffffffff#64).setWidth 32 = 0#32 := by
    rw [BitVec.setWidth_and]
    exact BitVec.and_zero
  rw [hword, hval, BitVec.setWidth_or, hhigh, hlow, BitVec.zero_or, BitVec.ushiftRight_zero,
    setWidth_add32, setWidth_add32, hlow, setWidth_signExtend, BitVec.setWidth_setWidth_of_le _ (by decide),
    BitVec.setWidth_eq]

/-- The linked data word, for any property of it. -/
theorem emitExprFix_word {P : InsnT → Prop}
    (hin : relocOffsetInRange 4 sec (fileWord (frag.frAddress + pos))) :
    LinksTo map index sec (emitExprFix seg frag pos sym a buf) P ↔
      P (if sym.isNumber then (sym.linkAddend seg a + sym.extra seg a).setWidth 32
        else (sym.linkAddend seg a + sym.extra seg a).setWidth 32 +
          ((map.addr (sym.linkSym seg a)).setWidth 32 +
            (sym.linkAddend seg a + sym.extra seg a).setWidth 32)) := by
  have hzero : wordAt (bfdPutb32 0 buf pos) pos = 0#32 := by rw [wordAt_bfdPutb32]; rfl
  obtain ⟨rel, hadd, hiff⟩ := linksTo_iff map index seg sym a
    (bfdPutb32 0 buf pos) P (show RelocCode.r32.Plain from .inl rfl) rfl ⟨by decide, by decide⟩ rfl hin
  rw [emitExprFix, hiff, hzero, BitVec.or_zero, relocatedWord_r32 rel _ _ hadd]

/-- A data word holds `sym + a` after linking exactly when the symbol is a number, or what is
counted once too often vanishes. -/
theorem emitExprFix_links_iff (hin : relocOffsetInRange 4 sec (fileWord (frag.frAddress + pos))) :
    LinksTo map index sec (emitExprFix seg frag pos sym a buf)
        (· = (map.symAddr sym + a).setWidth 32) ↔
      sym.isNumber = true ∨
        (sym.linkAddend seg a + (sym.extra seg a + sym.extra seg a)).setWidth 32 = 0 := by
  rw [emitExprFix_word hin, ← linkSym_add_linkAddend map seg sym a]
  by_cases hnum : sym.isNumber = true
  · obtain ⟨haddr, hextra⟩ := isNumber_link map seg a hnum
    simp [hnum, haddr, hextra]
  · simp only [hnum, Bool.false_eq_true, if_false, false_or]
    have hsum (r e x : InsnT) : e + x + (r + (e + x)) = r + e ↔ e + (x + x) = 0 := by
      have hcomm : e + x + (r + (e + x)) = r + e + (e + (x + x)) := by ac_rfl
      rw [hcomm]
      exact add_eq_left
    rw [setWidth_add32, setWidth_add32, setWidth_add32, setWidth_add32]
    exact hsum _ _ _

/-! One undefined symbol, found by the linker at a given address. -/

def sampleMap (target : Vma) : LinkMap where
  addr s := (if s.seg = .undefined then target else 0) + s.value
  local_addr s _ := by
    change _ = (if s.seg = .undefined then target else 0) + 0#64 + s.value
    rw [BitVec.add_zero]
  absolute_addr := by simp [sectionSymbol]

theorem emitExprFix_links_sample :
    LinksTo (sampleMap 0x1000) (fun _ => 1) sampleText
      (emitExprFix sampleSeg ⟨0, 0⟩ 8 (.plain (sampleGlobal .undefined 0)) 0 (fun _ => 0))
      (· = ((sampleMap 0x1000).symAddr (.plain (sampleGlobal .undefined 0)) + 0).setWidth 32) :=
  (emitExprFix_links_iff (by decide)).2 (.inr (by decide))

/-- `.word glob + 4` with the symbol at 0x1000 comes out as 0x1008. -/
theorem word_counts_addend_twice :
    ¬ LinksTo (sampleMap 0x1000) (fun _ => 1) sampleText
      (emitExprFix sampleSeg ⟨0, 0⟩ 8 (.plain (sampleGlobal .undefined 0)) 4 (fun _ => 0))
      (· = ((sampleMap 0x1000).symAddr (.plain (sampleGlobal .undefined 0)) + 4).setWidth 32) := by
  rw [emitExprFix_word (by decide)]
  decide

end FusionBinutils.Link
