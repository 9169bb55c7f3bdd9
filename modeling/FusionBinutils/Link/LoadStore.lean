import FusionBinutils.Link.Words

/-! Loads and stores with a symbolic offset. -/
namespace FusionBinutils.Link

open Opcode Bfd Gas BitField

set_option maxRecDepth 4000

variable {seg : Segment} {frag : FragRef} {pos a : Vma} {sym : Symbol} {buf : Contents}
  {sec : Asection} {index : PlainSym → Vma} {map : LinkMap} {e : FusionOpcInfo}
  {regs : List InsnT}

/-- What the assembler leaves for an instruction that needs a fixup. -/
def emitInsn (seg : Segment) (frag : FragRef) (pos : Vma) (e : FusionOpcInfo) (txt : OperandText)
    (buf : Contents) : Option Applied := do
  let as ← assembleInsnBin e txt
  let (fix, _) ← appendInsn as frag pos
  let (_, ap) ← fixupFix seg .absolute (adjustRelocSyms seg fix)
    (bfdPutb32 (as.word.setWidth 64) buf pos)
  return ap

/-- The offset field of a load or store. -/
def offsetField (e : FusionOpcInfo) (w : InsnT) : InsnT :=
  if e.opc = opcLd then getImmL w else getImmS w

theorem getImmL_or (x y : InsnT) : getImmL (x ||| y) = getImmL x ||| getImmL y :=
  BitVec.and_or_distrib_left

theorem getImmS_or (x y : InsnT) : getImmS (x ||| y) = getImmS x ||| getImmS y := by
  simp only [getImmS, BitVec.and_or_distrib_left, BitVec.ushiftRight_or_distrib]
  ac_rfl

theorem getImmL_genLImm (v : Vma) :
    (getImmL ((genLImm v).setWidth 32)).toNat = v.toNat % 2 ^ 14 := by
  rw [getImmL_toNat (by decide), BitVec.toNat_setWidth, genLImm, getImmL_toNat (by decide)]
  omega

theorem getImmS_genSImm (v : Vma) :
    (getImmS ((genSImm v).setWidth 32)).toNat = v.toNat % 2 ^ 14 := by
  rw [getImmS_toNat (by decide), BitVec.toNat_setWidth, genSImm_toNat (by decide)]
  omega

/-- Three values or-ed into a field of 14 bits, against the sum of two. -/
theorem or_field_iff {f : InsnT → InsnT} {x y z : InsnT} (hor : ∀ x y, f (x ||| y) = f x ||| f y)
    {r n e a : Vma} (hx : (f x).toNat = r.toNat % 2 ^ 14) (hy : (f y).toNat = n.toNat % 2 ^ 14)
    (hz : (f z).toNat = a.toNat % 2 ^ 14) :
    (f (x ||| (y ||| z))).toNat = (r + e).toNat % 2 ^ 14 ↔
      e.setWidth 14 = (n.setWidth 14 ||| a.setWidth 14) &&& ~~~r.setWidth 14 := by
  have hleft : (f (x ||| (y ||| z))).toNat =
      ((n.setWidth 14 ||| a.setWidth 14) ||| r.setWidth 14).toNat := by
    simp only [hor, BitVec.toNat_or, hx, hy, hz, BitVec.toNat_setWidth, Nat.or_comm]
  have hright : (r + e).toNat % 2 ^ 14 = (e.setWidth 14 + r.setWidth 14).toNat := by
    rw [← BitVec.toNat_setWidth, BitVec.setWidth_add _ _ (by decide), BitVec.add_comm]
  rw [hleft, hright, BitVec.toNat_inj, or_eq_add_iff]

theorem appendInsn_symbol (sym : Symbol) (a : Vma) {as : Assembled}
    (hexpr : as.expr = ⟨.symbol sym, a⟩) (hcode : as.reloc.Plain ∨ as.reloc = .fusion21) :
    appendInsn as frag pos = some (symbolFix frag pos 4 sym a as.reloc, []) := by
  rcases hcode with (h | h | h | h | h | h | h) | h <;> (rw [appendInsn, hexpr, h]; rfl)

/-- The word is emitted as assembled, with the operand's own number in its field. -/
theorem emitInsn_eq {code : RelocCode} {word : InsnT}
    (has : assembleInsnBin e ⟨regs, ⟨.symbol sym, a⟩⟩ = some ⟨word, ⟨.symbol sym, a⟩, code, []⟩)
    (hcode : code.Plain) :
    emitInsn seg frag pos e ⟨regs, ⟨.symbol sym, a⟩⟩ buf =
      fixedSymbol seg frag pos sym a code (bfdPutb32 (word.setWidth 64) buf pos) := by
  simp only [emitInsn, has, Option.bind_eq_bind, Option.bind_some]
  rw [appendInsn_symbol sym a rfl (.inl hcode), Option.bind_some, fixedSymbol]
  cases fixupFix _ _ _ _ <;> rfl

theorem assembleInsnBin_load (x y : InsnT) (sym : Symbol) (a : Vma) (hmem : e ∈ fusionInsnAll)
    (hopc : e.opc = opcLd) :
    e.index.toNat < 4 ∧ assembleInsnBin e ⟨[x, y], ⟨.symbol sym, a⟩⟩ =
      some ⟨makeLType x y e.index (a.setWidth 32), ⟨.symbol sym, a⟩, .fusionLoad, []⟩ := by
  have htable : ∀ e ∈ fusionInsnAll, e.opc = opcLd → e.args = .rdaiO ∧ e.immMask ≠ maskNoImm ∧
      e.index.toNat < 4 := by decide
  obtain ⟨hargs, hmask, hidx⟩ := htable e hmem hopc
  have hreloc : returnReloc e = some .fusionLoad := by simp +decide [returnReloc, hopc]
  refine ⟨hidx, ?_⟩
  simp +decide [assembleInsnBin, hreloc, hmask, parseWithImm, hargs, parseImm, encodeOperands,
    hopc, OperandText.reg]

theorem assembleInsnBin_store (x y : InsnT) (sym : Symbol) (a : Vma) (hmem : e ∈ fusionInsnAll)
    (hopc : e.opc = opcSt) :
    e.index.toNat < 4 ∧ assembleInsnBin e ⟨[x, y], ⟨.symbol sym, a⟩⟩ =
      some ⟨makeSType e.index y x (a.setWidth 32), ⟨.symbol sym, a⟩, .fusionStore, []⟩ := by
  have htable : ∀ e ∈ fusionInsnAll, e.opc = opcSt → e.args = .rabiO ∧ e.immMask ≠ maskNoImm ∧
      e.index.toNat < 4 := by decide
  obtain ⟨hargs, hmask, hidx⟩ := htable e hmem hopc
  have hreloc : returnReloc e = some .fusionStore := by simp +decide [returnReloc, hopc]
  refine ⟨hidx, ?_⟩
  simp +decide [assembleInsnBin, hreloc, hmask, parseWithImm, hargs, parseImm, encodeOperands,
    hopc, OperandText.reg]

theorem relocatedWord_load (rel : Rela) (r : Vma) (w : InsnT) :
    (relocatedWord .load sec rel r (w.setWidth 64)).setWidth 32 =
      (genLImm r).setWidth 32 ||| w := by
  have hword : relocatedWord .load sec rel r (w.setWidth 64) =
      (genLImm r &&& 0x3fff#64) ||| w.setWidth 64 := rfl
  have hmask : genLImm r &&& 0x3fff#64 = genLImm r := by
    rw [genLImm, getImmL, maskImmL, BitVec.and_comm, ← BitVec.and_assoc, BitVec.and_self]
  rw [hword, hmask, BitVec.setWidth_or, BitVec.setWidth_setWidth_of_le _ (by decide),
    BitVec.setWidth_eq]

theorem relocatedWord_store (rel : Rela) (r : Vma) (w : InsnT) :
    (relocatedWord .store sec rel r (w.setWidth 64)).setWidth 32 =
      (genSImm r).setWidth 32 ||| w := by
  have hword : relocatedWord .store sec rel r (w.setWidth 64) =
      (genSImm r &&& 0xe007ff#64) ||| w.setWidth 64 := rfl
  have hmask : genSImm r &&& 0xe007ff#64 = genSImm r := by
    rw [genSImm, maskImmS, BitVec.and_assoc, BitVec.and_self]
  rw [hword, hmask, BitVec.setWidth_or, BitVec.setWidth_setWidth_of_le _ (by decide),
    BitVec.setWidth_eq]

/-- The bits or-ed into the field give the sum: those outside the linker's value are the addend. -/
def OffsetAdds (map : LinkMap) (seg : Segment) (sym : Symbol) (a : Vma) : Prop :=
  (sym.linkAddend seg a).setWidth 14 =
    ((sym.linkAddend seg a + sym.extra seg a).setWidth 14 ||| a.setWidth 14) &&&
      ~~~(map.addr (sym.linkSym seg a)).setWidth 14

/-- The same argument for both formats: `f` reads the field that `gen` fills. -/
theorem fixedSymbol_field_iff (gen : Vma → Vma) {code : RelocCode} {t : RFusion}
    {f : InsnT → InsnT} {word : InsnT} (hcode : code.Plain)
    (ht : fusionRelocTypeLookup code = some t) (hfield : t.HasField)
    (hk : ∀ v, fusionApplyConstReloc code v = some ((gen v).setWidth 32))
    (hrel : ∀ (rel : Rela) (r : Vma) (w : InsnT),
      (relocatedWord t sec rel r (w.setWidth 64)).setWidth 32 = (gen r).setWidth 32 ||| w)
    (hor : ∀ x y, f (x ||| y) = f x ||| f y)
    (hgen : ∀ v, (f ((gen v).setWidth 32)).toNat = v.toNat % 2 ^ 14)
    (hword : (f word).toNat = a.toNat % 2 ^ 14)
    (hin : relocOffsetInRange 4 sec (fileWord (frag.frAddress + pos))) :
    LinksTo map index sec
        (fixedSymbol seg frag pos sym a code (bfdPutb32 (word.setWidth 64) buf pos))
        (fun w => (f w).toNat = (map.symAddr sym + a).toNat % 2 ^ 14) ↔
      OffsetAdds map seg sym a := by
  have hput : wordAt (bfdPutb32 (word.setWidth 64) buf pos) pos = word := by
    rw [wordAt_bfdPutb32]
    exact BitVec.setWidth_setWidth_of_le _ (by decide)
  obtain ⟨rel, -, hiff⟩ := linksTo_iff map index seg sym a
    (bfdPutb32 (word.setWidth 64) buf pos)
    (fun w => (f w).toNat = (map.symAddr sym + a).toNat % 2 ^ 14) hcode ht hfield (hk _) hin
  rw [hiff, hput, hrel, ← linkSym_add_linkAddend map seg sym a]
  by_cases hnum : sym.isNumber = true
  · -- no relocation is left; or-ing on the value 0 would change nothing
    obtain ⟨haddr, -⟩ := isNumber_link map seg a hnum
    have hzero : f ((gen 0).setWidth 32) = 0#32 := BitVec.eq_of_toNat_eq (hgen 0)
    have h := or_field_iff (e := sym.linkAddend seg a) hor (hgen 0)
      (hgen (sym.linkAddend seg a + sym.extra seg a)) hword
    rw [hor, hzero, BitVec.zero_or] at h
    rw [OffsetAdds, haddr, if_pos hnum]
    exact h
  · rw [if_neg hnum]
    exact or_field_iff hor (hgen _) (hgen _) hword

theorem load_links_iff {x y : InsnT} (hmem : e ∈ fusionInsnAll) (hopc : e.opc = opcLd)
    (hx : x.toNat < 32) (hy : y.toNat < 32)
    (hin : relocOffsetInRange 4 sec (fileWord (frag.frAddress + pos))) :
    LinksTo map index sec (emitInsn seg frag pos e ⟨[x, y], ⟨.symbol sym, a⟩⟩ buf)
        (fun w => (offsetField e w).toNat = (map.symAddr sym + a).toNat % 2 ^ 14) ↔
      OffsetAdds map seg sym a := by
  obtain ⟨hidx, has⟩ := assembleInsnBin_load x y sym a hmem hopc
  obtain ⟨-, -, -, -, himm⟩ := makeLType_fields hx hy hidx (a.setWidth 32)
  have hfield (w : InsnT) : offsetField e w = getImmL w := by rw [offsetField, if_pos hopc]
  rw [low_setWidth a (by decide)] at himm
  simp only [hfield, emitInsn_eq has (show RelocCode.Plain _ by simp [RelocCode.Plain])]
  exact fixedSymbol_field_iff genLImm (t := .load) (by simp [RelocCode.Plain]) rfl
    ⟨by decide, by decide⟩ (fun _ => rfl) relocatedWord_load getImmL_or getImmL_genLImm himm hin

theorem store_links_iff {x y : InsnT} (hmem : e ∈ fusionInsnAll) (hopc : e.opc = opcSt)
    (hx : x.toNat < 32) (hy : y.toNat < 32)
    (hin : relocOffsetInRange 4 sec (fileWord (frag.frAddress + pos))) :
    LinksTo map index sec (emitInsn seg frag pos e ⟨[x, y], ⟨.symbol sym, a⟩⟩ buf)
        (fun w => (offsetField e w).toNat = (map.symAddr sym + a).toNat % 2 ^ 14) ↔
      OffsetAdds map seg sym a := by
  obtain ⟨hidx, has⟩ := assembleInsnBin_store x y sym a hmem hopc
  obtain ⟨-, -, -, -, himm⟩ := makeSType_fields hy hx hidx (a.setWidth 32)
  have hfield (w : InsnT) : offsetField e w = getImmS w := by
    rw [offsetField, if_neg (by rw [hopc]; decide)]
  rw [low_setWidth a (by decide)] at himm
  simp only [hfield, emitInsn_eq has (show RelocCode.Plain _ by simp [RelocCode.Plain])]
  exact fixedSymbol_field_iff genSImm (t := .store) (by simp [RelocCode.Plain]) rfl
    ⟨by decide, by decide⟩ (fun _ => rfl) relocatedWord_store getImmS_or getImmS_genSImm himm hin

/-- A load or store of `sym + a` addresses it after linking exactly when the bits fit together. -/
theorem loadStore_links_iff (hmem : e ∈ fusionInsnAll) (hopc : e.opc = opcLd ∨ e.opc = opcSt)
    (hlen : regs.length = 2) (hregs : ∀ r ∈ regs, r.toNat < 32)
    (hin : relocOffsetInRange 4 sec (fileWord (frag.frAddress + pos))) :
    LinksTo map index sec (emitInsn seg frag pos e ⟨regs, ⟨.symbol sym, a⟩⟩ buf)
        (fun w => (offsetField e w).toNat = (map.symAddr sym + a).toNat % 2 ^ 14) ↔
      OffsetAdds map seg sym a := by
  obtain ⟨x, y, rfl⟩ := List.length_eq_two.1 hlen
  have hx := hregs x (by simp)
  have hy := hregs y (by simp)
  rcases hopc with hopc | hopc
  · exact load_links_iff hmem hopc hx hy hin
  · exact store_links_iff hmem hopc hx hy hin

theorem loadStore_links_lw :
    LinksTo (sampleMap 0x1000) (fun _ => 1) sampleText
      (emitInsn sampleSeg ⟨0, 0⟩ 8 ⟨"lw", 0x00, .rdaiO, .l, .main, maskImmL, opcLd⟩
        ⟨[1, 2], ⟨.symbol (.plain (sampleGlobal .undefined 0)), 4⟩⟩ (fun _ => 0))
      (fun w => (offsetField ⟨"lw", 0x00, .rdaiO, .l, .main, maskImmL, opcLd⟩ w).toNat =
        ((sampleMap 0x1000).symAddr (.plain (sampleGlobal .undefined 0)) + 4).toNat % 2 ^ 14) :=
  (loadStore_links_iff (by decide) (.inl rfl) rfl (by simp) (by decide)).2
    (by unfold OffsetAdds; decide)

/-- With the symbol at 4, `lw` of `glob + 4` addresses 4 and not 8. -/
theorem lw_misses_sum :
    ¬ LinksTo (sampleMap 4) (fun _ => 1) sampleText
      (emitInsn sampleSeg ⟨0, 0⟩ 8 ⟨"lw", 0x00, .rdaiO, .l, .main, maskImmL, opcLd⟩
        ⟨[1, 2], ⟨.symbol (.plain (sampleGlobal .undefined 0)), 4⟩⟩ (fun _ => 0))
      (fun w => (offsetField ⟨"lw", 0x00, .rdaiO, .l, .main, maskImmL, opcLd⟩ w).toNat =
        ((sampleMap 4).symAddr (.plain (sampleGlobal .undefined 0)) + 4).toNat % 2 ^ 14) := by
  rw [load_links_iff (by decide) rfl (by decide) (by decide) (by decide), OffsetAdds]
  decide

end FusionBinutils.Link
