import FusionBinutils.Gas.TcFusion

/-! Fixups on their way from the expression to the relocation record (gas/write.c). -/
namespace FusionBinutils.Gas

open Bfd

def Segment.flags : Segment → SegFlags
  | .normal _ flags => flags
  | _ => ⟨false, false, false⟩

/-- `segment_name`. -/
def Segment.name : Segment → String
  | .undefined => "*UND*"
  | .common => "*COM*"
  | .absolute => "*ABS*"
  | .reg => "*GAS `reg' section*"
  | .expr => "*GAS `expr' section*"
  | .normal name _ => name

/-- `adjust_reloc_syms` may put the section symbol in place of `s`. -/
def reducible (sec : Segment) (subsy : Option PlainSym) (s : PlainSym) (offset : Vma) : Bool :=
  !sForceReloc s true && !s.sectionSym && s.seg != .absolute && s.seg != .reg &&
    !(s.seg != sec && !s.isLocal && s.seg.flags.linkOnce) &&
    !(s.seg.flags.merge && (offset != 0 || subsy.isSome)) &&
    !s.seg.flags.threadLocal

/-- `adjust_reloc_syms` on one symbol and offset. -/
def adjustSym (sec : Segment) (subsy : Option PlainSym) : Symbol → Vma → PlainSym × Vma
  | .equated target n, offset => adjustSym sec subsy target (offset + n)
  | .mriCommon value base, offset => (base, offset + value)
  | .plain s, offset =>
    if reducible sec subsy s offset then (sectionSymbol s.seg, offset + s.value) else (s, offset)

/-- `adjust_reloc_syms` on one fixup of the section. -/
def adjustRelocSyms (sec : Segment) (fix : NewFix) : FixS :=
  let (addsy, offset) :=
    match fix.addsy with
    | none => (none, fix.offset)
    | some sym =>
      let (s, offset) := adjustSym sec fix.subsy sym fix.offset
      (some s, offset)
  { fxFrag := fix.frag
    fxWhere := fix.pos
    fxSize := fix.size
    fxAddsy := addsy
    fxSubsy := fix.subsy
    fxOffset := offset
    fxAddnumber := 0
    fxDone := false
    fxPcrel := fix.pcrel
    fxRType := fix.rType }

/-- `generic_force_reloc`, which is `TC_FORCE_RELOCATION` here. -/
def genericForceReloc (fix : FixS) : Bool :=
  match fix.fxAddsy with
  | none => false
  | some s => sForceReloc s fix.fxSubsy.isNone

/-- `TC_FORCE_RELOCATION_LOCAL`. -/
def tcForceRelocationLocal (fix : FixS) : Bool := !fix.fxPcrel || genericForceReloc fix

/-- The message about a difference that cannot be reduced. -/
def cantResolve (add : String) (addSeg : Segment) (sub : PlainSym) : String :=
  "can't resolve `" ++ add ++ "' \x7b" ++ addSeg.name ++ " section\x7d - `" ++ sub.name ++
    "' \x7b" ++ sub.seg.name ++ " section\x7d"

/-- The part of `fixup_segment` about `fx_subsy`. The port has no `DIFF_EXPR_OK`, so the third
branch of the source is dead and a difference that remains is an error. -/
def fixupSub (addSeg : Segment) (fix : FixS) (addNumber : Vma) : FixS × Vma × List String :=
  let subAbs (add : String) (sub : PlainSym) : FixS × Vma × List String :=
    if sub.seg = .absolute ∧ ¬ sForceReloc sub false then
      let addNumber := addNumber - sub.value
      ({ fix with fxOffset := addNumber, fxSubsy := none }, addNumber, [])
    else (fix, addNumber, [cantResolve add addSeg sub])
  match fix.fxSubsy, fix.fxAddsy with
  | none, _ => (fix, addNumber, [])
  | some sub, none => subAbs "0" sub
  | some sub, some add =>
    if sub.seg = addSeg ∧ ¬ sForceReloc add false ∧ ¬ sForceReloc sub false ∧
        addSeg.segNormal then
      let addNumber := addNumber + add.value - sub.value
      ({ fix with fxOffset := addNumber, fxAddsy := none, fxSubsy := none }, addNumber, [])
    else subAbs add.name sub

/-- The part of `fixup_segment` about `fx_addsy`. -/
def fixupAdd (thisSegment addSeg : Segment) (fix : FixS) (addNumber : Vma) : FixS × Vma :=
  match fix.fxAddsy with
  | none => (fix, addNumber)
  | some s =>
    if addSeg = thisSegment ∧ ¬ sForceReloc s false ∧ ¬ tcForceRelocationLocal fix then
      let sum := addNumber + s.value
      ({ fix with fxOffset := sum, fxAddsy := none, fxPcrel := false },
        if fix.fxPcrel then sum - mdPcrelFrom fix else sum)
    else if addSeg = .absolute ∧ ¬ sForceReloc s false ∧ ¬ genericForceReloc fix then
      let sum := addNumber + s.value
      ({ fix with fxOffset := sum, fxAddsy := none }, sum)
    else if addSeg ≠ .undefined ∧ addSeg ≠ .common then (fix, addNumber + s.value)
    else (fix, addNumber)

/-- The part of `fixup_segment` about `fx_pcrel`. -/
def fixupPcrel (fix : FixS) (addNumber : Vma) : FixS × Vma :=
  if fix.fxPcrel then
    ({ fix with fxAddsy := fix.fxAddsy.or (some (sectionSymbol .absolute)) },
      addNumber - mdPcrelFrom fix)
  else (fix, addNumber)

/-- The complaint about a value that the field of the fixup cannot hold. -/
def fieldOverflow (fix : FixS) (addNumber : Vma) : List String :=
  let mask := (-1 : Vma) <<< (fix.fxSize * 8)
  if fix.fxSize ≠ 0 ∧ fix.fxSize < 8 ∧ addNumber &&& mask ≠ 0 ∧ addNumber &&& mask ≠ mask then
    let value := if 1000 < addNumber then addNumber.toHex else toString addNumber.toInt
    ["value of " ++ value ++ " too large for field of " ++ toString fix.fxSize ++ " bytes at " ++
      (fix.fxFrag.frAddress + fix.fxWhere).toHex]
  else []

/-- One turn of the loop in `fixup_segment`: the fixup afterwards, the literal of its frag and
the segment that the next turn starts with. -/
def fixupFix (thisSegment addSeg : Segment) (fix : FixS) (buf : Contents) :
    Option (Segment × Applied) := do
  let addSeg := (fix.fxAddsy.map PlainSym.seg).getD addSeg
  let (fix, addNumber, msgs) := fixupSub addSeg fix fix.fxOffset
  let (fix, addNumber) := fixupAdd thisSegment addSeg fix addNumber
  let (fix, addNumber) := fixupPcrel fix addNumber
  let a ← mdApplyFix fix addNumber buf
  -- a relocation without a symbol is made against the absolute section
  let addsy := if a.fix.fxDone then a.fix.fxAddsy
    else a.fix.fxAddsy.or (some (sectionSymbol .absolute))
  return (addSeg, ⟨{ a.fix with fxAddsy := addsy }, a.buf,
    msgs ++ a.msgs ++ fieldOverflow fix addNumber⟩)

/-- `fixup_segment` over the fixups of a section; `literals` holds the literal of each frag. -/
def fixupSegment (thisSegment : Segment) :
    Segment → (Nat → Contents) → List FixS → Option (List FixS × (Nat → Contents) × List String)
  | _, literals, [] => some ([], literals, [])
  | addSeg, literals, fix :: rest => do
    let (addSeg, a) ← fixupFix thisSegment addSeg fix (literals fix.fxFrag.id)
    let (fixes, literals, msgs) ←
      fixupSegment thisSegment addSeg (Function.update literals fix.fxFrag.id a.buf) rest
    return (a.fix :: fixes, literals, a.msgs ++ msgs)

/-- The literal of a frag once an instruction has been put into it and its fixup applied. -/
def completeInsn (seg : Segment) (frag : FragRef) (pos : Vma) (insn : Opcode.FusionOpcInfo)
    (txt : OperandText) (buf : Contents) : Option Contents := do
  let a ← assembleInsnBin insn txt
  let buf := bfdPutb32 (a.word.setWidth 64) buf pos
  match appendInsn a frag pos with
  | none => return buf
  | some (fix, _) =>
    let (_, applied) ← fixupFix seg .absolute (adjustRelocSyms seg fix) buf
    return applied.buf

/-- The same with the messages on the way. -/
def completeReports (seg : Segment) (frag : FragRef) (pos : Vma) (insn : Opcode.FusionOpcInfo)
    (txt : OperandText) (buf : Contents) : Option (Contents × List String) := do
  let a ← assembleInsnBin insn txt
  let buf := bfdPutb32 (a.word.setWidth 64) buf pos
  match appendInsn a frag pos with
  | none => return (buf, a.msgs)
  | some (fix, msgs) =>
    let (_, applied) ← fixupFix seg .absolute (adjustRelocSyms seg fix) buf
    return (applied.buf, a.msgs ++ msgs ++ applied.msgs)

/-- The relocation that `write_relocs` makes of a fixup. -/
def writeReloc (fix : FixS) : Option Arelent :=
  if fix.fxDone then none
  else fix.fxAddsy.bind fun addsy => (tcGenReloc fix addsy).1

/-! What one turn does to the fixups that the port makes. -/

variable {fix : FixS} {buf : Contents} {v : Vma}

/-- The codes whose value is or-ed onto the word whatever the symbol. -/
def RelocCode.Plain (code : RelocCode) : Prop :=
  code = .r32 ∨ code = .r8 ∨ code = .fusionHi16 ∨ code = .r16 ∨ code = .fusionStore ∨
    code = .fusionLoad ∨ code = .fusion12

theorem RelocCode.Plain.const {code : RelocCode} (h : code.Plain) (v : Vma) :
    ∃ c, fusionApplyConstReloc code v = some c := by
  rcases h with rfl | rfl | rfl | rfl | rfl | rfl | rfl <;> exact ⟨_, rfl⟩

theorem mdApplyFix_plain (buf : Contents) (h : fix.fxRType.Plain) {c : InsnT}
    (hc : fusionApplyConstReloc fix.fxRType v = some c) :
    mdApplyFix fix v buf = some
      ⟨{ fix with fxAddnumber := v, fxDone := fix.fxDone || fix.fxAddsy.isNone },
        orAtFix fix (c.setWidth 64) buf, []⟩ := by
  rcases h with h | h | h | h | h | h | h <;>
    (rw [h] at hc; simp only [mdApplyFix, h, hc]; rfl)

theorem wordAt_orAtFix (fix : FixS) (v : InsnT) (buf : Contents) :
    wordAt (orAtFix fix (v.setWidth 64) buf) fix.fxWhere = v ||| wordAt buf fix.fxWhere := by
  rw [orAtFix, wordAt_bfdPutb32, BitVec.setWidth_or, wordAt]
  congr 1
  exact BitVec.setWidth_setWidth_of_le _ (by decide)

theorem applyPcrel_fix {lo hi : Int} {msg : String} {gen : Vma → Vma} :
    (applyPcrel fix v buf lo hi msg gen).fix = fix := by
  unfold applyPcrel
  split
  · rfl
  · split <;> rfl

theorem fixupAdd_pcrel (thisSegment addSeg : Segment) (addNumber : Vma)
    (h : fix.fxPcrel = false) : (fixupAdd thisSegment addSeg fix addNumber).1.fxPcrel = false := by
  unfold fixupAdd
  split
  · exact h
  · split_ifs <;> simp [h]

/-- The symbol of a fixup that has none left. -/
def FixS.withAbs (fix : FixS) : FixS :=
  { fix with fxAddsy := if fix.fxDone then fix.fxAddsy
      else fix.fxAddsy.or (some (sectionSymbol .absolute)) }

/-- One turn for a fixup without a second symbol that is not pc-relative. -/
theorem fixupFix_msgs (fix : FixS) (thisSegment addSeg : Segment) (hsub : fix.fxSubsy = none)
    (hpcrel : fix.fxPcrel = false) {fix' : FixS} {ap : Applied}
    (hadd : fixupAdd thisSegment ((fix.fxAddsy.map PlainSym.seg).getD addSeg) fix fix.fxOffset =
      (fix', v)) (hap : mdApplyFix fix' v buf = some ap) :
    fixupFix thisSegment addSeg fix buf = some ((fix.fxAddsy.map PlainSym.seg).getD addSeg,
      ⟨ap.fix.withAbs, ap.buf, ap.msgs ++ fieldOverflow fix' v⟩) := by
  have hpc : fix'.fxPcrel = false := by
    have h := fixupAdd_pcrel thisSegment ((fix.fxAddsy.map PlainSym.seg).getD addSeg)
      fix.fxOffset hpcrel
    rwa [hadd] at h
  simp only [fixupFix, fixupSub, hsub, hadd, fixupPcrel, hpc, Bool.false_eq_true, if_false, hap,
    Option.bind_eq_bind, Option.bind_some]
  rfl

theorem fixupFix_eq (fix : FixS) (thisSegment addSeg : Segment) (hsub : fix.fxSubsy = none)
    (hpcrel : fix.fxPcrel = false) {fix' : FixS} {ap : Applied}
    (hadd : fixupAdd thisSegment ((fix.fxAddsy.map PlainSym.seg).getD addSeg) fix fix.fxOffset =
      (fix', v)) (hap : mdApplyFix fix' v buf = some ap) :
    ∃ msgs, fixupFix thisSegment addSeg fix buf =
      some ((fix.fxAddsy.map PlainSym.seg).getD addSeg, ⟨ap.fix.withAbs, ap.buf, msgs⟩) :=
  ⟨_, fixupFix_msgs fix thisSegment addSeg hsub hpcrel hadd hap⟩

/-- The turn read backwards. -/
theorem fixupFix_inv {thisSegment addSeg addSeg' : Segment} (hsub : fix.fxSubsy = none)
    (hpcrel : fix.fxPcrel = false) {fix' : FixS} {ap : Applied}
    (hadd : fixupAdd thisSegment ((fix.fxAddsy.map PlainSym.seg).getD addSeg) fix fix.fxOffset =
      (fix', v)) (h : fixupFix thisSegment addSeg fix buf = some (addSeg', ap)) :
    ∃ ap', mdApplyFix fix' v buf = some ap' ∧ ap.fix = ap'.fix.withAbs ∧ ap.buf = ap'.buf := by
  cases hap : mdApplyFix fix' v buf with
  | none =>
    have hpc : fix'.fxPcrel = false := by
      have hp := fixupAdd_pcrel thisSegment ((fix.fxAddsy.map PlainSym.seg).getD addSeg)
        fix.fxOffset hpcrel
      rwa [hadd] at hp
    simp [fixupFix, fixupSub, hsub, hadd, fixupPcrel, hpc, hap] at h
  | some ap' =>
    obtain ⟨msgs, hfix⟩ := fixupFix_eq fix thisSegment addSeg hsub hpcrel hadd hap
    cases hfix.symm.trans h
    exact ⟨ap', rfl, rfl, rfl⟩

end FusionBinutils.Gas
