import FusionBinutils.Bfd.Apply

/-! Where a relocated jump or branch goes, and what the linker says when it cannot get there. -/
namespace FusionBinutils.Bfd

open Opcode BitField

variable {info : LinkInfo} {ibfd : InputBfd} {sec : Asection} {hdr : RelHdrs} {c : Contents}
  {rel : Rela} {res : Resolved} {t : RFusion} {v x : Vma}

/-- Target minus address of the instruction. -/
def displacement (sec : Asection) (rel : Rela) (res : Resolved) : Vma :=
  res.relocation + res.rel.rAddend - (sec.secAddr + rel.rOffset)

/-- The value fits in a signed field of `n` bits. -/
def FitsSigned (n : Nat) (d : Vma) : Prop :=
  -(2 : Int) ^ (n - 1) ≤ d.toInt ∧ d.toInt < (2 : Int) ^ (n - 1)

/-- The displacement a jump or branch word holds, as the disassembler reads it, is `d`,
provided `d` fits. -/
def ReachesTarget (rel : Rela) (d : Vma) (w : InsnT) : Prop :=
  (rel.rType = RFusion.jump.number → FitsSigned 21 d → (sext21b (getImmJ w)).toInt = d.toInt) ∧
  (rel.rType = RFusion.branch.number → FitsSigned 14 d → (sext14b (getImmB w)).toInt = d.toInt)

/-- The generic path puts the displacement under the two halves of the mask as it stands. -/
theorem jump_immediate (sec : Asection) (rel : Rela) (v x : Vma) :
    (getImmJ ((relocatedWord .jump sec rel v x).setWidth 32)).toNat =
      (v + rel.rAddend - (sec.secAddr + rel.rOffset)).toNat / 2 ^ 21 % 2 ^ 5 * 2 ^ 16 +
        (v + rel.rAddend - (sec.secAddr + rel.rOffset)).toNat % 2 ^ 16 := by
  have hv : (x &&& (howtoOf .jump).srcMask) +
      finalLinkValue (howtoOf .jump) sec rel v >>> (howtoOf .jump).rightshift =
      v + rel.rAddend - (sec.secAddr + rel.rOffset) := by
    have hsrc : (howtoOf .jump).srcMask = 0#64 := rfl
    have hshift : (howtoOf .jump).rightshift = 0 := rfl
    have hval : finalLinkValue (howtoOf .jump) sec rel v =
        v + rel.rAddend - sec.secAddr - rel.rOffset := rfl
    rw [hsrc, hshift, hval, BitVec.and_zero, BitVec.zero_add, BitVec.ushiftRight_zero]
    bv_omega
  have hword : relocatedWord .jump sec rel v x = BitField.insert (howtoOf .jump).dstMask x
      (v + rel.rAddend - (sec.secAddr + rel.rOffset)) := by rw [← hv]; rfl
  have hhi := insert_field (m := (howtoOf .jump).dstMask) x
    (v + rel.rAddend - (sec.secAddr + rel.rOffset)) 21 5 maskImmHiJ (by decide) (by decide)
  have hlo := insert_field (m := (howtoOf .jump).dstMask) x
    (v + rel.rAddend - (sec.secAddr + rel.rOffset)) 0 16 maskImmLoJ (by decide) (by decide)
  rw [← hword] at hhi hlo
  rw [getImmJ_toNat (by decide), BitVec.toNat_setWidth]
  omega

/-- The branch path splits the displacement before it stores it. -/
theorem branch_immediate (sec : Asection) (rel : Rela) (v x : Vma) :
    (getImmB ((relocatedWord .branch sec rel v x).setWidth 32)).toNat =
      (v + rel.rAddend - (sec.secAddr + rel.rOffset)).toNat % 2 ^ 14 := by
  have hd : v - (sec.secAddr + rel.rOffset) + rel.rAddend =
      v + rel.rAddend - (sec.secAddr + rel.rOffset) := by bv_omega
  have hgen := genBImm_toNat (by decide) (v + rel.rAddend - (sec.secAddr + rel.rOffset))
  have hhi := insert_field (m := (howtoOf .branch).dstMask) x
    (genBImm (v + rel.rAddend - (sec.secAddr + rel.rOffset))) 21 5 maskImmHiB (by decide)
    (by decide)
  have hlo := insert_field (m := (howtoOf .branch).dstMask) x
    (genBImm (v + rel.rAddend - (sec.secAddr + rel.rOffset))) 2 9 maskImmLoB (by decide)
    (by decide)
  rw [getImmB_toNat (by decide), BitVec.toNat_setWidth, relocatedWord, hd]
  rw [hgen] at hhi hlo
  omega

theorem jump_reaches_iff {d : Vma} {w : InsnT}
    (hw : (getImmJ w).toNat = d.toNat / 2 ^ 21 % 2 ^ 5 * 2 ^ 16 + d.toNat % 2 ^ 16)
    (hd : FitsSigned 21 d) : (sext21b (getImmJ w)).toInt = d.toInt ↔ FitsSigned 17 d := by
  have hlt := d.isLt
  unfold FitsSigned at hd ⊢
  rw [sext21b_toInt, hw, BitVec.toInt_eq_toNat_cond] at *
  split at hd <;> rename_i h <;> simp only [h, if_true, if_false] <;> omega

theorem branch_reaches {d : Vma} {w : InsnT} (hw : (getImmB w).toNat = d.toNat % 2 ^ 14)
    (hd : FitsSigned 14 d) : (sext14b (getImmB w)).toInt = d.toInt := by
  have hlt := d.isLt
  unfold FitsSigned at hd
  rw [sext14b_toInt, hw]
  rw [BitVec.toInt_eq_toNat_cond] at hd ⊢
  split at hd <;> rename_i h <;> simp only [h, if_true, if_false] <;> omega

/-- A relocation of a jump or branch inside its section leaves a word that reaches the target
exactly when it is not a jump over more than a signed 17-bit distance. -/
theorem relocateEntry_reachesTarget_iff (h : Live info ibfd sec rel res)
    (ht : rel.rType = RFusion.jump.number ∨ rel.rType = RFusion.branch.number)
    (hin : relocOffsetInRange 4 sec rel.rOffset) :
    (∃ c' cbs, relocateEntry info ibfd sec hdr c rel =
        some (.goesOn hdr c' [res.rel] (.ofStatus .ok) cbs) ∧
      ReachesTarget rel (displacement sec rel res) (wordAt c' rel.rOffset)) ↔
    (rel.rType = RFusion.jump.number → FitsSigned 21 (displacement sec rel res) →
      FitsSigned 17 (displacement sec rel res)) := by
  rcases ht with ht | ht
  · obtain ⟨cbs, he⟩ := relocateEntry_inRange hdr c (t := .jump) h
      ⟨by decide, by decide⟩ ht hin
    have hw := jump_immediate sec res.rel res.relocation (bfdGetb32 c rel.rOffset)
    rw [h.rOffset_eq] at hw
    constructor
    · rintro ⟨c', cbs', he', hreach, -⟩ _ hfits
      cases he.symm.trans he'
      rw [wordAt_bfdPutb32] at hreach
      exact (jump_reaches_iff hw hfits).1 (hreach ht hfits)
    · intro hcond
      refine ⟨_, cbs, he, ?_, ?_⟩
      · intro _ hfits
        rw [wordAt_bfdPutb32]
        exact (jump_reaches_iff hw hfits).2 (hcond ht hfits)
      · intro hb
        rw [ht] at hb
        cases hb
  · obtain ⟨cbs, he⟩ := relocateEntry_inRange hdr c (t := .branch) h
      ⟨by decide, by decide⟩ ht hin
    have hw := branch_immediate sec res.rel res.relocation (bfdGetb32 c rel.rOffset)
    rw [h.rOffset_eq] at hw
    constructor
    · intro _ hj
      rw [ht] at hj
      cases hj
    · intro _
      refine ⟨_, cbs, he, ?_, ?_⟩
      · intro hj
        rw [ht] at hj
        cases hj
      · intro _ hfits
        rw [wordAt_bfdPutb32]
        exact branch_reaches hw hfits

/-! A file with one local symbol, linked at address 0. -/

def sampleText : Asection where
  name := ".text"
  isAbs := false
  merge := false
  debugging := false
  secInfoType := .none
  outputSection := some (.mapped 0)
  outputOffset := 0
  size := 0x100
  rawsize := 0
  size_lt := by decide
  rawsize_lt := by decide

def sampleInfo : LinkInfo where
  relocatable := false
  unresolvedSymsInObjects := .generateError
  unwrapHashLookup := none
  mergedSectionOffset := fun sec offset => (sec, offset)

def sampleBfd (value : Vma) : InputBfd where
  locals := [(⟨some "target", value, false⟩, sampleText)]
  symHashes := none

def sampleRela (t : RFusion) (offset : Vma) : Rela := ⟨offset, BitVec.ofNat 64 t.number, 0⟩

def sampleResolved (t : RFusion) (offset value : Vma) : Resolved :=
  ⟨value, some sampleText, sampleRela t offset, "target", []⟩

theorem sample_live (t : RFusion) (offset value : Vma) :
    Live sampleInfo (sampleBfd value) sampleText (sampleRela t offset)
      (sampleResolved t offset value) where
  final := rfl
  resolves := by
    have hsym : (sampleRela t offset).rSym = 0 := by
      change (BitVec.ofNat 64 t.number >>> 8).toNat = 0
      cases t <;> decide
    have hvma : sampleText.outputVma = 0#64 := rfl
    have hoff : sampleText.outputOffset = 0#64 := rfl
    have hmerge : sampleText.merge = false := rfl
    simp [resolve, hsym, sampleBfd, bfdElfRelaLocalSym, hvma, hoff, hmerge, sampleResolved]
  kept := rfl

theorem relocateEntry_reachesTarget_sample :
    ∃ c' cbs, relocateEntry sampleInfo (sampleBfd 0xff00) sampleText ⟨0, 0, 12⟩ (fun _ => 0)
        (sampleRela .jump 8) =
        some (.goesOn ⟨0, 0, 12⟩ c' [sampleRela .jump 8] (.ofStatus .ok) cbs) ∧
      ReachesTarget (sampleRela .jump 8)
        (displacement sampleText (sampleRela .jump 8) (sampleResolved .jump 8 0xff00))
        (wordAt c' 8) :=
  (relocateEntry_reachesTarget_iff (sample_live .jump 8 0xff00) (Or.inl rfl) (by decide)).2
    fun _ _ => ⟨by decide, by decide⟩

/-- A jump of 65536 bytes forward comes out as a jump to itself. -/
theorem jump_misses_target :
    ¬ ∃ c' cbs, relocateEntry sampleInfo (sampleBfd 0x10000) sampleText ⟨0, 0, 12⟩ (fun _ => 0)
        (sampleRela .jump 0) =
        some (.goesOn ⟨0, 0, 12⟩ c' [sampleRela .jump 0] (.ofStatus .ok) cbs) ∧
      ReachesTarget (sampleRela .jump 0)
        (displacement sampleText (sampleRela .jump 0) (sampleResolved .jump 0 0x10000))
        (wordAt c' 0) := by
  rintro ⟨c', cbs', he', hreach, -⟩
  obtain ⟨cbs, he⟩ := relocateEntry_inRange ⟨0, 0, 12⟩ (fun _ => 0) (t := .jump)
    (sample_live .jump 0 0x10000) ⟨by decide, by decide⟩ rfl (by decide)
  cases he.symm.trans he'
  have himm := hreach rfl ⟨by decide, by decide⟩
  have hoff : (sampleRela .jump 0).rOffset = 0#64 := rfl
  rw [hoff, BitVec.ofNat_eq_ofNat, wordAt_bfdPutb32] at himm
  revert himm
  decide

/-! Values that the field cannot hold. -/

/-- The value of a load or store fits in 14 bits, read as signed or as unsigned. -/
def Fits14 (v : Vma) : Prop := -(2 : Int) ^ 13 ≤ v.toInt ∧ v.toInt < (2 : Int) ^ 14

/-- The relocated value fits the field of the relocation's type. -/
def FitsField (t : RFusion) (sec : Asection) (rel : Rela) (res : Resolved) : Prop :=
  match t with
  | .branch => FitsSigned 14 (displacement sec rel res)
  | .jump => FitsSigned 21 (displacement sec rel res)
  | .load | .store => Fits14 (res.relocation + res.rel.rAddend)
  | _ => True

/-- An oversized value is answered with another status than `ok` only by accident: when the
relocation is a jump whose place lies outside the section. -/
theorem relocateEntry_oversize_iff (h : Live info ibfd sec rel res) (hr : rel.rType = t.number)
    (ht : t = .branch ∨ t = .jump ∨ t = .load ∨ t = .store) :
    (∃ c' r cbs, relocateEntry info ibfd sec hdr c rel =
        some (.goesOn hdr c' [res.rel] (.ofStatus r) cbs) ∧
      (¬ FitsField t sec rel res → r ≠ .ok)) ↔
    (FitsField t sec rel res ∨
      t = .jump ∧ relocOffsetInRange 4 sec rel.rOffset = false) := by
  by_cases hout : t = .jump ∧ relocOffsetInRange 4 sec rel.rOffset = false
  · obtain ⟨rfl, hrange⟩ := hout
    obtain ⟨cbs, he⟩ := relocateEntry_outOfRange hdr c (t := .jump) h trivial hr
      hrange
    constructor
    · intro _
      exact Or.inr ⟨rfl, hrange⟩
    · intro _
      exact ⟨c, .outofrange, cbs, he, fun _ hok => by cases hok⟩
  · -- in every other case the relocation is applied with status `ok`
    have happly : ∃ c' cbs, relocateEntry info ibfd sec hdr c rel =
        some (.goesOn hdr c' [res.rel] (.ofStatus .ok) cbs) := by
      by_cases hj : t = .jump
      · subst hj
        have hin : relocOffsetInRange 4 sec rel.rOffset = true := by
          simpa using fun hf => hout ⟨rfl, hf⟩
        obtain ⟨cbs, he⟩ := relocateEntry_inRange hdr c h
          ⟨by decide, by decide⟩ hr hin
        exact ⟨_, cbs, he⟩
      · have hh : t.HandWritten := by
          rcases ht with rfl | rfl | rfl | rfl <;> simp_all [RFusion.HandWritten]
        obtain ⟨cbs, he⟩ := relocateEntry_handWritten hdr c h hh hr
        exact ⟨_, cbs, he⟩
    obtain ⟨c', cbs, he⟩ := happly
    constructor
    · rintro ⟨c'', r, cbs', he', hstatus⟩
      left
      by_contra hfits
      rw [he] at he'
      simp only [Option.some.injEq, Turn.goesOn.injEq] at he'
      exact hstatus hfits (ofStatus_inj he'.2.2.2.1).symm
    · rintro (hfits | hj)
      · exact ⟨c', .ok, cbs, he, fun hn => absurd hfits hn⟩
      · exact absurd hj hout

theorem relocateEntry_oversize_sample :
    ∃ c' r cbs, relocateEntry sampleInfo (sampleBfd 0x100000) sampleText ⟨0, 0, 12⟩ (fun _ => 0)
        (sampleRela .jump 0x100) =
        some (.goesOn ⟨0, 0, 12⟩ c' [sampleRela .jump 0x100] (.ofStatus r) cbs) ∧
      (¬ FitsField .jump sampleText (sampleRela .jump 0x100)
        (sampleResolved .jump 0x100 0x100000) → r ≠ .ok) :=
  (relocateEntry_oversize_iff (sample_live .jump 0x100 0x100000) rfl (Or.inr (Or.inl rfl))).2
    (Or.inr ⟨rfl, by decide⟩)

/-- A branch 8192 bytes forward wraps to 8192 bytes backward, and the status is `ok`. -/
theorem branch_truncated_silently :
    ¬ ∃ c' r cbs, relocateEntry sampleInfo (sampleBfd 0x2000) sampleText ⟨0, 0, 12⟩ (fun _ => 0)
        (sampleRela .branch 0) =
        some (.goesOn ⟨0, 0, 12⟩ c' [sampleRela .branch 0] (.ofStatus r) cbs) ∧
      (¬ FitsField .branch sampleText (sampleRela .branch 0)
        (sampleResolved .branch 0 0x2000) → r ≠ .ok) := by
  rintro ⟨c', r, cbs', he', hstatus⟩
  obtain ⟨cbs, he⟩ := relocateEntry_handWritten ⟨0, 0, 12⟩ (fun _ => 0)
    (t := .branch) (sample_live .branch 0 0x2000) (Or.inr (Or.inr rfl)) rfl
  have hbig : ¬ FitsField .branch sampleText (sampleRela .branch 0)
      (sampleResolved .branch 0 0x2000) := by
    rintro ⟨-, hlt⟩
    revert hlt
    decide
  have hsame := he.symm.trans he'
  simp only [Option.some.injEq, Turn.goesOn.injEq] at hsame
  exact hstatus hbig (ofStatus_inj hsame.2.2.2.1).symm

end FusionBinutils.Bfd
