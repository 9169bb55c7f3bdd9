import FusionBinutils.Bfd.Displacement

/-! What a relocation leaves alone: the other fields of its word, and everything when its
place is not in the section. -/
namespace FusionBinutils.Bfd

open Opcode BitField

variable {info : LinkInfo} {ibfd : InputBfd} {sec : Asection} {hdr : RelHdrs} {c : Contents}
  {rel : Rela} {res : Resolved} {t : RFusion} {v x : Vma}

/-- The immediate mask of the format a relocation type is for. -/
def immMask : RFusion → InsnT
  | .li | .lui | .liPcrel | .luiPcrel => maskImmLi
  | .sys => maskImmSys
  | .i => maskImmI
  | .load => maskImmL
  | .store => maskImmS
  | .branch => maskImmB
  | .jump | .jumpO => maskImmJ
  | .r32 => 0xffffffff#32
  | .none | .relative => 0#32

/-- The types that patch an instruction. -/
def RFusion.ForInsn (t : RFusion) : Prop := t.HasField ∧ t ≠ .r32

/-- No mask but that of `R_FUSION_I` reaches outside the format's immediate. -/
theorem dstMask_disjoint (h : t ≠ .i) (hf : t.HasField) :
    ~~~((immMask t).setWidth 64) &&& (howtoOf t).dstMask = 0#64 := by
  cases t <;> first | decide | (simp_all [RFusion.HasField])

theorem relocatedWord_and (sec : Asection) (rel : Rela) (v x : Vma) (h : t ≠ .i) (hf : t.HasField) :
    relocatedWord t sec rel v x &&& ~~~((immMask t).setWidth 64) =
      x &&& ~~~((immMask t).setWidth 64) := by
  have hd := dstMask_disjoint h hf
  cases t with
  | load => exact or_and_of_disjoint hd _ x
  | store => exact or_and_of_disjoint hd _ x
  | none => exact absurd rfl hf.1
  | relative => exact absurd rfl hf.2
  | r32 | li | lui | liPcrel | luiPcrel | sys | i | branch | jump | jumpO =>
    exact insert_and_of_disjoint hd x _

/-- `R_FUSION_I` adds the value to the whole word. -/
theorem relocatedWord_i (sec : Asection) (rel : Rela) (v x : Vma) :
    (relocatedWord .i sec rel v x).setWidth 32 = x.setWidth 32 + (v + rel.rAddend).setWidth 32 := by
  have hword : relocatedWord .i sec rel v x = BitField.insert 0xffffffff#64 x
      ((x &&& 0xffffffff#64) + (v + rel.rAddend) >>> 0) := rfl
  have hf := insert_field (m := 0xffffffff#64) x
    ((x &&& 0xffffffff#64) + (v + rel.rAddend) >>> 0) 0 32 0xffffffff#64 (by decide) (by decide)
  have hx := toNat_and_field (x := x) (m := 0xffffffff#64) 0 32 (by decide)
  rw [← hword, BitVec.toNat_add, BitVec.ushiftRight_zero, hx] at hf
  apply BitVec.eq_of_toNat_eq
  rw [BitVec.toNat_add, BitVec.toNat_setWidth, BitVec.toNat_setWidth, BitVec.toNat_setWidth]
  omega

/-- Adding `d` to a word keeps the bits around the immediate of an I-type instruction exactly
when `d` counts in units of the field and does not carry out of it. -/
theorem add_keeps_iff (w d : InsnT) :
    (w + d) &&& ~~~maskImmI = w &&& ~~~maskImmI ↔
      (16 : Int) ∣ d.toInt ∧ 0 ≤ ((getImmI w).toNat : Int) + d.toInt / 16 ∧
        ((getImmI w).toNat : Int) + d.toInt / 16 < 4096 := by
  have hsplit : ∀ y : InsnT, (y &&& ~~~maskImmI).toNat =
      y.toNat / 2 ^ 16 % 2 ^ 16 * 2 ^ 16 + y.toNat / 2 ^ 0 % 2 ^ 4 * 2 ^ 0 := fun y =>
    toNat_and_split (show ~~~maskImmI = 0xffff0000#32 ||| 0xf#32 by decide) 16 16 0 4 (by decide)
      (by decide) (by decide)
  have hw := w.isLt
  have hd := d.isLt
  rw [← BitVec.toNat_inj, hsplit, hsplit, BitVec.toNat_add, getImmI_toNat (by decide),
    BitVec.toInt_eq_toNat_cond]
  split <;> omega

/-- A relocation for an instruction keeps the bits outside the immediate, `R_FUSION_I` only
when the addition happens to stay inside it. -/
theorem relocateEntry_frame_iff (h : Live info ibfd sec rel res) (hr : rel.rType = t.number)
    (ht : t.ForInsn) (hin : relocOffsetInRange 4 sec rel.rOffset) :
    (∃ c' cbs, relocateEntry info ibfd sec hdr c rel =
        some (.goesOn hdr c' [res.rel] (.ofStatus .ok) cbs) ∧
      wordAt c' rel.rOffset &&& ~~~immMask t = wordAt c rel.rOffset &&& ~~~immMask t) ↔
    (t = .i →
      (16 : Int) ∣ ((res.relocation + res.rel.rAddend).setWidth 32).toInt ∧
      0 ≤ ((getImmI (wordAt c rel.rOffset)).toNat : Int) +
        ((res.relocation + res.rel.rAddend).setWidth 32).toInt / 16 ∧
      ((getImmI (wordAt c rel.rOffset)).toNat : Int) +
        ((res.relocation + res.rel.rAddend).setWidth 32).toInt / 16 < 4096) := by
  obtain ⟨cbs, he⟩ := relocateEntry_inRange hdr c h ht.1 hr hin
  have hreduce : (∃ c' cbs, relocateEntry info ibfd sec hdr c rel =
        some (.goesOn hdr c' [res.rel] (.ofStatus .ok) cbs) ∧
      wordAt c' rel.rOffset &&& ~~~immMask t = wordAt c rel.rOffset &&& ~~~immMask t) ↔
      (relocatedWord t sec res.rel res.relocation (bfdGetb32 c rel.rOffset)).setWidth 32 &&&
        ~~~immMask t = wordAt c rel.rOffset &&& ~~~immMask t := by
    rw [← wordAt_bfdPutb32 _ c rel.rOffset]
    constructor
    · rintro ⟨c', cbs', he', hw⟩
      cases he.symm.trans he'
      exact hw
    · intro hw
      exact ⟨_, cbs, he, hw⟩
  rw [hreduce]
  by_cases hi : t = .i
  · subst hi
    rw [relocatedWord_i]
    exact (add_keeps_iff _ _).trans ⟨fun hk _ => hk, fun hk => hk rfl⟩
  · have hmask : (~~~((immMask t).setWidth 64)).setWidth 32 = ~~~immMask t := by
      cases t <;> decide
    have hword := congrArg (BitVec.setWidth 32) (relocatedWord_and sec res.rel
      res.relocation (bfdGetb32 c rel.rOffset) hi ht.1)
    rw [BitVec.setWidth_and, BitVec.setWidth_and, hmask] at hword
    exact ⟨fun _ hc => absurd hc hi, fun _ => hword⟩

theorem relocateEntry_frame_sample :
    ∃ c' cbs, relocateEntry sampleInfo (sampleBfd 0x20) sampleText ⟨0, 0, 12⟩ (fun _ => 0)
        (sampleRela .i 0) =
        some (.goesOn ⟨0, 0, 12⟩ c' [sampleRela .i 0] (.ofStatus .ok) cbs) ∧
      wordAt c' 0 &&& ~~~immMask .i = wordAt (fun _ => 0) 0 &&& ~~~immMask .i :=
  (relocateEntry_frame_iff (sample_live .i 0 0x20) rfl ⟨⟨by decide, by decide⟩, by decide⟩
    (by decide)).2 fun _ => by decide

/-- Relocating `addi` against a symbol at address 1 turns it into `subi`. -/
theorem addi_becomes_subi :
    ¬ ∃ c' cbs, relocateEntry sampleInfo (sampleBfd 1) sampleText ⟨0, 0, 12⟩
        (fun p => if p = 0 then 0x58 else 0) (sampleRela .i 0) =
        some (.goesOn ⟨0, 0, 12⟩ c' [sampleRela .i 0] (.ofStatus .ok) cbs) ∧
      wordAt c' 0 &&& ~~~immMask .i =
        wordAt (fun p => if p = 0 then 0x58 else 0) 0 &&& ~~~immMask .i := by
  rintro ⟨c', cbs', he', hw⟩
  obtain ⟨cbs, he⟩ := relocateEntry_inRange ⟨0, 0, 12⟩
    (fun p => if p = 0 then 0x58 else 0) (t := .i) (sample_live .i 0 1)
    ⟨by decide, by decide⟩ rfl (by decide)
  cases he.symm.trans he'
  have hoff : (sampleRela .i 0).rOffset = 0#64 := rfl
  rw [hoff, BitVec.ofNat_eq_ofNat, wordAt_bfdPutb32] at hw
  revert hw
  decide

/-! Places outside the section. -/

/-- The number of octets `_bfd_final_link_relocate` asks for. -/
def fieldOctets (t : RFusion) : Nat := if t = .none then 0 else 4

theorem relocOffsetInRange_iff (sec : Asection) {n : Nat} (hn : n < 2 ^ 32) (octet : Vma) :
    relocOffsetInRange n sec octet ↔ octet.toNat + n ≤ sec.limitOctets.toNat := by
  have hlim := sec.limitOctets_lt
  have hoct := octet.isLt
  simp only [relocOffsetInRange, decide_eq_true_eq, BitVec.le_def, BitVec.toNat_add,
    BitVec.toNat_ofNat]
  omega

theorem relocateEntry_none (hdr : RelHdrs) (c : Contents) (h : Live info ibfd sec rel res)
    (hr : rel.rType = RFusion.none.number) :
    ∃ cbs, relocateEntry info ibfd sec hdr c rel = some (.goesOn hdr c [res.rel]
      (.ofStatus (if relocOffsetInRange 0 sec rel.rOffset then .ok else .outofrange)) cbs) := by
  rw [← h.rOffset_eq]
  exact relocateEntry_applied h hr (dispatch_none (h.rType_eq.trans hr))

/-- On the generic path a field that does not lie in the section is answered with
`bfd_reloc_outofrange` and changes nothing; the empty field of `R_FUSION_NONE` may stand at the
very end of the section. -/
theorem relocateEntry_outside (h : Live info ibfd sec rel res) (hr : rel.rType = t.number)
    (ht : t.Generic ∨ t = .none) :
    (sec.limitOctets.toNat < rel.rOffset.toNat + fieldOctets t →
      ∃ cbs, relocateEntry info ibfd sec hdr c rel =
        some (.goesOn hdr c [res.rel] (.ofStatus .outofrange) cbs)) ∧
    (t = .none → rel.rOffset.toNat ≤ sec.limitOctets.toNat →
      ∃ cbs, relocateEntry info ibfd sec hdr c rel =
        some (.goesOn hdr c [res.rel] (.ofStatus .ok) cbs)) := by
  rcases ht with hg | rfl
  · have hn : t ≠ .none := by rintro rfl; exact hg
    refine ⟨fun hout => ?_, fun he => absurd he hn⟩
    rw [fieldOctets, if_neg hn] at hout
    refine relocateEntry_outOfRange hdr c h hg hr ?_
    rw [Bool.eq_false_iff, ne_eq, relocOffsetInRange_iff sec (by decide)]
    omega
  · obtain ⟨cbs, he⟩ := relocateEntry_none hdr c h hr
    have hiff := relocOffsetInRange_iff sec (n := 0) (by decide) rel.rOffset
    constructor
    · intro hout
      rw [fieldOctets, if_pos rfl] at hout
      rw [if_neg (by rw [hiff]; omega)] at he
      exact ⟨cbs, he⟩
    · intro _ hle
      rw [if_pos (hiff.2 hle)] at he
      exact ⟨cbs, he⟩

theorem relocateEntry_outside_sample :
    ∃ cbs, relocateEntry sampleInfo (sampleBfd 0) sampleText ⟨0, 0, 12⟩ (fun _ => 0)
        (sampleRela .li 0xfd) =
      some (.goesOn ⟨0, 0, 12⟩ (fun _ => 0) [sampleRela .li 0xfd] (.ofStatus .outofrange) cbs) :=
  (relocateEntry_outside (t := .li) (sample_live .li 0xfd 0) rfl (Or.inl trivial)).1 (by decide)

/-- `R_FUSION_NONE` at the end of the section is `ok` although no four bytes follow. -/
theorem none_at_end_is_ok :
    ¬ (sampleText.limitOctets.toNat < (sampleRela .none 0x100).rOffset.toNat + 4 →
      ∃ cbs, relocateEntry sampleInfo (sampleBfd 0) sampleText ⟨0, 0, 12⟩ (fun _ => 0)
          (sampleRela .none 0x100) =
        some (.goesOn ⟨0, 0, 12⟩ (fun _ => 0) [sampleRela .none 0x100]
          (.ofStatus .outofrange) cbs)) := by
  intro hclaim
  obtain ⟨cbs', he'⟩ := hclaim (by decide)
  obtain ⟨cbs, he⟩ := relocateEntry_none ⟨0, 0, 12⟩ (fun _ => 0)
    (sample_live .none 0x100 0) rfl
  have hsame := he.symm.trans he'
  rw [if_pos (by decide)] at hsame
  simp only [Option.some.injEq, Turn.goesOn.injEq] at hsame
  cases ofStatus_inj hsame.2.2.2.1

end FusionBinutils.Bfd
