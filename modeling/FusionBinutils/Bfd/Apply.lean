import FusionBinutils.Bfd.ElfFusion

/-! What a relocation does to the word it is applied to. -/
namespace FusionBinutils.Bfd

open Opcode BitField

variable {info : LinkInfo} {ibfd : InputBfd} {sec : Asection} {hdr : RelHdrs} {c : Contents}
  {rel : Rela} {res : Resolved} {t : RFusion} {v : Vma}

/-- The row of a relocation type that has a number in the table. -/
def howtoOf (t : RFusion) : RelocHowto :=
  fusionElfHowtoTable.get ⟨t.number, by cases t <;> decide⟩

theorem getElem?_number (t : RFusion) : fusionElfHowtoTable[t.number]? = some (howtoOf t) := by
  cases t <;> rfl

theorem ofNumber?_number (t : RFusion) : RFusion.ofNumber? t.number = some t := by
  cases t <;> rfl

theorem ofNumber?_eq_some {n : Nat} (h : RFusion.ofNumber? n = some t) : n = t.number := by
  unfold RFusion.ofNumber? at h
  split at h <;> first | (cases h; rfl) | cases h

@[simp]
theorem howtoOf_type (t : RFusion) : (howtoOf t).type = t.number := by cases t <;> rfl

theorem howtoOf_bitpos (t : RFusion) : (howtoOf t).bitpos = 0 := by cases t <;> rfl

theorem howtoOf_dont (t : RFusion) : (howtoOf t).complainOnOverflow = .dont := by
  cases t <;> rfl

theorem howtoOf_relocSize (h : t ≠ .none) : bfdGetRelocSize (howtoOf t) = some 4 := by
  cases t <;> first | rfl | contradiction

/-- The types that `fusion_final_link_relocate` hands to `_bfd_final_link_relocate`, less
`R_FUSION_NONE`, which has an empty field. -/
def RFusion.Generic : RFusion → Prop
  | .r32 | .li | .lui | .liPcrel | .luiPcrel | .sys | .i | .jump | .jumpO => True
  | .none | .relative | .load | .store | .branch => False

/-- The types with code of their own. -/
def RFusion.HandWritten (t : RFusion) : Prop := t = .load ∨ t = .store ∨ t = .branch

/-- The types that the switch in `fusion_elf_relocate_section` dispatches, less
`R_FUSION_NONE`. -/
def RFusion.HasField (t : RFusion) : Prop := t ≠ .none ∧ t ≠ .relative

/-- The quantity that `_bfd_final_link_relocate` adds to the field. -/
def finalLinkValue (howto : RelocHowto) (sec : Asection) (rel : Rela) (value : Vma) : Vma :=
  let relocation := value + rel.rAddend
  if howto.pcRelative then
    let relocation := relocation - sec.secAddr
    if howto.pcrelOffset then relocation - rel.rOffset else relocation
  else relocation

/-- The word that takes the place of `x`. -/
def relocatedWord (t : RFusion) (sec : Asection) (rel : Rela) (v x : Vma) : Vma :=
  match t with
  | .load => (genLImm v &&& (howtoOf .load).dstMask) ||| x
  | .store => (genSImm v &&& (howtoOf .store).dstMask) ||| x
  | .branch =>
    BitField.insert (howtoOf .branch).dstMask x
      (genBImm (v - (sec.secAddr + rel.rOffset) + rel.rAddend))
  | t =>
    BitField.insert (howtoOf t).dstMask x
      ((x &&& (howtoOf t).srcMask) + finalLinkValue (howtoOf t) sec rel v >>> (howtoOf t).rightshift)

theorem relocateContentsOverflow_dont {howto : RelocHowto} (h : howto.complainOnOverflow = .dont)
    (n : Nat) (relocation x : Vma) : relocateContentsOverflow n howto relocation x = .ok := by
  simp [relocateContentsOverflow, h]

theorem bfdRelocateContents_howtoOf (h : t ≠ .none) (relocation location : Vma) :
    bfdRelocateContents (howtoOf t) relocation c location =
      some (.ok, bfdPutb32 (relocateContentsField (howtoOf t) relocation (bfdGetb32 c location))
        c location) := by
  have hsize : ¬ (howtoOf t).size < 0 := by cases t <;> decide
  simp only [bfdRelocateContents, hsize, if_false, howtoOf_relocSize h,
    relocateContentsOverflow_dont (howtoOf_dont t)]

theorem relocateContentsField_howtoOf (t : RFusion) (relocation x : Vma) :
    relocateContentsField (howtoOf t) relocation x =
      BitField.insert (howtoOf t).dstMask x
        ((x &&& (howtoOf t).srcMask) + relocation >>> (howtoOf t).rightshift) := by
  simp only [relocateContentsField, howtoOf_bitpos, BitVec.shiftLeft_zero, BitField.insert]

theorem bfdFinalLinkRelocate_inRange (h : t ≠ .none) (hin : relocOffsetInRange 4 sec rel.rOffset) :
    bfdFinalLinkRelocate (howtoOf t) sec c rel.rOffset v rel.rAddend =
      some (.ok, bfdPutb32 (relocateContentsField (howtoOf t)
        (finalLinkValue (howtoOf t) sec rel v) (bfdGetb32 c rel.rOffset)) c rel.rOffset) := by
  simp only [bfdFinalLinkRelocate, howtoOf_relocSize h, Option.bind_eq_bind, Option.bind_some,
    hin, if_true, bfdRelocateContents_howtoOf h, finalLinkValue]

theorem bfdFinalLinkRelocate_outOfRange (h : t ≠ .none)
    (hout : relocOffsetInRange 4 sec rel.rOffset = false) :
    bfdFinalLinkRelocate (howtoOf t) sec c rel.rOffset v rel.rAddend = some (.outofrange, c) := by
  simp [bfdFinalLinkRelocate, howtoOf_relocSize h, hout]

/-- A generic type is dispatched to `_bfd_final_link_relocate`. -/
theorem dispatch_generic (ht : t.Generic) (hr : rel.rType = t.number) :
    dispatch sec c rel v =
      (bfdFinalLinkRelocate (howtoOf t) sec c rel.rOffset v rel.rAddend).map
        fun p => .applied p.1 p.2 := by
  have key : dispatch sec c rel v = (fusionFinalLinkRelocate (howtoOf t) sec c rel v).map
      fun p => .applied p.1 p.2 := by
    cases t <;> simp_all [dispatch, ofNumber?_number, getElem?_number, RFusion.Generic] <;>
      cases fusionFinalLinkRelocate _ sec c rel v <;> rfl
  rw [key]
  cases t <;> simp_all [fusionFinalLinkRelocate, ofNumber?_number, RFusion.Generic]

/-- The hand-written paths rewrite their word wherever it lies: they look at no bound. -/
theorem dispatch_handWritten (ht : t.HandWritten) (hr : rel.rType = t.number) :
    dispatch sec c rel v = some (.applied .ok
      (bfdPutb32 (relocatedWord t sec rel v (bfdGetb32 c rel.rOffset)) c rel.rOffset)) := by
  rcases ht with rfl | rfl | rfl
  · simp [dispatch, hr, ofNumber?_number, getElem?_number, fusionFinalLinkRelocate, orIntoWord,
      relocatedWord]
  · simp [dispatch, hr, ofNumber?_number, getElem?_number, fusionFinalLinkRelocate, orIntoWord,
      relocatedWord]
  · have hpc : (howtoOf .branch).pcRelative = true := rfl
    have hbits : (howtoOf .branch).bitsize = 32 := rfl
    simp [dispatch, hr, ofNumber?_number, getElem?_number, performRelocation, hpc, hbits,
      relocatedWord, BitField.insert]

theorem generic_or_handWritten (ht : t.HasField) : t.Generic ∨ t.HandWritten := by
  cases t <;> simp_all [RFusion.HasField, RFusion.Generic, RFusion.HandWritten]

/-- A field inside the section is rewritten, and the status is `ok` whatever the value. -/
theorem dispatch_inRange (ht : t.HasField) (hr : rel.rType = t.number)
    (hin : relocOffsetInRange 4 sec rel.rOffset) :
    dispatch sec c rel v = some (.applied .ok
      (bfdPutb32 (relocatedWord t sec rel v (bfdGetb32 c rel.rOffset)) c rel.rOffset)) := by
  rcases generic_or_handWritten ht with hg | hh
  · rw [dispatch_generic hg hr, bfdFinalLinkRelocate_inRange ht.1 hin,
      relocateContentsField_howtoOf]
    cases t <;> first | rfl | exact hg.elim
  · exact dispatch_handWritten hh hr

theorem dispatch_outOfRange (ht : t.Generic) (hr : rel.rType = t.number)
    (hout : relocOffsetInRange 4 sec rel.rOffset = false) :
    dispatch sec c rel v = some (.applied .outofrange c) := by
  have hn : t ≠ .none := by rintro rfl; exact ht
  rw [dispatch_generic ht hr, bfdFinalLinkRelocate_outOfRange hn hout]
  rfl

/-- `R_FUSION_NONE` never touches the contents. -/
theorem dispatch_none (hr : rel.rType = RFusion.none.number) :
    dispatch sec c rel v =
      some (.applied (if relocOffsetInRange 0 sec rel.rOffset then .ok else .outofrange) c) := by
  have hsize : bfdGetRelocSize (howtoOf .none) = some 0 := rfl
  simp [dispatch, hr, ofNumber?_number, getElem?_number, fusionFinalLinkRelocate,
    bfdFinalLinkRelocate, hsize, bfdRelocateContents]
  split <;> rfl

/-! The same, for one turn of the loop. -/

theorem relocForGlobalSymbol_rel (info : LinkInfo) (rel : Rela) (h : LinkHash) :
    (relocForGlobalSymbol info rel h).rel = rel := by
  induction h with
  | indirect link ih => rw [relocForGlobalSymbol, ih]
  | defined name value sec => rfl
  | undefweak name => rfl
  | unresolved name visibilityDefault => simp only [relocForGlobalSymbol]; split_ifs <;> rfl

/-- Resolving the symbol rewrites no more of a relocation than its addend. -/
theorem resolve_rel (h : resolve info ibfd sec rel = some res) :
    res.rel.rOffset = rel.rOffset ∧ res.rel.rInfo = rel.rInfo := by
  unfold resolve at h
  split at h
  · simp only [bfdElfRelaLocalSym, Option.some.injEq] at h
    subst h
    split_ifs <;> simp
  · split at h
    · cases h
    · cases h
      rw [relocForGlobalSymbol_rel]
      exact ⟨rfl, rfl⟩

/-- A relocation that a final link goes on to apply, and the symbol it is against. -/
structure Live (info : LinkInfo) (ibfd : InputBfd) (sec : Asection) (rel : Rela)
    (res : Resolved) : Prop where
  final : info.relocatable = false
  resolves : resolve info ibfd sec rel = some res
  kept : res.discarded = false

def Outcome.ofStatus (r : RelocStatus) : Outcome := if r = .ok then .applied else .reported r

/-- The callbacks made once the status is known. -/
def statusCallbacks (r : RelocStatus) (name howtoName : String) (rOffset : Vma) :
    List Callback :=
  if r = .ok then [] else [reportStatus r name howtoName rOffset]

/-- What the loop makes of a dispatched relocation. -/
theorem relocateEntry_eq (h : Live info ibfd sec rel res) (hr : rel.rType = t.number)
    {r : RelocStatus} {c' : Contents}
    (hd : dispatch sec c res.rel res.relocation = some (.applied r c')) :
    relocateEntry info ibfd sec hdr c rel = some (.goesOn hdr c' [res.rel] (.ofStatus r)
      (res.callbacks ++ statusCallbacks r res.name (howtoOf t).name rel.rOffset)) := by
  simp only [relocateEntry, h.resolves, h.kept, h.final, hd, hr, getElem?_number,
    Outcome.ofStatus, statusCallbacks]
  by_cases hok : r = .ok <;> simp [hok]

theorem relocateEntry_applied (h : Live info ibfd sec rel res) (hr : rel.rType = t.number)
    {r : RelocStatus} {c' : Contents}
    (hd : dispatch sec c res.rel res.relocation = some (.applied r c')) :
    ∃ cbs, relocateEntry info ibfd sec hdr c rel =
      some (.goesOn hdr c' [res.rel] (.ofStatus r) cbs) :=
  ⟨_, relocateEntry_eq h hr hd⟩

theorem Live.rOffset_eq (h : Live info ibfd sec rel res) : res.rel.rOffset = rel.rOffset :=
  (resolve_rel h.resolves).1

theorem Live.rType_eq (h : Live info ibfd sec rel res) : res.rel.rType = rel.rType := by
  rw [Rela.rType, (resolve_rel h.resolves).2, Rela.rType]

theorem relocateEntry_inRange (hdr : RelHdrs) (c : Contents) (h : Live info ibfd sec rel res)
    (ht : t.HasField) (hr : rel.rType = t.number) (hin : relocOffsetInRange 4 sec rel.rOffset) :
    ∃ cbs, relocateEntry info ibfd sec hdr c rel = some (.goesOn hdr
      (bfdPutb32 (relocatedWord t sec res.rel res.relocation (bfdGetb32 c rel.rOffset)) c
        rel.rOffset) [res.rel] (.ofStatus .ok) cbs) := by
  rw [← h.rOffset_eq] at hin ⊢
  exact relocateEntry_applied h hr (dispatch_inRange ht (h.rType_eq.trans hr) hin)

theorem relocateEntry_handWritten (hdr : RelHdrs) (c : Contents)
    (h : Live info ibfd sec rel res) (ht : t.HandWritten) (hr : rel.rType = t.number) :
    ∃ cbs, relocateEntry info ibfd sec hdr c rel = some (.goesOn hdr
      (bfdPutb32 (relocatedWord t sec res.rel res.relocation (bfdGetb32 c rel.rOffset)) c
        rel.rOffset) [res.rel] (.ofStatus .ok) cbs) := by
  rw [← h.rOffset_eq]
  exact relocateEntry_applied h hr (dispatch_handWritten ht (h.rType_eq.trans hr))

theorem relocateEntry_outOfRange (hdr : RelHdrs) (c : Contents) (h : Live info ibfd sec rel res)
    (ht : t.Generic) (hr : rel.rType = t.number)
    (hout : relocOffsetInRange 4 sec rel.rOffset = false) :
    ∃ cbs, relocateEntry info ibfd sec hdr c rel =
      some (.goesOn hdr c [res.rel] (.ofStatus .outofrange) cbs) := by
  rw [← h.rOffset_eq] at hout
  exact relocateEntry_applied h hr (dispatch_outOfRange ht (h.rType_eq.trans hr) hout)

theorem ofStatus_inj {r r' : RelocStatus} (h : Outcome.ofStatus r = .ofStatus r') : r = r' := by
  unfold Outcome.ofStatus at h
  split_ifs at h with h1 h2
  · rw [h1, h2]
  · cases h; rfl

end FusionBinutils.Bfd
