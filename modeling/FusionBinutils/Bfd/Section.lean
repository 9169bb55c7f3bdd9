import FusionBinutils.Bfd.Displacement

/-! A whole run over the relocations of a section in a final link. -/
namespace FusionBinutils.Bfd

variable {info : LinkInfo} {ibfd : InputBfd} {sec : Asection} {hdr : RelHdrs} {c : Contents}
  {rel : Rela} {res : Resolved} {relocs : List Rela}

def inTable (n : Nat) : Bool := (RFusion.ofNumber? n).isSome

/-- The switch has a case for the type. -/
def supported (n : Nat) : Bool := inTable n && RFusion.ofNumber? n != some .relative

/-- The relocation does not end the loop. -/
def proceeds (info : LinkInfo) (ibfd : InputBfd) (sec : Asection) (rel : Rela) : Bool :=
  match resolve info ibfd sec rel with
  | none => false
  | some res => if res.discarded then inTable rel.rType else supported rel.rType

/-- The relocation was applied, or its field cleared, or its status was reported. -/
def Handled (callbacks : List Callback) (p : Rela × Outcome) : Prop :=
  p.2 = .applied ∨ p.2 = .cleared ∨
    ∃ r name howtoName, r ≠ .ok ∧ p.2 = .reported r ∧
      reportStatus r name howtoName p.1.rOffset ∈ callbacks

theorem Handled.mono {callbacks callbacks' : List Callback} {p : Rela × Outcome}
    (h : Handled callbacks p) (hsub : callbacks ⊆ callbacks') : Handled callbacks' p := by
  obtain h | h | ⟨r, name, howtoName, hr, ho, hm⟩ := h
  · exact Or.inl h
  · exact Or.inr (Or.inl h)
  · exact Or.inr (Or.inr ⟨r, name, howtoName, hr, ho, hsub hm⟩)

theorem relocateEntry_unresolved (h : resolve info ibfd sec rel = none) :
    relocateEntry info ibfd sec hdr c rel = some (.leaves 0 rel []) := by
  simp [relocateEntry, h]

theorem bfdClearContents_howtoOf (sec : Asection) (c : Contents) (t : RFusion) (location : Vma) :
    ∃ c', bfdClearContents (howtoOf t) sec c location = some c' := by
  cases t <;> exact ⟨_, rfl⟩

theorem inTable_iff {n : Nat} : inTable n ↔ ∃ t : RFusion, n = t.number := by
  constructor
  · intro h
    obtain ⟨t, ht⟩ := Option.isSome_iff_exists.1 h
    exact ⟨t, ofNumber?_eq_some ht⟩
  · rintro ⟨t, rfl⟩
    rw [inTable, ofNumber?_number]
    rfl

theorem getElem?_outside {n : Nat} (h : inTable n = false) : fusionElfHowtoTable[n]? = none := by
  apply List.getElem?_eq_none
  by_contra hlt
  have hn : n < 14 := Nat.not_le.1 hlt
  interval_cases n <;> exact absurd h (by decide)

theorem supported_iff {n : Nat} : supported n ↔ ∃ t : RFusion, t ≠ .relative ∧ n = t.number := by
  rw [supported, Bool.and_eq_true, inTable_iff]
  constructor
  · rintro ⟨⟨t, rfl⟩, ht⟩
    rw [ofNumber?_number] at ht
    exact ⟨t, by simpa using ht, rfl⟩
  · rintro ⟨t, ht, rfl⟩
    exact ⟨⟨t, rfl⟩, by rw [ofNumber?_number]; simpa using ht⟩

/-- Every supported type is dispatched, with some status. -/
theorem dispatch_supported (sec : Asection) (c : Contents) (v : Vma) (h : supported rel.rType) :
    ∃ r c', dispatch sec c rel v = some (.applied r c') := by
  obtain ⟨t, ht, hr⟩ := supported_iff.1 h
  by_cases hn : t = .none
  · subst hn
    exact ⟨_, _, dispatch_none hr⟩
  rcases generic_or_handWritten ⟨hn, ht⟩ with hg | hh
  · cases hin : relocOffsetInRange 4 sec rel.rOffset with
    | true => exact ⟨_, _, dispatch_inRange ⟨hn, ht⟩ hr hin⟩
    | false => exact ⟨_, _, dispatch_outOfRange hg hr hin⟩
  · exact ⟨_, _, dispatch_handWritten hh hr⟩

theorem dispatch_unsupported (sec : Asection) (c : Contents) (v : Vma) (h : supported rel.rType = false) :
    dispatch sec c rel v = some (.returns 4) := by
  unfold supported inTable at h
  unfold dispatch
  split <;> simp_all [RelocStatus.toInt]

/-- A relocation that proceeds is dealt with and the loop goes on. -/
theorem relocateEntry_proceeds (hdr : RelHdrs) (c : Contents) (hfinal : info.relocatable = false)
    (h : proceeds info ibfd sec rel) :
    ∃ hdr' c' left o cbs, relocateEntry info ibfd sec hdr c rel =
      some (.goesOn hdr' c' left o cbs) ∧ Handled cbs (rel, o) := by
  unfold proceeds at h
  split at h
  · cases h
  · rename_i res hres
    split_ifs at h with hd
    · obtain ⟨t, ht⟩ := inTable_iff.1 h
      obtain ⟨c', hc⟩ := bfdClearContents_howtoOf sec c t rel.rOffset
      refine ⟨hdr, c', [{ res.rel with rInfo := 0, rAddend := 0 }], .cleared, res.callbacks, ?_,
        Or.inr (Or.inl rfl)⟩
      simp [relocateEntry, hres, hd, relocAgainstDiscardedSection, ht, getElem?_number, hc, hfinal]
    · have hlive : Live info ibfd sec rel res := ⟨hfinal, hres, by simpa using hd⟩
      obtain ⟨t, ht, hr⟩ := supported_iff.1 h
      obtain ⟨r, c', hdisp⟩ := dispatch_supported sec c res.relocation
        (hlive.rType_eq ▸ h)
      refine ⟨hdr, c', [res.rel], _, _, relocateEntry_eq hlive hr hdisp, ?_⟩
      by_cases hok : r = .ok
      · exact Or.inl (by simp [Outcome.ofStatus, hok])
      · exact Or.inr (Or.inr ⟨r, res.name, (howtoOf t).name, hok, by simp [Outcome.ofStatus, hok],
          by simp [statusCallbacks, hok]⟩)

/-- A relocation that is neither unresolved nor proceeds is of an unsupported type. It ends the
function with status 4, or reads past the end of the table. -/
theorem relocateEntry_stops (hdr : RelHdrs) (c : Contents) (hfinal : info.relocatable = false)
    (hres : resolve info ibfd sec rel = some res) (h : proceeds info ibfd sec rel = false) :
    supported rel.rType = false ∧
      (relocateEntry info ibfd sec hdr c rel = none ∨
        ∃ rel' cbs, relocateEntry info ibfd sec hdr c rel = some (.leaves 4 rel' cbs)) := by
  simp only [proceeds, hres] at h
  split_ifs at h with hd
  · refine ⟨by simp [supported, h], Or.inl ?_⟩
    simp [relocateEntry, hres, hd, relocAgainstDiscardedSection, getElem?_outside h]
  · have hlive : Live info ibfd sec rel res := ⟨hfinal, hres, by simpa using hd⟩
    refine ⟨h, Or.inr ⟨res.rel, res.callbacks, ?_⟩⟩
    have hdisp := dispatch_unsupported sec c res.relocation
      (by rw [hlive.rType_eq]; exact h)
    simp [relocateEntry, hres, hlive.kept, hfinal, hdisp]

/-- The first relocation that ends the loop. -/
def firstStop (info : LinkInfo) (ibfd : InputBfd) (sec : Asection) (relocs : List Rela) :
    Option Rela :=
  relocs.find? fun rel => !proceeds info ibfd sec rel

/-- A stretch of relocations that proceed is dealt with in full before the rest is looked at. -/
theorem relocateSection_append (hfinal : info.relocatable = false) (hdr : RelHdrs)
    (c : Contents) (pre : List Rela) (h : ∀ rel ∈ pre, proceeds info ibfd sec rel) :
    ∃ hdr' c' left trace cbs, trace.map Prod.fst = pre ∧ (∀ p ∈ trace, Handled cbs p) ∧
      ∀ rest, fusionElfRelocateSection info ibfd sec hdr c (pre ++ rest) =
        (fusionElfRelocateSection info ibfd sec hdr' c' rest).map fun run =>
          ⟨run.ret, run.contents, left ++ run.relocs, trace ++ run.trace,
            cbs ++ run.callbacks⟩ := by
  induction pre generalizing hdr c with
  | nil =>
    refine ⟨hdr, c, [], [], [], rfl, by simp, fun rest => ?_⟩
    simp only [List.nil_append]
    cases fusionElfRelocateSection info ibfd sec hdr c rest <;> rfl
  | cons rel pre ih =>
    obtain ⟨hdr1, c1, left1, o, cbs1, he, hhandled⟩ :=
      relocateEntry_proceeds hdr c hfinal (h rel List.mem_cons_self)
    obtain ⟨hdr', c', left, trace, cbs, htrace, hall, hrun⟩ :=
      ih hdr1 c1 fun r hr => h r (List.mem_cons_of_mem _ hr)
    refine ⟨hdr', c', left1 ++ left, (rel, o) :: trace, cbs1 ++ cbs, by simp [htrace], ?_, ?_⟩
    · intro p hp
      rcases List.mem_cons.1 hp with rfl | hp
      · exact hhandled.mono (List.subset_append_left _ _)
      · exact (hall p hp).mono (List.subset_append_right _ _)
    · intro rest
      simp only [List.cons_append, fusionElfRelocateSection, he, Option.bind_eq_bind,
        Option.bind_some, hrun rest]
      cases fusionElfRelocateSection info ibfd sec hdr' c' rest <;> simp [Run.cons]

theorem relocateSection_of_all_proceed (hdr : RelHdrs) (c : Contents)
    (hfinal : info.relocatable = false) (h : ∀ rel ∈ relocs, proceeds info ibfd sec rel) :
    ∃ run, fusionElfRelocateSection info ibfd sec hdr c relocs = some run ∧ run.ret = 1 ∧
      run.trace.map Prod.fst = relocs ∧ ∀ p ∈ run.trace, Handled run.callbacks p := by
  obtain ⟨hdr', c', left, trace, cbs, htrace, hall, hrun⟩ :=
    relocateSection_append hfinal hdr c relocs h
  have hend := hrun []
  rw [List.append_nil] at hend
  exact ⟨_, hend, rfl, by simpa using htrace, by simpa using hall⟩

/-- The first relocation that does not proceed decides what is returned. -/
theorem relocateSection_of_stop (hdr : RelHdrs) (c : Contents)
    (hfinal : info.relocatable = false) (h : firstStop info ibfd sec relocs = some rel) :
    (resolve info ibfd sec rel = none →
      ∃ run, fusionElfRelocateSection info ibfd sec hdr c relocs = some run ∧ run.ret = 0) ∧
    (resolve info ibfd sec rel ≠ none → supported rel.rType = false ∧
      ∀ run, fusionElfRelocateSection info ibfd sec hdr c relocs = some run → run.ret = 4) := by
  obtain ⟨hstop, pre, post, rfl, hpre⟩ := List.find?_eq_some_iff_append.1 h
  obtain ⟨hdr', c', left, trace, cbs, -, -, hrun⟩ :=
    relocateSection_append hfinal hdr c pre (by simpa using hpre)
  rw [hrun]
  constructor
  · intro hnone
    refine ⟨_, by rw [fusionElfRelocateSection, relocateEntry_unresolved hnone]; rfl, rfl⟩
  · intro hsome
    obtain ⟨res, hres⟩ := Option.ne_none_iff_exists'.1 hsome
    obtain ⟨hunsup, hend⟩ :=
      relocateEntry_stops hdr' c' hfinal hres (by simpa using hstop)
    refine ⟨hunsup, ?_⟩
    rcases hend with hnone | ⟨rel', cbs', he⟩
    · simp [fusionElfRelocateSection, hnone]
    · rw [fusionElfRelocateSection, he]
      rintro run ⟨⟩
      rfl

/-- A result other than 0 means that every relocation of the table was handled, and an
unsupported type gives 0. -/
def SectionSound (info : LinkInfo) (ibfd : InputBfd) (sec : Asection) (hdr : RelHdrs)
    (c : Contents) (relocs : List Rela) : Prop :=
  ∃ run, fusionElfRelocateSection info ibfd sec hdr c relocs = some run ∧
    (run.ret ≠ 0 →
      (run.trace.map Prod.fst).filter (fun rel => inTable rel.rType) =
          relocs.filter (fun rel => inTable rel.rType) ∧
        ∀ p ∈ run.trace, Handled run.callbacks p) ∧
    ((∃ rel ∈ relocs, supported rel.rType = false) → run.ret = 0)

/-- In a final link the result of `fusion_elf_relocate_section` can be trusted exactly when all
types are supported, or the first relocation that ends the loop is one without a symbol table
to look in. -/
theorem sectionSound_iff (hfinal : info.relocatable = false) :
    SectionSound info ibfd sec hdr c relocs ↔
      (∀ rel ∈ relocs, supported rel.rType) ∨
        ∃ rel, firstStop info ibfd sec relocs = some rel ∧ resolve info ibfd sec rel = none := by
  cases hf : firstStop info ibfd sec relocs with
  | none =>
    have hall : ∀ rel ∈ relocs, proceeds info ibfd sec rel := by
      simpa [firstStop] using hf
    obtain ⟨run, hrun, hret, htrace, hhandled⟩ :=
      relocateSection_of_all_proceed hdr c hfinal hall
    constructor
    · rintro ⟨run', hrun', -, hunsup⟩
      left
      intro rel hrel
      by_contra hns
      cases hrun.symm.trans hrun'
      have := hunsup ⟨rel, hrel, by simpa using hns⟩
      omega
    · rintro (hsup | ⟨rel, h, -⟩)
      · refine ⟨run, hrun, fun _ => ⟨by rw [htrace], hhandled⟩, ?_⟩
        rintro ⟨rel, hrel, hns⟩
        rw [hsup rel hrel] at hns
        cases hns
      · cases h
  | some rel =>
    obtain ⟨hnone, hsome⟩ := relocateSection_of_stop hdr c hfinal hf
    have hmem : rel ∈ relocs := List.mem_of_find?_eq_some hf
    by_cases hres : resolve info ibfd sec rel = none
    · obtain ⟨run, hrun, hret⟩ := hnone hres
      exact ⟨fun _ => Or.inr ⟨rel, rfl, hres⟩,
        fun _ => ⟨run, hrun, fun h => absurd hret h, fun _ => hret⟩⟩
    · obtain ⟨hns, hret⟩ := hsome hres
      constructor
      · rintro ⟨run, hrun, -, hunsup⟩
        have h0 := hunsup ⟨rel, hmem, hns⟩
        rw [hret run hrun] at h0
        cases h0
      · rintro (hsup | ⟨rel', h, hnone'⟩)
        · rw [hsup rel hmem] at hns
          cases hns
        · cases h
          exact absurd hnone' hres

theorem sectionSound_sample :
    SectionSound sampleInfo (sampleBfd 0) sampleText ⟨0, 0, 12⟩ (fun _ => 0)
      [sampleRela .li 0, sampleRela .load 0x200] :=
  (sectionSound_iff rfl).2 (Or.inl (by decide))

/-- A relocation of type `R_FUSION_RELATIVE` ends the section with a result that counts as
success, and the relocation after it is not even looked at. -/
theorem relative_counts_as_success :
    ¬ SectionSound sampleInfo (sampleBfd 0) sampleText ⟨0, 0, 12⟩ (fun _ => 0)
      [sampleRela .relative 0, sampleRela .li 4] := by
  rintro ⟨run, hrun, -, hunsup⟩
  have hstop : firstStop sampleInfo (sampleBfd 0) sampleText
      [sampleRela .relative 0, sampleRela .li 4] = some (sampleRela .relative 0) := by rfl
  have hres : resolve sampleInfo (sampleBfd 0) sampleText (sampleRela .relative 0) ≠ none := by
    rw [(sample_live .relative 0 0).resolves]
    exact Option.some_ne_none _
  obtain ⟨-, hret⟩ := (relocateSection_of_stop ⟨0, 0, 12⟩ (fun _ => 0) rfl hstop).2
    hres
  have h0 := hunsup ⟨_, List.mem_cons_self, by decide⟩
  rw [hret run hrun] at h0
  cases h0

end FusionBinutils.Bfd
