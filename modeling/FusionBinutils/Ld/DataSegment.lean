import FusionBinutils.Ld.SizeSections
import FusionBinutils.Lib.Pages

/-! The passes of `lang_size_sections` (ld/ldlang.c), and the base of the data segment that they
settle on. -/
namespace FusionBinutils.Ld.Layout

/-- `lang_reset_memory_regions`. -/
def langResetMemoryRegions (st : State) : State :=
  { st with
    regions := fun r => { st.regions r with current := (st.regions r).origin, lastOs := none }
    sections := fun n => { st.sections n with processedVma := false, size := 0 } }

/-- `one_lang_size_sections_pass`. -/
def oneLangSizeSectionsPass (cfg : Config) (checkRegions : Bool) (script : List Statement)
    (st : State) : Option State :=
  (langSizeSections1 cfg .allocating checkRegions script 0
    { st with iteration := !st.iteration }).map Prod.snd

def State.setPhase (st : State) (phase : DatasegPhase) : State :=
  { st with dataseg := { st.dataseg with phase := phase } }

def State.setBase (st : State) (base : Vma) : State :=
  { st with dataseg := { st.dataseg with base := base } }

/-- The output sections, in the order of the statements. -/
def outputSections (script : List Statement) : List Nat :=
  script.filterMap fun
    | .outputSection os _ => if os.hasBfdSection then some os.id else none
    | _ => none

/-- Where the PT_GNU_RELRO segment is to start, so that it ends at `desiredEnd`: from the last
section to the first. -/
def relroStart (cfg : Config) (st : State) (desiredEnd : Vma) : List Nat → Vma
  | [] => desiredEnd
  | n :: before =>
    let sec := st.sections n
    let d := st.dataseg
    if sec.alloc && d.base ≤ sec.vma && sec.vma < d.relroEnd - d.relroOffset then
      let endAt := if sec.isTbss then sec.vma else sec.vma + cfg.toAddr sec.size
      let start := sec.vma + (desiredEnd - endAt)
      relroStart cfg st (start &&& ~~~(((1 : Vma) <<< sec.alignmentPower) - 1)) before
    else relroStart cfg st desiredEnd before

/-- The second pass, and a third one, when there is a PT_GNU_RELRO segment. -/
def sizeForRelro (cfg : Config) (checkRegions : Bool) (script : List Statement) (st : State) :
    Option State :=
  let d := st.dataseg
  let relroEnd := (d.relroEnd + d.pagesize - 1) &&& ~~~(d.pagesize - 1)
  let desiredEnd :=
    relroStart cfg st (relroEnd - d.relroOffset) (outputSections script).reverse
  if desiredEnd < d.base then none
  else
    (oneLangSizeSectionsPass cfg checkRegions script
        (langResetMemoryRegions ((st.setPhase .relroAdjust).setBase desiredEnd))).bind fun st =>
      if st.dataseg.relroEnd > relroEnd then
        oneLangSizeSectionsPass cfg checkRegions script
          (langResetMemoryRegions (st.setBase d.base))
      else some st

/-- A page can be saved in the data segment. -/
def Dataseg.saves (d : Dataseg) : Bool :=
  let first := -d.base &&& (d.pagesize - 1)
  let last := d.endAt &&& (d.pagesize - 1)
  first ≠ 0 && last ≠ 0 &&
    (d.base &&& ~~~(d.pagesize - 1)) ≠ (d.endAt &&& ~~~(d.pagesize - 1)) &&
    first + last ≤ d.pagesize

/-- The state that the second pass starts from, when a page can be saved. -/
def restart (st : State) : State := langResetMemoryRegions (st.setPhase .adjust)

/-- `lang_size_sections`. -/
def langSizeSections (cfg : Config) (checkRegions : Bool) (script : List Statement)
    (st : State) : Option State :=
  (oneLangSizeSectionsPass cfg checkRegions script (st.setPhase .none)).bind fun st =>
    if st.dataseg.phase = .endSeen && cfg.relro && st.dataseg.relroEnd ≠ 0 then
      sizeForRelro cfg checkRegions script st
    else if st.dataseg.phase = .endSeen && st.dataseg.saves then
      oneLangSizeSectionsPass cfg checkRegions script (restart st)
    else some (st.setPhase .done)

/-! The expressions of a statement. -/

def Assignment.trees : Assignment → List Etree
  | .dot src => [src]
  | .symbol _ _ src => [src]
  | .assert child => [child]

mutual
def Child.trees : Child → List Etree
  | .constructors children => childTrees children
  | .wild children => childTrees children
  | .group children => childTrees children
  | .data _ exp => [exp]
  | .assignment a => a.trees
  | _ => []

def childTrees : List Child → List Etree
  | [] => []
  | c :: rest => c.trees ++ childTrees rest
end

def OutputSection.trees (os : OutputSection) : List Etree :=
  os.addrTree.toList ++ os.loadBase.toList ++ os.updateDotTree.toList

def Statement.trees : Statement → List Etree
  | .outputSection os children => os.trees ++ childTrees children
  | .assignment a => a.trees
  | .other => []

/-! What the expressions do to the data segment, the statements do. -/

section Lift

variable {cfg : Config} {checkRegions : Bool} {os : OutputSection} {dot dot' : Vma}
  {st st' : State} {sec : Section'} {phase : LangPhase}

/-- The expressions with `P` relate the data segment before to that after. -/
structure Lifts (cfg : Config) (P : Etree → Prop) (R : Dataseg → Dataseg → Prop) : Prop where
  refl : ∀ d, R d d
  trans : ∀ d d' d'', R d d' → R d' d'' → R d d''
  zero : P (.value 0)
  fold : ∀ st e tree f v f', P tree → foldTree cfg st e tree f = some (v, f') →
    R f.dataseg f'.dataseg

variable {P : Etree → Prop} {R : Dataseg → Dataseg → Prop}

theorem Lifts.of_eq (hl : Lifts cfg P R) (h : st'.dataseg = st.dataseg) :
    R st.dataseg st'.dataseg := by
  rw [h]
  exact hl.refl _

theorem Lifts.expFoldTree (hl : Lifts cfg P R) {tree : Etree} {v : Option EtreeValue}
    (ht : P tree) (h : expFoldTree cfg phase st sec dot tree = some (v, st')) :
    R st.dataseg st'.dataseg := by
  obtain ⟨p, hp, heq⟩ := Option.map_eq_some_iff.mp h
  cases heq
  exact hl.fold _ _ _ _ _ _ ht hp

theorem Lifts.assignDot (hl : Lifts cfg P R) {src : Etree} (ht : P src)
    (h : assignDot cfg phase sec dot src st = some (dot', st')) : R st.dataseg st'.dataseg := by
  unfold Layout.assignDot at h
  split at h
  · cases h
    exact hl.refl _
  · obtain ⟨p, hfold, hp⟩ := Option.bind_eq_some_iff.mp h
    have hr := hl.fold _ _ _ _ _ _ ht hfold
    rcases hv : p.1 with _ | v <;> simp only [hv, Option.elim] at hp
    all_goals
      split at hp
      · first | (cases hp; exact hr) | (split at hp <;> cases hp; exact hr)
      · cases hp <;> exact hr

theorem Lifts.assignSymbol (hl : Lifts cfg P R) {c : AssignClass} {dst : String} {src : Etree}
    (ht : P src) (h : assignSymbol cfg phase sec dot c dst src st = some st') :
    R st.dataseg st'.dataseg := by
  unfold Layout.assignSymbol at h
  split at h
  · cases h
    exact hl.refl _
  · obtain ⟨p, hfold, hp⟩ := Option.map_eq_some_iff.mp h
    have hr := hl.fold _ _ _ _ _ _ ht hfold
    rw [← hp]
    rcases p.1 with _ | v
    · exact hr
    · simp only [Option.elim]
      split <;> exact hr

theorem Lifts.foldAssignment (hl : Lifts cfg P R) {a : Assignment} (ht : ∀ t ∈ a.trees, P t)
    (h : foldAssignment cfg phase sec dot a st = some (dot', st')) : R st.dataseg st'.dataseg := by
  cases a with
  | dot src => exact hl.assignDot (ht src List.mem_cons_self) h
  | symbol c dst src =>
    obtain ⟨s, hs, heq⟩ := Option.map_eq_some_iff.mp h
    cases heq
    exact hl.assignSymbol (ht src List.mem_cons_self) hs
  | assert child =>
    obtain ⟨p, hp, heq⟩ := Option.map_eq_some_iff.mp h
    cases heq
    exact hl.expFoldTree (ht child List.mem_cons_self) hp

theorem sizeInputSection_dataseg {i : InputSection} :
    (sizeInputSection cfg os i dot st).2.dataseg = st.dataseg := by
  unfold sizeInputSection
  split
  · rfl
  · dsimp only [State.endsAt, State.setSection]
    split <;> rfl

theorem Lifts.sizeAssignment (hl : Lifts cfg P R) {a : Assignment} (ht : ∀ t ∈ a.trees, P t)
    (h : sizeAssignment cfg phase os a dot st = some (dot', st')) : R st.dataseg st'.dataseg := by
  obtain ⟨⟨newdot, st1⟩, hp, heq⟩ := Option.map_eq_some_iff.mp h
  have hr := hl.foldAssignment ht hp
  dsimp only at heq
  split at heq
  · cases heq
    exact hr
  · split at heq
    · split at heq <;> cases heq <;> exact hr
    · cases heq
      exact hr

mutual
theorem Lifts.sizeChild (hl : Lifts cfg P R) : ∀ (c : Child) {dot dot' : Vma} {st st' : State},
    (∀ t ∈ c.trees, P t) → sizeChild cfg phase os c dot st = some (dot', st') →
    R st.dataseg st'.dataseg
  | .constructors children, _, _, _, _, ht, h =>
    hl.sizeChildren children (by rwa [Child.trees] at ht) (by rwa [Layout.sizeChild] at h)
  | .wild children, _, _, _, _, ht, h =>
    hl.sizeChildren children (by rwa [Child.trees] at ht) (by rwa [Layout.sizeChild] at h)
  | .group children, _, _, _, _, ht, h =>
    hl.sizeChildren children (by rwa [Child.trees] at ht) (by rwa [Layout.sizeChild] at h)
  | .data type exp, _, _, st, _, ht, h => by
    rw [Layout.sizeChild] at h
    rw [Child.trees] at ht
    obtain ⟨p, hp, heq⟩ := Option.map_eq_some_iff.mp h
    have hr : R st.dataseg p.2.dataseg := hl.expFoldTree (ht exp List.mem_cons_self) hp
    cases heq
    exact hr
  | .reloc size, _, _, _, _, _, h => by
    rw [Layout.sizeChild] at h
    cases h
    exact hl.refl _
  | .inputSection i, _, _, _, _, _, h => by
    rw [Layout.sizeChild] at h
    have hst := congrArg Prod.snd (Option.some.inj h)
    dsimp only at hst
    rw [← hst]
    exact hl.of_eq sizeInputSection_dataseg
  | .assignment a, _, _, _, _, ht, h => by
    rw [Layout.sizeChild] at h
    rw [Child.trees] at ht
    exact hl.sizeAssignment ht h
  | .other, _, _, _, _, _, h => by
    rw [Layout.sizeChild] at h
    cases h
    exact hl.refl _

theorem Lifts.sizeChildren (hl : Lifts cfg P R) :
    ∀ (l : List Child) {dot dot' : Vma} {st st' : State}, (∀ t ∈ childTrees l, P t) →
    sizeChildren cfg phase os l dot st = some (dot', st') → R st.dataseg st'.dataseg
  | [], _, _, _, _, _, h => by
    rw [Layout.sizeChildren] at h
    cases h
    exact hl.refl _
  | c :: rest, _, _, _, _, ht, h => by
    rw [Layout.sizeChildren] at h
    rw [childTrees] at ht
    obtain ⟨p, hp, hrest⟩ := Option.bind_eq_some_iff.mp h
    refine hl.trans _ _ _ (hl.sizeChild c (fun t hc => ht t (List.mem_append_left _ hc)) hp) ?_
    exact hl.sizeChildren rest (fun t hr => ht t (List.mem_append_right _ hr)) hrest
end

theorem Lifts.explicitAddress (hl : Lifts cfg P R) (ht : ∀ t ∈ os.trees, P t)
    (h : explicitAddress cfg phase os dot st = some (dot', st')) : R st.dataseg st'.dataseg := by
  unfold Layout.explicitAddress at h
  rcases haddr : os.address cfg with _ | tree <;> rw [haddr] at h
  · cases h
    exact hl.refl _
  · have htree : P tree := by
      unfold OutputSection.address at haddr
      split at haddr
      · cases haddr
        exact hl.zero
      · refine ht tree ?_
        unfold OutputSection.trees
        rw [haddr]
        exact List.mem_append_left _ (List.mem_append_left _ (List.mem_singleton.mpr rfl))
    obtain ⟨⟨val, s⟩, hp, heq⟩ := Option.bind_eq_some_iff.mp h
    have hr := hl.expFoldTree htree hp
    rcases val with _ | v
    · simp only [Option.elim] at heq
      split at heq <;> cases heq
      exact hr
    · cases heq
      exact hr

theorem lookupDefault_dataseg : st.lookupDefault.dataseg = st.dataseg := by
  unfold State.lookupDefault
  split <;> rfl

theorem chooseRegion_dataseg : (chooseRegion os st).2.dataseg = st.dataseg := by
  have hdefault (flags : BitVec 32) : (memoryDefault flags st).2.dataseg = st.dataseg := by
    unfold memoryDefault
    dsimp only
    cases List.find? _ st.regionList with
    | none => exact lookupDefault_dataseg
    | some r => rfl
  unfold chooseRegion
  dsimp only
  cases st.osRegion os.id with
  | none => exact hdefault _
  | some r =>
    simp only [Option.elim]
    split
    · exact hdefault _
    · rfl

theorem placeSection_dataseg {start : Start}
    (h : placeSection cfg phase checkRegions os dot st = some (start, st')) :
    st'.dataseg = st.dataseg := by
  unfold placeSection at h
  split at h
  · split at h <;> cases h
    rfl
  · obtain ⟨p, hp, heq⟩ := Option.map_eq_some_iff.mp h
    have hstart : p.2.2.dataseg = st.dataseg := by
      unfold unalignedStart at hp
      split at hp
      · dsimp only at hp
        split at hp
        · split at hp <;> cases hp
          exact chooseRegion_dataseg
        · cases hp
          exact chooseRegion_dataseg
      · cases hp
        rfl
    have hst := congrArg Prod.snd heq
    dsimp only at hst
    rw [← hst, ← hstart]
    dsimp only [State.setSection]
    split <;> rfl

theorem Lifts.placeAndSize (hl : Lifts cfg P R) {children : List Child} {p : Placed}
    (ht : ∀ t ∈ childTrees children, P t)
    (h : placeAndSize cfg phase checkRegions os children dot st = some p) :
    R st.dataseg p.state.dataseg := by
  obtain ⟨⟨start, st1⟩, hplace, hrest⟩ := Option.bind_eq_some_iff.mp h
  obtain ⟨⟨d, st2⟩, hsize, heq⟩ := Option.bind_eq_some_iff.mp hrest
  have hr : R st1.dataseg st2.dataseg := hl.sizeChildren children ht hsize
  rw [placeSection_dataseg hplace] at hr
  dsimp only at heq
  split at heq
  · split at heq <;> cases heq
    exact hr
  · cases heq
    exact hr

theorem Lifts.setSectionLma (hl : Lifts cfg P R) {r : String} {start : Start}
    (ht : ∀ t ∈ os.trees, P t) (h : setSectionLma cfg phase os r dot start st = some st') :
    R st.dataseg st'.dataseg := by
  unfold Layout.setSectionLma at h
  split at h
  · rename_i tree hbase
    have htree : P tree := by
      refine ht tree ?_
      unfold OutputSection.trees
      rw [hbase]
      exact List.mem_append_left _ (List.mem_append_right _ (List.mem_singleton.mpr rfl))
    obtain ⟨p, hp, heq⟩ := Option.map_eq_some_iff.mp h
    rw [← heq]
    unfold loadBaseValue at hp
    obtain ⟨q, hq, hv⟩ := Option.bind_eq_some_iff.mp hp
    have hr : R st.dataseg q.2.dataseg := hl.expFoldTree htree hq
    rcases hval : q.1 with _ | v <;> rw [hval] at hv
    · simp only [Option.elim] at hv
      split at hv <;> cases hv
      exact hr
    · cases hv
      exact hr
  · cases h
    exact hl.refl _
  · split at h
    · cases h
      refine hl.of_eq ?_
      unfold lmaAfter
      dsimp only
      split
      · split <;> rfl
      · rfl
    · cases h
      exact hl.refl _
  · cases h
    exact hl.refl _

theorem updateRegions_dataseg {dotdelta : Vma} :
    (updateRegions cfg checkRegions os dot dotdelta st).dataseg = st.dataseg := by
  have hleave (r : String) (d : Vma) (tree : Option Etree) (rbase : Vma) (s : State) :
      (leaveRegion checkRegions os r d tree rbase s).dataseg = s.dataseg := by
    unfold leaveRegion osRegionCheck
    dsimp only
    split
    · split
      · split
        · rfl
        · split <;> rfl
      · rfl
    · rfl
  unfold updateRegions
  dsimp only
  split
  · rfl
  · split
    · split
      · exact hleave _ _ _ _ _
      · split
        · rw [hleave, hleave]
        · exact hleave _ _ _ _ _
    · rfl

theorem Lifts.closeSection (hl : Lifts cfg P R) {start : Start} (ht : ∀ t ∈ os.trees, P t)
    (h : closeSection cfg phase checkRegions os start dot st = some (dot', st')) :
    R st.dataseg st'.dataseg := by
  unfold Layout.closeSection at h
  obtain ⟨stLma, hlma, hrest⟩ := Option.bind_eq_some_iff.mp h
  have htracking : (lmaTracking os st).2.dataseg = st.dataseg := by
    unfold lmaTracking
    cases st.osRegion os.id with
    | none => exact lookupDefault_dataseg
    | some r => rfl
  have hr := hl.setSectionLma ht hlma
  rw [htracking] at hr
  have htrack (r : String) (d : Vma) : (trackLastOs cfg os r d stLma).dataseg = stLma.dataseg := by
    unfold trackLastOs
    dsimp only
    split <;> rfl
  dsimp only at hrest
  split at hrest
  · cases hrest
    rw [htrack]
    exact hr
  · obtain ⟨⟨d, st1⟩, hdot, heq⟩ := Option.map_eq_some_iff.mp hrest
    have hst := congrArg Prod.snd heq
    dsimp only at hst
    rw [← hst, updateRegions_dataseg]
    refine hl.trans _ _ _ hr ?_
    rw [← htrack (lmaTracking os st).1 dot]
    unfold updateDot at hdot
    cases htree : os.updateDotTree with
    | none =>
      rw [htree] at hdot
      cases hdot
      exact hl.refl _
    | some tree =>
      rw [htree] at hdot
      refine hl.assignDot (ht tree ?_) hdot
      unfold OutputSection.trees
      rw [htree]
      exact List.mem_append_right _ (List.mem_singleton.mpr rfl)

theorem Lifts.sizeOutputSection (hl : Lifts cfg P R) {children : List Child}
    (ht : ∀ t ∈ os.trees ++ childTrees children, P t)
    (h : sizeOutputSection cfg phase checkRegions os children dot st = some (dot', st')) :
    R st.dataseg st'.dataseg := by
  have hos : ∀ t ∈ os.trees, P t := fun t hm => ht t (List.mem_append_left _ hm)
  have hchildren : ∀ t ∈ childTrees children, P t := fun t hm => ht t (List.mem_append_right _ hm)
  unfold Layout.sizeOutputSection at h
  split at h
  · cases h
    exact hl.refl _
  · obtain ⟨⟨d, s⟩, haddr, hrest⟩ := Option.bind_eq_some_iff.mp h
    have hr : R st.dataseg s.dataseg := hl.explicitAddress hos haddr
    split at hrest
    · cases hrest
      exact hr
    · split at hrest
      · obtain ⟨s1, hshared, heq⟩ := Option.map_eq_some_iff.mp hrest
        cases heq
        unfold coffSharedLibrary at hshared
        split at hshared <;> cases hshared
        exact hr
      · obtain ⟨p, hplace, hclose⟩ := Option.bind_eq_some_iff.mp hrest
        refine hl.trans _ _ _ hr (hl.trans _ _ _ (hl.placeAndSize hchildren hplace) ?_)
        exact hl.closeSection hos hclose

theorem Lifts.sizeStatement (hl : Lifts cfg P R) {s : Statement} (ht : ∀ t ∈ s.trees, P t)
    (h : sizeStatement cfg phase checkRegions s dot st = some (dot', st')) :
    R st.dataseg st'.dataseg := by
  cases s with
  | outputSection os children => exact hl.sizeOutputSection ht h
  | assignment a =>
    obtain ⟨p, hp, heq⟩ := Option.map_eq_some_iff.mp h
    have hr : R st.dataseg p.2.dataseg := hl.foldAssignment ht hp
    cases heq
    dsimp only [State.setRegion]
    rw [lookupDefault_dataseg]
    exact hr
  | other =>
    cases h
    exact hl.refl _

theorem Lifts.langSizeSections1 (hl : Lifts cfg P R) :
    ∀ (l : List Statement) {dot dot' : Vma} {st st' : State}, (∀ s ∈ l, ∀ t ∈ s.trees, P t) →
    langSizeSections1 cfg phase checkRegions l dot st = some (dot', st') →
    R st.dataseg st'.dataseg
  | [], _, _, _, _, _, h => by
    cases h
    exact hl.refl _
  | s :: rest, _, _, _, _, ht, h => by
    obtain ⟨⟨d, s1⟩, hstep, hrest⟩ := Option.bind_eq_some_iff.mp h
    refine hl.trans _ _ _ (hl.sizeStatement (ht s List.mem_cons_self) hstep) ?_
    exact hl.langSizeSections1 rest (fun s' hs => ht s' (List.mem_cons_of_mem _ hs)) hrest

end Lift

/-- Neither DATA_SEGMENT_ALIGN nor DATA_SEGMENT_END is in the expression, and
DATA_SEGMENT_RELRO_END only where `relro` allows it. -/
def Etree.segmentFree (relro : Bool) : Etree → Bool
  | .unary op child => op ≠ .dataSegmentEnd && child.segmentFree relro
  | .binary op lhs rhs =>
    op ≠ .dataSegmentAlign && (relro || op ≠ .dataSegmentRelroEnd) &&
      lhs.segmentFree relro && rhs.segmentFree relro
  | .trinary cond lhs rhs =>
    cond.segmentFree relro && lhs.segmentFree relro && rhs.segmentFree relro
  | _ => true

/-- The data segment stays, but for its end of the RELRO part. -/
structure Kept (d d' : Dataseg) : Prop where
  base : d'.base = d.base
  endAt : d'.endAt = d.endAt
  pagesize : d'.pagesize = d.pagesize
  phase : d'.phase = d.phase ∨ (d.phase = .alignSeen ∧ d'.phase = .relroSeen)

theorem Kept.refl (d : Dataseg) : Kept d d := ⟨rfl, rfl, rfl, .inl rfl⟩

theorem Kept.trans {d d' d'' : Dataseg} (h : Kept d d') (h' : Kept d' d'') : Kept d d'' := by
  refine ⟨h'.base.trans h.base, h'.endAt.trans h.endAt, h'.pagesize.trans h.pagesize, ?_⟩
  rcases h'.phase with heq' | ⟨hseen', hrelro'⟩
  · rcases h.phase with heq | ⟨hseen, hrelro⟩
    · exact .inl (heq'.trans heq)
    · exact .inr ⟨hseen, heq'.trans hrelro⟩
  · rcases h.phase with heq | ⟨_, hrelro⟩
    · exact .inr ⟨heq.symm.trans hseen', hrelro'⟩
    · rw [hrelro] at hseen'
      cases hseen'

section Fold

variable {cfg : Config} {st : State} {e : Expld} {f f' : Folding} {v : Option EtreeValue}

theorem foldName_dataseg {n : Name} (h : foldName cfg st e n f = some (v, f')) :
    f'.dataseg = f.dataseg := by
  cases n with
  | symbol s =>
    have hself (b : Bool) :
        (if b then { f with assignName := none } else f).dataseg = f.dataseg := by
      cases b <;> rfl
    simp only [foldName] at h
    split at h
    · cases h
      exact hself _
    · split at h
      · split at h <;> cases h <;> exact hself _
      · split at h <;> cases h
        exact hself _
  | addr os | sizeof os | alignof os =>
    simp only [foldName] at h
    split at h
    · cases h
      rfl
    · cases os with
      | none =>
        dsimp only at h
        split at h <;> cases h
        rfl
      | some n =>
        dsimp only at h
        first
        | (cases h; rfl)
        | (split at h <;> cases h <;> rfl)
  | origin r | length r =>
    simp only [foldName] at h
    split at h <;> cases h <;> rfl
  | maxpagesize | commonpagesize =>
    cases h
    rfl

theorem foldUnary_dataseg {op : UnaryOp} {x : EtreeValue} (hop : op ≠ .dataSegmentEnd) :
    (foldUnary st e op x f).2.dataseg = f.dataseg := by
  cases op with
  | dataSegmentEnd => exact absurd rfl hop
  | align | next =>
    simp only [foldUnary]
    split <;> rfl
  | absolute | complement | not | neg => rfl

/-- Only the two operators on data segments change it. -/
theorem foldBinary_dataseg {op : BinaryOp} {l r : EtreeValue} (halign : op ≠ .dataSegmentAlign)
    (hrelro : op ≠ .dataSegmentRelroEnd) (h : foldBinary cfg st e op l r f = some (v, f')) :
    f'.dataseg = f.dataseg := by
  unfold foldBinary at h
  cases op with
  | dataSegmentAlign => exact absurd rfl halign
  | dataSegmentRelroEnd => exact absurd rfl hrelro
  | rem | div =>
    dsimp only at h
    split at h
    · cases h
      rfl
    · split at h <;> cases h
      rfl
  | _ =>
    cases h
    rfl

theorem kept_foldRelroEnd {l r : EtreeValue} :
    Kept f.dataseg (foldDataSegmentRelroEnd e l r f).2.dataseg := by
  unfold foldDataSegmentRelroEnd
  dsimp only
  split
  · exact ⟨rfl, rfl, rfl, .inl rfl⟩
  · split
    · rename_i hseen
      exact ⟨rfl, rfl, rfl, .inr ⟨hseen, rfl⟩⟩
    · split <;> exact ⟨rfl, rfl, rfl, .inl rfl⟩
    all_goals exact ⟨rfl, rfl, rfl, .inl rfl⟩

/-- A relation of data segments that DATA_SEGMENT_RELRO_END keeps, where it is allowed, is kept by
every expression without the other two operators. -/
theorem lifts_segmentFree {relro : Bool} {R : Dataseg → Dataseg → Prop} (hrefl : ∀ d, R d d)
    (htrans : ∀ d d' d'', R d d' → R d' d'' → R d d'')
    (hrelro : relro = true → ∀ e l r f, R f.dataseg (foldDataSegmentRelroEnd e l r f).2.dataseg) :
    Lifts cfg (fun t => t.segmentFree relro = true) R := by
  refine ⟨hrefl, htrans, rfl, fun st e tree => ?_⟩
  have hsame {d d' : Dataseg} (h : d' = d) : R d d' := by
    rw [h]
    exact hrefl d
  induction tree with
  | value _ | dot =>
    intro f v f' _ h
    cases h
    exact hrefl _
  | name n =>
    intro f v f' _ h
    exact hsame (foldName_dataseg h)
  | unary op child ih =>
    intro f v f' hfree h
    simp only [Etree.segmentFree, Bool.and_eq_true, decide_eq_true_eq] at hfree
    obtain ⟨⟨x, f1⟩, hchild, heq⟩ := Option.map_eq_some_iff.mp h
    have hr := ih f x f1 hfree.2 hchild
    cases x with
    | none =>
      cases heq
      exact hr
    | some x =>
      have hf := congrArg Prod.snd heq
      dsimp only [Option.elim] at hf
      rw [← hf]
      exact htrans _ _ _ hr (hsame (foldUnary_dataseg hfree.1))
  | binary op lhs rhs ihl ihr =>
    intro f v f' hfree h
    simp only [Etree.segmentFree, Bool.and_eq_true, Bool.or_eq_true, decide_eq_true_eq] at hfree
    obtain ⟨⟨⟨halign, hop⟩, hfl⟩, hfr⟩ := hfree
    obtain ⟨⟨x, f1⟩, hlhs, hrest⟩ := Option.bind_eq_some_iff.mp h
    obtain ⟨⟨y, f2⟩, hrhs, heq⟩ := Option.bind_eq_some_iff.mp hrest
    have hr := htrans _ _ _ (ihl f x f1 hfl hlhs) (ihr f1 y f2 hfr hrhs)
    cases x with
    | none =>
      cases heq
      exact hr
    | some x =>
      cases y with
      | none =>
        cases heq
        exact hr
      | some y =>
        dsimp only [Option.elim] at heq
        by_cases hend : op = .dataSegmentRelroEnd
        · subst hend
          have hf := congrArg Prod.snd (Option.some.inj heq)
          dsimp only at hf
          rw [← hf]
          refine htrans _ _ _ hr (hrelro ?_ _ _ _ _)
          exact hop.resolve_right fun hne => hne rfl
        · exact htrans _ _ _ hr (hsame (foldBinary_dataseg halign hend heq))
  | trinary cond lhs rhs ihc ihl ihr =>
    intro f v f' hfree h
    simp only [Etree.segmentFree, Bool.and_eq_true] at hfree
    obtain ⟨⟨x, f1⟩, hcond, heq⟩ := Option.bind_eq_some_iff.mp h
    have hr := ihc f x f1 hfree.1.1 hcond
    cases x with
    | none =>
      cases heq
      exact hr
    | some x =>
      dsimp only [Option.elim] at heq
      split at heq
      · exact htrans _ _ _ hr (ihl f1 v f' hfree.1.2 heq)
      · exact htrans _ _ _ hr (ihr f1 v f' hfree.2 heq)

theorem lifts_kept : Lifts cfg (fun t => t.segmentFree true = true) Kept :=
  lifts_segmentFree .refl (fun _ _ _ h h' => h.trans h') fun _ _ _ _ _ => kept_foldRelroEnd

/-- Without DATA_SEGMENT_RELRO_END the data segment stays. -/
theorem lifts_same : Lifts cfg (fun t => t.segmentFree false = true) fun d d' => d' = d :=
  lifts_segmentFree (fun _ => rfl) (fun _ _ _ h h' => h'.trans h) fun h => nomatch h

end Fold

/-! The two bases. -/

section Bases

open Pages

variable {i j : Nat} {dot base length : Vma}

theorem toNat_page (hj : j < 64) : ((1 : Vma) <<< j).toNat = 2 ^ j := by
  rw [BitVec.toNat_shiftLeft, Nat.shiftLeft_eq]
  show 1 * 2 ^ j % 2 ^ 64 = 2 ^ j
  rw [Nat.one_mul]
  exact Nat.mod_eq_of_lt (Nat.pow_lt_pow_right (by decide) hj)

theorem toNat_pageMask (hj : j < 64) : ((1 : Vma) <<< j - 1).toNat = 2 ^ j - 1 := by
  have hle : (1 : Vma) ≤ (1 : Vma) <<< j := by
    rw [BitVec.le_def, toNat_page hj]
    exact Nat.one_le_two_pow
  rw [BitVec.toNat_sub_of_le hle, toNat_page hj]
  rfl

theorem toNat_and_pageMask (x : Vma) (hj : j < 64) :
    (x &&& ((1 : Vma) <<< j - 1)).toNat = x.toNat % 2 ^ j := by
  rw [BitVec.toNat_and, toNat_pageMask hj, Nat.and_two_pow_sub_one_eq_mod]

theorem and_not_pageMask_eq_iff (x y : Vma) (hj : j < 64) :
    (x &&& ~~~((1 : Vma) <<< j - 1)) = (y &&& ~~~((1 : Vma) <<< j - 1)) ↔
      x.toNat / 2 ^ j = y.toNat / 2 ^ j := by
  have hsplit (z : Vma) : (z &&& ~~~((1 : Vma) <<< j - 1)).toNat = z.toNat - z.toNat % 2 ^ j := by
    have hsum : (z &&& ~~~((1 : Vma) <<< j - 1)) + (z &&& ((1 : Vma) <<< j - 1)) = z := by
      have hones (m : Vma) : ~~~m ||| m = BitVec.allOnes 64 := by
        ext b
        simp
      have hzero (m : Vma) : (z &&& ~~~m) &&& (z &&& m) = 0 := by
        ext b
        cases hz : z[b] <;> cases hm : m[b] <;> simp [hz, hm]
      rw [BitVec.add_eq_or_of_and_eq_zero _ _ (hzero _), ← BitVec.and_or_distrib_left, hones,
        BitVec.and_allOnes]
    have hle : (z &&& ((1 : Vma) <<< j - 1)) ≤ z := by
      rw [BitVec.le_def, toNat_and_pageMask z hj]
      exact Nat.mod_le _ _
    have heq : z &&& ~~~((1 : Vma) <<< j - 1) = z - (z &&& ((1 : Vma) <<< j - 1)) :=
      BitVec.eq_sub_iff_add_eq.mpr hsum
    rw [heq, BitVec.toNat_sub_of_le hle, toNat_and_pageMask z hj]
  rw [← BitVec.toNat_inj, hsplit, hsplit]
  have hx := Nat.mod_add_div x.toNat (2 ^ j)
  have hy := Nat.mod_add_div y.toNat (2 ^ j)
  have hpos : 0 < 2 ^ j := Nat.two_pow_pos j
  constructor
  · intro h
    refine Nat.eq_of_mul_eq_mul_left hpos ?_
    omega
  · intro h
    rw [h] at hx
    omega

theorem toNat_neg_and_pageMask (x : Vma) (hj : j < 64) :
    (-x &&& ((1 : Vma) <<< j - 1)).toNat = (2 ^ j - x.toNat % 2 ^ j) % 2 ^ j := by
  rw [toNat_and_pageMask _ hj, BitVec.toNat_neg]
  have hdvd : 2 ^ j ∣ 2 ^ 64 := Nat.pow_dvd_pow 2 (Nat.le_of_lt hj)
  rw [Nat.mod_mod_of_dvd _ hdvd]
  obtain ⟨k, hk⟩ := hdvd
  have hx := Nat.mod_add_div x.toNat (2 ^ j)
  have hlt := x.isLt
  have hr := Nat.mod_lt x.toNat (Nat.two_pow_pos j)
  have hq : x.toNat / 2 ^ j < k := by
    refine Nat.div_lt_of_lt_mul ?_
    rw [← hk]
    exact hlt
  have heq : 2 ^ 64 - x.toNat = (2 ^ j - x.toNat % 2 ^ j) + 2 ^ j * (k - x.toNat / 2 ^ j - 1) := by
    rw [hk]
    obtain ⟨d, hd⟩ := Nat.exists_eq_add_of_lt hq
    have hsub : k - x.toNat / 2 ^ j - 1 = d := by omega
    rw [hsub, hd, Nat.mul_add, Nat.mul_add, Nat.mul_one]
    omega
  rw [heq, Nat.add_mul_mod_self_left]

theorem toNat_alignN (hi : i < 64) (hdot : dot.toNat + 2 ^ i ≤ 2 ^ 64) :
    (alignN dot ((1 : Vma) <<< i)).toNat = (dot.toNat + 2 ^ i - 1) / 2 ^ i * 2 ^ i := by
  unfold alignN
  have hpos : 0 < 2 ^ i := Nat.two_pow_pos i
  split
  · rename_i hle
    rw [BitVec.le_def, toNat_page hi] at hle
    have hone : 2 ^ i = 1 := Nat.le_antisymm hle hpos
    rw [hone]
    simp
  · have hsum : (dot + (1 : Vma) <<< i - 1).toNat = dot.toNat + 2 ^ i - 1 := by
      rw [BitVec.sub_eq_add_neg, BitVec.add_assoc, ← BitVec.sub_eq_add_neg, BitVec.toNat_add,
        toNat_pageMask hi]
      rw [Nat.mod_eq_of_lt (by omega)]
      omega
    rw [BitVec.toNat_mul, BitVec.toNat_udiv, hsum, toNat_page hi]
    refine Nat.mod_eq_of_lt (Nat.lt_of_le_of_lt (Nat.div_mul_le_self _ _) ?_)
    omega

/-- The base in the page of the dot, at the same offset. -/
def offsetBase (dot maxpage : Vma) : Vma := alignN dot maxpage + (dot &&& (maxpage - 1))

/-- The base at the start of a page. -/
def pageBase (dot maxpage commonpage : Vma) : Vma :=
  alignN dot maxpage + ((dot + commonpage - 1) &&& (maxpage - commonpage))

theorem le_toNat_alignN (hi : i < 64) (hdot : dot.toNat + 2 ^ i ≤ 2 ^ 64) :
    dot.toNat ≤ (alignN dot ((1 : Vma) <<< i)).toNat := by
  rw [toNat_alignN hi hdot]
  have hpos : 0 < 2 ^ i := Nat.two_pow_pos i
  have hmod := Nat.mod_add_div (dot.toNat + 2 ^ i - 1) (2 ^ i)
  have hlt := Nat.mod_lt (dot.toNat + 2 ^ i - 1) hpos
  rw [Nat.mul_comm]
  omega

theorem toNat_alignN_le (hi : i < 64) (hdot : dot.toNat + 2 ^ i ≤ 2 ^ 64) :
    (alignN dot ((1 : Vma) <<< i)).toNat + 2 ^ i ≤ 2 ^ 64 := by
  rw [toNat_alignN hi hdot]
  have hpos : 0 < 2 ^ i := Nat.two_pow_pos i
  obtain ⟨k, hk⟩ : 2 ^ i ∣ 2 ^ 64 := Nat.pow_dvd_pow 2 (Nat.le_of_lt hi)
  rw [hk] at hdot ⊢
  have hlt : (dot.toNat + 2 ^ i - 1) / 2 ^ i < k := Nat.div_lt_of_lt_mul (by omega)
  have hmul := Nat.mul_le_mul_left (2 ^ i) hlt
  rw [Nat.mul_succ] at hmul
  rwa [Nat.mul_comm ((dot.toNat + 2 ^ i - 1) / 2 ^ i)]

theorem toNat_offsetBase (hi : i < 64) (hdot : dot.toNat + 2 ^ i ≤ 2 ^ 64) :
    (offsetBase dot ((1 : Vma) <<< i)).toNat =
      (alignN dot ((1 : Vma) <<< i)).toNat + dot.toNat % 2 ^ i := by
  unfold offsetBase
  rw [BitVec.toNat_add, toNat_and_pageMask dot hi]
  have hle := toNat_alignN_le hi hdot
  have hlt := Nat.mod_lt dot.toNat (Nat.two_pow_pos i)
  exact Nat.mod_eq_of_lt (by omega)

theorem toNat_pageOffset_le (x : Vma) (hi : i < 64) (hj : j ≤ i) :
    (x &&& ((1 : Vma) <<< i - (1 : Vma) <<< j)).toNat < 2 ^ i ∧
      2 ^ j ∣ (x &&& ((1 : Vma) <<< i - (1 : Vma) <<< j)).toNat := by
  have hle : (1 : Vma) <<< j ≤ (1 : Vma) <<< i := by
    rw [BitVec.le_def, toNat_page hi, toNat_page (Nat.lt_of_le_of_lt hj hi)]
    exact Nat.pow_le_pow_right (by decide) hj
  have hmask : ((1 : Vma) <<< i - (1 : Vma) <<< j).toNat = 2 ^ i - 2 ^ j := by
    rw [BitVec.toNat_sub_of_le hle, toNat_page hi, toNat_page (Nat.lt_of_le_of_lt hj hi)]
  have hpi := Nat.two_pow_pos i
  have hpj := Nat.two_pow_pos j
  rw [BitVec.toNat_and, hmask]
  constructor
  · exact Nat.lt_of_le_of_lt Nat.and_le_right (by omega)
  · have hdvd : 2 ^ j ∣ 2 ^ i - 2 ^ j :=
      Nat.dvd_sub (Nat.pow_dvd_pow 2 hj) (Nat.dvd_refl _)
    refine Nat.dvd_of_mod_eq_zero ?_
    rw [Nat.and_mod_two_pow, Nat.mod_eq_zero_of_dvd hdvd, Nat.and_zero]

theorem toNat_pageBase (hi : i < 64) (hj : j ≤ i) (hdot : dot.toNat + 2 ^ i ≤ 2 ^ 64) :
    (alignN dot ((1 : Vma) <<< i)).toNat ≤ (pageBase dot ((1 : Vma) <<< i) ((1 : Vma) <<< j)).toNat ∧
      2 ^ j ∣ (pageBase dot ((1 : Vma) <<< i) ((1 : Vma) <<< j)).toNat := by
  obtain ⟨hlt, hdvd⟩ := toNat_pageOffset_le (dot + (1 : Vma) <<< j - 1) hi hj
  have hle := toNat_alignN_le hi hdot
  have hsum : (pageBase dot ((1 : Vma) <<< i) ((1 : Vma) <<< j)).toNat =
      (alignN dot ((1 : Vma) <<< i)).toNat +
        ((dot + (1 : Vma) <<< j - 1) &&& ((1 : Vma) <<< i - (1 : Vma) <<< j)).toNat := by
    unfold pageBase
    rw [BitVec.toNat_add]
    exact Nat.mod_eq_of_lt (by omega)
  rw [hsum]
  refine ⟨Nat.le_add_right _ _, Nat.dvd_add ?_ hdvd⟩
  rw [toNat_alignN hi hdot]
  exact Nat.dvd_trans (Nat.pow_dvd_pow 2 hj) (Nat.dvd_mul_left _ _)

/-- The test of `lang_size_sections` finds out whether a page can be saved. -/
theorem saves_iff {d : Dataseg} (hj : j < 64) (hpage : d.pagesize = (1 : Vma) <<< j)
    (hend : d.endAt.toNat = d.base.toNat + length.toNat) :
    d.saves = true ↔ Saves (2 ^ j) d.base.toNat length.toNat := by
  have hpos : 0 < 2 ^ j := Nat.two_pow_pos j
  have hfirst := toNat_neg_and_pageMask d.base hj
  have hlast := toNat_and_pageMask d.endAt hj
  have hmodBase := Nat.mod_lt d.base.toNat hpos
  have hmodEnd := Nat.mod_lt d.endAt.toNat hpos
  have hhalf : 2 ^ j ≤ 2 ^ 63 := Nat.pow_le_pow_right (by decide) (by omega)
  have hzero (x : Vma) : x ≠ 0 ↔ x.toNat ≠ 0 := by
    rw [ne_eq, ← BitVec.toNat_inj]
    rfl
  have hne : (2 ^ j - d.base.toNat % 2 ^ j) % 2 ^ j ≠ 0 ↔ d.base.toNat % 2 ^ j ≠ 0 := by
    rcases Nat.eq_zero_or_pos (d.base.toNat % 2 ^ j) with h0 | h0
    · rw [h0, Nat.sub_zero, Nat.mod_self]
    · rw [Nat.mod_eq_of_lt (by omega)]
      omega
  have hsum : (-d.base &&& ((1 : Vma) <<< j - 1)) + (d.endAt &&& ((1 : Vma) <<< j - 1)) ≤
      (1 : Vma) <<< j ↔
      (2 ^ j - d.base.toNat % 2 ^ j) % 2 ^ j + d.endAt.toNat % 2 ^ j ≤ 2 ^ j := by
    have hfirstLt := Nat.mod_lt (2 ^ j - d.base.toNat % 2 ^ j) hpos
    rw [BitVec.le_def, BitVec.toNat_add, hfirst, hlast, toNat_page hj, Nat.mod_eq_of_lt (by omega)]
  unfold Dataseg.saves Saves
  simp only [hpage, Bool.and_eq_true, decide_eq_true_eq]
  rw [hzero, hzero, hfirst, hlast, ne_eq (_ &&& _), and_not_pageMask_eq_iff _ _ hj, hsum, hne,
    ← hend]
  have hsub (h : d.base.toNat % 2 ^ j ≠ 0) :
      (2 ^ j - d.base.toNat % 2 ^ j) % 2 ^ j = 2 ^ j - d.base.toNat % 2 ^ j :=
    Nat.mod_eq_of_lt (by omega)
  constructor
  · rintro ⟨⟨⟨h1, h2⟩, h3⟩, h4⟩
    rw [hsub h1] at h4
    exact ⟨h1, h2, h3, h4⟩
  · rintro ⟨h1, h2, h3, h4⟩
    rw [hsub h1]
    exact ⟨⟨⟨h1, h2⟩, h3⟩, h4⟩

end Bases

/-! The passes over a script with a data segment. -/

section Passes

open Pages

/-- `. = DATA_SEGMENT_ALIGN (maxpage, commonpage);` -/
def alignStatement (maxpage commonpage : Vma) : Statement :=
  .assignment (.dot (.binary .dataSegmentAlign (.value maxpage) (.value commonpage)))

/-- `. = DATA_SEGMENT_END (.);` -/
def endStatement : Statement := .assignment (.dot (.unary .dataSegmentEnd .dot))

/-- A linker script with a data segment. -/
structure DataScript where
  before : List Statement
  maxpage : Vma
  commonpage : Vma
  data : List Statement
  after : List Statement

def DataScript.statements (s : DataScript) : List Statement :=
  s.before ++ alignStatement s.maxpage s.commonpage :: (s.data ++ endStatement :: s.after)

/-- No other expression is about the data segment, except that DATA_SEGMENT_RELRO_END may be, when
the link has no RELRO segment. -/
def DataScript.Free (cfg : Config) (s : DataScript) : Prop :=
  ∀ stmt ∈ s.before ++ s.data ++ s.after, ∀ t ∈ stmt.trees, t.segmentFree (!cfg.relro) = true

variable {cfg : Config} {checkRegions : Bool} {s : DataScript} {dot length base : Vma}
  {st st' : State}

def startPass (st : State) : State := { st with iteration := !st.iteration }

/-- In the pass that starts from `st`, the data segment is placed at `base`. -/
def PlacesData (cfg : Config) (checkRegions : Bool) (s : DataScript) (dot base : Vma)
    (st : State) : Prop :=
  ∃ b b', langSizeSections1 cfg .allocating checkRegions s.before 0 (startPass st) = some (dot, b) ∧
    sizeStatement cfg .allocating checkRegions (alignStatement s.maxpage s.commonpage) dot b =
      some (base, b')

/-- In the pass that starts from `st`, the dot before the data segment is `dot`, and from the base
that it gets, the data segment has that length; then the pass comes to its end. -/
def Sized (cfg : Config) (checkRegions : Bool) (s : DataScript) (dot length : Vma) (st : State) :
    Prop :=
  ∃ b base b' d p,
    langSizeSections1 cfg .allocating checkRegions s.before 0 (startPass st) = some (dot, b) ∧
    sizeStatement cfg .allocating checkRegions (alignStatement s.maxpage s.commonpage) dot b =
      some (base, b') ∧
    langSizeSections1 cfg .allocating checkRegions s.data base b' = some (base + length, d) ∧
    langSizeSections1 cfg .allocating checkRegions (endStatement :: s.after) (base + length) d =
      some p

/-- An assignment to the dot outside of the sections, with the value of its expression. -/
theorem sizeStatement_dot (checkRegions : Bool) {src : Etree} {v : EtreeValue} {f : Folding}
    (h : foldTree cfg st ⟨.allocating, .abs, dot, true⟩ src ⟨st.dataseg, none⟩ = some (some v, f))
    (hsec : v.sect.getD .abs = .abs) :
    ∃ st', sizeStatement cfg .allocating checkRegions (.assignment (.dot src)) dot st =
      some (v.value, st') ∧ st'.dataseg = f.dataseg := by
  have haddress : v.address { st with dataseg := f.dataseg } .abs = v.value := by
    unfold EtreeValue.address
    rw [hsec]
    exact BitVec.add_zero v.value
  have hassign : assignDot cfg .allocating .abs dot src st =
      some (v.value, { st with dataseg := f.dataseg }) := by
    unfold assignDot
    rw [if_neg (by decide), h]
    simp only [Option.bind_some, Option.elim, haddress, ne_eq, reduceCtorEq, not_false_eq_true,
      decide_true, Bool.true_or, if_true, not_true_eq_false, decide_false, Bool.and_false,
      Bool.false_eq_true, if_false]
  unfold sizeStatement sizeAbsAssignment foldAssignment
  dsimp only
  rw [hassign]
  refine ⟨_, rfl, ?_⟩
  dsimp only [State.setRegion]
  exact lookupDefault_dataseg

/-- A number in an expression outside of the sections. -/
def Config.number (cfg : Config) (x : Vma) : EtreeValue :=
  ⟨x, if !cfg.saneExpr then some .abs else none⟩

theorem number_section (x : Vma) : (cfg.number x).sect.getD .abs = .abs := by
  unfold Config.number
  cases cfg.saneExpr <;> rfl

theorem foldTree_align (cfg : Config) (st : State) (phase : LangPhase)
    (dot maxpage commonpage : Vma) (b : Bool) (f : Folding) :
    foldTree cfg st ⟨phase, .abs, dot, b⟩
        (.binary .dataSegmentAlign (.value maxpage) (.value commonpage)) f =
      some (foldDataSegmentAlign ⟨phase, .abs, dot, b⟩ (cfg.number maxpage) (cfg.number commonpage)
        f) := by
  simp [foldTree, foldBinary, unify, Config.number]

/-- The first pass keeps the offset in the page. -/
theorem align_first (cfg : Config) (checkRegions : Bool) (s : DataScript) (dot : Vma)
    (hphase : st.dataseg.phase = .none) :
    ∃ st', sizeStatement cfg .allocating checkRegions (alignStatement s.maxpage s.commonpage) dot
        st = some (offsetBase dot s.maxpage, st') ∧
      st'.dataseg.phase = .alignSeen ∧ st'.dataseg.base = offsetBase dot s.maxpage ∧
      st'.dataseg.pagesize = s.commonpage ∧ st'.dataseg.relroEnd = 0 := by
  have hfold := foldTree_align cfg st .allocating dot s.maxpage s.commonpage true
    ⟨st.dataseg, none⟩
  unfold foldDataSegmentAlign at hfold
  simp only [hphase] at hfold
  obtain ⟨st', hstep, hdataseg⟩ := sizeStatement_dot checkRegions hfold
    (number_section s.commonpage)
  refine ⟨st', hstep, ?_⟩
  rw [hdataseg]
  exact ⟨rfl, rfl, rfl, rfl⟩

/-- The second pass goes to the start of a page. -/
theorem align_second (cfg : Config) (checkRegions : Bool) (s : DataScript) (dot : Vma)
    (hphase : st.dataseg.phase = .adjust) (hle : s.commonpage ≤ s.maxpage) :
    ∃ st', sizeStatement cfg .allocating checkRegions (alignStatement s.maxpage s.commonpage) dot
        st = some (pageBase dot s.maxpage s.commonpage, st') ∧ st'.dataseg = st.dataseg := by
  have hfold := foldTree_align cfg st .allocating dot s.maxpage s.commonpage true
    ⟨st.dataseg, none⟩
  unfold foldDataSegmentAlign at hfold
  simp only [hphase] at hfold
  have hvalue : (if s.commonpage < s.maxpage then
      alignN dot s.maxpage + ((dot + s.commonpage - 1) &&& (s.maxpage - s.commonpage))
      else alignN dot s.maxpage) = pageBase dot s.maxpage s.commonpage := by
    unfold pageBase
    split
    · rfl
    · rename_i hnot
      have heq : s.commonpage = s.maxpage := BitVec.le_antisymm hle (BitVec.not_lt.mp hnot)
      rw [heq, BitVec.sub_self, BitVec.and_zero, BitVec.add_zero]
  obtain ⟨st', hstep, hdataseg⟩ : ∃ st', sizeStatement cfg .allocating checkRegions
      (alignStatement s.maxpage s.commonpage) dot st =
        some (if s.commonpage < s.maxpage then
          alignN dot s.maxpage + ((dot + s.commonpage - 1) &&& (s.maxpage - s.commonpage))
          else alignN dot s.maxpage, st') ∧ st'.dataseg = st.dataseg := by
    by_cases hlt : (cfg.number s.commonpage).value < (cfg.number s.maxpage).value
    · rw [if_pos hlt] at hfold
      rw [if_pos (show s.commonpage < s.maxpage from hlt)]
      exact sizeStatement_dot checkRegions hfold (number_section s.commonpage)
    · rw [if_neg hlt] at hfold
      rw [if_neg (show ¬ s.commonpage < s.maxpage from hlt)]
      exact sizeStatement_dot checkRegions hfold (number_section s.commonpage)
  rw [hvalue] at hstep
  exact ⟨st', hstep, hdataseg⟩

/-- DATA_SEGMENT_END (.) notes the end in the first pass, and is the dot in any case. -/
theorem end_statement (cfg : Config) (checkRegions : Bool) {d : Dataseg} (h : foldDataSegmentEnd ⟨.allocating, .abs, dot, true⟩
      ⟨dot, some .abs⟩ ⟨st.dataseg, none⟩ = (some ⟨dot, some .abs⟩, ⟨d, none⟩)) :
    ∃ st', sizeStatement cfg .allocating checkRegions endStatement dot st = some (dot, st') ∧
      st'.dataseg = d := by
  have hdot : newRelFromAbs st ⟨.allocating, .abs, dot, true⟩ dot = ⟨dot, some .abs⟩ := by
    show (⟨dot - 0#64, some .abs⟩ : EtreeValue) = ⟨dot, some .abs⟩
    rw [BitVec.sub_zero]
  have hfold : foldTree cfg st ⟨.allocating, .abs, dot, true⟩ (.unary .dataSegmentEnd .dot)
      ⟨st.dataseg, none⟩ = some (some ⟨dot, some .abs⟩, ⟨d, none⟩) := by
    simp only [foldTree, foldUnary, reduceCtorEq, if_false, Option.map_some, Option.elim, hdot, h]
  exact sizeStatement_dot checkRegions hfold rfl

theorem Kept.phase_eq {d d' : Dataseg} (h : Kept d d') (hne : d.phase ≠ .alignSeen) :
    d'.phase = d.phase := h.phase.resolve_right fun hseen => hne hseen.1

/-- A part of the script without the two operators keeps the data segment; with a RELRO segment, no
part has DATA_SEGMENT_RELRO_END. -/
theorem kept_of_free {l : List Statement} {p q : Vma × State} {phase : LangPhase}
    (hfree : ∀ stmt ∈ l, ∀ t ∈ stmt.trees, t.segmentFree (!cfg.relro) = true)
    (h : langSizeSections1 cfg phase checkRegions l p.1 p.2 = some q) :
    Kept p.2.dataseg q.2.dataseg ∧
      (cfg.relro = true → q.2.dataseg.relroEnd = p.2.dataseg.relroEnd) := by
  have hkept : Kept p.2.dataseg q.2.dataseg := by
    cases hrelro : cfg.relro with
    | false =>
      rw [hrelro] at hfree
      exact lifts_kept.langSizeSections1 l hfree h
    | true =>
      rw [hrelro] at hfree
      rw [lifts_same.langSizeSections1 l hfree h]
      exact .refl _
  refine ⟨hkept, fun hrelro => ?_⟩
  rw [hrelro] at hfree
  rw [lifts_same.langSizeSections1 l hfree h]

theorem pass_of_sized {b b' d : State} {p : Vma × State}
    (hbefore : langSizeSections1 cfg .allocating checkRegions s.before 0 (startPass st) =
      some (dot, b))
    (halign : sizeStatement cfg .allocating checkRegions (alignStatement s.maxpage s.commonpage) dot
      b = some (base, b'))
    (hdata : langSizeSections1 cfg .allocating checkRegions s.data base b' =
      some (base + length, d))
    (hafter : langSizeSections1 cfg .allocating checkRegions (endStatement :: s.after)
      (base + length) d = some p) :
    oneLangSizeSectionsPass cfg checkRegions s.statements st = some p.2 := by
  unfold oneLangSizeSectionsPass DataScript.statements
  change Option.map Prod.snd (langSizeSections1 cfg .allocating checkRegions
    (s.before ++ alignStatement s.maxpage s.commonpage :: (s.data ++ endStatement :: s.after)) 0
    (startPass st)) = some p.2
  rw [langSizeSections1_append, hbefore, Option.bind_some, langSizeSections1, halign,
    Option.bind_some, langSizeSections1_append, hdata, Option.bind_some, hafter]
  rfl

/-- What is known after a first pass. -/
structure FirstPass (cfg : Config) (s : DataScript) (dot length : Vma) (st : State) : Prop where
  phase : st.dataseg.phase = .endSeen
  base : st.dataseg.base = offsetBase dot s.maxpage
  endAt : st.dataseg.endAt = offsetBase dot s.maxpage + length
  pagesize : st.dataseg.pagesize = s.commonpage
  relroEnd : cfg.relro = true → st.dataseg.relroEnd = 0

theorem first_pass (hphase : st.dataseg.phase = .none) (hfree : s.Free cfg)
    (hsized : Sized cfg checkRegions s dot length st) :
    ∃ st', oneLangSizeSectionsPass cfg checkRegions s.statements st = some st' ∧
      PlacesData cfg checkRegions s dot (offsetBase dot s.maxpage) st ∧
      FirstPass cfg s dot length st' := by
  obtain ⟨b, base, b', d, p, hbefore, halign, hdata, hafter⟩ := hsized
  have hfreeBefore := kept_of_free (p := (0, startPass st))
    (fun stmt hm => hfree stmt (List.mem_append_left _ (List.mem_append_left _ hm))) hbefore
  have hphaseB : b.dataseg.phase = .none := by
    rw [← hphase]
    refine hfreeBefore.1.phase_eq ?_
    rw [show (startPass st).dataseg = st.dataseg from rfl, hphase]
    decide
  obtain ⟨stAlign, hfirst, hseen, hbase, hpage, hrelro⟩ :=
    align_first cfg checkRegions s dot hphaseB
  rw [hfirst] at halign
  cases halign
  have hfreeData := kept_of_free (p := (offsetBase dot s.maxpage, b'))
    (fun stmt hm => hfree stmt (List.mem_append_left _ (List.mem_append_right _ hm))) hdata
  have hpass := pass_of_sized hbefore hfirst hdata hafter
  refine ⟨p.2, hpass, ⟨b, b', hbefore, hfirst⟩, ?_⟩
  -- DATA_SEGMENT_END finds that DATA_SEGMENT_ALIGN was seen
  have hend : foldDataSegmentEnd
      ⟨.allocating, .abs, offsetBase dot s.maxpage + length, true⟩
      ⟨offsetBase dot s.maxpage + length, some .abs⟩ ⟨d.dataseg, none⟩ =
      (some ⟨offsetBase dot s.maxpage + length, some .abs⟩,
        ⟨{ d.dataseg with phase := .endSeen, endAt := offsetBase dot s.maxpage + length },
          none⟩) := by
    unfold foldDataSegmentEnd
    rcases hfreeData.1.phase with heq | ⟨_, heq⟩
    · have hd : d.dataseg.phase = .alignSeen := heq.trans hseen
      simp only [hd]
      rfl
    · have hd : d.dataseg.phase = .relroSeen := heq
      simp only [hd]
      rfl
  obtain ⟨stEnd, hstep, hdataseg⟩ := end_statement cfg checkRegions hend
  rw [langSizeSections1, hstep, Option.bind_some] at hafter
  have hfreeAfter := kept_of_free (p := (offsetBase dot s.maxpage + length, stEnd)) (q := p)
    (fun stmt hm => hfree stmt (List.mem_append_right _ hm)) hafter
  dsimp only at hfreeAfter hfreeData
  rw [hdataseg] at hfreeAfter
  refine ⟨hfreeAfter.1.phase_eq (by intro h; cases h), ?_, hfreeAfter.1.endAt, ?_, fun hr => ?_⟩
  · exact hfreeAfter.1.base.trans (hfreeData.1.base.trans hbase)
  · exact hfreeAfter.1.pagesize.trans (hfreeData.1.pagesize.trans hpage)
  · exact (hfreeAfter.2 hr).trans ((hfreeData.2 hr).trans hrelro)

theorem second_pass (st : State) (hphase : st.dataseg.phase = .adjust) (hle : s.commonpage ≤ s.maxpage)
    (hfree : s.Free cfg) (hsized : Sized cfg checkRegions s dot length st) :
    ∃ st', oneLangSizeSectionsPass cfg checkRegions s.statements st = some st' ∧
      PlacesData cfg checkRegions s dot (pageBase dot s.maxpage s.commonpage) st ∧
      st'.dataseg.phase = .adjust := by
  obtain ⟨b, base, b', d, p, hbefore, halign, hdata, hafter⟩ := hsized
  have hfreeBefore := kept_of_free (p := (0, startPass st))
    (fun stmt hm => hfree stmt (List.mem_append_left _ (List.mem_append_left _ hm))) hbefore
  have hphaseB : b.dataseg.phase = .adjust := by
    rw [← hphase]
    refine hfreeBefore.1.phase_eq ?_
    rw [show (startPass st).dataseg = st.dataseg from rfl, hphase]
    decide
  obtain ⟨stAlign, hsecond, hsame⟩ := align_second cfg checkRegions s dot hphaseB hle
  rw [hsecond] at halign
  cases halign
  have hfreeData := kept_of_free (p := (pageBase dot s.maxpage s.commonpage, b'))
    (fun stmt hm => hfree stmt (List.mem_append_left _ (List.mem_append_right _ hm))) hdata
  have hpass := pass_of_sized hbefore hsecond hdata hafter
  refine ⟨p.2, hpass, ⟨b, b', hbefore, hsecond⟩, ?_⟩
  have hphaseD : d.dataseg.phase = .adjust := by
    have hphaseB' : b'.dataseg.phase = .adjust := by rw [hsame, hphaseB]
    rw [← hphaseB']
    refine hfreeData.1.phase_eq ?_
    rw [hphaseB']
    decide
  have hend : foldDataSegmentEnd
      ⟨.allocating, .abs, pageBase dot s.maxpage s.commonpage + length, true⟩
      ⟨pageBase dot s.maxpage s.commonpage + length, some .abs⟩ ⟨d.dataseg, none⟩ =
      (some ⟨pageBase dot s.maxpage s.commonpage + length, some .abs⟩, ⟨d.dataseg, none⟩) := by
    unfold foldDataSegmentEnd
    simp only [hphaseD]
    rfl
  obtain ⟨stEnd, hstep, hdataseg⟩ := end_statement cfg checkRegions hend
  rw [langSizeSections1, hstep, Option.bind_some] at hafter
  have hfreeAfter := kept_of_free (p := (pageBase dot s.maxpage s.commonpage + length, stEnd))
    (q := p) (fun stmt hm => hfree stmt (List.mem_append_right _ hm)) hafter
  dsimp only at hfreeAfter
  rw [hdataseg] at hfreeAfter
  rw [hfreeAfter.1.phase_eq (by rw [hphaseD]; decide), hphaseD]

/-- What DATA_SEGMENT_ALIGN gives from then on. -/
def settledBase (d : Dataseg) (dot maxpage commonpage : Vma) : Option Vma :=
  (foldDataSegmentAlign ⟨.final, .abs, dot, true⟩ ⟨maxpage, none⟩ ⟨commonpage, none⟩
    ⟨d, none⟩).1.map EtreeValue.value

theorem settledBase_done {d : Dataseg} {maxpage commonpage : Vma} (h : d.phase = .done) :
    settledBase d dot maxpage commonpage = some (offsetBase dot maxpage) := by
  unfold settledBase foldDataSegmentAlign
  simp only [h]
  rfl

theorem settledBase_adjust {d : Dataseg} {maxpage commonpage : Vma} (h : d.phase = .adjust)
    (hle : commonpage ≤ maxpage) :
    settledBase d dot maxpage commonpage = some (pageBase dot maxpage commonpage) := by
  unfold settledBase foldDataSegmentAlign pageBase
  simp only [h]
  by_cases hlt : commonpage < maxpage
  · rw [if_pos hlt]
    rfl
  · have heq : commonpage = maxpage := BitVec.le_antisymm hle (BitVec.not_lt.mp hlt)
    rw [if_neg hlt, heq, BitVec.sub_self, BitVec.and_zero, BitVec.add_zero]
    rfl

/-- `lang_size_sections` ends, and has placed the data segment at `base`: in the last pass, and for
what comes after. -/
structure SettlesOn (cfg : Config) (checkRegions : Bool) (s : DataScript) (dot base : Vma)
    (st st' : State) : Prop where
  result : langSizeSections cfg checkRegions s.statements st = some st'
  lastPass : ∃ st0 st1, oneLangSizeSectionsPass cfg checkRegions s.statements st0 = some st1 ∧
    PlacesData cfg checkRegions s dot base st0 ∧ (st' = st1 ∨ st' = st1.setPhase .done)
  settled : settledBase st'.dataseg dot s.maxpage s.commonpage = some base

/-- The two page sizes are powers of two, and the dot has a page boundary at it or above it. -/
structure DataScript.Pages (s : DataScript) (i j : Nat) (dot : Vma) : Prop where
  maxpage : s.maxpage = (1 : Vma) <<< i
  commonpage : s.commonpage = (1 : Vma) <<< j
  lt : i < 64
  le : j ≤ i
  room : dot.toNat + 2 ^ i ≤ 2 ^ 64

theorem DataScript.Pages.commonpage_le {i j : Nat} (h : s.Pages i j dot) :
    s.commonpage ≤ s.maxpage := by
  rw [h.maxpage, h.commonpage, BitVec.le_def, toNat_page h.lt,
    toNat_page (Nat.lt_of_le_of_lt h.le h.lt)]
  exact Nat.pow_le_pow_right (by decide) h.le

/-- The base that is settled on is not below the dot, is one of the two, and takes as few pages as
the better one of them. -/
theorem fewest_pages {i j : Nat} (hpages : s.Pages i j dot) (hfree : s.Free cfg)
    (hoffset : (offsetBase dot s.maxpage).toNat + length.toNat < 2 ^ 64)
    (hfirst : Sized cfg checkRegions s dot length (st.setPhase .none))
    (hsecond : ∀ st', oneLangSizeSectionsPass cfg checkRegions s.statements (st.setPhase .none) =
      some st' → st'.dataseg.saves = true → Sized cfg checkRegions s dot length (restart st')) :
    ∃ st' base, SettlesOn cfg checkRegions s dot base st st' ∧ dot ≤ base ∧
      (base = offsetBase dot s.maxpage ∨ base = pageBase dot s.maxpage s.commonpage) ∧
      count s.commonpage.toNat base.toNat length.toNat =
        min (count s.commonpage.toNat (offsetBase dot s.maxpage).toNat length.toNat)
          (count s.commonpage.toNat (pageBase dot s.maxpage s.commonpage).toNat length.toNat) := by
  have hj : j < 64 := Nat.lt_of_le_of_lt hpages.le hpages.lt
  have hpos : 0 < 2 ^ j := Nat.two_pow_pos j
  have hdot := le_toNat_alignN hpages.lt hpages.room
  have hoff := toNat_offsetBase hpages.lt hpages.room
  obtain ⟨hpageLe, hpageDvd⟩ := toNat_pageBase hpages.lt hpages.le hpages.room
  rw [← hpages.maxpage] at hoff hdot
  rw [← hpages.maxpage, ← hpages.commonpage] at hpageLe hpageDvd
  have hcommon : s.commonpage.toNat = 2 ^ j := by rw [hpages.commonpage, toNat_page hj]
  rw [hcommon]
  have hfewer := count_le_of_dvd (offsetBase dot s.maxpage).toNat length.toNat hpos hpageDvd
  obtain ⟨st1, hpass, hplaces, hknown⟩ := first_pass rfl hfree hfirst
  -- there is no RELRO segment
  have hrelro : (st1.dataseg.phase = .endSeen && cfg.relro && st1.dataseg.relroEnd ≠ 0) = false := by
    cases hr : cfg.relro with
    | false => rw [Bool.and_false, Bool.false_and]
    | true =>
      rw [hknown.relroEnd hr]
      simp
  have hend : st1.dataseg.endAt.toNat = st1.dataseg.base.toNat + length.toNat := by
    rw [hknown.endAt, hknown.base, BitVec.toNat_add, Nat.mod_eq_of_lt hoffset]
  have hsaves := saves_iff hj (hknown.pagesize.trans hpages.commonpage) hend
  rw [hknown.base] at hsaves
  have hcount := count_eq_iff (offsetBase dot s.maxpage).toNat length.toNat hpos hpageDvd
  by_cases hsave : st1.dataseg.saves = true
  · obtain ⟨st2, hpass2, hplaces2, hadjust⟩ := second_pass (restart st1) rfl
      hpages.commonpage_le hfree (hsecond st1 hpass hsave)
    refine ⟨st2, pageBase dot s.maxpage s.commonpage, ⟨?_, ⟨_, _, hpass2, hplaces2, .inl rfl⟩,
      settledBase_adjust hadjust hpages.commonpage_le⟩, ?_, .inr rfl, ?_⟩
    · unfold langSizeSections
      rw [hpass, Option.bind_some, hrelro, if_neg Bool.false_ne_true, hknown.phase, hsave]
      exact hpass2
    · exact BitVec.le_def.mpr (Nat.le_trans hdot hpageLe)
    · exact (Nat.min_eq_right hfewer).symm
  · refine ⟨st1.setPhase .done, offsetBase dot s.maxpage, ⟨?_, ⟨_, _, hpass, hplaces, .inr rfl⟩,
      settledBase_done rfl⟩, ?_, .inl rfl, ?_⟩
    · unfold langSizeSections
      rw [hpass, Option.bind_some, hrelro, if_neg Bool.false_ne_true, Bool.eq_false_iff.mpr hsave,
        Bool.and_false, if_neg Bool.false_ne_true]
    · exact BitVec.le_def.mpr (Nat.le_trans hdot (hoff ▸ Nat.le_add_right _ _))
    · have heq := hcount.mpr fun h => hsave (hsaves.mpr h)
      exact (Nat.min_eq_left (Nat.le_of_eq heq)).symm

/-- An ELF link without a RELRO segment. -/
def segmentConfig : Config where
  opbShift := 0
  saneExpr := false
  maxpagesize := 0x2000
  commonpagesize := 0x1000
  relocatable := false
  coff := false
  elf := true
  checkSectionAddresses := true
  warnSectionAlign := false
  relro := false

/-- No sections, and only the default region. -/
def segmentState : State where
  sections _ := ⟨0, 0, 0, 0, 0, false⟩
  osRegion _ := none
  regions _ := ⟨0, ~~~0, 0, none, 0, 0, false⟩
  regionList := [DEFAULT_MEMORY_REGION]
  symbols _ := none
  referenced _ := false
  iteration := true
  dataseg := ⟨.none, 0, 0, 0, 0, 0, 0⟩
  reports := []

/-- `. = dot; . = DATA_SEGMENT_ALIGN (0x2000, 0x1000); . = . + length; . = DATA_SEGMENT_END (.);` -/
def segmentScript (dot length : Vma) : DataScript where
  before := [.assignment (.dot (.value dot))]
  maxpage := 0x2000
  commonpage := 0x1000
  data := [.assignment (.dot (.binary .add .dot (.value length)))]
  after := []

theorem fewest_pages_short :
    ∃ st' base, SettlesOn segmentConfig true (segmentScript 0x1ff0 0x18) 0x1ff0 base segmentState
        st' ∧ (0x1ff0 : Vma) ≤ base ∧
      (base = offsetBase 0x1ff0 0x2000 ∨ base = pageBase 0x1ff0 0x2000 0x1000) ∧
      count 0x1000 base.toNat 0x18 =
        min (count 0x1000 (offsetBase 0x1ff0 0x2000).toNat 0x18)
          (count 0x1000 (pageBase 0x1ff0 0x2000 0x1000).toNat 0x18) := by
  have hpages : (segmentScript 0x1ff0 0x18).Pages 13 12 0x1ff0 :=
    ⟨rfl, rfl, by decide, by decide, by decide⟩
  have hfree : (segmentScript 0x1ff0 0x18).Free segmentConfig := by
    unfold DataScript.Free
    decide
  have hoffset : (offsetBase 0x1ff0 0x2000).toNat + (0x18 : Vma).toNat < 2 ^ 64 := by decide
  refine fewest_pages hpages hfree hoffset ?_ ?_
  · exact ⟨_, _, _, _, _, rfl, rfl, rfl, rfl⟩
  · intro st' hpass _
    cases hpass
    exact ⟨_, _, _, _, _, rfl, rfl, rfl, rfl⟩

/-- Where the boundary above the dot is not an address, the base is below the dot. -/
theorem base_below_dot :
    ∃ st', langSizeSections segmentConfig true (segmentScript (~~~0) 1).statements segmentState =
        some st' ∧
      settledBase st'.dataseg (~~~0) 0x2000 0x1000 = some 0x1fff ∧ (0x1fff : Vma) < ~~~0 :=
  ⟨_, rfl, rfl, by decide⟩

end Passes

end FusionBinutils.Ld.Layout
