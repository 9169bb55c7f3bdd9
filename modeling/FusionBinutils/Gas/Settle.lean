import FusionBinutils.Gas.Relax
import FusionBinutils.Gas.WriteObject

/-! The last pass of relaxation changes no address, so what it computes from the addresses holds
of the chain that it leaves. -/
namespace FusionBinutils.Gas

variable {σ : Type} {env : SymEnv σ} {lay : Layout} {ctx : (Nat → Option Vma) → Layout}
  {pass fudge : Nat} {stretch was address : Vma} {f n : Frag σ} {g : Grown σ}
  {next : Option (Frag σ)} {st st' : PassState} {done chain chain' : List (Frag σ)}
  {msgs : List Msg} {ret ret' : Bool}

/-- An `.org` reaches its target, and a leb128 number has the size of its value. -/
structure Settled (env : SymEnv σ) (lay : Layout) (f next : Frag σ) : Prop where
  org : f.frType = .org → next.frAddress = f.orgTarget env lay
  leb128 : f.frType = .leb128 → ∃ s, f.frSymbol = some s ∧ f.frOffset = f.leb128Size env lay s

theorem settled_of_ne {nx : Frag σ} (ho : f.frType ≠ .org) (hl : f.frType ≠ .leb128) :
    Settled env lay f nx :=
  ⟨fun ht => absurd ht ho, fun ht => absurd ht hl⟩

/-- Lookup sees only the numbers and the addresses of the frags. -/
theorem lookupAddr_congr {a b : List (Frag σ)}
    (h : a.map (fun f => (f.id, f.frAddress)) = b.map fun f => (f.id, f.frAddress)) :
    lookupAddr a = lookupAddr b := by
  have hl (l : List (Frag σ)) (id : Nat) : lookupAddr l id =
      ((l.map fun f => (f.id, f.frAddress)).find? (·.1 == id)).map Prod.snd := by
    simp [lookupAddr, List.find?_map, Function.comp_def]
  funext id
  rw [hl, hl, h]

/-- A frag that neither moves nor grows agrees with the layout it has seen. -/
theorem relaxFrag_still (h : relaxFrag env lay pass fudge 0 f.frAddress f next = some g)
    (hm : NoBad g.msgs) (hg : g.growth = 0) :
    g.newf = none ∧ (g.ret = false → ∀ nx ∈ next, Settled env lay g.frag nx) := by
  by_cases hf : f.frType.isAlign = true
  · obtain rfl := Option.some.inj ((relaxFrag_of_isAlign hf).symm.trans h)
    have hsame : relaxAlignFrag fudge 0 f.frAddress f = ⟨f, none, 0, false, []⟩ := by
      simp [relaxAlignFrag]
    obtain ⟨-, hno, hnl, -⟩ := RsType.ne_of_isAlign hf
    rw [hsame]
    exact ⟨rfl, fun _ nx _ => settled_of_ne hno hnl⟩
  cases ht : f.frType with
  | align | alignCode | alignTest => simp [ht, RsType.isAlign] at hf
  | fill =>
    simp only [relaxFrag, ht, Option.some.injEq] at h
    subst h
    exact ⟨rfl, fun _ nx _ => settled_of_ne (by simp [ht]) (by simp [ht])⟩
  | org =>
    obtain ⟨nx, growth, hnx, he, hgrow⟩ := relaxFrag_org ht h hm
    obtain rfl : growth = 0 := by rw [he] at hg; exact hg
    refine ⟨by rw [he], fun hret nx' hnx' => ?_⟩
    obtain rfl : nx = nx' := by simpa [hnx] using hnx'
    have hfrag : g.frag = f := by rw [he]
    rw [hfrag]
    refine ⟨fun _ => ?_, by simp [ht]⟩
    have hdiff : f.orgTarget env lay - nx.frAddress = 0 := by simpa using (hgrow hret).symm
    exact (sub_eq_zero.mp hdiff).symm
  | space =>
    obtain ⟨s, he⟩ := relaxFrag_space ht h
    rw [he]
    exact ⟨rfl, fun _ nx _ => settled_of_ne (by simp [ht]) (by simp [ht])⟩
  | leb128 =>
    obtain ⟨s, hs, rfl⟩ := relaxFrag_leb128 ht h
    exact ⟨rfl, fun _ nx _ => ⟨by simp [ht], fun _ => ⟨s, hs, rfl⟩⟩⟩

/-- `stretched` and `ret` stay set. -/
theorem relaxFrags_flags (h : relaxFrags env ctx pass done st chain = some (chain', st', msgs)) :
    (st.stretched = true → st'.stretched = true) ∧ (st.ret = true → st'.ret = true) := by
  induction chain generalizing done st chain' msgs with
  | nil =>
    simp only [relaxFrags, Option.some.injEq, Prod.mk.injEq] at h
    simp [← h.2.1]
  | cons f rest ih =>
    obtain ⟨g, rest', msgs', -, hr, -, -⟩ := relaxFrags_cons h
    obtain ⟨hs, ht⟩ := ih hr
    exact ⟨fun hst => hs (by simp [hst]), fun hst => ht (by simp [hst])⟩

/-- A pass without growth: all addresses stay, and the sizes agree with them. -/
theorem relaxFrags_still (h : relaxFrags env ctx pass done st chain = some (chain', st', msgs))
    (hm : NoBad msgs) (h0 : st.stretch = 0) (hs : st'.stretched = false) (hr : st'.ret = false) :
    chain'.map (fun f => (f.id, f.frAddress)) = chain.map (fun f => (f.id, f.frAddress)) ∧
      chain'.IsChain (Settled env (ctx (lookupAddr (done ++ chain)))) := by
  induction chain generalizing done st chain' msgs with
  | nil =>
    simp only [relaxFrags, Option.some.injEq, Prod.mk.injEq] at h
    simp [← h.1]
  | cons f rest ih =>
    obtain ⟨g, rest', msgs', hg, hrest, rfl, rfl⟩ := relaxFrags_cons h
    obtain ⟨hmg, hmr⟩ := noBad_append.mp hm
    obtain ⟨hfs, hfr⟩ := relaxFrags_flags hrest
    -- later frags do not take a growth back, so this one has none
    have hgrow : g.growth = 0 := by
      by_contra hne
      have ht := hfs (by rw [grow_stretched, bne_iff_ne.mpr hne, Bool.or_true])
      simp [ht] at hs
    have hret : g.ret = false := by
      by_contra hne
      have ht := hfr (by simp [hne])
      simp [ht] at hr
    have hmove : f.moveBy st.stretch = f := by simp [Frag.moveBy, h0]
    rw [hmove, h0] at hg
    obtain ⟨o, s, hsame, -⟩ := (relaxFrag_relaxed hg hmg).same
    obtain ⟨hnew, hset⟩ := relaxFrag_still hg hmg hgrow
    have hmoved : g.moved (st.stretch + g.growth) = [g.frag] := by simp [Grown.moved, hnew]
    rw [hmoved] at hrest ⊢
    rw [List.singleton_append]
    have hspot : (g.frag.id, g.frag.frAddress) = (f.id, f.frAddress) := by rw [hsame]
    have hlook : lookupAddr (done ++ [g.frag] ++ rest) = lookupAddr (done ++ f :: rest) :=
      lookupAddr_congr (by simp [hspot])
    obtain ⟨hmap, hchain⟩ := ih hrest hmr (by simp [h0, hgrow])
    rw [hlook] at hchain
    refine ⟨by simp [hmap, hspot], List.isChain_cons.mpr ⟨fun nx hnx => ?_, hchain⟩⟩
    have hhead := congrArg List.head? hmap
    simp only [List.head?_map, Option.mem_def.mp hnx, Option.map_some] at hhead
    obtain ⟨nx', hnx', heq⟩ := Option.map_eq_some_iff.mp hhead.symm
    obtain ⟨horg, hleb⟩ := hset hret nx' hnx'
    rw [(Prod.mk.inj heq).2] at horg
    exact ⟨horg, hleb⟩

/-! The passes of one section. -/

/-- What every pass keeps: `last` gives the addresses of the call before. -/
structure Sound (last : Nat → Option Vma) (chain : List (Frag σ)) : Prop where
  head : ∀ f ∈ chain.head?, f.frAddress = 0
  placed : chain.IsChain Placed
  valid : ∀ f ∈ chain, f.Valid
  closes : ∃ f ∈ chain.getLast?, f.Closes
  last : lookupLast chain = last

theorem relaxFrags_sound {last : Nat → Option Vma}
    (h : relaxFrags env ctx pass done st chain = some (chain', st', msgs)) (hm : NoBad msgs)
    (h0 : st.stretch = 0) (hc : Sound last chain) : Sound last chain' where
  head f hf := by
    have hhead := relaxFrags_head h hm
    rw [Option.mem_def.mp hf] at hhead
    obtain ⟨f', hf', he⟩ := Option.map_eq_some_iff.mp hhead.symm
    rw [← he, hc.head f' hf', h0]
    rfl
  placed := relaxFrags_placed h hm hc.placed
  valid := relaxFrags_valid h hm hc.valid
  closes := relaxFrags_closes h hm hc.closes
  last := (relaxFrags_lookupLast h hm).trans hc.last

theorem relaxLoop_cases {k : Nat}
    (h : relaxLoop env ctx pass k fudge ret chain = some (chain', ret', msgs)) :
    ∃ mid st ms, relaxFrags env ctx pass [] ⟨0, false, fudge, ret⟩ chain = some (mid, st, ms) ∧
      ((st.stretched = false ∧ chain' = mid ∧ ret' = st.ret ∧ msgs = ms) ∨
        ∃ j ms', k = j + 1 ∧ msgs = ms ++ ms' ∧
          relaxLoop env ctx pass j (nextFudge st) st.ret mid = some (chain', ret', ms')) := by
  unfold relaxLoop at h
  simp only [Option.bind_eq_bind, Option.bind_eq_some_iff, Prod.exists] at h
  obtain ⟨mid, st, ms, hp, h⟩ := h
  refine ⟨mid, st, ms, hp, ?_⟩
  split_ifs at h with hst
  · cases k with
    | zero => simp at h
    | succ j =>
      simp only [Option.bind_eq_some_iff, Prod.exists, Option.pure_def, Option.some.injEq,
        Prod.mk.injEq] at h
      obtain ⟨_, _, ms', hl, rfl, rfl, rfl⟩ := h
      exact .inr ⟨j, ms', rfl, rfl, hl⟩
  · simp only [Option.pure_def, Option.some.injEq, Prod.mk.injEq] at h
    obtain ⟨rfl, rfl, rfl⟩ := h
    exact .inl ⟨by simpa using hst, rfl, rfl, rfl⟩

/-- The loop ends with a pass in which no frag grows. -/
theorem relaxLoop_sound {k : Nat} {last : Nat → Option Vma}
    (h : relaxLoop env ctx pass k fudge ret chain = some (chain', ret', msgs)) (hm : NoBad msgs)
    (hc : Sound last chain) :
    Sound last chain' ∧
      (ret' = false → chain'.IsChain (Settled env (ctx (lookupAddr chain')))) := by
  induction k using Nat.strongRecOn generalizing fudge ret chain msgs with
  | ind k ih =>
    obtain ⟨mid, st, ms, hp, ⟨hst, rfl, rfl, rfl⟩ | ⟨j, ms', rfl, rfl, hl⟩⟩ := relaxLoop_cases h
    · refine ⟨relaxFrags_sound hp hm rfl hc, fun hret => ?_⟩
      obtain ⟨hmap, hchain⟩ := relaxFrags_still hp hm rfl hst hret
      rwa [List.nil_append, ← lookupAddr_congr hmap] at hchain
    · obtain ⟨hm1, hm2⟩ := noBad_append.mp hm
      exact ih j (by omega) hl hm2 (relaxFrags_sound hp hm1 rfl hc)

/-- A chain as `relax_segment` gets it: the addresses are those of the call before. -/
structure Ready (chain : List (Frag σ)) : Prop where
  valid : ∀ f ∈ chain, f.Valid
  closes : ∃ f ∈ chain.getLast?, f.Closes
  remembered : ∀ f ∈ chain, f.lastFrAddress = f.frAddress

theorem lookupLast_eq_lookupAddr (hc : ∀ f ∈ chain, f.lastFrAddress = f.frAddress) :
    lookupLast chain = lookupAddr chain := by
  funext id
  cases hf : chain.find? (·.id == id) with
  | none => simp [lookupLast, lookupAddr, hf]
  | some f => simp [lookupLast, lookupAddr, hf, hc f (List.mem_of_find?_eq_some hf)]

/-- What `relax_segment` leaves. -/
structure Laid (chain : List (Frag σ)) : Prop extends Ready chain where
  head : ∀ f ∈ chain.head?, f.frAddress = 0
  placed : chain.IsChain Placed

theorem Sound.laid {last : Nat → Option Vma} (hc : Sound last chain) :
    Laid (chain.map rememberAddress) where
  valid := by
    simp only [List.forall_mem_map]
    exact fun f hf => ⟨(hc.valid f hf).var, (hc.valid f hf).count, (hc.valid f hf).limit⟩
  closes := by
    obtain ⟨f, hf, hcl⟩ := hc.closes
    exact ⟨rememberAddress f, by simp [List.getLast?_map, Option.mem_def.mp hf], hcl⟩
  remembered := by simp [rememberAddress]
  head := by
    simp only [List.head?_map, Option.mem_def, Option.map_eq_some_iff]
    rintro _ ⟨f, hf, rfl⟩
    exact hc.head f hf
  placed := List.isChain_map_of_isChain rememberAddress (fun _ _ hab => hab) hc.placed

theorem relaxSegment_laid
    (h : relaxSegment env ctx pass chain = some (chain', ret, msgs)) (hm : NoBad msgs)
    (hc : Ready chain) :
    Laid chain' ∧ (ret = false → lookupAddr chain' = lookupAddr chain ∧
      chain'.IsChain (Settled env (ctx (lookupAddr chain')))) := by
  simp only [relaxSegment, Option.bind_eq_bind, Option.bind_eq_some_iff, Prod.exists,
    Option.pure_def, Option.some.injEq, Prod.mk.injEq] at h
  obtain ⟨first, ms, hg, final, ret', ms', hl, rfl, rfl, rfl⟩ := h
  obtain ⟨hm1, hm2⟩ := noBad_append.mp hm
  have hfirst : Sound (lookupLast chain) first :=
    { head := guessAddresses_head hg hm1
      placed := guessAddresses_placed hg hm1
      valid := guessAddresses_valid hg hm1 hc.valid
      closes := guessAddresses_closes hg hm1 hc.closes
      last := guessAddresses_lookupLast hg hm1 }
  obtain ⟨hfinal, hset⟩ := relaxLoop_sound hl hm2 hfirst
  refine ⟨hfinal.laid, fun hret => ?_⟩
  simp only [Bool.or_eq_false_iff, List.any_eq_false, bne_iff_ne, not_not] at hret
  have hmap : lookupAddr (final.map rememberAddress) = lookupAddr final :=
    lookupAddr_congr (by simp [rememberAddress])
  rw [hmap]
  constructor
  · calc lookupAddr final = lookupLast final := (lookupLast_eq_lookupAddr hret.2).symm
      _ = lookupLast chain := hfinal.last
      _ = lookupAddr chain := lookupLast_eq_lookupAddr hc.remembered
  · exact List.isChain_map_of_isChain rememberAddress (fun _ _ hab => ⟨hab.org, hab.leb128⟩)
      (hset hret.1)

/-! The rounds over all sections. -/

theorem lookupSegs_append (a b : List (Seg σ)) (id : Nat) :
    lookupSegs (a ++ b) id = (lookupSegs a id).or (lookupSegs b id) := by
  simp [lookupSegs, List.findSome?_append]

/-- The layout that a section sees while it is relaxed. -/
theorem layoutAround_eq (before after : List (Seg σ)) (s : Seg σ) :
    layoutAround before after (lookupAddr s.chain) = layoutOf (before ++ s :: after) := by
  funext id
  have hs : lookupSegs (s :: after) id = (lookupAddr s.chain id).or (lookupSegs after id) := by
    cases h : lookupAddr s.chain id <;> simp [lookupSegs, h]
  simp only [layoutAround, layoutOf, lookupSegs_append, hs, Option.or_assoc]

theorem layoutOf_congr {before a b : List (Seg σ)} (h : lookupSegs a = lookupSegs b) :
    layoutOf (before ++ a) = layoutOf (before ++ b) := by
  funext id
  simp only [layoutOf, lookupSegs_append, h]

theorem lookupSegs_cons_congr {s s' : Seg σ} {a b : List (Seg σ)}
    (hs : lookupAddr s.chain = lookupAddr s'.chain) (h : lookupSegs a = lookupSegs b) :
    lookupSegs (s :: a) = lookupSegs (s' :: b) := by
  funext id
  have hid := congrFun h id
  simp only [lookupSegs] at hid
  simp only [lookupSegs, List.findSome?_cons, hs, hid]

/-- A round in which nothing changes leaves every section settled in the layout of all. -/
theorem relaxSegs_laid {before segs segs' : List (Seg σ)} {changed : Bool}
    (h : relaxSegs env pass before segs = some (segs', changed, msgs)) (hm : NoBad msgs)
    (hc : ∀ s ∈ segs, Ready s.chain) :
    (∀ s ∈ segs', Laid s.chain) ∧ (changed = false → lookupSegs segs' = lookupSegs segs ∧
      ∀ s ∈ segs', s.chain.IsChain (Settled env (layoutOf (before ++ segs')))) := by
  induction segs generalizing before segs' changed msgs with
  | nil =>
    simp only [relaxSegs, Option.some.injEq, Prod.mk.injEq] at h
    simp [← h.1]
  | cons s rest ih =>
    simp only [relaxSegs, Option.bind_eq_bind, Option.bind_eq_some_iff, Prod.exists,
      Option.pure_def, Option.some.injEq, Prod.mk.injEq] at h
    obtain ⟨chain', ret, ms, hs, rest', ret', ms', hr, rfl, rfl, rfl⟩ := h
    obtain ⟨hm1, hm2⟩ := noBad_append.mp hm
    obtain ⟨hcs, hcr⟩ := List.forall_mem_cons.mp hc
    obtain ⟨hlaid, hstill⟩ := relaxSegment_laid hs hm1 hcs
    obtain ⟨hlaidr, hstillr⟩ := ih hr hm2 hcr
    refine ⟨List.forall_mem_cons.mpr ⟨hlaid, hlaidr⟩, fun hret => ?_⟩
    obtain ⟨hret, hret'⟩ := Bool.or_eq_false_iff.mp hret
    obtain ⟨haddr, hset⟩ := hstill hret
    obtain ⟨haddrr, hsetr⟩ := hstillr hret'
    refine ⟨lookupSegs_cons_congr haddr haddrr, List.forall_mem_cons.mpr ⟨?_, ?_⟩⟩
    · -- the sections behind this one do not move any more
      have hlay := layoutAround_eq before rest { s with chain := chain' }
      rw [hlay, ← layoutOf_congr (lookupSegs_cons_congr rfl haddrr)] at hset
      exact hset
    · simpa using hsetr

/-- The rounds of `write_object_file` end with all sections laid out and settled. -/
theorem relaxRounds_laid {fuel : Nat} {segs segs' : List (Seg σ)}
    (h : relaxRounds env fuel pass segs = some (segs', msgs)) (hm : NoBad msgs)
    (hc : ∀ s ∈ segs, Ready s.chain) :
    ∀ s ∈ segs', Laid s.chain ∧ s.chain.IsChain (Settled env (layoutOf segs')) := by
  induction fuel generalizing pass segs msgs with
  | zero => simp [relaxRounds] at h
  | succ fuel ih =>
    simp only [relaxRounds, Option.bind_eq_bind, Option.bind_eq_some_iff, Prod.exists] at h
    obtain ⟨mid, changed, ms, hr, h⟩ := h
    cases changed with
    | true =>
      simp only [if_true, Option.bind_eq_some_iff, Prod.exists, Option.pure_def,
        Option.some.injEq, Prod.mk.injEq] at h
      obtain ⟨_, ms', hl, rfl, rfl⟩ := h
      obtain ⟨hm1, hm2⟩ := noBad_append.mp hm
      exact ih hl hm2 fun s hs => ((relaxSegs_laid hr hm1 hc).1 s hs).toReady
    | false =>
      simp only [Bool.false_eq_true, if_false, Option.pure_def, Option.some.injEq,
        Prod.mk.injEq] at h
      obtain ⟨rfl, rfl⟩ := h
      obtain ⟨hlaid, hstill⟩ := relaxSegs_laid hr hm hc
      exact fun s hs => ⟨hlaid s hs, (hstill rfl).2 s hs⟩

end FusionBinutils.Gas
