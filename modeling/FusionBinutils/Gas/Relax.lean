import FusionBinutils.Gas.Frags
import Mathlib.Data.BitVec
import Mathlib.Data.List.Chain
import Mathlib.Tactic.Ring

/-! What relaxation keeps: each frag begins where the one before it ends. -/
namespace FusionBinutils.Gas

variable {σ : Type} {env : SymEnv σ} {lay : Layout} {ctx : (Nat → Option Vma) → Layout}
  {pass fudge : Nat} {stretch was address : Vma} {f n : Frag σ} {g : Grown σ}
  {next : Option (Frag σ)} {st st' : PassState} {done chain chain' : List (Frag σ)}
  {msgs : List Msg} {ret : Bool}

/-- No message is an error. -/
def NoBad (msgs : List Msg) : Prop := ∀ m ∈ msgs, m.isBad = false

instance : DecidablePred NoBad := fun msgs =>
  inferInstanceAs (Decidable (∀ m ∈ msgs, m.isBad = false))

@[simp] theorem noBad_nil : NoBad [] := by simp [NoBad]

@[simp] theorem noBad_append {a b : List Msg} : NoBad (a ++ b) ↔ NoBad a ∧ NoBad b := by
  simp [NoBad, or_imp, forall_and]

@[simp] theorem noBad_bad {text : String} {a : List Msg} : ¬ NoBad (.bad text :: a) := by
  simp [NoBad, Msg.isBad]

/-- The kinds whose size only the address of the next frag tells. -/
def RsType.floats : RsType → Bool
  | .org | .space => true
  | _ => false

theorem RsType.ne_of_isAlign {t : RsType} (h : t.isAlign = true) :
    t ≠ .fill ∧ t ≠ .org ∧ t ≠ .leb128 ∧ t.floats = false := by
  cases t <;> simp_all [RsType.isAlign, RsType.floats]

/-- The size of the variable part, as far as the frag itself tells it. -/
def Frag.room (f : Frag σ) : Vma :=
  match f.frType with
  | .fill => f.frOffset * f.frVar
  | .align | .alignCode | .alignTest => f.alignPad (f.frAddress + f.frFix)
  | .leb128 => f.frOffset
  | .org | .space => 0

/-- The next frag begins where this one ends. -/
def Placed (f next : Frag σ) : Prop :=
  f.frType.floats = false → next.frAddress = f.frAddress + f.frFix + f.room

/-- What the source promises of a frag that it hands to relaxation: counts are not negative, and
an alignment is below the width of an address. -/
structure Frag.Valid (f : Frag σ) : Prop where
  var : 0 ≤ f.frVar.toInt
  count : f.frType = .fill → 0 ≤ f.frOffset.toInt
  limit : f.frType.isAlign = true → f.frOffset.toNat < 32

/-- What one frag becomes in a pass, whatever its kind: `f` has its new address, `was` is the one
before, and a new frag takes its share of the growth. -/
structure Relaxed (stretch was : Vma) (f : Frag σ) (g : Grown σ) : Prop where
  same : ∃ o s, g.frag = { f with frOffset := o, frSymbol := s } ∧
    (f.frType ≠ .leb128 → o = f.frOffset)
  growth : f.frType.floats = false →
    g.growth = g.frag.room - { f with frAddress := was }.room +
      (g.newf.map fun n => n.frOffset * n.frVar).getD 0
  newf : ∀ n ∈ g.newf, f.frType.isAlign = true ∧
    n = { paddingFrag f 0 with frAddress := f.frAddress + f.frFix + f.room - (stretch + g.growth) }

theorem room_of_isAlign (hf : f.frType.isAlign = true) :
    f.room = f.alignPad (f.frAddress + f.frFix) := by
  cases ht : f.frType <;> simp [Frag.room, ht] <;> simp [ht, RsType.isAlign] at hf

theorem relaxAlignFrag_relaxed (hf : f.frType.isAlign = true) :
    Relaxed stretch was f (relaxAlignFrag fudge stretch was f) := by
  have hwas : { f with frAddress := was }.room = f.alignPad (was + f.frFix) := room_of_isAlign hf
  unfold relaxAlignFrag
  refine iteInduction (motive := Relaxed stretch was f) (fun _ => ?_) fun _ => ?_
  · refine ⟨⟨_, _, rfl, fun _ => rfl⟩, fun _ => ?_, ?_⟩
    · simp [room_of_isAlign hf, hwas]
    · simp [room_of_isAlign hf, hf, paddingFrag]
  · exact ⟨⟨_, _, rfl, fun _ => rfl⟩, fun _ => by simp [room_of_isAlign hf, hwas], by simp⟩

theorem relaxed_still (hr : f.frType = .fill ∨ f.frType.floats = true) {s : Option σ}
    {growth : Vma} (hg : f.frType = .fill → growth = 0) :
    Relaxed stretch was f ⟨{ f with frSymbol := s }, none, growth, ret, msgs⟩ := by
  refine ⟨⟨_, _, rfl, fun _ => rfl⟩, fun hn => ?_, by simp⟩
  have hf : f.frType = .fill := hr.resolve_right (by simp [hn])
  simp [Frag.room, hf, hg hf]

/-- An `.org` that is not in error waits for another round or grows to its target. -/
theorem relaxFrag_org (ht : f.frType = .org)
    (h : relaxFrag env lay pass fudge stretch was f next = some g) (hm : NoBad g.msgs) :
    ∃ nx growth, next = some nx ∧ g = ⟨f, none, growth, g.ret, []⟩ ∧
      (g.ret = false → growth = f.orgTarget env lay - (nx.frAddress + stretch)) := by
  simp only [relaxFrag, ht, Option.bind_eq_bind, Option.bind_eq_some_iff] at h
  obtain ⟨nx, hnx, h⟩ := h
  split_ifs at h with hback hpass <;> obtain rfl := Option.some.inj h
  · exact ⟨nx, 0, hnx, rfl, by simp⟩
  · exact absurd hm noBad_bad
  · exact ⟨nx, _, hnx, rfl, fun _ => rfl⟩

theorem relaxFrag_space (ht : f.frType = .space)
    (h : relaxFrag env lay pass fudge stretch was f next = some g) :
    ∃ s, g = ⟨{ f with frSymbol := s }, none, g.growth, g.ret, g.msgs⟩ := by
  simp only [relaxFrag, ht] at h
  split at h
  · obtain rfl := Option.some.inj h
    exact ⟨_, rfl⟩
  · split_ifs at h with habs hneg hpass
    · obtain rfl := Option.some.inj h
      exact ⟨_, rfl⟩
    · obtain rfl := Option.some.inj h
      exact ⟨none, by rw [ht]⟩
    · obtain ⟨nx, -, h⟩ := Option.bind_eq_some_iff.mp h
      obtain rfl := Option.some.inj h
      exact ⟨_, rfl⟩
    · obtain rfl := Option.some.inj h
      exact ⟨none, by rw [ht]⟩

theorem relaxFrag_leb128 (ht : f.frType = .leb128)
    (h : relaxFrag env lay pass fudge stretch was f next = some g) :
    ∃ s, f.frSymbol = some s ∧
      g = ⟨{ f with frOffset := f.leb128Size env lay s }, none,
        f.leb128Size env lay s - f.frOffset, false, []⟩ := by
  simp only [relaxFrag, ht, Option.bind_eq_bind, Option.bind_eq_some_iff] at h
  obtain ⟨s, hs, h⟩ := h
  rw [ht]
  exact ⟨s, hs, (Option.some.inj h).symm⟩

theorem relaxFrag_of_isAlign (hf : f.frType.isAlign = true) :
    relaxFrag env lay pass fudge stretch was f next = some (relaxAlignFrag fudge stretch was f) := by
  cases ht : f.frType <;> simp [relaxFrag, ht] <;> simp [ht, RsType.isAlign] at hf

/-- One case for each kind of frag. -/
theorem relaxFrag_relaxed (h : relaxFrag env lay pass fudge stretch was f next = some g)
    (hm : NoBad g.msgs) : Relaxed stretch was f g := by
  by_cases hf : f.frType.isAlign = true
  · obtain rfl := Option.some.inj ((relaxFrag_of_isAlign hf).symm.trans h)
    exact relaxAlignFrag_relaxed hf
  cases ht : f.frType with
  | align | alignCode | alignTest => simp [ht, RsType.isAlign] at hf
  | fill =>
    simp only [relaxFrag, ht, Option.some.injEq] at h
    subst h
    exact relaxed_still (.inl ht) fun _ => rfl
  | org =>
    obtain ⟨nx, growth, -, hg, -⟩ := relaxFrag_org ht h hm
    rw [hg]
    exact relaxed_still (.inr (by simp [ht, RsType.floats])) (by simp [ht])
  | space =>
    obtain ⟨s, hg⟩ := relaxFrag_space ht h
    rw [hg]
    exact relaxed_still (.inr (by simp [ht, RsType.floats])) (by simp [ht])
  | leb128 =>
    obtain ⟨s, -, rfl⟩ := relaxFrag_leb128 ht h
    exact ⟨⟨_, _, rfl, by simp [ht]⟩, fun _ => by simp [Frag.room, ht], by simp⟩

/-! One pass. -/

@[simp] theorem grow_stretch {t : RsType} {growth : Vma} :
    (st.grow t growth ret).stretch = st.stretch + growth := by
  by_cases h : growth = 0
  · simp [PassState.grow, h]
  · rw [PassState.grow, if_pos h]

@[simp] theorem grow_stretched {t : RsType} {growth : Vma} :
    (st.grow t growth ret).stretched = (st.stretched || growth != 0) := by
  by_cases h : growth = 0
  · simp [PassState.grow, h]
  · rw [PassState.grow, if_pos h, bne_iff_ne.mpr h, Bool.or_true]

@[simp] theorem grow_ret {t : RsType} {growth : Vma} :
    (st.grow t growth ret).ret = (st.ret || ret) := by
  unfold PassState.grow
  split_ifs <;> rfl

theorem relaxFrags_cons {rest : List (Frag σ)}
    (h : relaxFrags env ctx pass done st (f :: rest) = some (chain', st', msgs)) :
    ∃ g rest' msgs', relaxFrag env (ctx (lookupAddr (done ++ f.moveBy st.stretch :: rest))) pass
        st.fudge st.stretch f.frAddress (f.moveBy st.stretch) rest.head? = some g ∧
      relaxFrags env ctx pass (done ++ g.moved (st.stretch + g.growth))
        (st.grow g.frag.frType g.growth g.ret) rest = some (rest', st', msgs') ∧
      chain' = g.moved (st.stretch + g.growth) ++ rest' ∧ msgs = g.msgs ++ msgs' := by
  simp only [relaxFrags, Option.bind_eq_bind, Option.bind_eq_some_iff, Prod.exists,
    Option.pure_def, Option.some.injEq, Prod.mk.injEq, grow_stretch] at h
  obtain ⟨g, hg, rest', st'', msgs', hr, rfl, rfl, rfl⟩ := h
  exact ⟨g, rest', msgs', hg, hr, rfl, rfl⟩

/-- The first frag of a pass only moves. -/
theorem relaxFrags_head (h : relaxFrags env ctx pass done st chain = some (chain', st', msgs))
    (hm : NoBad msgs) :
    chain'.head?.map Frag.frAddress = chain.head?.map (·.frAddress + st.stretch) := by
  cases chain with
  | nil =>
    simp only [relaxFrags, Option.some.injEq, Prod.mk.injEq] at h
    simp [← h.1]
  | cons f rest =>
    obtain ⟨g, rest', msgs', hg, -, rfl, rfl⟩ := relaxFrags_cons h
    obtain ⟨o, s, hs, -⟩ := (relaxFrag_relaxed hg (noBad_append.mp hm).1).same
    simp [Grown.moved, hs, Frag.moveBy]

/-- The frags that take the place of one end where the next frag is moved to. -/
theorem Relaxed.isChain (hg : Relaxed stretch f.frAddress (f.moveBy stretch) g)
    (hn : ∀ nx ∈ chain.head?, f.frType.floats = false →
      nx.frAddress = f.frAddress + f.frFix + f.room + (stretch + g.growth))
    (hc : chain.IsChain Placed) : (g.moved (stretch + g.growth) ++ chain).IsChain Placed := by
  obtain ⟨⟨o, s, hs, ho⟩, hgrowth, hnew⟩ := hg
  have hfloats : g.frag.frType.floats = f.frType.floats := by rw [hs]; rfl
  have hend : g.frag.frAddress + g.frag.frFix = f.frAddress + stretch + f.frFix := by rw [hs]; rfl
  have hwas : { f.moveBy stretch with frAddress := f.frAddress }.room = f.room := rfl
  change f.frType.floats = false → _ at hgrowth
  rw [hwas] at hgrowth
  cases hw : g.newf with
  | none =>
    simp only [Grown.moved, hw, Option.map_none, Option.toList_none, List.cons_append,
      List.nil_append, List.isChain_cons]
    refine ⟨fun nx hnx hf => ?_, hc⟩
    rw [hn nx hnx (hfloats ▸ hf), hgrowth (hfloats ▸ hf), hend, hw]
    simp only [Option.map_none, Option.getD_none]
    ring
  | some n =>
    obtain ⟨hal, hn'⟩ := hnew n hw
    obtain ⟨-, -, hleb, hf⟩ := RsType.ne_of_isAlign hal
    have hroom : g.frag.room = (f.moveBy stretch).room := by
      rw [hs, ho hleb]
      rfl
    have hna : (n.moveBy (stretch + g.growth)).frAddress =
        g.frag.frAddress + g.frag.frFix + g.frag.room := by
      rw [hend, hroom, hn']
      simp only [Frag.moveBy]
      ring
    have hnr : (n.moveBy (stretch + g.growth)).frFix + (n.moveBy (stretch + g.growth)).room =
        n.frOffset * n.frVar := by
      rw [hn']
      simp [Frag.moveBy, Frag.room, paddingFrag]
    simp only [Grown.moved, hw, Option.map_some, Option.toList_some, List.cons_append,
      List.nil_append]
    refine List.isChain_cons_cons.mpr ⟨fun _ => hna, List.isChain_cons.mpr ⟨fun nx hnx _ => ?_, hc⟩⟩
    rw [hn nx hnx hf, add_assoc (n.moveBy _).frAddress, hnr, hna, hgrowth hf, hend, hw]
    simp only [Option.map_some, Option.getD_some]
    ring

/-- A pass keeps every frag where the one before it ends. -/
theorem relaxFrags_placed (h : relaxFrags env ctx pass done st chain = some (chain', st', msgs))
    (hm : NoBad msgs) (hp : chain.IsChain Placed) : chain'.IsChain Placed := by
  induction chain generalizing done st chain' msgs with
  | nil =>
    simp only [relaxFrags, Option.some.injEq, Prod.mk.injEq] at h
    simp [← h.1]
  | cons f rest ih =>
    obtain ⟨g, rest', msgs', hg, hr, rfl, rfl⟩ := relaxFrags_cons h
    obtain ⟨hmg, hmr⟩ := noBad_append.mp hm
    refine (relaxFrag_relaxed hg hmg).isChain (fun nx hnx hf => ?_) (ih hr hmr hp.tail)
    -- the rest of the pass moves the next frag by the stretch behind this one
    have hhead := relaxFrags_head hr hmr
    rw [Option.mem_def.mp hnx] at hhead
    cases rest with
    | nil => simp at hhead
    | cons r rest =>
      simp only [Option.map_some, List.head?_cons, Option.some.injEq, grow_stretch] at hhead
      rw [hhead, (List.isChain_cons_cons.mp hp).1 hf]

/-! What a pass leaves of the frags themselves. -/

/-- A frag that puts nothing behind its fixed part: the last one of a chain. -/
def Frag.Closes (f : Frag σ) : Prop := f.frType = .fill ∧ f.frOffset = 0

/-- The address that the last call of `relax_segment` gave to a frag. -/
def lookupLast (chain : List (Frag σ)) (id : Nat) : Option Vma :=
  (chain.find? (·.id == id)).map Frag.lastFrAddress

theorem sdiv_nonneg {x y : Vma} (hx : 0 ≤ x.toInt) (hy : 0 ≤ y.toInt) :
    0 ≤ (x.sdiv y).toInt := by
  have hxm : x.msb = false := by simpa [BitVec.msb_eq_toInt] using hx
  have hym : y.msb = false := by simpa [BitVec.msb_eq_toInt] using hy
  rw [BitVec.sdiv_eq, hxm, hym]
  exact BitVec.toInt_nonneg_of_msb_false (by simp [hxm])

theorem toInt_one_shiftLeft {n : Nat} (hn : n < 32) : 0 ≤ ((1 : Vma) <<< n).toInt := by
  have hpow : 2 ^ n < 2 ^ 32 := Nat.pow_lt_pow_right (by decide) hn
  have hnat : ((1 : Vma) <<< n).toNat = 2 ^ n := BitVec.toNat_twoPow_of_lt (by omega)
  rw [BitVec.toInt_eq_toNat_of_lt (by omega), hnat]
  positivity

theorem paddingFrag_valid (address : Vma) (hf : f.Valid) (ha : f.frType.isAlign = true) :
    (paddingFrag f address).Valid := by
  have hsize := toInt_one_shiftLeft (hf.limit ha)
  refine ⟨?_, fun _ => ?_, by simp [paddingFrag, RsType.isAlign]⟩
  · simp only [paddingFrag]
    split_ifs
    · exact hf.var
    · decide
  · simp only [paddingFrag]
    split_ifs
    · exact sdiv_nonneg hsize hf.var
    · exact hsize

theorem Relaxed.valid (hg : Relaxed stretch was f g) (hf : f.Valid) :
    ∀ x ∈ g.moved (stretch + g.growth), x.Valid := by
  obtain ⟨⟨o, s, hs, ho⟩, -, hnew⟩ := hg
  intro x hx
  obtain rfl | hx := List.mem_cons.mp hx
  · rw [hs]
    refine ⟨hf.var, fun ht => ?_, fun ht => ?_⟩
    · exact ho (by simp_all) ▸ hf.count ht
    · exact ho (RsType.ne_of_isAlign ht).2.2.1 ▸ hf.limit ht
  · obtain ⟨n, hn, rfl⟩ := by simpa using hx
    obtain ⟨ha, rfl⟩ := hnew n hn
    have hp := paddingFrag_valid 0 hf ha
    exact ⟨hp.var, hp.count, hp.limit⟩

theorem relaxFrags_valid (h : relaxFrags env ctx pass done st chain = some (chain', st', msgs))
    (hm : NoBad msgs) (hv : ∀ f ∈ chain, f.Valid) : ∀ f ∈ chain', f.Valid := by
  induction chain generalizing done st chain' msgs with
  | nil =>
    simp only [relaxFrags, Option.some.injEq, Prod.mk.injEq] at h
    simp [← h.1]
  | cons f rest ih =>
    obtain ⟨g, rest', msgs', hg, hr, rfl, rfl⟩ := relaxFrags_cons h
    obtain ⟨hmg, hmr⟩ := noBad_append.mp hm
    obtain ⟨hf, hrest⟩ := List.forall_mem_cons.mp hv
    have hf' : (f.moveBy st.stretch).Valid := ⟨hf.var, hf.count, hf.limit⟩
    intro x hx
    obtain hx | hx := List.mem_append.mp hx
    · exact (relaxFrag_relaxed hg hmg).valid hf' x hx
    · exact ih hr hmr hrest x hx

theorem relaxFrags_lookupLast
    (h : relaxFrags env ctx pass done st chain = some (chain', st', msgs)) (hm : NoBad msgs) :
    lookupLast chain' = lookupLast chain := by
  induction chain generalizing done st chain' msgs with
  | nil =>
    simp only [relaxFrags, Option.some.injEq, Prod.mk.injEq] at h
    rw [← h.1]
  | cons f rest ih =>
    obtain ⟨g, rest', msgs', hg, hr, rfl, rfl⟩ := relaxFrags_cons h
    obtain ⟨hmg, hmr⟩ := noBad_append.mp hm
    obtain ⟨⟨o, s, hs, -⟩, -, hnew⟩ := relaxFrag_relaxed hg hmg
    funext id
    have hrest := congrFun (ih hr hmr) id
    by_cases hid : f.id = id
    · simp [lookupLast, Grown.moved, hs, hid, Frag.moveBy]
    · -- the new frag has the number of its original, so it is not found either
      have hn : (g.newf.map (·.moveBy (st.stretch + g.growth))).toList.find? (·.id == id) = none := by
        simp only [List.find?_eq_none, Option.mem_toList]
        intro x hx
        obtain ⟨n, hn, rfl⟩ := Option.map_eq_some_iff.mp hx
        obtain ⟨-, rfl⟩ := hnew n hn
        simpa [Frag.moveBy, paddingFrag] using hid
      have hg' : g.frag.id ≠ id := by rw [hs]; exact hid
      simpa [lookupLast, Grown.moved, hg', hid, hn] using hrest

theorem relaxFrags_closes
    (h : relaxFrags env ctx pass done st chain = some (chain', st', msgs)) (hm : NoBad msgs)
    (hc : ∃ f ∈ chain.getLast?, f.Closes) : ∃ f ∈ chain'.getLast?, f.Closes := by
  induction chain generalizing done st chain' msgs with
  | nil => simp at hc
  | cons f rest ih =>
    obtain ⟨g, rest', msgs', hg, hr, rfl, rfl⟩ := relaxFrags_cons h
    obtain ⟨hmg, hmr⟩ := noBad_append.mp hm
    cases rest with
    | nil =>
      obtain ⟨ht, ho⟩ : f.Closes := by simpa using hc
      simp only [relaxFrags, Option.some.injEq, Prod.mk.injEq] at hr
      simp only [relaxFrag, Frag.moveBy, ht, Option.some.injEq] at hg
      simp [← hr.1, ← hg, Grown.moved, Frag.Closes, ho]
    | cons r rest =>
      obtain ⟨l, hl, hcl⟩ := ih hr hmr (by simpa using hc)
      exact ⟨l, by simp [List.getLast?_append, Option.mem_def.mp hl], hcl⟩

/-! The first guess. -/

theorem guessFrag_room {size : Vma} {f' : Frag σ}
    (h : guessFrag f (f.frAddress + f.frFix) = some (f', size, msgs)) (hm : NoBad msgs) :
    ∃ o, f' = { f with frOffset := o } ∧ (f.frType ≠ .leb128 → o = f.frOffset) ∧
      (f.frType.floats = false → size = f'.room) := by
  cases ht : f.frType with
  | fill | org | space =>
    simp only [guessFrag, ht, Option.some.injEq, Prod.mk.injEq] at h
    obtain ⟨rfl, rfl, rfl⟩ := h
    exact ⟨f.frOffset, by rw [← ht], fun _ => rfl, by simp [Frag.room, ht, RsType.floats]⟩
  | align | alignCode | alignTest =>
    simp only [guessFrag, ht] at h
    split_ifs at h with hvar hmod
    · simp only [Option.some.injEq, Prod.mk.injEq] at h
      exact absurd (h.2.2 ▸ hm) noBad_bad
    · simp only [Option.some.injEq, Prod.mk.injEq] at h
      obtain ⟨rfl, rfl, rfl⟩ := h
      exact ⟨f.frOffset, by rw [← ht], fun _ => rfl, by simp [Frag.room, ht]⟩
  | leb128 =>
    simp only [guessFrag, ht, Option.some.injEq, Prod.mk.injEq] at h
    obtain ⟨rfl, rfl, rfl⟩ := h
    exact ⟨1, rfl, by simp, by simp [Frag.room]⟩

theorem guessAddresses_cons {rest : List (Frag σ)}
    (h : guessAddresses address (f :: rest) = some (chain', msgs)) (hm : NoBad msgs) :
    ∃ o size rest' msgs', let f' := { f with frAddress := address, frOffset := o }
      (f.frType ≠ .leb128 → o = f.frOffset) ∧ (f.frType.floats = false → size = f'.room) ∧
      guessAddresses (address + f.frFix + size) rest = some (rest', msgs') ∧ NoBad msgs' ∧
      chain' = f' :: rest' := by
  obtain ⟨⟨f', size, msgs'⟩, hf, h⟩ := Option.bind_eq_some_iff.mp h
  obtain ⟨⟨rest', msgs''⟩, hr, h⟩ := Option.bind_eq_some_iff.mp h
  cases h
  obtain ⟨hm', hm''⟩ := noBad_append.mp hm
  obtain ⟨o, rfl, ho, hs⟩ := guessFrag_room hf hm'
  exact ⟨o, size, rest', msgs'', ho, hs, hr, hm'', rfl⟩

theorem guessAddresses_nil (h : guessAddresses address ([] : List (Frag σ)) = some (chain', msgs)) :
    chain' = [] := by
  cases h
  rfl

theorem guessAddresses_head (h : guessAddresses address chain = some (chain', msgs))
    (hm : NoBad msgs) : ∀ f ∈ chain'.head?, f.frAddress = address := by
  cases chain with
  | nil =>
    simp [guessAddresses_nil h]
  | cons f rest =>
    obtain ⟨o, size, rest', msgs', -, -, -, -, rfl⟩ := guessAddresses_cons h hm
    simp

theorem guessAddresses_placed (h : guessAddresses address chain = some (chain', msgs))
    (hm : NoBad msgs) : chain'.IsChain Placed := by
  induction chain generalizing address chain' msgs with
  | nil =>
    simp [guessAddresses_nil h]
  | cons f rest ih =>
    obtain ⟨o, size, rest', msgs', -, hs, hr, hm', rfl⟩ := guessAddresses_cons h hm
    refine List.isChain_cons.mpr ⟨fun nx hnx hf => ?_, ih hr hm'⟩
    rw [guessAddresses_head hr hm' nx hnx, hs hf]

theorem guessAddresses_valid (h : guessAddresses address chain = some (chain', msgs))
    (hm : NoBad msgs) (hv : ∀ f ∈ chain, f.Valid) : ∀ f ∈ chain', f.Valid := by
  induction chain generalizing address chain' msgs with
  | nil =>
    simp [guessAddresses_nil h]
  | cons f rest ih =>
    obtain ⟨o, size, rest', msgs', ho, -, hr, hm', rfl⟩ := guessAddresses_cons h hm
    obtain ⟨hf, hrest⟩ := List.forall_mem_cons.mp hv
    refine List.forall_mem_cons.mpr ⟨⟨hf.var, fun ht => ?_, fun ht => ?_⟩, ih hr hm' hrest⟩
    · exact ho (by simp_all) ▸ hf.count ht
    · exact ho (RsType.ne_of_isAlign ht).2.2.1 ▸ hf.limit ht

theorem guessAddresses_lookupLast (h : guessAddresses address chain = some (chain', msgs))
    (hm : NoBad msgs) : lookupLast chain' = lookupLast chain := by
  induction chain generalizing address chain' msgs with
  | nil =>
    rw [guessAddresses_nil h]
  | cons f rest ih =>
    obtain ⟨o, size, rest', msgs', -, -, hr, hm', rfl⟩ := guessAddresses_cons h hm
    funext id
    have hrest := congrFun (ih hr hm') id
    by_cases hid : f.id = id
    · simp [lookupLast, hid]
    · simpa [lookupLast, hid] using hrest

theorem guessAddresses_closes (h : guessAddresses address chain = some (chain', msgs))
    (hm : NoBad msgs) (hc : ∃ f ∈ chain.getLast?, f.Closes) : ∃ f ∈ chain'.getLast?, f.Closes := by
  induction chain generalizing address chain' msgs with
  | nil => simp at hc
  | cons f rest ih =>
    obtain ⟨o, size, rest', msgs', ho, -, hr, hm', rfl⟩ := guessAddresses_cons h hm
    cases rest with
    | nil =>
      obtain ⟨ht, hz⟩ : f.Closes := by simpa using hc
      simp [guessAddresses_nil hr, Frag.Closes, ht, ho (by simp [ht]), hz]
    | cons r rest =>
      obtain ⟨l, hl, hcl⟩ := ih hr hm' (by simpa using hc)
      exact ⟨l, by simp [List.getLast?_cons, Option.mem_def.mp hl], hcl⟩

end FusionBinutils.Gas
