import FusionBinutils.Bfd.MergeLayout

/-! References into merged sections lead to the bytes they led to. -/
namespace FusionBinutils.Bfd.Merge

open Cells Aligned Blocks

variable {k : Kind} {tab tab' : Tab} {e a b x : Entry} {n i j sec : Nat} {st : Layout}

/-! What is written. -/

theorem padLen_two_pow (off : Nat) {t : Nat} (ht : t < 32) : padLen off (2 ^ t) = padTo off (2 ^ t) := by
  have hdvd : 2 ^ t ∣ 2 ^ 64 := Nat.pow_dvd_pow 2 (by omega)
  obtain ⟨c, hc⟩ := hdvd
  have hpos := Nat.two_pow_pos t
  unfold padLen padTo
  rw [Nat.and_two_pow_sub_one_eq_mod]
  have hmod : off % 2 ^ 64 % 2 ^ t = off % 2 ^ t := Nat.mod_mod_of_dvd off ⟨c, hc⟩
  have hlt : off % 2 ^ 64 < 2 ^ 64 := Nat.mod_lt off (by decide)
  have hdiv := Nat.div_add_mod (off % 2 ^ 64) (2 ^ t)
  have hq : off % 2 ^ 64 / 2 ^ t < c := by
    rw [Nat.div_lt_iff_lt_mul hpos, Nat.mul_comm, ← hc]
    exact hlt
  have hr := Nat.mod_lt off hpos
  have hsum : 2 ^ 64 - off % 2 ^ 64
      = 2 ^ t - off % 2 ^ t + 2 ^ t * (c - 1 - off % 2 ^ 64 / 2 ^ t) := by
    obtain ⟨d, hd⟩ := Nat.exists_eq_add_of_lt hq
    rw [hmod] at hdiv
    have hmul : 2 ^ t * c = 2 ^ t * (off % 2 ^ 64 / 2 ^ t) + 2 ^ t * d + 2 ^ t := by
      rw [hd]
      ring
    have hdd : c - 1 - off % 2 ^ 64 / 2 ^ t = d := by omega
    rw [hdd]
    omega
  rw [hsum, Nat.add_mul_mod_self_left]

/-- The loop of `sec_merge_emit` writes the blocks with their padding. -/
theorem emitEntries_eq (off : Nat) {l : List Entry} (h : ∀ e ∈ l, Live k e) :
    emitEntries off l =
      (Aligned.emit Entry.alignment Entry.bytes 0 off l, ends Entry.alignment Entry.bytes off l) := by
  induction l generalizing off with
  | nil => rfl
  | cons e l ih =>
    have hl := h e (by simp)
    obtain ⟨t, ht, hal⟩ := hl.aligned
    have hlen : e.len = e.bytes.length := by
      rw [hl.bytes_eq, hl.len]
    have htake : e.string.take e.bytes.length = e.bytes := by
      rw [hl.bytes_eq, List.take_length]
    rw [emitEntries, ih _ fun x hx => h x (by simp [hx])]
    simp only [hal, padLen_two_pow off ht, hlen, htake, Aligned.emit, ends, List.foldl_cons, place]

/-- The entries of the positions that a filter leaves. -/
theorem filterMap_filter_range' {α : Type*} {p : α → Bool} {l l' : List α}
    (h : ∀ (i : Nat) x, l[i]? = some x → p x = true → l'[i]? = some x) (s n : Nat) :
    ((List.range' s n).filter fun i => (l[i]?.map p).getD false).filterMap (l'[·]?)
      = ((l.drop s).take n).filter p := by
  induction n generalizing s with
  | zero => simp
  | succ n ih =>
    rw [List.range'_succ, List.filter_cons]
    cases hs : l[s]? with
    | none =>
      have hle : l.length ≤ s := List.getElem?_eq_none_iff.mp hs
      have hrest := ih (s + 1)
      rw [List.drop_eq_nil_of_le (by omega)] at hrest
      rw [List.drop_eq_nil_of_le hle]
      simpa using hrest
    | some x =>
      obtain ⟨hlt, hx⟩ := List.getElem?_eq_some_iff.mp hs
      rw [List.drop_eq_getElem_cons hlt, hx, List.take_succ_cons, List.filter_cons, ← ih (s + 1)]
      simp only [Option.map_some, Option.getD_some]
      split
      · next hp => rw [List.filterMap_cons, h s x hs hp]
      · rfl

/-- In a sorted list the elements of the least key come first. -/
theorem takeWhile_eq_filter {α : Type*} {key : α → Nat} {l : List α} {m : Nat}
    (hsorted : l.Pairwise fun a b => key a ≤ key b) (hle : ∀ x ∈ l, m ≤ key x) :
    l.takeWhile (fun x => key x == m) = l.filter fun x => key x == m := by
  induction l with
  | nil => rfl
  | cons x l ih =>
    obtain ⟨hhead, hsorted⟩ := List.pairwise_cons.mp hsorted
    rw [List.takeWhile_cons, List.filter_cons]
    split
    · rw [ih hsorted fun y hy => hle y (by simp [hy])]
    · next hne =>
      refine (List.filter_eq_nil_iff.mpr fun y hy => ?_).symm
      have hxm := hle x (by simp)
      have hxy := hhead y hy
      simp only [beq_iff_eq] at hne ⊢
      omega

/-- Where the entries `out` were put, and what became of them. -/
structure Placed (k : Kind) (out : Tab) (mg : Merged) : Prop where
  first : ∀ i, mg.firstStr i = out.findIdx? (Entry.keptIn i)
  fits : ∀ i, block i out ≠ [] → blockEnd i out ≤ mg.secSize i
  placed : ∀ (n : Nat) e, out[n]? = some e → e.alignment ≠ 0 → e.u = .index (slot (out.take n) e)
  sorted : out.Pairwise fun a b => a.secinfo ≤ b.secinfo
  chain : mg.chain = keptChain out
  kept : ∀ (n : Nat) e, out[n]? = some e → e.alignment ≠ 0 → Live k e ∧ mg.tab[n]? = some e

theorem Placed.chainFrom {out : Tab} {mg : Merged} {f : Nat} (h : Placed k out mg)
    (he : out[f]? = some e) (hal : e.alignment ≠ 0) :
    mg.chainFrom f = (out.drop f).filter fun x => x.alignment != 0 := by
  obtain ⟨hlt, -⟩ := List.getElem?_eq_some_iff.mp he
  have hsplit : List.range out.length = List.range' 0 f ++ List.range' f (out.length - f) := by
    rw [List.range_eq_range', ← Nat.add_sub_cancel' (Nat.le_of_lt hlt), ← List.range'_append_1,
      Nat.zero_add, Nat.add_sub_cancel_left]
  have hcons : List.range' f (out.length - f) = f :: List.range' (f + 1) (out.length - f - 1) := by
    obtain ⟨d, hd⟩ := Nat.exists_eq_add_of_lt hlt
    rw [hd, show f + d + 1 - f = d + 1 by omega, List.range'_succ, Nat.add_sub_cancel]
  have hdrop : (keptChain out).dropWhile (· ≠ f) = (List.range' f (out.length - f)).filter
      fun i => (out[i]?.map fun x => x.alignment != 0).getD false := by
    rw [keptChain, hsplit, List.filter_append, List.dropWhile_append_of_pos, hcons,
      List.filter_cons_of_pos]
    · simp
    · simp [he, hal]
    · intro i hi
      have := (List.mem_range'_1.mp (List.mem_filter.mp hi).1).2
      simp only [ne_eq, decide_eq_true_eq]
      omega
  have hmem : ∀ (i : Nat) x, out[i]? = some x → (x.alignment != 0) = true →
      mg.tab[i]? = some x := by
    intro i x hx hp
    exact (h.kept i x hx (by simpa using hp)).2
  rw [Merged.chainFrom, h.chain, hdrop, filterMap_filter_range' hmem,
    List.take_of_length_le (by simp)]

theorem Placed.emitted {out : Tab} {mg : Merged} {f : Nat} (h : Placed k out mg)
    (hf : mg.firstStr i = some f) :
    (mg.chainFrom f).takeWhile (fun e => e.secinfo == i) = block i out := by
  rw [h.first] at hf
  obtain ⟨hlt, hp, hbefore⟩ := List.findIdx?_eq_some_iff_getElem.mp hf
  simp only [Entry.keptIn, Bool.and_eq_true, bne_iff_ne, beq_iff_eq] at hp
  have hsorted : (out.drop f).Pairwise fun a b => a.secinfo ≤ b.secinfo :=
    h.sorted.sublist (List.drop_sublist f out)
  have hge : ∀ x ∈ out.drop f, i ≤ x.secinfo := by
    rw [List.drop_eq_getElem_cons hlt] at hsorted ⊢
    intro x hx
    rcases List.mem_cons.mp hx with rfl | hx
    · exact Nat.le_of_eq hp.2.symm
    · exact hp.2 ▸ (List.pairwise_cons.mp hsorted).1 x hx
  have hnil : block i (out.take f) = [] := by
    rw [block, List.filter_eq_nil_iff]
    intro x hx
    obtain ⟨j, hj, rfl⟩ := List.getElem_of_mem hx
    rw [List.length_take] at hj
    rw [List.getElem_take]
    exact hbefore j (by omega)
  rw [h.chainFrom (List.getElem?_eq_getElem hlt) hp.1,
    takeWhile_eq_filter (hsorted.sublist List.filter_sublist)
      fun x hx => hge x (List.mem_filter.mp hx).1, List.filter_filter]
  calc (out.drop f).filter (fun x => x.secinfo == i && x.alignment != 0)
      = block i (out.drop f) := by
        refine List.filter_congr fun x _ => ?_
        rw [Entry.keptIn, Bool.and_comm]
    _ = block i (out.take f) ++ block i (out.drop f) := by rw [hnil, List.nil_append]
    _ = block i out := by rw [block, block, ← List.filter_append, List.take_append_drop, block]

theorem Placed.live_block {out : Tab} {mg : Merged} (h : Placed k out mg) :
    ∀ x ∈ block i out, Live k x := by
  intro x hx
  obtain ⟨hmem, hp⟩ := List.mem_filter.mp hx
  obtain ⟨n, hn⟩ := List.getElem?_of_mem hmem
  simp only [Entry.keptIn, Bool.and_eq_true, bne_iff_ne] at hp
  exact (h.kept n x hn hp.1).1

theorem Placed.emit_eq {out : Tab} {mg : Merged} (h : Placed k out mg)
    (hne : mg.firstStr i ≠ none) :
    mg.emit i = Aligned.emit Entry.alignment Entry.bytes 0 0 (block i out)
      ++ List.replicate (mg.secSize i - blockEnd i out) 0 := by
  obtain ⟨f, hf⟩ := Option.ne_none_iff_exists'.mp hne
  rw [Merged.emit, hf]
  simp only [h.emitted hf, emitEntries_eq 0 h.live_block]
  rfl

/-- As many bytes are written as the section has. -/
theorem Placed.emit_length {out : Tab} {mg : Merged} (h : Placed k out mg)
    (hne : mg.firstStr i ≠ none) : (mg.emit i).length = mg.secSize i := by
  have hblock : block i out ≠ [] := by
    obtain ⟨f, hf⟩ := Option.ne_none_iff_exists'.mp hne
    rw [h.first] at hf
    obtain ⟨hlt, hp, -⟩ := List.findIdx?_eq_some_iff_getElem.mp hf
    exact List.ne_nil_of_mem (List.mem_filter.mpr ⟨List.getElem_mem hlt, hp⟩)
  have hfits := h.fits i hblock
  have hlen := Aligned.emit_length Entry.alignment Entry.bytes 0 0 (block i out)
  rw [h.emit_eq hne, List.length_append, List.length_replicate]
  rw [← blockEnd] at hlen
  omega

/-- A string that is kept stands at its position. -/
theorem Placed.standsAt {out : Tab} {mg : Merged} (h : Placed k out mg) (he : out[n]? = some e)
    (hal : e.alignment ≠ 0) :
    ∃ pos, e.u = .index pos ∧ mg.firstStr e.secinfo ≠ none ∧
      StandsAt (mg.emit e.secinfo) pos e.string := by
  obtain ⟨hlt, heq⟩ := List.getElem?_eq_some_iff.mp he
  have hself : e.keptIn e.secinfo = true := by simp [Entry.keptIn, hal]
  have hne : mg.firstStr e.secinfo ≠ none := by
    rw [h.first]
    intro hnone
    rw [List.findIdx?_eq_none_iff] at hnone
    exact absurd (hnone e (List.mem_of_getElem? he)) (by simp [hself])
  have hsplit : block e.secinfo out
      = block e.secinfo (out.take n) ++ e :: block e.secinfo (out.drop (n + 1)) := by
    conv_lhs => rw [← List.take_append_drop n out, List.drop_eq_getElem_cons hlt, heq]
    rw [block, List.filter_append, List.filter_cons_of_pos hself]
    rfl
  refine ⟨_, h.placed n e he hal, hne, ?_⟩
  rw [h.emit_eq hne, hsplit, ← (h.kept n e he hal).1.bytes_eq]
  exact (standsAt_emit Entry.alignment Entry.bytes 0 _ _ e).append_right _

/-! The table after merging. -/

/-- A recorded string is still found, and where it is said to be. -/
structure Leads (k : Kind) (mg : Merged) (x e : Entry) : Prop where
  string : e.string = x.string
  len : e.len = x.len
  stands : Live k x → ∃ pos, e.u = .index pos ∧ mg.firstStr e.secinfo ≠ none ∧
    StandsAt (mg.emit e.secinfo) pos x.string

theorem lookup_leads {mg : Merged} (h : List.Forall₂ (Leads k mg) tab mg.tab)
    (str : List BfdByte) : lookup mg.tab str = lookup tab str := by
  unfold lookup
  generalize mg.tab = tab' at h
  induction h with
  | nil => rfl
  | cons hx _ ih => simp only [List.findIdx?_cons, hx.string, hx.len, ih]

theorem stored_fits {out : Tab} {size : Nat} (h : Laid out st) (hne : block i out ≠ [])
    (hle : st.size ≤ size) : blockEnd i out ≤ Function.update st.secSize st.secinfo size i := by
  by_cases hi : i = st.secinfo
  · subst hi
    rwa [Function.update_self, ← h.size hne]
  · rw [Function.update_of_ne hi, h.stored i hi hne]

theorem finish_fits {out : Tab} (h : Laid out st) (hne : block i out ≠ []) :
    blockEnd i out ≤ (k.finish st).secSize i := by
  have hle : st.size ≤ alignUp st.size (1 <<< k.alignmentPower) := by
    rw [Nat.one_shiftLeft, alignUp_two_pow]
    exact Nat.le_add_right _ _
  have haligned := stored_fits h hne hle
  unfold Kind.finish
  split
  · exact haligned
  · exact stored_fits h hne (Nat.le_refl _)

theorem finish_firstStr (st : Layout) : (k.finish st).firstStr = st.firstStr := by
  unfold Kind.finish
  split <;> rfl

theorem pairwise_secinfo {R : Entry → Entry → Prop} (h : List.Forall₂ R tab tab')
    (hR : ∀ x y, R x y → y.secinfo = x.secinfo)
    (hsorted : tab.Pairwise fun a b => a.secinfo ≤ b.secinfo) :
    tab'.Pairwise fun a b => a.secinfo ≤ b.secinfo := by
  have hmap : tab.map Entry.secinfo = tab'.map Entry.secinfo := by
    induction h with
    | nil => rfl
    | cons hx _ ih =>
      rw [List.map_cons, List.map_cons, ih (List.pairwise_cons.mp hsorted).2, hR _ _ hx]
  have hs := List.pairwise_map.mpr hsorted
  rw [hmap] at hs
  exact List.pairwise_map.mp hs

theorem Live.moved (h : Live k e) (hm : Moved e a) : Live k a := by
  have hlen : a.len = e.len := by rw [hm.eq]
  have hstring : a.string = e.string := by rw [hm.eq]
  have hal : a.alignment = e.alignment := by rw [hm.eq]
  refine ⟨?_, ?_, ?_⟩
  · rw [hlen, hstring, h.len]
  · rw [hlen]
    exact h.long
  · rw [hal]
    exact h.aligned

theorem Moved.string_eq (h : Moved e a) : a.string = e.string := by rw [h.eq]

theorem Moved.len_eq (h : Moved e a) : a.len = e.len := by rw [h.eq]

theorem Moved.alignment_eq (h : Moved e a) : a.alignment = e.alignment := by rw [h.eq]

/-- What becomes of a recorded entry `x` that is now `y`. -/
inductive Adjusted (k : Kind) (out : Tab) (x y : Entry) : Prop where
  | kept (live : Live k y) (moved : Moved x y) (run : adjust out y = some y)
  | deleted (dead : Dead x) (same : y = x) (run : adjust out y = some y)
  | shared (live : Live k x) (dropped : y.alignment = 0) (j : Nat) (s : Entry) (pos : Nat)
      (longer : out[j]? = some s) (kept : Live k s) (index : s.u = .index pos)
      (suffix : x.string <:+ s.string)
      (run : adjust out y = some { x with
        secinfo := s.secinfo, alignment := s.alignment, u := .index (pos + (s.len - x.len)) })

theorem adjusted {tab₁ out : Tab} {x₁ y : Entry} (hk : 0 < k.entsize)
    (hmoved : List.Forall₂ Moved tab₁ out)
    (hplaced : ∀ (n : Nat) e, out[n]? = some e → e.alignment ≠ 0 →
      e.u = .index (slot (out.take n) e))
    (hx : Live k x ∨ Dead x) (hs : Suffixed k tab₁ x x₁) (hm : Moved x₁ y) :
    Adjusted k out x y := by
  rcases hs with rfl | ⟨hl, j, a, rfl, hj, hla, hsuf⟩
  · rcases hx with hl | hd
    · have hly := hl.moved hm
      exact .kept hly hm (if_pos (.inl hly.alignment_pos))
    · have hyx := hm.same hd.2
      refine .deleted hd hyx (if_pos (.inr ?_))
      rw [hyx]
      exact hd.1
  · obtain ⟨s, hs, hms⟩ := getElem?_of_forall₂ hmoved hj
    have hls := hla.moved hms
    have hyx : y = x.share j := hm.same rfl
    refine .shared hl ?_ j s _ hs hls (hplaced j s hs hls.alignment_pos) ?_ ?_
    · rw [hyx]
      rfl
    · rwa [hms.string_eq]
    · have hlong := hl.long
      have hlen : x.len ≠ 0 := by omega
      simp only [adjust, hyx, Entry.share, ne_eq, not_true_eq_false, false_or, hlen, if_false, hs,
        Option.bind_eq_bind, Option.bind_some, hplaced j s hs hls.alignment_pos, hls.alignment_pos]

theorem Suffixed.secinfo_eq (h : Suffixed k tab x a) : a.secinfo = x.secinfo := by
  rcases h with rfl | ⟨-, j, b, rfl, -⟩
  · rfl
  · rfl

theorem Suffixed.live (hx : Live k x ∨ Dead x) (h : Suffixed k tab x a) :
    Live k a ∨ a.alignment = 0 := by
  rcases h with rfl | ⟨-, j, b, rfl, -⟩
  · exact hx.imp id fun hd => hd.2
  · exact .inr rfl

/-- Every entry of a table of strings has its string behind it, after the suffixes `tab₁`. -/
theorem leads_of_suffixed {tab₁ : Tab} (secs : List (List BfdByte)) (hk : 0 < k.entsize)
    (hok : TabOk k tab n) (hsuf : List.Forall₂ (Suffixed k tab₁) tab tab₁) :
    ∃ tab₂ out, (assign assignString (Layout.start secs tab₁) 0 tab₁).2 = out ∧
      out.mapM (adjust out) = some tab₂ ∧
      let st := k.finish (assign assignString (Layout.start secs tab₁) 0 tab₁).1
      let mg : Merged := ⟨tab₂, keptChain out, st.secSize, st.firstStr⟩
      Placed k out mg ∧ List.Forall₂ (Leads k mg) tab mg.tab := by
  have hsorted := pairwise_secinfo hsuf (fun _ _ h => h.secinfo_eq) hok.sorted
  have hback : ∀ (i : Nat) x₁, tab₁[i]? = some x₁ →
      ∃ x, tab[i]? = some x ∧ (Live k x ∨ Dead x) ∧ Suffixed k tab₁ x x₁ := by
    intro i x₁ hx₁
    have hflip : List.Forall₂ (flip (Suffixed k tab₁)) tab₁ tab := List.Forall₂.flip hsuf
    obtain ⟨x, hx, hr⟩ := getElem?_of_forall₂ hflip hx₁
    exact ⟨x, hx, hok.entry x (List.mem_of_getElem? hx), hr⟩
  have hlive : ∀ e ∈ tab₁, Live k e ∨ e.alignment = 0 := by
    intro e he
    obtain ⟨i, hi⟩ := List.getElem?_of_mem he
    obtain ⟨x, -, hx, hs⟩ := hback i e hi
    exact hs.live hx
  have hlaid := laid_strings secs hsorted hlive
  have hmoved := assign_moved (Layout.start secs tab₁) 0 tab₁
  generalize assign assignString (Layout.start secs tab₁) 0 tab₁ = r at hlaid hmoved
  obtain ⟨st, out⟩ := r
  simp only at hlaid hmoved ⊢
  have hcases : ∀ (i : Nat) x y, tab[i]? = some x → out[i]? = some y →
      Adjusted k out x y := by
    intro i x y hx hy
    obtain ⟨x₁, hx₁, hs⟩ := getElem?_of_forall₂ hsuf hx
    obtain ⟨y', hy', hm⟩ := getElem?_of_forall₂ hmoved hx₁
    rw [hy, Option.some.injEq] at hy'
    subst hy'
    exact adjusted hk hmoved hlaid.placed (hok.entry x (List.mem_of_getElem? hx)) hs hm
  have hlen : tab.length = out.length := hsuf.length_eq.trans hmoved.length_eq
  have hto : ∀ (i : Nat) y, out[i]? = some y → ∃ x, tab[i]? = some x := by
    intro i y hy
    obtain ⟨hlt, -⟩ := List.getElem?_eq_some_iff.mp hy
    exact ⟨_, List.getElem?_eq_getElem (hlen ▸ hlt)⟩
  obtain ⟨tab₂, hrun, hadj⟩ := mapM_some (f := adjust out) (l := out) (by
    intro y hy
    obtain ⟨i, hi⟩ := List.getElem?_of_mem hy
    obtain ⟨x, hx⟩ := hto i y hi
    cases hcases i x y hx hi with
    | kept live moved run => exact ⟨_, run⟩
    | deleted dead same run => exact ⟨_, run⟩
    | shared live dropped j s pos longer kept index suffix run => exact ⟨_, run⟩)
  refine ⟨tab₂, out, rfl, hrun, ?_⟩
  have hplaced : Placed k out
      ⟨tab₂, keptChain out, (k.finish st).secSize, (k.finish st).firstStr⟩ := by
    refine ⟨fun i => ?_, fun i hne => finish_fits hlaid hne, hlaid.placed, ?_, rfl, ?_⟩
    · rw [finish_firstStr]
      exact hlaid.first i
    · exact pairwise_secinfo hmoved (fun _ _ h => by rw [h.eq]) hsorted
    · intro i y hy hal
      obtain ⟨x, hx⟩ := hto i y hy
      obtain ⟨z, hz, hyz⟩ := getElem?_of_forall₂ hadj hy
      cases hcases i x y hx hy with
      | kept live moved run =>
        rw [run, Option.some.injEq] at hyz
        exact ⟨live, hyz ▸ hz⟩
      | deleted dead same run =>
        subst same
        exact absurd dead.2 hal
      | shared live dropped j s pos longer kept index suffix run => exact absurd dropped hal
  refine ⟨hplaced, forall₂_of_getElem? (hlen.trans hadj.length_eq) fun i x hx => ?_⟩
  obtain ⟨x₁, hx₁, -⟩ := getElem?_of_forall₂ hsuf hx
  obtain ⟨y, hy, -⟩ := getElem?_of_forall₂ hmoved hx₁
  obtain ⟨z, hz, hyz⟩ := getElem?_of_forall₂ hadj hy
  refine ⟨z, hz, ?_⟩
  cases hcases i x y hx hy with
  | kept live moved run =>
    rw [run, Option.some.injEq] at hyz
    subst hyz
    refine ⟨moved.string_eq, moved.len_eq, fun _ => ?_⟩
    rw [← moved.string_eq]
    exact hplaced.standsAt hy live.alignment_pos
  | deleted dead same run =>
    rw [run, Option.some.injEq] at hyz
    subst hyz same
    exact ⟨rfl, rfl, fun hl => absurd dead (not_dead_of_live hk hl)⟩
  | shared live dropped j s pos longer kept index suffix run =>
    rw [run, Option.some.injEq] at hyz
    subst hyz
    obtain ⟨pos', hpos', hne, hstands⟩ := hplaced.standsAt longer kept.alignment_pos
    rw [index, EntryU.index.injEq] at hpos'
    subst hpos'
    refine ⟨rfl, rfl, fun _ => ⟨_, rfl, hne, ?_⟩⟩
    rw [kept.len, live.len]
    exact hstands.suffix suffix

theorem mergeStrings_leads (secs : List (List BfdByte)) (mallocOk : Bool) (hk : 0 < k.entsize)
    (hok : TabOk k tab n) :
    ∃ mg out, k.mergeStrings secs mallocOk tab = some mg ∧ Placed k out mg ∧
      List.Forall₂ (Leads k mg) tab mg.tab := by
  have hsuffixes : ∃ tab₁, (if mallocOk then k.mergeSuffixes tab else some tab) = some tab₁ ∧
      List.Forall₂ (Suffixed k tab₁) tab tab₁ := by
    cases mallocOk with
    | true => exact mergeSuffixes_suffixed hok.entry
    | false => exact ⟨tab, rfl, List.forall₂_same.mpr fun x _ => .inl rfl⟩
  obtain ⟨tab₁, hrun, hsuf⟩ := hsuffixes
  obtain ⟨tab₂, out, hout, hadj, hplaced, hleads⟩ := leads_of_suffixed secs hk hok hsuf
  refine ⟨_, out, ?_, hplaced, hleads⟩
  cases mallocOk with
  | true =>
    rw [if_pos rfl] at hrun
    simp only [Kind.mergeStrings, if_true, hrun, Option.bind_eq_bind, Option.bind_some, hout, hadj]
  | false =>
    cases hrun
    simp only [Kind.mergeStrings, Bool.false_eq_true, if_false, Option.bind_eq_bind,
      Option.bind_some, hout, hadj]

theorem keptChain_eq_range (h : ∀ e ∈ tab, e.alignment ≠ 0) :
    keptChain tab = List.range tab.length := by
  rw [keptChain, List.filter_eq_self]
  intro i hi
  rw [List.mem_range] at hi
  rw [List.getElem?_eq_getElem hi, Option.map_some, Option.getD_some, bne_iff_ne]
  exact h _ (List.getElem_mem hi)

theorem mergeConstants_leads (secs : List (List BfdByte)) (hne : tab ≠ [])
    (hlive : ∀ x ∈ tab, Live k x)
    (hsorted : tab.Pairwise fun a b => a.secinfo ≤ b.secinfo) :
    ∃ out, Placed k out (mergeConstants secs tab) ∧
      List.Forall₂ (Leads k (mergeConstants secs tab)) tab (mergeConstants secs tab).tab := by
  rw [mergeConstants_eq secs hne hlive hsorted]
  have hlaid := laid_strings secs hsorted fun e he => .inl (hlive e he)
  have hmoved := assign_moved (Layout.start secs tab) 0 tab
  generalize assign assignString (Layout.start secs tab) 0 tab = r at hlaid hmoved
  obtain ⟨st, out⟩ := r
  simp only at hlaid hmoved ⊢
  have hkept : ∀ (i : Nat) y, out[i]? = some y → Live k y := by
    intro i y hy
    have hflip : List.Forall₂ (flip Moved) out tab := List.Forall₂.flip hmoved
    obtain ⟨x, hx, hm⟩ := getElem?_of_forall₂ hflip hy
    exact (hlive x (List.mem_of_getElem? hx)).moved hm
  have hplaced : Placed k out
      ⟨out, List.range out.length, st.store.secSize, st.store.firstStr⟩ := by
    refine ⟨hlaid.first, fun i hi => stored_fits hlaid hi (Nat.le_refl _), hlaid.placed, ?_, ?_,
      fun i y hy _ => ⟨hkept i y hy, hy⟩⟩
    · exact pairwise_secinfo hmoved (fun _ _ h => by rw [h.eq]) hsorted
    · rw [keptChain_eq_range]
      intro y hy
      obtain ⟨i, hi⟩ := List.getElem?_of_mem hy
      exact (hkept i y hi).alignment_pos
  refine ⟨out, hplaced, forall₂_of_getElem? hmoved.length_eq fun i x hx => ?_⟩
  obtain ⟨y, hy, hm⟩ := getElem?_of_forall₂ hmoved hx
  refine ⟨y, hy, hm.string_eq, hm.len_eq, fun _ => ?_⟩
  rw [← hm.string_eq]
  exact hplaced.standsAt hy (hkept i y hy).alignment_pos

/-! Terminators. -/

/-- The string ends in a zero entity. -/
def Terminated (k : Kind) (str : List BfdByte) : Prop :=
  k.entsize ≤ str.length ∧ str.drop (str.length - k.entsize) = List.replicate k.entsize 0

theorem eq_replicate_of_entity {buf y : List BfdByte} {m : Nat} (hy : k.entity buf m = some y)
    (hz : isZero y = true) : y = List.replicate k.entsize 0 := by
  rw [List.eq_replicate_iff]
  refine ⟨entity_length hy, fun b hb => ?_⟩
  rw [isZero, List.all_eq_true] at hz
  exact eq_of_beq (hz b hb)

theorem terminated_of_entity {buf y : List BfdByte} {m : Nat} (hy : k.entity buf m = some y)
    (hz : isZero y = true) : Terminated k y := by
  have hlen := entity_length hy
  refine ⟨Nat.le_of_eq hlen.symm, ?_⟩
  rw [hlen, Nat.sub_self, List.drop_zero]
  exact eq_replicate_of_entity hy hz

theorem slice_self {buf : List BfdByte} {z : Nat} {y : List BfdByte}
    (hy : k.entity buf z = some y) : k.slice buf z z = y := by
  rw [(entity_eq hy).2, Kind.slice, Nat.add_sub_cancel_left, Nat.one_mul]

theorem Ends.terminated {buf : List BfdByte} {m z : Nat} (h : Ends k buf m z) :
    Terminated k (k.slice buf m z) := by
  obtain ⟨y, hy, hz⟩ := h.zero
  have hm := h.le
  refine ⟨h.entsize_le_length, ?_⟩
  have hcount : (z + 1 - m) * k.entsize - k.entsize = (z - m) * k.entsize := by
    rw [← Nat.sub_one_mul]
    congr 1
    omega
  rw [h.slice_length, hcount, slice_drop hm (Nat.le_refl z), slice_self hy]
  exact eq_replicate_of_entity hy hz

theorem terminated_of_keyAt {buf str : List BfdByte} {m : Nat} (hk : 0 < k.entsize)
    (hs : k.strings = true) (h : k.keyAt buf m = some str) : Terminated k str := by
  obtain ⟨z, hz, rfl, -⟩ := keyAt_ends hk hs h
  exact hz.terminated

/-- Merging the recorded sections leaves a table in which every recorded string is found. -/
theorem mergeSections_leads {inp : Input} (mallocOk : Bool)
    (hc : ∀ c ∈ inp.secs, Recordable inp.kind c) :
    ∃ tab mg out, mergeSections inp mallocOk = some mg ∧ Placed inp.kind out mg ∧
      (∀ e ∈ tab, Live inp.kind e ∨ Dead e) ∧ List.Forall₂ (Leads inp.kind mg) tab mg.tab ∧
      (∀ c ∈ inp.secs, Covered inp.kind tab c) ∧
      (inp.kind.strings = true → ∀ e ∈ tab, Terminated inp.kind e.string) := by
  have hk := accepts_ok inp.accepted
  have hstart : TabOk inp.kind [] 0 := ⟨by simp, by simp, .nil, by simp⟩
  obtain ⟨tab, n, hrun, hok, -, hcov⟩ := recordSections_extends hk hc hstart
  cases hs : inp.kind.strings with
  | true =>
    obtain ⟨mg, out, hmg, hplaced, hleads⟩ := mergeStrings_leads inp.secs mallocOk hk.pos hok
    refine ⟨tab, mg, out, ?_, hplaced, hok.entry, hleads, hcov, fun _ => ?_⟩
    rotate_left
    · exact recordSections_strings hs (fun _ _ _ hx hz => terminated_of_entity hx hz)
        (fun _ _ _ hkey => terminated_of_keyAt hk.pos hs hkey) (by simp) hrun
    simp only [mergeSections, hrun, Option.bind_eq_bind, Option.bind_some, hs, if_true, hmg]
  | false =>
    have hlive : ∀ x ∈ tab, Live inp.kind x := by
      intro x hx
      refine (hok.entry x hx).resolve_right fun hd => ?_
      exact recordSections_kept hs (by simp) hrun x hx hd.2
    have hne : tab ≠ [] := by
      obtain ⟨c, hcs⟩ := List.exists_mem_of_ne_nil _ inp.recorded
      have hpos := List.length_pos_iff.mpr (inp.nonempty c hcs)
      obtain ⟨str, -, i, e, he, -⟩ :=
        hcov c hcs 0 (by rwa [Nat.zero_mul]) fun _ => .inl rfl
      rintro rfl
      cases he
    obtain ⟨out, hplaced, hleads⟩ := mergeConstants_leads inp.secs hne hlive hok.sorted
    refine ⟨tab, _, out, ?_, hplaced, hok.entry, hleads, hcov, fun h => absurd h Bool.false_ne_true⟩
    simp only [mergeSections, hrun, Option.bind_eq_bind, Option.bind_some, hs, Bool.false_eq_true,
      if_false]

/-! References. -/

/-- What the start of a string says about the entities behind it. -/
theorem startOf_le (buf : List BfdByte) (m : Nat) : k.startOf buf m ≤ m ∧
    ∀ j, k.startOf buf m ≤ j → j < m → ∃ x, k.entity buf j = some x ∧ isZero x = false := by
  induction m with
  | zero => exact ⟨Nat.le_refl 0, fun j _ hj => by omega⟩
  | succ m ih =>
    rw [Kind.startOf]
    cases hx : k.entity buf m with
    | none => exact ⟨Nat.le_refl _, fun j hj hjm => absurd hjm (Nat.not_lt.mpr hj)⟩
    | some x =>
      simp only
      split
      · exact ⟨Nat.le_refl _, fun j hj hjm => absurd hjm (Nat.not_lt.mpr hj)⟩
      · next hz =>
        refine ⟨Nat.le_succ_of_le ih.1, fun j hj hjm => ?_⟩
        by_cases hjx : j = m
        · exact ⟨x, hjx ▸ hx, Bool.eq_false_iff.mpr hz⟩
        · exact ih.2 j hj (by omega)

theorem startOf_succ {buf x : List BfdByte} {m : Nat} (hx : k.entity buf m = some x)
    (hz : isZero x = false) : k.startOf buf (m + 1) = k.startOf buf m := by
  rw [Kind.startOf, hx]
  simp [hz]

/-- A string that starts at or before an entity, with no terminator between, ends behind it. -/
theorem Ends.covers {buf : List BfdByte} {p m z : Nat} (h : Ends k buf p z)
    (hin : ∀ j, p ≤ j → j < m → ∃ x, k.entity buf j = some x ∧ isZero x = false) : m ≤ z := by
  by_contra hlt
  obtain ⟨x, hx, hz⟩ := h.zero
  obtain ⟨y, hy, hzy⟩ := hin z h.le (Nat.not_le.mp hlt)
  rw [hx, Option.some.injEq] at hy
  rw [hy, hzy] at hz
  cases hz

/-- The reference leads to what it led to: the rest of its string, or the same place of an equal
constant. -/
def Kind.SameAt (k : Kind) (c : List BfdByte) (offset : Nat) (out : List BfdByte)
    (off : Nat) : Prop :=
  if k.strings then ∃ str, k.stringAt (k.buffer c) (offset / k.entsize) = some str ∧
    StandsAt out off (str.drop (offset % k.entsize))
  else ∃ x, k.entity (k.buffer c) (offset / k.entsize) = some x ∧ offset % k.entsize ≤ off ∧
    StandsAt out (off - offset % k.entsize) x

/-- Every reference is kept, and every section that is written has its size. -/
def Preserves (inp : Input) (mg : Merged) : Prop :=
  (∀ sec c offset, inp.secs[sec]? = some c → offset < c.length →
    ∃ j off, mergedSectionOffset inp mg sec offset = some (j, off) ∧ mg.firstStr j ≠ none ∧
      inp.kind.SameAt c offset (mg.emit j) off) ∧
  ∀ i, mg.firstStr i ≠ none → (mg.emit i).length = mg.secSize i

/-- A key that is found stands where it is said to be. -/
theorem Leads.found {mg : Merged} {str : List BfdByte} (hk : 0 < k.entsize)
    (hlen : k.entsize ≤ str.length) (hok : ∀ e ∈ tab, Live k e ∨ Dead e)
    (hleads : List.Forall₂ (Leads k mg) tab mg.tab) (h : lookup mg.tab str = some i) :
    ∃ e pos, mg.tab[i]? = some e ∧ e.u = .index pos ∧ mg.firstStr e.secinfo ≠ none ∧
      StandsAt (mg.emit e.secinfo) pos str := by
  rw [lookup_leads hleads] at h
  obtain ⟨x, hx, hl, rfl⟩ := lookup_live hk hlen hok h
  obtain ⟨e, he, hr⟩ := getElem?_of_forall₂ hleads hx
  obtain ⟨pos, hpos, hne, hstands⟩ := hr.stands hl
  exact ⟨e, pos, he, hpos, hne, hstands⟩

theorem lookup_covered {mg : Merged} {str : List BfdByte} (hk : 0 < k.entsize)
    (hlen : k.entsize ≤ str.length) (hok : ∀ e ∈ tab, Live k e ∨ Dead e)
    (hleads : List.Forall₂ (Leads k mg) tab mg.tab) (h : Has k tab str) :
    ∃ i, lookup mg.tab str = some i := by
  obtain ⟨i, e, hi, -⟩ := lookup_of_has hk hlen hok h
  exact ⟨i, by rw [lookup_leads hleads, hi]⟩

/-- The first entry of the chain is kept. -/
theorem Placed.head {out : Tab} {mg : Merged} {str : List BfdByte} (h : Placed k out mg)
    (hleads : List.Forall₂ (Leads k mg) tab mg.tab) (hhas : Has k tab str) :
    ∃ (i : Nat) (e : Entry), mg.chain.head? = some i ∧ out[i]? = some e ∧ e.alignment ≠ 0 := by
  obtain ⟨n, x, hx, hl, -⟩ := hhas
  obtain ⟨e, he, hr⟩ := getElem?_of_forall₂ hleads hx
  obtain ⟨pos, -, hne, -⟩ := hr.stands hl
  obtain ⟨f, hf⟩ := Option.ne_none_iff_exists'.mp hne
  rw [h.first] at hf
  obtain ⟨hlt, hp, -⟩ := List.findIdx?_eq_some_iff_getElem.mp hf
  rw [Entry.keptIn, Bool.and_eq_true] at hp
  have hmem : f ∈ mg.chain := by
    rw [h.chain, keptChain, List.mem_filter, List.mem_range]
    exact ⟨hlt, by simpa [List.getElem?_eq_getElem hlt] using hp.1⟩
  obtain ⟨i, hi⟩ := Option.ne_none_iff_exists'.mp
    (fun hnil => List.ne_nil_of_mem hmem (List.head?_eq_none_iff.mp hnil))
  have hin := List.mem_of_head? hi
  rw [h.chain, keptChain, List.mem_filter, List.mem_range] at hin
  obtain ⟨hlt', hkept⟩ := hin
  rw [List.getElem?_eq_getElem hlt'] at hkept
  exact ⟨i, out[i], hi, List.getElem?_eq_getElem hlt', by simpa using hkept⟩

section

variable {inp : Input} {mg : Merged} {out : Tab} {c : List BfdByte} {offset : Nat}

/-- A string that is not found is a terminator behind another one. -/
theorem zero_of_lookup_none (hs : inp.kind.strings = true) (hk : inp.kind.Ok)
    (hok : ∀ e ∈ tab, Live inp.kind e ∨ Dead e)
    (hleads : List.Forall₂ (Leads inp.kind mg) tab mg.tab) (hcov : Covered inp.kind tab c)
    {str : List BfdByte} {m : Nat} (hm : m * inp.kind.entsize < c.length)
    (hkey : inp.kind.keyAt (inp.kind.buffer c) (inp.kind.startOf (inp.kind.buffer c) m) = some str)
    (hnone : lookup mg.tab str = none) :
    inp.kind.startOf (inp.kind.buffer c) m = m ∧
      ∃ y, inp.kind.entity (inp.kind.buffer c) m = some y ∧ isZero y = true := by
  obtain ⟨hle, hin⟩ := startOf_le (k := inp.kind) (inp.kind.buffer c) m
  have hlen : inp.kind.entsize ≤ str.length := by
    obtain ⟨z, hz, rfl, -⟩ := keyAt_ends hk.pos hs hkey
    exact hz.entsize_le_length
  have hno : ∀ n, n * inp.kind.entsize < c.length →
      inp.kind.startOf (inp.kind.buffer c) n = inp.kind.startOf (inp.kind.buffer c) m →
      ¬ ∃ x, inp.kind.entity (inp.kind.buffer c) n = some x ∧ isZero x = false := by
    intro n hn hstart hx
    obtain ⟨str', hkey', hhas⟩ := hcov n hn fun _ => .inr hx
    rw [Kind.start, if_pos hs, hstart, hkey, Option.some.injEq] at hkey'
    obtain ⟨i, hi⟩ := lookup_covered hk.pos hlen hok hleads (hkey' ▸ hhas)
    rw [hnone] at hi
    cases hi
  have hy := entity_some (buffer_entity hs hm)
  refine ⟨?_, _, hy, ?_⟩
  · by_contra hne
    obtain ⟨x, hx, hz⟩ := hin (m - 1) (by omega) (by omega)
    have hpred : m - 1 + 1 = m := by omega
    have hstart := startOf_succ hx hz
    rw [hpred] at hstart
    refine hno (m - 1) ?_ hstart.symm ⟨x, hx, hz⟩
    exact Nat.lt_of_le_of_lt (Nat.mul_le_mul_right _ (by omega)) hm
  · by_contra hz
    exact hno m hm rfl ⟨_, hy, Bool.eq_false_iff.mpr hz⟩

theorem preserves_string (hs : inp.kind.strings = true) (hk : inp.kind.Ok)
    (hplaced : Placed inp.kind out mg) (hok : ∀ e ∈ tab, Live inp.kind e ∨ Dead e)
    (hleads : List.Forall₂ (Leads inp.kind mg) tab mg.tab) (hcov : Covered inp.kind tab c)
    (hterm : ∀ e ∈ tab, Terminated inp.kind e.string) (hc : Recordable inp.kind c)
    (hsec : inp.secs[sec]? = some c) (hoff : offset < c.length) :
    ∃ j off, mergedSectionOffset inp mg sec offset = some (j, off) ∧ mg.firstStr j ≠ none ∧
      inp.kind.SameAt c offset (mg.emit j) off := by
  have hpos := hk.pos
  have hdiv := Nat.div_add_mod' offset inp.kind.entsize
  have hmod := Nat.mod_lt offset hpos
  have hm : offset / inp.kind.entsize * inp.kind.entsize < c.length := by omega
  have hsecond := startOf_le (k := inp.kind) (inp.kind.buffer c) (offset / inp.kind.entsize)
  have hzero : ∀ {str : List BfdByte}, inp.kind.keyAt (inp.kind.buffer c) _ = some str →
      lookup mg.tab str = none → _ := zero_of_lookup_none hs hk hok hleads hcov hm
  simp only [mergedSectionOffset, hsec, Option.bind_eq_bind, Option.bind_some, hs, if_true,
    if_neg (Nat.not_le.mpr hoff), Kind.SameAt]
  generalize offset / inp.kind.entsize = m at *
  generalize inp.kind.startOf (inp.kind.buffer c) m = p at *
  generalize offset % inp.kind.entsize = q at *
  obtain ⟨hpm, hin⟩ := hsecond
  have hple := Nat.mul_le_mul_right inp.kind.entsize hpm
  obtain ⟨str, hkey⟩ := hc p (Nat.lt_of_le_of_lt hple hm)
  obtain ⟨z, hz, hslice, -⟩ := keyAt_ends hpos hs hkey
  have hmz := hz.covers hin
  have hstr : inp.kind.stringAt (inp.kind.buffer c) m
      = some (inp.kind.slice (inp.kind.buffer c) m z) :=
    (stringAt_eq_some hpos).mpr ⟨z, hz.later hpm hmz, rfl⟩
  simp only [hkey, Option.bind_some]
  cases hl : lookup mg.tab str with
  | some i =>
    obtain ⟨e, pos, he, hu, hne, hstands⟩ :=
      Leads.found hpos (hslice ▸ hz.entsize_le_length) hok hleads hl
    simp only [he, hu, Option.bind_some]
    refine ⟨_, _, rfl, hne, _, hstr, ?_⟩
    have hd : offset - p * inp.kind.entsize = (m - p) * inp.kind.entsize + q := by
      rw [Nat.sub_mul]
      omega
    have hle : (m - p) * inp.kind.entsize + q ≤ str.length := by
      rw [hslice, hz.slice_length]
      have := Nat.mul_le_mul_right inp.kind.entsize (show m - p + 1 ≤ z + 1 - p by omega)
      rw [Nat.add_mul, Nat.one_mul] at this
      omega
    rw [← slice_drop hpm hmz, List.drop_drop, ← hslice, hd]
    exact hstands.drop hle
  | none =>
    obtain ⟨rfl, y, hy, hzy⟩ := hzero hkey hl
    obtain ⟨str₀, -, hhas⟩ := hcov 0 (by omega) fun _ => .inl rfl
    obtain ⟨i, e, hi, he, hal⟩ := hplaced.head hleads hhas
    obtain ⟨hlive, htab⟩ := hplaced.kept i e he hal
    obtain ⟨pos, hu, hne, hstands⟩ := hplaced.standsAt he hal
    have hzm : z = p := by
      by_contra hne
      obtain ⟨x, hx, hzx⟩ := hz.before p (Nat.le_refl p) (Nat.lt_of_le_of_ne hz.le (Ne.symm hne))
      rw [hy, Option.some.injEq] at hx
      rw [hx, hzx] at hzy
      cases hzy
    subst hzm
    have hrep := eq_replicate_of_entity hy hzy
    have hend : Terminated inp.kind e.string := by
      have hflip : List.Forall₂ (flip (Leads inp.kind mg)) mg.tab tab := List.Forall₂.flip hleads
      obtain ⟨x, hx, hr⟩ := getElem?_of_forall₂ hflip htab
      rw [hr.string]
      exact hterm x (List.mem_of_getElem? hx)
    have hhead : str.head? = some 0 := by
      rw [hslice, slice_self hy, hrep, List.head?_replicate, if_neg (Nat.pos_iff_ne_zero.mp hpos)]
    simp only [hhead, hi, htab, hu, Option.bind_some, Bool.not_true, bne_self_eq_false,
      Bool.or_self, Bool.false_eq_true, if_false]
    refine ⟨_, _, rfl, hne, _, hstr, ?_⟩
    -- the terminator of the first entry serves
    have hlast := hstands.drop (Nat.sub_le e.string.length inp.kind.entsize)
    rw [hend.2] at hlast
    have hrest := hlast.drop (d := q) (by rw [List.length_replicate]; omega)
    have hlong := hend.1
    have hoffset : pos + e.len + offset - (z + 1) * inp.kind.entsize
        = pos + (e.string.length - inp.kind.entsize) + q := by
      rw [hlive.len, Nat.add_mul, Nat.one_mul]
      omega
    rw [hoffset, slice_self hy, hrep]
    exact hrest

theorem preserves_constant (hs : inp.kind.strings = false) (hk : inp.kind.Ok)
    (hok : ∀ e ∈ tab, Live inp.kind e ∨ Dead e)
    (hleads : List.Forall₂ (Leads inp.kind mg) tab mg.tab) (hcov : Covered inp.kind tab c)
    (hsec : inp.secs[sec]? = some c) (hoff : offset < c.length) :
    ∃ j off, mergedSectionOffset inp mg sec offset = some (j, off) ∧ mg.firstStr j ≠ none ∧
      inp.kind.SameAt c offset (mg.emit j) off := by
  have hdiv := Nat.div_add_mod' offset inp.kind.entsize
  obtain ⟨str, hkey, hhas⟩ := hcov (offset / inp.kind.entsize) (by omega) fun h => by
    rw [hs] at h
    cases h
  have hstart : inp.kind.start (inp.kind.buffer c) (offset / inp.kind.entsize)
      = offset / inp.kind.entsize := by
    rw [Kind.start, hs]
    rfl
  rw [hstart] at hkey
  have hentity := hkey
  rw [keyAt_constant hs hk.lt] at hentity
  have hlen := Nat.le_of_eq (entity_length hentity).symm
  obtain ⟨i, hi⟩ := lookup_covered hk.pos hlen hok hleads hhas
  obtain ⟨e, pos, he, hu, hne, hstands⟩ := Leads.found hk.pos hlen hok hleads hi
  have hd : offset - offset / inp.kind.entsize * inp.kind.entsize = offset % inp.kind.entsize := by
    omega
  refine ⟨e.secinfo, pos + offset % inp.kind.entsize, ?_, hne, ?_⟩
  · simp only [mergedSectionOffset, hsec, Option.bind_eq_bind, Option.bind_some, hs,
      Bool.false_eq_true, if_false, if_neg (Nat.not_le.mpr hoff), hkey, hi, he, hu, hd]
  · rw [Kind.SameAt, hs]
    refine ⟨str, hentity, Nat.le_add_left _ _, ?_⟩
    rwa [Nat.add_sub_cancel]

end

/-- Merging keeps every reference exactly when the sections end where an entity does, or in zeros,
and no string is too long to be counted. -/
theorem merge_preserves_iff (inp : Input) (mallocOk : Bool) :
    (∃ mg, mergeSections inp mallocOk = some mg ∧ Preserves inp mg) ↔
      ∀ c ∈ inp.secs, inp.kind.WellFormed c := by
  have hk := accepts_ok inp.accepted
  constructor
  · rintro ⟨mg, hrun, -⟩ c hc
    obtain ⟨tab, hrecord, -⟩ := Option.bind_eq_some_iff.mp hrun
    exact (recordable_iff hk).mp (recordable_of_recordSections hk hrecord c hc)
  · intro hwell
    have hc : ∀ c ∈ inp.secs, Recordable inp.kind c :=
      fun c hc => (recordable_iff hk).mpr (hwell c hc)
    obtain ⟨tab, mg, out, hrun, hplaced, hok, hleads, hcov, hterm⟩ :=
      mergeSections_leads mallocOk hc
    refine ⟨mg, hrun, fun sec c offset hsec hoff => ?_, fun i hi => hplaced.emit_length hi⟩
    have hmem := List.mem_of_getElem? hsec
    cases hs : inp.kind.strings with
    | true =>
      exact preserves_string hs hk hplaced hok hleads (hcov c hmem) (hterm hs) (hc c hmem) hsec hoff
    | false => exact preserves_constant hs hk hok hleads (hcov c hmem) hsec hoff

/-- Characters of two bytes, and one byte too many. -/
def oddString : Input where
  kind := ⟨2, 0, true⟩
  secs := [[97, 0, 0, 0, 98]]
  accepted := by decide
  recorded := by simp
  nonempty := by simp

/-- The last character is read past the zeros that were put behind the section. -/
theorem oddString_not_merged :
    ¬ ∃ mg, mergeSections oddString true = some mg ∧ Preserves oddString mg := by
  rintro ⟨mg, hrun, -⟩
  have hnone : oddString.kind.recordSections [] 0 oddString.secs = none := by decide
  rw [mergeSections, hnone] at hrun
  cases hrun

end FusionBinutils.Bfd.Merge
