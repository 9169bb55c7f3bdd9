import Mathlib.Data.List.Forall2
import Mathlib.Logic.Function.Basic

/-! Arrays as lists: what one written cell changes. -/
namespace FusionBinutils.Cells

variable {α β : Type*} {array : List α} {a e : α} {i k : Nat}

theorem getElem?_set_cases (h : (array.set k a)[i]? = some e) :
    (i = k ∧ e = a) ∨ (i ≠ k ∧ array[i]? = some e) := by
  rw [List.getElem?_set] at h
  by_cases hki : k = i
  · subst hki
    rw [if_pos rfl] at h
    split at h
    · cases h
      exact .inl ⟨rfl, rfl⟩
    · cases h
  · rw [if_neg hki] at h
    exact .inr ⟨fun hik => hki hik.symm, h⟩

theorem getElem?_set_same (h : array[k]? = some e) : (array.set k a)[k]? = some a := by
  obtain ⟨hlt, -⟩ := List.getElem?_eq_some_iff.mp h
  simp [hlt]

theorem getElem?_set_other (h : i ≠ k) : (array.set k a)[i]? = array[i]? := by
  simp [h.symm]

/-- A field that the write leaves alone is as before in every cell. -/
theorem map_set {f : α → β} (h : array[k]? = some e) (ha : f a = f e) :
    (array.set k a).map f = array.map f := by
  apply List.ext_getElem?
  intro i
  rw [List.getElem?_map, List.getElem?_map]
  by_cases hi : i = k
  · subst hi
    rw [getElem?_set_same h, h, Option.map_some, Option.map_some, ha]
  · rw [getElem?_set_other hi]

theorem getElem?_of_forall₂ {R : α → β → Prop} {l : List α} {l' : List β} {x : α}
    (h : List.Forall₂ R l l') (hx : l[i]? = some x) : ∃ y, l'[i]? = some y ∧ R x y := by
  obtain ⟨hlt, rfl⟩ := List.getElem?_eq_some_iff.mp hx
  have hlt' : i < l'.length := h.length_eq ▸ hlt
  exact ⟨l'[i], List.getElem?_eq_getElem hlt', h.get hlt hlt'⟩

theorem mem_of_forall₂ {R : α → β → Prop} {l : List α} {l' : List β} {x : α}
    (h : List.Forall₂ R l l') (hx : x ∈ l) : ∃ y ∈ l', R x y := by
  obtain ⟨i, hi⟩ := List.getElem?_of_mem hx
  obtain ⟨y, hy, hr⟩ := getElem?_of_forall₂ h hi
  exact ⟨y, List.mem_of_getElem? hy, hr⟩

theorem forall₂_comp {γ : Type*} {R : α → β → Prop} {S : β → γ → Prop} {T : α → γ → Prop}
    {l : List α} {l' : List β} {l'' : List γ} (h : List.Forall₂ R l l') (h' : List.Forall₂ S l' l'')
    (himp : ∀ x y z, R x y → S y z → T x z) : List.Forall₂ T l l'' := by
  induction h generalizing l'' with
  | nil =>
    cases h'
    exact .nil
  | cons hr hrest ih =>
    cases h' with
    | cons hs hrest' => exact .cons (himp _ _ _ hr hs) (ih hrest')

theorem pairwise_of_forall₂ {R : α → β → Prop} {P : α → α → Prop} {Q : β → β → Prop}
    {l : List α} {l' : List β} (h : List.Forall₂ R l l') (hQ : l'.Pairwise Q)
    (himp : ∀ a b a' b', R a a' → R b b' → Q a' b' → P a b) : l.Pairwise P := by
  induction h with
  | nil => exact .nil
  | cons hr hrest ih =>
    obtain ⟨hhead, hQ⟩ := List.pairwise_cons.mp hQ
    refine List.pairwise_cons.mpr ⟨fun b hb => ?_, ih hQ⟩
    obtain ⟨b', hb', hr'⟩ := mem_of_forall₂ hrest hb
    exact himp _ _ _ _ hr hr' (hhead b' hb')

theorem forall₂_of_getElem? {R : α → β → Prop} {l : List α} {l' : List β}
    (hlen : l.length = l'.length)
    (h : ∀ (i : Nat) x, l[i]? = some x → ∃ y, l'[i]? = some y ∧ R x y) : List.Forall₂ R l l' := by
  rw [List.forall₂_iff_get]
  refine ⟨hlen, fun i hi hi' => ?_⟩
  obtain ⟨y, hy, hr⟩ := h i l[i] (List.getElem?_eq_getElem hi)
  obtain ⟨hlt, rfl⟩ := List.getElem?_eq_some_iff.mp hy
  exact hr

/-- A function that fails on no cell gives all cells. -/
theorem mapM_some {f : α → Option β} {l : List α} (h : ∀ x ∈ l, ∃ y, f x = some y) :
    ∃ l', l.mapM f = some l' ∧ List.Forall₂ (fun x y => f x = some y) l l' := by
  induction l with
  | nil => exact ⟨[], rfl, .nil⟩
  | cons x l ih =>
    obtain ⟨y, hy⟩ := h x (by simp)
    obtain ⟨l', hl', hall⟩ := ih fun z hz => h z (by simp [hz])
    refine ⟨y :: l', ?_, .cons hy hall⟩
    simp [hy, hl']

theorem mapM_eq_map {f : α → Option β} {g : α → β} {l : List α}
    (h : ∀ x ∈ l, f x = some (g x)) : l.mapM f = some (l.map g) := by
  induction l with
  | nil => rfl
  | cons x l ih =>
    have hl := ih fun y hy => h y (List.mem_cons_of_mem x hy)
    simp [h x List.mem_cons_self, hl]

/-! Cells that an array points to. -/

variable {ι : Type*} [DecidableEq ι] {f : ι → α} {ptrs : List ι} {p : ι}

theorem map_update_of_notMem (h : p ∉ ptrs) : ptrs.map (Function.update f p a) = ptrs.map f := by
  apply List.map_congr_left
  intro q hq
  rw [Function.update_of_ne]
  rintro rfl
  exact h hq

theorem map_update (hn : ptrs.Nodup) (h : ptrs[k]? = some p) :
    ptrs.map (Function.update f p a) = (ptrs.map f).set k a := by
  apply List.ext_getElem?
  intro i
  by_cases hi : i = k
  · subst hi
    rw [getElem?_set_same (by rw [List.getElem?_map, h]; rfl), List.getElem?_map, h,
      Option.map_some, Function.update_self]
  · rw [getElem?_set_other hi, List.getElem?_map, List.getElem?_map]
    cases hq : ptrs[i]? with
    | none => rfl
    | some q =>
      have hne : q ≠ p := by
        rintro rfl
        obtain ⟨hlt, -⟩ := List.getElem?_eq_some_iff.mp hq
        exact hi ((List.getElem?_inj hlt hn).mp (hq.trans h.symm))
      rw [Option.map_some, Option.map_some, Function.update_of_ne hne]

/-- A loop that writes distinct cells, each from what it holds, leaves the others alone. -/
theorem foldl_update {g : α → β → α} (ps : List (ι × β)) (hn : (ps.map Prod.fst).Nodup) :
    (∀ q, q ∉ ps.map Prod.fst →
      ps.foldl (fun f x => Function.update f x.1 (g (f x.1) x.2)) f q = f q) ∧
    ∀ x ∈ ps, ps.foldl (fun f x => Function.update f x.1 (g (f x.1) x.2)) f x.1
      = g (f x.1) x.2 := by
  induction ps generalizing f with
  | nil => simp
  | cons x ps ih =>
    rw [List.map_cons, List.nodup_cons] at hn
    obtain ⟨hother, hsame⟩ := ih (f := Function.update f x.1 (g (f x.1) x.2)) hn.2
    refine ⟨?_, ?_⟩
    · intro q hq
      rw [List.map_cons, List.mem_cons, not_or] at hq
      rw [List.foldl_cons, hother q hq.2, Function.update_of_ne hq.1]
    · intro y hy
      rw [List.foldl_cons]
      rcases List.mem_cons.mp hy with rfl | hy
      · rw [hother _ hn.1, Function.update_self]
      · have hne : y.1 ≠ x.1 := fun he => hn.1 (he ▸ List.mem_map_of_mem hy)
        rw [hsame y hy, Function.update_of_ne hne]

theorem foldl_update_ptrs {g : α → α} (hn : ptrs.Nodup) :
    (∀ q, q ∉ ptrs → ptrs.foldl (fun f p => Function.update f p (g (f p))) f q = f q) ∧
    ∀ q ∈ ptrs, ptrs.foldl (fun f p => Function.update f p (g (f p))) f q = g (f q) := by
  have hfst : (ptrs.map fun p => (p, ())).map Prod.fst = ptrs :=
    List.map_map.trans (List.map_id _)
  have hfold : ptrs.foldl (fun f p => Function.update f p (g (f p))) f
      = (ptrs.map fun p => (p, ())).foldl (fun f x => Function.update f x.1 (g (f x.1))) f := by
    rw [List.foldl_map]
  obtain ⟨hother, hsame⟩ := foldl_update (f := f) (g := fun a (_ : Unit) => g a)
    (ptrs.map fun p => (p, ())) (by rw [hfst]; exact hn)
  rw [hfst] at hother
  rw [hfold]
  exact ⟨hother, fun q hq => hsame (q, ()) (List.mem_map_of_mem hq)⟩

end FusionBinutils.Cells
