import Mathlib.Data.List.Induction
import Mathlib.Data.List.Nodup
import Mathlib.Data.List.Sigma
import Mathlib.Order.Lattice

/-! Sorting by insertion, into a list and into a tree, for any comparison: when the result is
sorted, and when both are the same. Nothing here refers to a program. -/
namespace FusionBinutils.Insertion

variable {α : Type*} {goes : α → α → Bool} {l l' : List α} {x a b c : α}

/-- Put `x` before the first element that it goes before, or at the end. -/
def put (goes : α → α → Bool) (l : List α) (x : α) : List α :=
  l.takeWhile (fun y => !goes x y) ++ x :: l.dropWhile (fun y => !goes x y)

/-- Put all elements in turn. -/
def putAll (goes : α → α → Bool) (l : List α) : List α := l.foldl (put goes) []

@[simp] theorem putAll_snoc : putAll goes (l ++ [x]) = put goes (putAll goes l) x := by
  rw [putAll, List.foldl_append, List.foldl_cons, List.foldl_nil]
  rfl

@[simp] theorem put_nil : put goes [] x = [x] := rfl

theorem put_cons : put goes (a :: l) x = if goes x a then x :: a :: l else a :: put goes l x := by
  cases hgo : goes x a with
  | true => simp [put, hgo]
  | false => simp [put, hgo]

theorem put_perm (l : List α) (x : α) : (put goes l x).Perm (x :: l) := by
  have h : (put goes l x).Perm
      (x :: (l.takeWhile (fun y => !goes x y) ++ l.dropWhile fun y => !goes x y)) :=
    List.perm_middle
  rwa [List.takeWhile_append_dropWhile] at h

theorem putAll_perm (goes : α → α → Bool) (l : List α) : (putAll goes l).Perm l := by
  induction l using List.reverseRecOn with
  | nil => rfl
  | append_singleton l x ih =>
    rw [putAll_snoc]
    exact (put_perm _ x).trans ((ih.cons x).trans (List.perm_append_singleton x l).symm)

theorem putAll_map {β : Type*} (goes : α → α → Bool) (f : β → α) (l : List β) :
    (putAll (fun a b => goes (f a) (f b)) l).map f = putAll goes (l.map f) := by
  induction l using List.reverseRecOn with
  | nil => rfl
  | append_singleton l x ih =>
    rw [List.map_append, List.map_singleton, putAll_snoc, putAll_snoc, ← ih, put, put,
      List.map_append, List.map_cons, List.takeWhile_map, List.dropWhile_map]
    rfl

theorem putAll_congr {goes' : α → α → Bool} (h : ∀ a ∈ l, ∀ b ∈ l, goes a b = goes' a b) :
    putAll goes l = putAll goes' l := by
  induction l using List.reverseRecOn with
  | nil => rfl
  | append_singleton l x ih =>
    have hinit := ih fun a ha b hb => h a (List.mem_append_left _ ha) b (List.mem_append_left _ hb)
    have hx : x ∈ l ++ [x] := List.mem_append_right l List.mem_cons_self
    rw [putAll_snoc, putAll_snoc, hinit]
    have hall : ∀ y ∈ putAll goes' l, goes x y = goes' x y :=
      fun y hy => h x hx y (List.mem_append_left _ ((putAll_perm _ _).mem_iff.mp hy))
    generalize putAll goes' l = r at hall
    induction r with
    | nil => rfl
    | cons y r ihr =>
      rw [put_cons, put_cons, hall y List.mem_cons_self,
        ihr fun z hz => hall z (List.mem_cons_of_mem y hz)]

/-! The order that the elements should come in. -/

/-- Of two elements, the one that was there first comes first, unless the other goes before it. -/
def Comes (goes : α → α → Bool) (l : List α) (a b : α) : Prop :=
  ([a, b].Sublist l ∧ goes b a = false) ∨ ([b, a].Sublist l ∧ goes a b = true)

theorem Comes.mono (h : Comes goes l a b) (hl : l.Sublist l') : Comes goes l' a b :=
  h.imp (fun h => ⟨h.1.trans hl, h.2⟩) fun h => ⟨h.1.trans hl, h.2⟩

theorem Comes.mem (h : Comes goes l a b) : a ∈ l ∧ b ∈ l := by
  rcases h with ⟨h, _⟩ | ⟨h, _⟩
  · exact ⟨h.subset List.mem_cons_self, h.subset (List.mem_cons_of_mem _ List.mem_cons_self)⟩
  · exact ⟨h.subset (List.mem_cons_of_mem _ List.mem_cons_self), h.subset List.mem_cons_self⟩

/-- Without repetitions, one of two elements was there first. -/
theorem pair_antisymm (hl : l.Nodup) (hab : [a, b].Sublist l) (hba : [b, a].Sublist l) : False := by
  obtain ⟨r₁, r₂, rfl, ha, hb⟩ := List.cons_sublist_iff.mp hab
  rw [List.singleton_sublist] at hb
  obtain ⟨_, _, hdisj⟩ := List.nodup_append.mp hl
  obtain ⟨s₁, s₂, hsplit, hs₁, hs₂⟩ := List.sublist_append_iff.mp hba
  cases s₁ with
  | nil =>
    rw [List.nil_append] at hsplit
    subst hsplit
    exact hdisj a ha a (hs₂.subset (List.mem_cons_of_mem _ List.mem_cons_self)) rfl
  | cons x s₁ =>
    cases (List.cons.inj hsplit).1
    exact hdisj b (hs₁.subset List.mem_cons_self) b hb rfl

theorem pair_total (ha : a ∈ l) (hb : b ∈ l) (hne : a ≠ b) :
    [a, b].Sublist l ∨ [b, a].Sublist l := by
  obtain ⟨l₁, l₂, rfl⟩ := List.append_of_mem ha
  rcases List.mem_append.mp hb with hb | hb
  · right
    exact (List.singleton_sublist.mpr hb).append (List.singleton_sublist.mpr List.mem_cons_self)
  · left
    rcases List.mem_cons.mp hb with rfl | hb
    · exact absurd rfl hne
    · exact List.sublist_append_of_sublist_right
        ((List.singleton_sublist.mpr hb).cons_cons a)

theorem Comes.asymm (hl : l.Nodup) (hab : Comes goes l a b) (hba : Comes goes l b a) : False := by
  rcases hab with ⟨hab, hgo⟩ | ⟨hab, hgo⟩
  · rcases hba with ⟨hba, _⟩ | ⟨_, hgo'⟩
    · exact pair_antisymm hl hab hba
    · rw [hgo] at hgo'
      cases hgo'
  · rcases hba with ⟨_, hgo'⟩ | ⟨hba, _⟩
    · rw [hgo] at hgo'
      cases hgo'
    · exact pair_antisymm hl hab hba

theorem Comes.ne (hl : l.Nodup) (hab : Comes goes l a b) : a ≠ b := by
  rintro rfl
  exact hab.asymm hl hab

theorem comes_total (ha : a ∈ l) (hb : b ∈ l) (hne : a ≠ b) :
    Comes goes l a b ∨ Comes goes l b a := by
  rcases pair_total ha hb hne with h | h
  · cases hgo : goes b a with
    | false => exact .inl (.inl ⟨h, hgo⟩)
    | true => exact .inr (.inr ⟨h, hgo⟩)
  · cases hgo : goes a b with
    | false => exact .inr (.inl ⟨h, hgo⟩)
    | true => exact .inl (.inr ⟨h, hgo⟩)

/-- The order has no circles. -/
def Transitive (goes : α → α → Bool) (l : List α) : Prop :=
  ∀ a b c, Comes goes l a b → Comes goes l b c → Comes goes l a c

theorem pair_trans (hl : l.Nodup) (hab : [a, b].Sublist l) (hbc : [b, c].Sublist l) :
    [a, c].Sublist l := by
  obtain ⟨r₁, r₂, rfl, ha, hb⟩ := List.cons_sublist_iff.mp hab
  rw [List.singleton_sublist] at hb
  obtain ⟨_, _, hdisj⟩ := List.nodup_append.mp hl
  obtain ⟨s₁, s₂, hsplit, hs₁, hs₂⟩ := List.sublist_append_iff.mp hbc
  cases s₁ with
  | nil =>
    rw [List.nil_append] at hsplit
    subst hsplit
    have hc : c ∈ r₂ := hs₂.subset (List.mem_cons_of_mem _ List.mem_cons_self)
    exact (List.singleton_sublist.mpr ha).append (List.singleton_sublist.mpr hc)
  | cons x s₁ =>
    cases (List.cons.inj hsplit).1
    exact (hdisj b (hs₁.subset List.mem_cons_self) b hb rfl).elim

/-- A comparison by keys that are ordered has no circles. -/
theorem transitive_of_key {κ : Type*} [LinearOrder κ] (key : α → κ) (hl : l.Nodup)
    (h : ∀ a ∈ l, ∀ b ∈ l, (goes a b = true ↔ key a < key b)) : Transitive goes l := by
  have hle : ∀ {a b}, Comes goes l a b → key a ≤ key b := by
    intro a b hab
    rcases hab with ⟨hsub, hgo⟩ | ⟨hsub, hgo⟩
    · rw [Bool.eq_false_iff, ne_eq, h b (hsub.subset (List.mem_cons_of_mem _ List.mem_cons_self)) a
        (hsub.subset List.mem_cons_self)] at hgo
      exact le_of_not_gt hgo
    · rw [h a (hsub.subset (List.mem_cons_of_mem _ List.mem_cons_self)) b
        (hsub.subset List.mem_cons_self)] at hgo
      exact le_of_lt hgo
  have hfirst : ∀ {a b}, Comes goes l a b → key a = key b → [a, b].Sublist l := by
    intro a b hab heq
    rcases hab with ⟨hsub, _⟩ | ⟨hsub, hgo⟩
    · exact hsub
    · rw [h a (hsub.subset (List.mem_cons_of_mem _ List.mem_cons_self)) b
        (hsub.subset List.mem_cons_self), heq] at hgo
      exact absurd hgo (lt_irrefl _)
  intro a b c hab hbc
  have hne : a ≠ c := by
    rintro rfl
    exact hab.asymm hl hbc
  refine (comes_total hab.mem.1 hbc.mem.2 hne).resolve_right ?_
  -- going round in a circle all keys are the same, and the elements came one after the other
  intro hca
  have hkab := hle hab
  have hkbc := hle hbc
  have hkca := hle hca
  have hac := pair_trans hl (hfirst hab (le_antisymm hkab (le_trans hkbc hkca)))
    (hfirst hbc (le_antisymm hkbc (le_trans hkca hkab)))
  exact pair_antisymm hl hac (hfirst hca (le_antisymm hkca (le_trans hkab hkbc)))

/-! A new element at the end. -/

theorem pair_snoc (hx : b ≠ x) (h : [a, b].Sublist (l ++ [x])) : [a, b].Sublist l := by
  obtain ⟨s₁, s₂, hsplit, hs₁, hs₂⟩ := List.sublist_append_iff.mp h
  cases s₂ with
  | nil =>
    rw [List.append_nil] at hsplit
    rwa [hsplit]
  | cons y s₂ =>
    obtain ⟨rfl, rfl⟩ : y = x ∧ s₂ = [] := by
      rcases List.sublist_singleton.mp hs₂ with h | h
      · cases h
      · exact List.cons.inj h
    have hlast := congrArg List.getLast? hsplit
    rw [List.getLast?_append] at hlast
    exact absurd (Option.some.inj hlast) hx

theorem Comes.of_snoc (h : Comes goes (l ++ [x]) a b) (ha : a ≠ x) (hb : b ≠ x) :
    Comes goes l a b :=
  h.imp (fun h => ⟨pair_snoc hb h.1, h.2⟩) fun h => ⟨pair_snoc ha h.1, h.2⟩

theorem comes_snoc_right (ha : a ∈ l) (hgo : goes x a = false) : Comes goes (l ++ [x]) a x :=
  .inl ⟨(List.singleton_sublist.mpr ha).append (List.Sublist.refl [x]), hgo⟩

theorem comes_snoc_left (ha : a ∈ l) (hgo : goes x a = true) : Comes goes (l ++ [x]) x a :=
  .inr ⟨(List.singleton_sublist.mpr ha).append (List.Sublist.refl [x]), hgo⟩

theorem Transitive.init (hl : (l ++ [x]).Nodup) (h : Transitive goes (l ++ [x])) :
    Transitive goes l := by
  have hx : x ∉ l := fun hx => (List.nodup_append.mp hl).2.2 x hx x List.mem_cons_self rfl
  intro a b c hab hbc
  have hac := h a b c (hab.mono (List.sublist_append_left l [x]))
    (hbc.mono (List.sublist_append_left l [x]))
  exact hac.of_snoc (fun he => hx (he ▸ hab.mem.1)) fun he => hx (he ▸ hbc.mem.2)

/-- Insertion sorts where the order has no circles. -/
theorem putAll_pairwise (hl : l.Nodup) (h : Transitive goes l) :
    (putAll goes l).Pairwise (Comes goes l) := by
  induction l using List.reverseRecOn with
  | nil => exact List.Pairwise.nil
  | append_singleton l x ih =>
    have hinit := List.sublist_append_left l [x]
    have hsorted := (ih (hl.sublist hinit) (h.init hl)).imp fun hab => Comes.mono hab hinit
    have hmem : ∀ {y}, y ∈ putAll goes l → y ∈ l := fun hy => (putAll_perm goes l).mem_iff.mp hy
    rw [putAll_snoc, put]
    generalize putAll goes l = r at hsorted hmem
    have hsplit := List.takeWhile_append_dropWhile (p := fun y => !goes x y) (l := r)
    have hsorted' := hsorted
    rw [← hsplit, List.pairwise_append] at hsorted'
    obtain ⟨hleft, hright, hcross⟩ := hsorted'
    -- `x` goes before the head of what is behind it, and so comes before all of that
    have hbehind : ∀ s ∈ r.dropWhile (fun y => !goes x y), Comes goes (l ++ [x]) x s := by
      intro s hs
      cases hdrop : r.dropWhile (fun y => !goes x y) with
      | nil =>
        rw [hdrop] at hs
        cases hs
      | cons y rest =>
        have hy : y ∈ r := (List.dropWhile_sublist _).subset (hdrop ▸ List.mem_cons_self)
        have hgo : goes x y = true := by
          have hhead := List.head?_dropWhile_not (fun y => !goes x y) r
          rw [hdrop] at hhead
          simpa using hhead
        have hxy : Comes goes (l ++ [x]) x y := comes_snoc_left (hmem hy) hgo
        rw [hdrop] at hs hright
        rcases List.mem_cons.mp hs with rfl | hs
        · exact hxy
        · exact h x y s hxy ((List.pairwise_cons.mp hright).1 s hs)
    rw [List.pairwise_append]
    refine ⟨hleft, List.pairwise_cons.mpr ⟨hbehind, hright⟩, ?_⟩
    intro p hp s hs
    have hgo : goes x p = false := by
      have hnot := List.all_eq_true.mp List.all_takeWhile p hp
      simpa using hnot
    rcases List.mem_cons.mp hs with rfl | hs
    · exact comes_snoc_right (hmem ((List.takeWhile_sublist _).subset hp)) hgo
    · exact hcross p hp s hs

theorem pairwise_get {r : α → α → Prop} {i j : Nat} (h : l.Pairwise r) (hij : i < j)
    (hi : l[i]? = some a) (hj : l[j]? = some b) : r a b := by
  obtain ⟨hi', rfl⟩ := List.getElem?_eq_some_iff.mp hi
  obtain ⟨hj', rfl⟩ := List.getElem?_eq_some_iff.mp hj
  exact List.pairwise_iff_getElem.mp h i j hi' hj' hij

/-- A list that is sorted has no circles of the order. -/
theorem transitive_of_pairwise (hl : l.Nodup) (hperm : l'.Perm l)
    (h : l'.Pairwise (Comes goes l)) : Transitive goes l := by
  have hpair : ∀ {a b}, Comes goes l a b → ∃ i j : Nat, i < j ∧ l'[i]? = some a ∧
      l'[j]? = some b := by
    intro a b hab
    obtain ⟨i, hi⟩ := List.mem_iff_getElem?.mp (hperm.mem_iff.mpr hab.mem.1)
    obtain ⟨j, hj⟩ := List.mem_iff_getElem?.mp (hperm.mem_iff.mpr hab.mem.2)
    rcases Nat.lt_trichotomy i j with hlt | rfl | hgt
    · exact ⟨i, j, hlt, hi, hj⟩
    · rw [hi] at hj
      cases hj
      exact (hab.asymm hl hab).elim
    · exact (hab.asymm hl (pairwise_get h hgt hj hi)).elim
  intro a b c hab hbc
  obtain ⟨i, j, hij, hi, hj⟩ := hpair hab
  obtain ⟨j', k, hjk, hj', hk⟩ := hpair hbc
  have hsame : j = j' := by
    obtain ⟨hlt, _⟩ := List.getElem?_eq_some_iff.mp hj
    exact (List.getElem?_inj hlt (hperm.nodup_iff.mpr hl)).mp (hj.trans hj'.symm)
  exact pairwise_get h (Nat.lt_trans hij (hsame ▸ hjk)) hi hk

theorem pair_filter {keep : α → Bool} (hab : [a, b].Sublist l) (ha : keep a = true)
    (hb : keep b = true) : [a, b].Sublist (l.filter keep) := by
  have hfilter := hab.filter keep
  rwa [List.filter_cons_of_pos ha, List.filter_cons_of_pos hb, List.filter_nil] at hfilter

theorem Comes.filter {keep : α → Bool} (h : Comes goes l a b) (ha : keep a = true)
    (hb : keep b = true) : Comes goes (l.filter keep) a b :=
  h.imp (fun h => ⟨pair_filter h.1 ha hb, h.2⟩) fun h => ⟨pair_filter h.1 hb ha, h.2⟩

/-- Taking elements away before or after sorting. -/
theorem putAll_filter (keep : α → Bool) (hl : l.Nodup) (h : Transitive goes l) :
    (putAll goes l).filter keep = putAll goes (l.filter keep) := by
  have hsub : (l.filter keep).Sublist l := List.filter_sublist
  have hkept : Transitive goes (l.filter keep) := by
    intro a b c hab hbc
    have hac := h a b c (hab.mono hsub) (hbc.mono hsub)
    exact hac.filter (List.mem_filter.mp hab.mem.1).2 (List.mem_filter.mp hbc.mem.2).2
  have hleft : ((putAll goes l).filter keep).Pairwise (Comes goes l) :=
    (putAll_pairwise hl h).filter keep
  have hright : (putAll goes (l.filter keep)).Pairwise (Comes goes l) :=
    (putAll_pairwise (hl.filter keep) hkept).imp fun hab => hab.mono hsub
  have hperm : ((putAll goes l).filter keep).Perm (putAll goes (l.filter keep)) :=
    ((putAll_perm goes l).filter keep).trans (putAll_perm goes _).symm
  exact hperm.eq_of_pairwise (fun a b _ _ hab hba => (hab.asymm hl hba).elim) hleft hright

/-! Insertion into a tree. -/

inductive SearchTree (α : Type*)
  | nil
  | node (left : SearchTree α) (a : α) (right : SearchTree α)

/-- The elements from left to right. -/
def SearchTree.toList : SearchTree α → List α
  | nil => []
  | node left a right => left.toList ++ a :: right.toList

/-- Down to the left where `x` goes before the element. -/
def SearchTree.insert (goes : α → α → Bool) (x : α) : SearchTree α → SearchTree α
  | nil => node nil x nil
  | node left a right =>
    if goes x a then node (left.insert goes x) a right else node left a (right.insert goes x)

def SearchTree.insertAll (goes : α → α → Bool) (l : List α) : SearchTree α :=
  l.foldl (fun t x => t.insert goes x) .nil

theorem SearchTree.insert_perm (t : SearchTree α) (x : α) :
    (t.insert goes x).toList.Perm (x :: t.toList) := by
  induction t with
  | nil => rfl
  | node left a right ihl ihr =>
    rw [SearchTree.insert]
    split
    · exact ihl.append_right (a :: right.toList)
    · have hright : (left.toList ++ a :: (right.insert goes x).toList).Perm
          (left.toList ++ a :: x :: right.toList) := (ihr.cons a).append_left left.toList
      refine hright.trans (((List.Perm.swap x a right.toList).append_left left.toList).trans ?_)
      exact List.perm_middle

@[simp] theorem SearchTree.insertAll_snoc :
    SearchTree.insertAll goes (l ++ [x]) = (SearchTree.insertAll goes l).insert goes x := by
  rw [SearchTree.insertAll, List.foldl_append, List.foldl_cons, List.foldl_nil]
  rfl

theorem SearchTree.insertAll_perm (goes : α → α → Bool) (l : List α) :
    (SearchTree.insertAll goes l).toList.Perm l := by
  induction l using List.reverseRecOn with
  | nil => rfl
  | append_singleton l x ih =>
    rw [SearchTree.insertAll_snoc]
    exact (insert_perm _ x).trans ((ih.cons x).trans (List.perm_append_singleton x l).symm)

/-- The same tree with other elements. -/
def SearchTree.map {β : Type*} (f : α → β) : SearchTree α → SearchTree β
  | nil => nil
  | node left a right => node (left.map f) (f a) (right.map f)

theorem SearchTree.map_toList {β : Type*} (f : α → β) (t : SearchTree α) :
    (t.map f).toList = t.toList.map f := by
  induction t with
  | nil => rfl
  | node left a right ihl ihr =>
    rw [SearchTree.map, SearchTree.toList, SearchTree.toList, ihl, ihr, List.map_append,
      List.map_cons]

theorem SearchTree.insert_map {β : Type*} (f : β → α) (x : β) (t : SearchTree β) :
    (t.map f).insert goes (f x) = (t.insert (fun a b => goes (f a) (f b)) x).map f := by
  induction t with
  | nil => rfl
  | node left a right ihl ihr =>
    rw [SearchTree.map, SearchTree.insert, SearchTree.insert, ihl, ihr]
    split <;> rfl

theorem SearchTree.insertAll_map {β : Type*} (goes : α → α → Bool) (f : β → α) (l : List β) :
    SearchTree.insertAll goes (l.map f)
      = (SearchTree.insertAll (fun a b => goes (f a) (f b)) l).map f := by
  induction l using List.reverseRecOn with
  | nil => rfl
  | append_singleton l x ih =>
    rw [List.map_append, List.map_singleton, SearchTree.insertAll_snoc,
      SearchTree.insertAll_snoc, ih, SearchTree.insert_map]

/-- Whatever is to the left of an element came later and goes before it. -/
def SearchTree.Grown (goes : α → α → Bool) (l : List α) : SearchTree α → Prop
  | nil => True
  | node left a right =>
    a ∈ l ∧ (∀ u ∈ left.toList, [a, u].Sublist l ∧ goes u a = true) ∧
      left.Grown goes l ∧ right.Grown goes l

theorem SearchTree.Grown.insert {t : SearchTree α} (h : t.Grown goes l) (x : α) :
    (t.insert goes x).Grown goes (l ++ [x]) := by
  have hsub := List.sublist_append_left l [x]
  have hmono : ∀ {t : SearchTree α}, t.Grown goes l → t.Grown goes (l ++ [x]) := by
    intro t ht
    induction t with
    | nil => trivial
    | node left a right ihl ihr =>
      obtain ⟨ha, hleft, hl, hr⟩ := ht
      refine ⟨hsub.subset ha, ?_, ihl hl, ihr hr⟩
      intro u hu
      exact ⟨(hleft u hu).1.trans hsub, (hleft u hu).2⟩
  induction t with
  | nil =>
    refine ⟨List.mem_append_right l List.mem_cons_self, ?_, trivial, trivial⟩
    intro u hu
    cases hu
  | node left a right ihl ihr =>
    obtain ⟨ha, hleft, hl, hr⟩ := h
    rw [SearchTree.insert]
    split
    case isTrue hgo =>
      refine ⟨hsub.subset ha, ?_, ihl hl, hmono hr⟩
      intro u hu
      rcases List.mem_cons.mp ((insert_perm left x).mem_iff.mp hu) with rfl | hu
      · exact ⟨(List.singleton_sublist.mpr ha).append (List.Sublist.refl _), hgo⟩
      · exact ⟨(hleft u hu).1.trans hsub, (hleft u hu).2⟩
    case isFalse =>
      exact ⟨hsub.subset ha, fun u hu => ⟨(hleft u hu).1.trans hsub, (hleft u hu).2⟩, hmono hl,
        ihr hr⟩

theorem put_append_of_goes (hgo : goes x a = true) :
    put goes (l ++ a :: l') x = put goes l x ++ a :: l' := by
  induction l with
  | nil =>
    rw [List.nil_append, put_cons, if_pos hgo]
    rfl
  | cons b l ih =>
    rw [List.cons_append, put_cons, put_cons, ih]
    split <;> rfl

theorem put_append_of_not (hl : ∀ u ∈ l, goes x u = false) (hgo : goes x a = false) :
    put goes (l ++ a :: l') x = l ++ a :: put goes l' x := by
  induction l with
  | nil => rw [List.nil_append, put_cons, if_neg (by simp [hgo]), List.nil_append]
  | cons b l ih =>
    have hb : goes x b = false := hl b List.mem_cons_self
    rw [List.cons_append, put_cons, if_neg (by simp [hb]),
      ih fun u hu => hl u (List.mem_cons_of_mem b hu), List.cons_append]

/-- What goes before an element that went before another one goes before that one too. -/
def Steady (goes : α → α → Bool) (l : List α) : Prop :=
  ∀ a u x, [a, u, x].Sublist l → goes u a = true → goes x u = true → goes x a = true

/-- Down the tree is the same place as along the list. -/
theorem SearchTree.insert_toList {t : SearchTree α} (ht : t.Grown goes l)
    (hx : ∀ a u, [a, u].Sublist l → goes u a = true → goes x u = true → goes x a = true) :
    (t.insert goes x).toList = put goes t.toList x := by
  induction t with
  | nil => rfl
  | node left a right ihl ihr =>
    obtain ⟨_, hleft, hgl, hgr⟩ := ht
    rw [SearchTree.insert, SearchTree.toList]
    cases hgo : goes x a with
    | true =>
      rw [put_append_of_goes hgo, if_pos rfl, SearchTree.toList, ihl hgl]
    | false =>
      have hnot : ∀ u ∈ left.toList, goes x u = false := by
        intro u hu
        by_contra hgu
        rw [Bool.not_eq_false] at hgu
        have hxa := hx a u (hleft u hu).1 (hleft u hu).2 hgu
        rw [hgo] at hxa
        cases hxa
      rw [put_append_of_not hnot hgo, if_neg (by simp), SearchTree.toList, ihr hgr]

theorem SearchTree.insertAll_grown (l : List α) : (SearchTree.insertAll goes l).Grown goes l := by
  induction l using List.reverseRecOn with
  | nil => trivial
  | append_singleton l x ih =>
    rw [SearchTree.insertAll_snoc]
    exact ih.insert x

/-- The tree sorts like the list where comparisons are steady. -/
theorem SearchTree.insertAll_toList (h : Steady goes l) :
    (SearchTree.insertAll goes l).toList = putAll goes l := by
  induction l using List.reverseRecOn with
  | nil => rfl
  | append_singleton l x ih =>
    have hinit : Steady goes l :=
      fun a u y hy => h a u y (hy.trans (List.sublist_append_left l [x]))
    rw [SearchTree.insertAll_snoc, putAll_snoc, SearchTree.insert_toList (insertAll_grown l),
      ih hinit]
    intro a u hau
    exact h a u x (hau.append (List.Sublist.refl [x]))

theorem Transitive.steady (hl : l.Nodup) (h : Transitive goes l) : Steady goes l := by
  intro a u x hsub hua hxu
  have hau : [a, u].Sublist l :=
    ((List.Sublist.refl [a, u]).append (List.nil_sublist [x])).trans hsub
  have hux : [u, x].Sublist l := (List.sublist_cons_self a [u, x]).trans hsub
  have hax : [a, x].Sublist l := ((List.sublist_cons_self u [x]).cons_cons a).trans hsub
  rcases h x u a (.inr ⟨hux, hxu⟩) (.inr ⟨hau, hua⟩) with ⟨hxa, _⟩ | ⟨_, hgo⟩
  · exact (pair_antisymm hl hax hxa).elim
  · exact hgo

/-! Elements with equal keys, of which only the first is wanted. -/

theorem zipIdx_nodup (l : List α) : l.zipIdx.Nodup := (List.nodup_zipIdx_map_snd l).of_map _

theorem pair_zipIdx {m n : α × Nat} (hm : m ∈ l.zipIdx) (hn : n ∈ l.zipIdx) (h : m.2 < n.2) :
    [m, n].Sublist l.zipIdx := by
  have hne : m ≠ n := by
    rintro rfl
    exact Nat.lt_irrefl _ h
  refine (pair_total hm hn hne).resolve_right ?_
  intro hnm
  have hsorted : (l.zipIdx.map Prod.snd).Pairwise (· < ·) := by
    rw [List.zipIdx_map_snd]
    exact List.pairwise_lt_range'
  have hlt := (hsorted.sublist (hnm.map Prod.snd))
  exact Nat.lt_asymm h (List.pairwise_pair.mp hlt)

/-- The comparison of numbered elements. -/
def numbered (goes : α → α → Bool) (m n : α × Nat) : Bool := goes m.1 n.1

/-- No element before has the same key. -/
def isFirst {κ : Type*} [DecidableEq κ] (key : α → κ) (l : List α) (n : α × Nat) : Bool :=
  decide (key n.1 ∉ (l.take n.2).map key)

/-- A new element at the end is kept where its key is new. -/
theorem filter_isFirst_snoc {κ : Type*} [DecidableEq κ] (key : α → κ) (keep : κ → Bool)
    (l : List α) (x : α) :
    ((l ++ [x]).zipIdx.filter fun n => keep (key n.1) && isFirst key (l ++ [x]) n)
      = (l.zipIdx.filter fun n => keep (key n.1) && isFirst key l n) ++
        if keep (key x) && !decide (key x ∈ l.map key) then [(x, l.length)] else [] := by
  rw [List.zipIdx_append, List.filter_append]
  congr 1
  · apply List.filter_congr
    intro n hn
    have hlt := (List.getElem?_eq_some_iff.mp (List.mem_zipIdx_iff_getElem?.mp hn)).1
    rw [isFirst, isFirst, List.take_append_of_le_length (Nat.le_of_lt hlt)]
  · have hlast : isFirst key (l ++ [x]) (x, l.length) = !decide (key x ∈ l.map key) := by
      rw [isFirst, List.take_left, decide_not]
    rw [Nat.zero_add, List.zipIdx_singleton, List.filter_cons, hlast, List.filter_nil]

theorem isFirst_of_nodup {κ : Type*} [DecidableEq κ] {key : α → κ} (hl : (l.map key).Nodup)
    {n : α × Nat} (hn : n ∈ l.zipIdx) : isFirst key l n = true := by
  rw [List.mem_zipIdx_iff_getElem?] at hn
  obtain ⟨hlt, hget⟩ := List.getElem?_eq_some_iff.mp hn
  rw [← List.take_append_drop n.2 l, List.map_append, List.nodup_append] at hl
  rw [isFirst, decide_eq_true_eq]
  intro hmem
  refine hl.2.2 _ hmem _ ?_ rfl
  rw [List.drop_eq_getElem_cons hlt, hget]
  exact List.mem_cons_self

theorem eraseDups_map {β κ : Type*} [DecidableEq κ] {key : β → κ} (first : β → Bool)
    (l : List β) (h : ∀ pre n suf, l = pre ++ n :: suf → (first n = true ↔ key n ∉ pre.map key)) :
    (l.map key).eraseDups = (l.filter first).map key := by
  induction l using List.reverseRecOn with
  | nil => rfl
  | append_singleton l n ih =>
    have hinit := ih fun pre m suf hl => h pre m (suf ++ [n]) (by rw [hl]; simp)
    have hn := h l n [] rfl
    rw [List.map_append, List.eraseDups_append, hinit, List.filter_append, List.map_append]
    congr 1
    cases hfirst : first n with
    | true =>
      have hnot := hn.mp hfirst
      simp only [List.map_cons, List.map_nil, List.removeAll, List.filter_cons, hfirst,
        List.elem_eq_mem, hnot, decide_false, Bool.not_false, if_true, List.filter_nil,
        List.eraseDups_cons, List.eraseDups_nil]
    | false =>
      have hmem : key n ∈ l.map key := by
        by_contra hnot
        rw [hn.mpr hnot] at hfirst
        cases hfirst
      simp only [List.map_cons, List.map_nil, List.removeAll, List.filter_cons, hfirst,
        List.elem_eq_mem, hmem, decide_true, Bool.not_true, Bool.false_eq_true, if_false,
        List.filter_nil, List.eraseDups_nil]

theorem eraseDups_of_nodup {κ : Type*} [DecidableEq κ] {l : List κ} (hl : l.Nodup) :
    l.eraseDups = l := by
  induction l with
  | nil => rfl
  | cons a l ih =>
    obtain ⟨ha, hl⟩ := List.nodup_cons.mp hl
    have hrest : l.filter (fun b => !b == a) = l := by
      apply List.filter_eq_self.mpr
      intro b hb
      rw [Bool.not_eq_true', beq_eq_false_iff_ne]
      rintro rfl
      exact ha hb
    rw [List.eraseDups_cons, hrest, ih hl]

/-- Where equal keys do not go before one another, the repeated ones may be taken away before or
after sorting. -/
theorem eraseDups_putAll {κ : Type*} [DecidableEq κ] (key : α → κ) (keep : κ → Bool)
    (hsame : ∀ a ∈ l, ∀ b ∈ l, key a = key b → goes a b = false)
    (h : Transitive (numbered goes) l.zipIdx) :
    (((putAll (numbered goes) l.zipIdx).filter fun n => keep (key n.1)).map
        fun n => key n.1).eraseDups
      = (putAll (numbered goes) (l.zipIdx.filter fun n =>
          keep (key n.1) && isFirst key l n)).map fun n => key n.1 := by
  have hnodup := zipIdx_nodup l
  have hsorted := (putAll_pairwise hnodup h).filter fun n => keep (key n.1)
  have hmem : ∀ {n}, n ∈ (putAll (numbered goes) l.zipIdx).filter (fun n => keep (key n.1)) ↔
      n ∈ l.zipIdx ∧ keep (key n.1) = true := by
    intro n
    rw [List.mem_filter, (putAll_perm _ _).mem_iff]
  have hget : ∀ {n}, n ∈ l.zipIdx → n.1 ∈ l :=
    fun hn => List.mem_of_getElem? (List.mem_zipIdx_iff_getElem?.mp hn)
  -- of two with the same key, the one that was there first comes first
  have hearlier : ∀ {m n}, m ∈ l.zipIdx → n ∈ l.zipIdx → m.2 < n.2 → key m.1 = key n.1 →
      Comes (numbered goes) l.zipIdx m n := by
    intro m n hm hn hlt hkey
    exact .inl ⟨pair_zipIdx hm hn hlt, hsame _ (hget hn) _ (hget hm) hkey.symm⟩
  rw [← putAll_filter _ hnodup h, eraseDups_map (isFirst key l), List.filter_filter]
  · simp only [Bool.and_comm]
  · intro pre n suf hsplit
    rw [hsplit, List.pairwise_append, List.pairwise_cons] at hsorted
    obtain ⟨_, ⟨hafter, _⟩, hbefore⟩ := hsorted
    have hn := hmem.mp (hsplit ▸ List.mem_append_right pre List.mem_cons_self)
    rw [isFirst, decide_eq_true_eq, not_iff_not]
    constructor
    · intro hrepeated
      obtain ⟨a, ha, hkey⟩ := List.mem_map.mp hrepeated
      obtain ⟨i, hi⟩ := List.mem_iff_getElem?.mp ha
      obtain ⟨hlt, hi⟩ : i < n.2 ∧ l[i]? = some a := by
        rw [List.getElem?_take] at hi
        split at hi
        case isTrue hlt => exact ⟨hlt, hi⟩
        case isFalse => cases hi
      have hm : (a, i) ∈ l.zipIdx := List.mem_zipIdx_iff_getElem?.mpr hi
      have hin : (a, i) ∈ pre ++ n :: suf := hsplit ▸ hmem.mpr ⟨hm, by rw [hkey]; exact hn.2⟩
      rcases List.mem_append.mp hin with hpre | hsuf
      · exact List.mem_map.mpr ⟨_, hpre, hkey⟩
      · rcases List.mem_cons.mp hsuf with heq | hsuf
        · subst heq
          exact (Nat.lt_irrefl _ hlt).elim
        · exact ((hafter _ hsuf).asymm hnodup (hearlier hm hn.1 hlt hkey)).elim
    · intro hrepeated
      obtain ⟨m, hpre, hkey⟩ := List.mem_map.mp hrepeated
      have hm := (hmem.mp (hsplit ▸ List.mem_append_left _ hpre)).1
      have hcomes := hbefore m hpre n List.mem_cons_self
      have hlt : m.2 < n.2 := by
        rcases Nat.lt_trichotomy m.2 n.2 with hlt | heq | hgt
        · exact hlt
        · have hmn : m = n := by
            refine Prod.ext (Option.some.inj ?_) heq
            rw [← List.mem_zipIdx_iff_getElem?.mp hm, ← List.mem_zipIdx_iff_getElem?.mp hn.1, heq]
          exact (hcomes.ne hnodup hmn).elim
        · exact (hcomes.asymm hnodup (hearlier hn.1 hm hgt hkey.symm)).elim
      refine List.mem_map.mpr ⟨m.1, ?_, hkey⟩
      refine List.mem_iff_getElem?.mpr ⟨m.2, ?_⟩
      rw [List.getElem?_take, if_pos hlt]
      exact List.mem_zipIdx_iff_getElem?.mp hm

end FusionBinutils.Insertion
