import FusionBinutils.Bfd.NameTableRoundTrip
import FusionBinutils.Lib.Cells

/-! The two passes over the members make the same table, and what they put into the headers finds the
names in it (bfd/archive.c). -/
namespace FusionBinutils.Bfd.NameTable

open Armap (space slash newline arfmag maxname hdrSize lbasename)

variable {ar : Ar} {m : Member} {ms : List Member} {h : Header} {n rest written : Text}
  {last : Option Text} {lastStroff strptr stroff k : Nat}

/-- The name of a member is in the table. -/
def Ar.InTable (ar : Ar) (m : Member) : Prop :=
  ar.thin = true ∨ maxname < (ar.normal m).length

/-- The path of a member is the one of the member before it. -/
def Ar.Reused (ar : Ar) (last : Option Text) (m : Member) : Prop :=
  ar.thin = true ∧ last = some m.path

instance : Decidable (ar.InTable m) := inferInstanceAs (Decidable (_ ∨ _))

instance : Decidable (ar.Reused last m) := inferInstanceAs (Decidable (_ ∧ _))

/-- The names in the table. -/
def entries (ar : Ar) : Option Text → List Member → List Text
  | _, [] => []
  | last, m :: ms =>
    if ar.Reused last m then entries ar last ms
    else if ar.InTable m then ar.normal m :: entries ar (some m.path) ms
    else entries ar last ms

/-- The members with the places of their entries. -/
def placed (ar : Ar) : Option Text → Nat → Nat → List Member → List (Member × Nat)
  | _, _, _, [] => []
  | last, lastStroff, strptr, m :: ms =>
    if ar.Reused last m then (m, lastStroff) :: placed ar last lastStroff strptr ms
    else if ar.InTable m then
      (m, strptr) :: placed ar (some m.path) strptr (strptr + (ar.entry (ar.normal m)).length) ms
    else (m, strptr) :: placed ar last lastStroff strptr ms

theorem map_fst_placed (ar : Ar) (last : Option Text) (lastStroff strptr : Nat) (ms : List Member) :
    (placed ar last lastStroff strptr ms).map Prod.fst = ms := by
  induction ms generalizing last lastStroff strptr with
  | nil => rfl
  | cons m ms ih =>
    rw [placed]
    split
    next => rw [List.map_cons, ih]
    next =>
      split
      next => rw [List.map_cons, ih]
      next => rw [List.map_cons, ih]

/-- Members of a thin archive with one path have one name. -/
theorem normal_of_path {m' : Member} (hthin : ar.thin = true) (h : m'.path = m.path) :
    ar.normal m' = ar.normal m := by
  rw [Ar.normal, Ar.normal, if_pos hthin, if_pos hthin, h]

/-- What was stored last is an entry of the table. -/
def LastStored (ar : Ar) (before : List Text) (last : Option Text) (lastStroff : Nat) : Prop :=
  ar.thin = true → ∀ m : Member, last = some m.path →
    ∃ l₁ l₂, before = l₁ ++ ar.normal m :: l₂ ∧ lastStroff = (tableOf ar l₁).length

theorem LastStored.append {before more : List Text} (h : LastStored ar before last lastStroff) :
    LastStored ar (before ++ more) last lastStroff := by
  intro hthin m hm
  obtain ⟨l₁, l₂, rfl, hlength⟩ := h hthin m hm
  exact ⟨l₁, l₂ ++ more, by simp, hlength⟩

/-- Every member in the table has its entry at its place. -/
theorem placed_entry (before : List Text) (hlast : LastStored ar before last lastStroff)
    (hstrptr : strptr = (tableOf ar before).length) {p : Member × Nat}
    (hp : p ∈ placed ar last lastStroff strptr ms) (hin : ar.InTable p.1) :
    ∃ l₁ l₂, before ++ entries ar last ms = l₁ ++ ar.normal p.1 :: l₂ ∧
      p.2 = (tableOf ar l₁).length := by
  induction ms generalizing last lastStroff strptr before with
  | nil => cases hp
  | cons m ms ih =>
    rw [placed] at hp
    rw [entries]
    by_cases hreused : ar.Reused last m
    · rw [if_pos hreused] at hp ⊢
      rcases List.mem_cons.mp hp with rfl | hp
      · exact hlast.append hreused.1 m hreused.2
      · exact ih before hlast hstrptr hp
    rw [if_neg hreused] at hp ⊢
    by_cases hm : ar.InTable m
    · rw [if_pos hm] at hp ⊢
      rcases List.mem_cons.mp hp with rfl | hp
      · exact ⟨before, _, rfl, hstrptr⟩
      · have hlast' : LastStored ar (before ++ [ar.normal m]) (some m.path) strptr := by
          intro hthin m' hm'
          have hnormal := normal_of_path hthin (Option.some.inj hm').symm
          exact ⟨before, [], by rw [hnormal], hstrptr⟩
        have hentry := ih (before ++ [ar.normal m]) hlast' (by rw [hstrptr, tableOf_append, List.length_append]; simp [tableOf]) hp
        simpa using hentry
    · rw [if_neg hm] at hp ⊢
      rcases List.mem_cons.mp hp with rfl | hp
      · exact absurd hin hm
      · exact ih before hlast hstrptr hp

/-! The pass that fills the table. -/

theorem store_eq (a b c bs : Text) (hlength : b.length = bs.length) :
    store (a ++ b ++ c) a.length bs = some (a ++ bs ++ c) := by
  have htake : (a ++ b ++ c).take a.length = a := by rw [List.append_assoc, List.take_left]
  have hdrop : (a ++ b ++ c).drop (a.length + bs.length) = c := by
    rw [← hlength, ← List.length_append, List.drop_left]
  rw [store, if_pos (by simp only [List.length_append]; omega), htake, hdrop]

theorem putEntry_eq (hlength : n.length < 2 ^ 32) :
    putEntry ar (written ++ List.replicate ((ar.entry n).length + k) nul) written.length n =
      some (written ++ ar.entry n ++ List.replicate k nul) := by
  have hthis : thislen n = n.length := Nat.mod_eq_of_lt hlength
  obtain ⟨e, he⟩ : ∃ e, ar.ending.length = e + 1 := ⟨ar.ending.length - 1, by
    have hpos := ending_length ar
    omega⟩
  have hzeros : List.replicate ((ar.entry n).length + k) nul =
      List.replicate (n.length + 1) nul ++ (List.replicate e nul ++ List.replicate k nul) := by
    rw [Ar.entry, List.length_append, he, List.replicate_append_replicate,
      List.replicate_append_replicate]
    congr 1
    omega
  have hfirst : store (written ++ List.replicate ((ar.entry n).length + k) nul) written.length
      (n ++ [nul]) = some (written ++ (n ++ [nul]) ++ (List.replicate e nul ++ List.replicate k nul)) := by
    rw [hzeros, ← List.append_assoc]
    exact store_eq _ _ _ _ (by simp)
  have hsecond : store (written ++ (n ++ [nul]) ++ (List.replicate e nul ++ List.replicate k nul))
      (written ++ n).length ar.ending =
        some (written ++ n ++ ar.ending ++ List.replicate k nul) := by
    have hmiddle : written ++ (n ++ [nul]) ++ (List.replicate e nul ++ List.replicate k nul) =
        written ++ n ++ (nul :: List.replicate e nul) ++ List.replicate k nul := by simp
    rw [hmiddle]
    exact store_eq _ _ _ _ (by simp [he])
  rw [List.length_append] at hsecond
  rw [putEntry, hfirst, Option.bind_eq_bind, Option.bind_some, hthis, hsecond, Ar.entry,
    List.append_assoc written]

/-- What the pass that fills the table has to find. -/
structure Fills (ar : Ar) (p : Member × Nat) : Prop where
  length : (ar.normal p.1).length < 2 ^ 32
  room : ar.InTable p.1 → Room ar p.1 p.2

/-- What it does to a header. -/
def Filled (ar : Ar) (p : Member × Nat) (m' : Member) : Prop :=
  if ar.InTable p.1 then extendedName ar p.1 p.2 = some m'.hdr else m'.hdr = p.1.hdr

theorem fillTable_eq
    (hfills : ∀ p ∈ placed ar last lastStroff written.length ms, Fills ar p) :
    ∃ ms', fillTable ar last lastStroff written.length
        (written ++ List.replicate (tableOf ar (entries ar last ms)).length nul) ms =
          some (written ++ tableOf ar (entries ar last ms), ms') ∧
      List.Forall₂ (Filled ar) (placed ar last lastStroff written.length ms) ms' := by
  induction ms generalizing last lastStroff written with
  | nil => exact ⟨[], by simp [fillTable, entries, tableOf], .nil⟩
  | cons m ms ih =>
    rw [placed] at hfills
    rw [placed, entries]
    by_cases hreused : ar.Reused last m
    · have hin : ar.InTable m := .inl hreused.1
      rw [if_pos hreused] at hfills ⊢
      rw [if_pos hreused]
      obtain ⟨ms', hrest, hforall⟩ := ih fun p hp => hfills p (List.mem_cons_of_mem _ hp)
      obtain ⟨hdr, -, hhdr, -⟩ := extendedName_eq ((hfills _ List.mem_cons_self).room hin)
      refine ⟨{ m with hdr := hdr } :: ms', ?_, .cons (by rw [Filled, if_pos hin]; exact hhdr) hforall⟩
      have hguard : ar.thin = true ∧ last = some m.path := hreused
      simp only [fillTable, if_pos hguard, hhdr, hrest, Option.bind_eq_bind, Option.bind_some]
      rfl
    have hguard : ¬ (ar.thin = true ∧ last = some m.path) := hreused
    rw [if_neg hreused] at hfills ⊢
    rw [if_neg hreused]
    by_cases hin : ar.InTable m
    · rw [if_pos hin] at hfills ⊢
      rw [if_pos hin]
      have hfill := hfills _ List.mem_cons_self
      have hthis : thislen (ar.normal m) = (ar.normal m).length := Nat.mod_eq_of_lt hfill.length
      have hmore : (written ++ ar.entry (ar.normal m)).length =
          written.length + (ar.entry (ar.normal m)).length := List.length_append
      rw [← hmore] at hfills ⊢
      obtain ⟨ms', hrest, hforall⟩ := ih fun p hp => hfills p (List.mem_cons_of_mem _ hp)
      obtain ⟨hdr, -, hhdr, -⟩ := extendedName_eq (hfill.room hin)
      refine ⟨{ m with hdr := hdr } :: ms', ?_, .cons (by rw [Filled, if_pos hin]; exact hhdr) hforall⟩
      have htable : tableOf ar (ar.normal m :: entries ar (some m.path) ms) =
          ar.entry (ar.normal m) ++ tableOf ar (entries ar (some m.path) ms) := rfl
      have hput : putEntry ar (written ++ List.replicate
          (tableOf ar (ar.normal m :: entries ar (some m.path) ms)).length nul) written.length
            (ar.normal m) = some (written ++ ar.entry (ar.normal m) ++
              List.replicate (tableOf ar (entries ar (some m.path) ms)).length nul) := by
        rw [htable, List.length_append]
        exact putEntry_eq hfill.length
      have hnext : written.length + thislen (ar.normal m) + ar.ending.length =
          (written ++ ar.entry (ar.normal m)).length := by
        rw [hthis, Ar.entry, List.length_append, List.length_append]
        omega
      have hbranch : maxname < thislen (ar.normal m) ∨ ar.thin = true := by
        rw [hthis]
        exact hin.symm
      simp only [fillTable, if_neg hguard, if_pos hbranch, hput, hhdr, hnext, hrest,
        Option.bind_eq_bind, Option.bind_some]
      rw [htable, List.append_assoc]
      rfl
    · rw [if_neg hin] at hfills ⊢
      rw [if_neg hin]
      obtain ⟨ms', hrest, hforall⟩ := ih fun p hp => hfills p (List.mem_cons_of_mem _ hp)
      refine ⟨m :: ms', ?_, .cons (by rw [Filled, if_neg hin]) hforall⟩
      have hthis : thislen (ar.normal m) = (ar.normal m).length :=
        Nat.mod_eq_of_lt (hfills _ List.mem_cons_self).length
      have hbranch : ¬ (maxname < thislen (ar.normal m) ∨ ar.thin = true) := by
        rw [hthis]
        exact fun h => hin h.symm
      simp only [fillTable, if_neg hguard, if_neg hbranch, hrest, Option.bind_eq_bind,
        Option.bind_some]
      rfl

/-! The pass that sizes the table. -/

/-- A short name in its header; what was behind it stays. -/
theorem useNormalFormat_eq (hlength : n.length ≤ maxname) :
    ∃ h', useNormalFormat h n n.length = some h' ∧ h'.rest = h.rest ∧
      h'.name = n ++ slash :: h.name.drop (n.length + 1) := by
  have hlt : n.length < h.name.length := by
    rw [h.nameLength]
    exact Nat.lt_succ_of_le hlength
  have hcut : h.name = h.name.take n.length ++ [h.name[n.length]] ++ h.name.drop (n.length + 1) := by
    rw [List.append_assoc, List.singleton_append, ← List.drop_eq_getElem_cons hlt,
      List.take_append_drop]
  have htake : (h.name.take n.length).length = n.length := by
    rw [List.length_take]
    omega
  by_cases hsame : h.name.take n.length ≠ n.take n.length ∨ h.name[n.length]? ≠ some slash
  · obtain ⟨h1, hw1, hn1, hr1⟩ := Header.write_eq [] (h.name.take n.length)
      ([h.name[n.length]] ++ h.name.drop (n.length + 1)) n
      (by rw [List.nil_append, ← List.append_assoc]; exact hcut) htake
    obtain ⟨h2, hw2, hn2, hr2⟩ := Header.write_eq n [h.name[n.length]] (h.name.drop (n.length + 1))
      [slash] (h := h1) (by rw [hn1, List.nil_append, List.append_assoc]) rfl
    refine ⟨h2, ?_, hr2.trans hr1, by rw [hn2, List.append_assoc, List.singleton_append]⟩
    have hw1' : h.write 0 (n.take n.length) = some h1 := by
      rw [List.take_length]
      exact hw1
    rw [useNormalFormat, if_pos hsame, hw1', Option.bind_eq_bind, Option.bind_some, hw2]
  · obtain ⟨hname, hslash⟩ : h.name.take n.length = n ∧ h.name[n.length] = slash := by
      rw [not_or, not_not, not_not, List.take_length, List.getElem?_eq_getElem hlt] at hsame
      exact ⟨hsame.1, Option.some.inj hsame.2⟩
    refine ⟨h, by rw [useNormalFormat, if_neg hsame], rfl, ?_⟩
    conv_lhs => rw [hcut, hname, hslash]
    rw [List.append_assoc, List.singleton_append]

/-- Only a thin archive asks for the path before. -/
theorem entries_congr (hthin : ¬ ar.thin = true) (last last' : Option Text) (ms : List Member) :
    entries ar last ms = entries ar last' ms := by
  induction ms generalizing last last' with
  | nil => rfl
  | cons m ms ih =>
    have hreused (last : Option Text) : ¬ ar.Reused last m := fun h => hthin h.1
    rw [entries, if_neg (hreused last), entries, if_neg (hreused last'), ih last last']

/-- What the pass that sizes the table has to find. -/
structure Sizes (ar : Ar) (m : Member) : Prop where
  length : (ar.normal m).length < 2 ^ 32
  traditional : ar.thin = false → ar.traditionalFormat = true → (ar.normal m).length ≤ maxname

/-- What it does to a member. -/
structure Sized (ar : Ar) (m m₁ : Member) : Prop where
  same : m₁ = { m with hdr := m₁.hdr }
  long : ar.InTable m → m₁ = m
  short : ¬ ar.InTable m →
    m₁.hdr.name = ar.normal m ++ slash :: m.hdr.name.drop ((ar.normal m).length + 1)

theorem sizeTable_eq (last : Option Text) (hsizes : ∀ m ∈ ms, Sizes ar m) :
    ∃ ms₁, sizeTable ar last ms = some ((tableOf ar (entries ar last ms)).length, ms₁) ∧
      List.Forall₂ (Sized ar) ms ms₁ := by
  induction ms generalizing last with
  | nil => exact ⟨[], rfl, .nil⟩
  | cons m ms ih =>
    have hsize := hsizes m List.mem_cons_self
    have hthis : thislen (ar.normal m) = (ar.normal m).length := Nat.mod_eq_of_lt hsize.length
    have hrest (last : Option Text) := ih last fun m hm => hsizes m (List.mem_cons_of_mem _ hm)
    have hkept (hin : ar.InTable m) : Sized ar m m := ⟨rfl, fun _ => rfl, fun hnot => absurd hin hnot⟩
    have htable : (tableOf ar (ar.normal m :: entries ar (some m.path) ms)).length =
        (ar.normal m).length + ar.ending.length +
          (tableOf ar (entries ar (some m.path) ms)).length := by
      rw [tableOf_cons, List.length_append, List.length_append]
    rw [entries]
    by_cases hthin : ar.thin = true
    · have hin : ar.InTable m := .inl hthin
      by_cases hlast : last = some m.path
      · have hreused : ar.Reused last m := ⟨hthin, hlast⟩
        obtain ⟨ms₁, htotal, hforall⟩ := hrest last
        refine ⟨m :: ms₁, ?_, .cons (hkept hin) hforall⟩
        rw [if_pos hreused]
        simp only [sizeTable, if_pos hthin, if_pos hlast, htotal, Option.bind_eq_bind,
          Option.bind_some]
        rfl
      · have hreused : ¬ ar.Reused last m := fun h => hlast h.2
        obtain ⟨ms₁, htotal, hforall⟩ := hrest (some m.path)
        refine ⟨m :: ms₁, ?_, .cons (hkept hin) hforall⟩
        rw [if_neg hreused, if_pos hin, htable]
        simp only [sizeTable, if_pos hthin, if_neg hlast, htotal, Option.bind_eq_bind,
          Option.bind_some]
        rfl
    have hreused : ¬ ar.Reused last m := fun h => hthin h.1
    rw [if_neg hreused]
    obtain ⟨ms₁, htotal, hforall⟩ := hrest last
    by_cases hlong : maxname < (ar.normal m).length
    · have hin : ar.InTable m := .inr hlong
      have hformat : ar.traditionalFormat = false := by
        by_contra htraditional
        have hle := hsize.traditional (Bool.eq_false_iff.mpr hthin) (Bool.not_eq_false _ ▸ htraditional)
        omega
      refine ⟨m :: ms₁, ?_, .cons (hkept hin) hforall⟩
      have hbranch : maxname < (ar.normal m).length ∧ ar.traditionalFormat = false :=
        ⟨hlong, hformat⟩
      rw [if_pos hin, htable, entries_congr hthin (some m.path) last]
      simp only [sizeTable, if_neg hthin, hthis, if_pos hbranch, htotal, Option.bind_eq_bind,
        Option.bind_some]
      rfl
    · have hin : ¬ ar.InTable m := fun h => h.elim hthin hlong
      obtain ⟨hdr, hhdr, -, hname⟩ := useNormalFormat_eq (h := m.hdr) (Nat.le_of_not_lt hlong)
      refine ⟨{ m with hdr := hdr } :: ms₁, ?_, .cons ⟨rfl, fun h => absurd h hin, fun _ => hname⟩ hforall⟩
      have hbranch : ¬ (maxname < (ar.normal m).length ∧ ar.traditionalFormat = false) :=
        fun h => hlong h.1
      have hmin : min (ar.normal m).length maxname = (ar.normal m).length :=
        Nat.min_eq_left (Nat.le_of_not_lt hlong)
      rw [if_neg hin]
      simp only [sizeTable, if_neg hthin, hthis, if_neg hbranch, hmin, hhdr, htotal, Option.bind_eq_bind,
        Option.bind_some]
      rfl

/-- The pass that sizes the table changes no name, path or place. -/
theorem Sized.normal {m₁ : Member} (h : Sized ar m m₁) : ar.normal m₁ = ar.normal m := by
  rw [h.same]
  rfl

theorem Sized.path {m₁ : Member} (h : Sized ar m m₁) : m₁.path = m.path := by
  rw [h.same]
  rfl

theorem Sized.inTable {m₁ : Member} (h : Sized ar m m₁) : ar.InTable m₁ ↔ ar.InTable m := by
  rw [Ar.InTable, Ar.InTable, h.normal]

theorem entries_sized {ms₁ : List Member} (h : List.Forall₂ (Sized ar) ms ms₁) :
    entries ar last ms₁ = entries ar last ms := by
  induction h generalizing last with
  | nil => rfl
  | @cons m m₁ ms ms₁ hm hrest ih =>
    have hreused : ar.Reused last m₁ ↔ ar.Reused last m := by rw [Ar.Reused, Ar.Reused, hm.path]
    simp only [entries, hreused, hm.inTable, hm.normal, hm.path, ih]

theorem placed_sized {ms₁ : List Member} (h : List.Forall₂ (Sized ar) ms ms₁) :
    List.Forall₂ (fun p p₁ => Sized ar p.1 p₁.1 ∧ p₁.2 = p.2)
      (placed ar last lastStroff strptr ms) (placed ar last lastStroff strptr ms₁) := by
  induction h generalizing last lastStroff strptr with
  | nil => exact .nil
  | @cons m m₁ ms ms₁ hm hrest ih =>
    have hreused : ar.Reused last m₁ ↔ ar.Reused last m := by rw [Ar.Reused, Ar.Reused, hm.path]
    rw [placed, placed]
    by_cases hlast : ar.Reused last m
    · rw [if_pos hlast, if_pos (hreused.mpr hlast)]
      exact .cons ⟨hm, rfl⟩ ih
    rw [if_neg hlast, if_neg fun h => hlast (hreused.mp h), hm.normal, hm.path]
    by_cases hin : ar.InTable m
    · rw [if_pos hin, if_pos (hm.inTable.mpr hin)]
      exact .cons ⟨hm, rfl⟩ ih
    · rw [if_neg hin, if_neg fun h => hin (hm.inTable.mp h)]
      exact .cons ⟨hm, rfl⟩ ih

/-! Both passes. -/

/-- What the two passes make of a header. -/
def Put (ar : Ar) (p : Member × Nat) (m' : Member) : Prop :=
  if ar.InTable p.1 then extendedName ar p.1 p.2 = some m'.hdr
  else m'.hdr.name = ar.normal p.1 ++ slash :: p.1.hdr.name.drop ((ar.normal p.1).length + 1)

/-- Without an entry, the table is empty. -/
theorem not_inTable_of_tablen (h : (tableOf ar (entries ar none ms)).length = 0) :
    ∀ m ∈ ms, ¬ ar.InTable m := by
  have hempty {l : List Text} (hl : (tableOf ar l).length = 0) : l = [] := by
    cases l with
    | nil => rfl
    | cons n l =>
      have hpos := ending_length ar
      rw [tableOf_cons, List.length_append, List.length_append] at hl
      omega
  by_cases hthin : ar.thin = true
  · cases ms with
    | nil => exact fun m hm => absurd hm List.not_mem_nil
    | cons m ms =>
      have hreused : ¬ ar.Reused none m := fun h => Option.some_ne_none _ h.2.symm
      rw [entries, if_neg hreused, if_pos (.inl hthin)] at h
      cases hempty h
  · induction ms with
    | nil => exact fun m hm => absurd hm List.not_mem_nil
    | cons m ms ih =>
      have hreused : ¬ ar.Reused none m := fun h => hthin h.1
      rw [entries, if_neg hreused] at h
      by_cases hin : ar.InTable m
      · rw [if_pos hin] at h
        cases hempty h
      · rw [if_neg hin] at h
        intro m' hm'
        rcases List.mem_cons.mp hm' with rfl | hm'
        · exact hin
        · exact ih h m' hm'

theorem put_of_sized {p p₁ : Member × Nat} {m' : Member} (h : Sized ar p.1 p₁.1 ∧ p₁.2 = p.2)
    (hfilled : Filled ar p₁ m') : Put ar p m' := by
  obtain ⟨hsized, hplace⟩ := h
  rw [Put]
  split
  next hin =>
    rw [Filled, if_pos (hsized.inTable.mpr hin), hsized.long hin, hplace] at hfilled
    exact hfilled
  next hin =>
    rw [Filled, if_neg fun h => hin (hsized.inTable.mp h)] at hfilled
    rw [hfilled, hsized.short hin]

/-- The table that is made, and its members. -/
theorem constructExtendedNameTable_eq (hsizes : ∀ m ∈ ms, Sizes ar m)
    (hroom : ∀ p ∈ placed ar none 0 0 ms, ar.InTable p.1 → Room ar p.1 p.2) :
    ∃ ms', constructExtendedNameTable ar ms =
        some ⟨(tableOf ar (entries ar none ms)).length, tableOf ar (entries ar none ms), ms'⟩ ∧
      List.Forall₂ (Put ar) (placed ar none 0 0 ms) ms' := by
  obtain ⟨ms₁, hsize, hsized⟩ := sizeTable_eq none hsizes
  by_cases hzero : (tableOf ar (entries ar none ms)).length = 0
  · have hnone := not_inTable_of_tablen hzero
    refine ⟨ms₁, ?_, ?_⟩
    · rw [constructExtendedNameTable, hsize, Option.bind_eq_bind, Option.bind_some]
      simp only [List.eq_nil_of_length_eq_zero hzero]
      rfl
    · have hmem : ∀ p ∈ placed ar none 0 0 ms, ¬ ar.InTable p.1 := by
        intro p hp
        apply hnone
        rw [← map_fst_placed ar none 0 0 ms]
        exact List.mem_map_of_mem hp
      have hfirst : List.Forall₂ (fun p m₁ => Sized ar p.1 m₁) (placed ar none 0 0 ms) ms₁ := by
        rw [← map_fst_placed ar none 0 0 ms] at hsized
        exact List.forall₂_map_left_iff.mp hsized
      refine List.Forall₂.imp ?_ ((List.forall₂_and_left _ _).mpr ⟨hmem, hfirst⟩)
      intro p m₁ h
      rw [Put, if_neg h.1]
      exact h.2.short h.1
  · have hplaced : List.Forall₂ (fun p p₁ => Sized ar p.1 p₁.1 ∧ p₁.2 = p.2)
        (placed ar none 0 0 ms) (placed ar none 0 0 ms₁) := placed_sized hsized
    have hfills : ∀ p₁ ∈ placed ar none 0 ([] : Text).length ms₁, Fills ar p₁ := by
      intro p₁ hp₁
      obtain ⟨p, hp, h, hplace⟩ := Cells.mem_of_forall₂ hplaced.flip hp₁
      have hm : p.1 ∈ ms := by
        rw [← map_fst_placed ar none 0 0 ms]
        exact List.mem_map_of_mem hp
      refine ⟨by rw [h.normal]; exact (hsizes _ hm).length, ?_⟩
      intro hin
      have hin' := h.inTable.mp hin
      rw [h.long hin', hplace]
      exact hroom p hp hin'
    obtain ⟨ms', hfill, hfilled⟩ := fillTable_eq hfills
    refine ⟨ms', ?_, Cells.forall₂_comp hplaced hfilled fun p p₁ m' => put_of_sized⟩
    have hfill' : fillTable ar none 0 0
        (List.replicate (tableOf ar (entries ar none ms)).length nul) ms₁ =
          some (tableOf ar (entries ar none ms), ms') := by
      rw [entries_sized hsized] at hfill
      exact hfill
    rw [constructExtendedNameTable, hsize, Option.bind_eq_bind, Option.bind_some]
    simp only [if_neg hzero, hfill']
    rfl

/-! The table in the file. -/

theorem lt_of_arSizepad {v : Nat} {size : Text} (h : Armap.arSizepad 10 v = some size) : v < 10 ^ 10 := by
  have hlength : (Decimal.text v).length ≤ 10 := by
    rw [Armap.arSizepad] at h
    simp only [Armap.length_field] at h
    split at h
    next => cases h
    next hle => omega
  exact (Decimal.lt_pow_length_text v).trans_le (Nat.pow_le_pow_right (by decide) hlength)

/-- The table is found as it was written, with its names made strings. -/
theorem slurp_written {tablen : Nat} {table text : Text} (front rest : Text) (hlength : table.length = tablen)
    (hne : tablen ≠ 0) (hwrite : writeTable ar tablen table = some text) :
    ∃ pos, slurpExtendedNameTable (front ++ (text ++ rest)) front.length =
      some ⟨some (fixNames none (table ++ Armap.padding tablen)), pos⟩ := by
  rw [writeTable, if_neg hne, Option.bind_eq_bind, Option.bind_eq_some_iff] at hwrite
  obtain ⟨size, hsize, htext⟩ := hwrite
  obtain rfl := Option.some.inj htext
  have hlt := lt_of_arSizepad hsize
  obtain rfl : Armap.field 10 (Decimal.text ((tablen + 1) / 2 * 2)) = size :=
    Option.some.inj ((Armap.arSizepad_eq hlt).symm.trans hsize)
  have hename : Armap.field 16 ar.ename = Armap.field 16 arfilenames ∨
      Armap.field 16 ar.ename = Armap.field 16 slashes := by
    rw [Ar.ename]
    split
    · exact .inr rfl
    · exact .inl rfl
  have hhead : (Armap.field 16 ar.ename).head? ≠ some 35#8 := by
    rcases hename with hename | hename
    · rw [hename]
      decide
    · rw [hename]
      decide
  obtain ⟨hdr, hread⟩ := Armap.readArHdr_named front [] [] [] []
    (table ++ (Armap.padding tablen ++ rest)) hlt hhead
  generalize hh : (⟨ar.ename, [], [], [], [], Armap.field 10 (Decimal.text ((tablen + 1) / 2 * 2)),
    arfmag⟩ : Armap.ArHdr) = h at hread
  have hfile : front ++ (h.bytes ++ table ++ Armap.padding tablen ++ rest) =
      front ++ (h.bytes ++ (table ++ (Armap.padding tablen ++ rest))) := by
    simp only [List.append_assoc]
  have hnext : ((front ++ (h.bytes ++ (table ++ (Armap.padding tablen ++ rest)))).drop
      front.length).take 16 = Armap.field 16 ar.ename := by
    rw [List.drop_left' rfl, Armap.ArHdr.bytes, ← hh]
    simp only [List.append_assoc]
    exact List.take_left' (Armap.length_field 16 _)
  have hpad : (table ++ Armap.padding tablen).length = (tablen + 1) / 2 * 2 := by
    rw [List.length_append, hlength, Armap.padding]
    split
    · rw [List.length_singleton]
      omega
    · rw [List.length_nil]
      omega
  have hnames : ((front ++ (h.bytes ++ (table ++ (Armap.padding tablen ++ rest)))).drop
      (front.length + 60)).take ((tablen + 1) / 2 * 2) = table ++ Armap.padding tablen := by
    rw [← List.append_assoc, List.drop_left' (by
      rw [List.length_append, Armap.ArHdr.length_bytes]), ← List.append_assoc]
    exact List.take_left' hpad
  refine ⟨front.length + 60 + (tablen + 1) / 2 * 2 +
    (front.length + 60 + (tablen + 1) / 2 * 2) % 2, ?_⟩
  rw [hfile, slurpExtendedNameTable, hnext]
  simp only [Armap.length_field, ne_eq, not_true, if_false]
  rw [if_neg (by rintro ⟨h1, h2⟩; exact hename.elim h1 h2), hread]
  simp only [Option.bind_eq_bind, Option.bind_some, hnames, hpad, not_true, if_false]

/-! Names. -/

theorem slash_not_mem_lbasename (path : Text) : slash ∉ lbasename path := by
  rw [lbasename, List.mem_reverse]
  intro hmem
  have hall := List.mem_takeWhile_imp hmem
  simp at hall

/-- A member with a base name that archives can be expected to keep. -/
structure Member.Named (m : Member) : Prop where
  nonempty : lbasename m.filename ≠ []
  backslashes : backslash ∉ lbasename m.filename
  newlines : newline ∉ lbasename m.filename
  nuls : nul ∉ lbasename m.filename

/-- The condition on a member and the place of its entry. -/
structure Fits (ar : Ar) (p : Member × Nat) : Prop extends Sizes ar p.1 where
  path : ar.thin = true → Plain ar (ar.normal p.1)
  room : ar.InTable p.1 → Room ar p.1 p.2
  stale : ¬ ar.InTable p.1 → nul ∉
    (p.1.hdr.name.drop ((ar.normal p.1).length + 1)).take (maxname - 1 - (ar.normal p.1).length)
  blanks : ¬ ar.InTable p.1 → (ar.normal p.1).length = maxname → space ∉ ar.normal p.1
  bsd : ¬ ar.InTable p.1 → ar.normal p.1 = [35#8, 49#8] →
    ∀ b, p.1.hdr.name[3]? = some b → Decimal.isDigit b = false

theorem Fits.plain {p : Member × Nat} (h : Fits ar p) (hm : p.1.Named) : Plain ar (ar.normal p.1) := by
  by_cases hthin : ar.thin = true
  · exact h.path hthin
  · rw [Ar.normal, if_neg hthin]
    refine ⟨hm.nuls, hm.newlines, hm.backslashes, .inr ?_⟩
    intro hlast
    exact slash_not_mem_lbasename _ (List.mem_of_getLast? hlast)

theorem Fits.ends {p : Member × Nat} (h : Fits ar p) (hm : p.1.Named) (hin : ¬ ar.InTable p.1) :
    Ends (ar.normal p.1) (p.1.hdr.name.drop ((ar.normal p.1).length + 1)) := by
  have hthin : ¬ ar.thin = true := fun hthin => hin (.inl hthin)
  have hnormal : ar.normal p.1 = lbasename p.1.filename := by rw [Ar.normal, if_neg hthin]
  refine ⟨?_, ?_, ?_, ?_, h.stale hin, h.blanks hin, ?_⟩
  · rw [hnormal]
    exact hm.nonempty
  · rw [hnormal]
    exact slash_not_mem_lbasename _
  · rw [hnormal]
    exact hm.nuls
  · by_contra hlong
    exact hin (.inr (by omega))
  · intro heq b hb
    apply h.bsd hin heq b
    rw [heq, List.head?_drop] at hb
    exact hb

/-- The header of a member gives its stored name and, in a thin archive, the place in its own
archive. -/
def ReadsBack (ar : Ar) (names : Option Text) (m m' : Member) : Prop :=
  ∀ mag after, ∃ r, readArHdrMag ar.thin names mag (m'.hdr.bytes ++ after) = some r ∧
    r.filename = ar.normal m ∧ (ar.thin = true → r.origin = storedOrigin ar m)

/-- A member in the table. -/
theorem readsBack_long {p : Member × Nat} {m' : Member} {pad : Text}
    (hall : ∀ n ∈ entries ar none ms, Plain ar n) (hp : p ∈ placed ar none 0 0 ms)
    (hin : ar.InTable p.1) (hroom : Room ar p.1 p.2) (hput : Put ar p m') :
    ReadsBack ar (some (fixNames none (tableOf ar (entries ar none ms) ++ pad))) p.1 m' := by
  rw [Put, if_pos hin] at hput
  obtain ⟨hdr, y, hhdr, -, hname, hy⟩ := extendedName_eq hroom
  obtain rfl := Option.some.inj (hput.symm.trans hhdr)
  have hlast : LastStored ar [] none 0 := fun _ m hm => absurd hm.symm (Option.some_ne_none _)
  obtain ⟨l₁, l₂, hentries, hplace⟩ := placed_entry [] hlast rfl hp hin
  rw [List.nil_append] at hentries
  have hlt : p.2 < (fixNames none (tableOf ar (entries ar none ms) ++ pad)).length := by
    have hpos := ending_length ar
    rw [length_fixNames, hentries, tableOf_append, tableOf_cons, hplace]
    simp only [List.length_append]
    omega
  intro mag after
  obtain ⟨size, hread⟩ := readArHdrMag_bytes m'.hdr
  refine ⟨_, (hread _ _ _ _).trans (readFilename_extended hroom hy hlt hname), ?_, fun _ => rfl⟩
  rw [hentries] at hall ⊢
  rw [hplace]
  exact fixNames_at (fun n hn => hall n (by simp [hn])) (hall _ (by simp)) pad

/-- A member whose name is in its header. -/
theorem readsBack_short {p : Member × Nat} {m' : Member} {names : Option Text} (hm : p.1.Named)
    (hfits : Fits ar p) (hin : ¬ ar.InTable p.1) (hput : Put ar p m') :
    ReadsBack ar names p.1 m' := by
  rw [Put, if_neg hin] at hput
  intro mag after
  obtain ⟨size, hread⟩ := readArHdrMag_bytes m'.hdr
  refine ⟨_, (hread _ _ _ _).trans (readFilename_short hput (hfits.ends hm hin)), rfl, ?_⟩
  intro hthin
  exact absurd (.inl hthin) hin

theorem mem_entries (hn : n ∈ entries ar last ms) (lastStroff strptr : Nat) :
    ∃ p ∈ placed ar last lastStroff strptr ms, n = ar.normal p.1 := by
  induction ms generalizing last lastStroff strptr with
  | nil => cases hn
  | cons m ms ih =>
    rw [entries] at hn
    rw [placed]
    by_cases hreused : ar.Reused last m
    · rw [if_pos hreused] at hn ⊢
      obtain ⟨p, hp, heq⟩ := ih hn lastStroff strptr
      exact ⟨p, List.mem_cons_of_mem _ hp, heq⟩
    rw [if_neg hreused] at hn ⊢
    by_cases hin : ar.InTable m
    · rw [if_pos hin] at hn ⊢
      rcases List.mem_cons.mp hn with rfl | hn
      · exact ⟨_, List.mem_cons_self, rfl⟩
      · obtain ⟨p, hp, heq⟩ := ih hn strptr _
        exact ⟨p, List.mem_cons_of_mem _ hp, heq⟩
    · rw [if_neg hin] at hn ⊢
      obtain ⟨p, hp, heq⟩ := ih hn lastStroff strptr
      exact ⟨p, List.mem_cons_of_mem _ hp, heq⟩

theorem mem_of_placed {p : Member × Nat} (hp : p ∈ placed ar last lastStroff strptr ms) : p.1 ∈ ms := by
  rw [← map_fst_placed ar last lastStroff strptr ms]
  exact List.mem_map_of_mem hp

/-- What is said of a member with its place holds of the list of the members. -/
theorem forall₂_of_placed {R : Member → Member → Prop} {ms' : List Member}
    (hput : List.Forall₂ (Put ar) (placed ar none 0 0 ms) ms')
    (h : ∀ p ∈ placed ar none 0 0 ms, ∀ m', Put ar p m' → R p.1 m') : List.Forall₂ R ms ms' := by
  have hboth := (List.forall₂_and_left _ _).mpr ⟨h, hput⟩
  have hplaced : List.Forall₂ (fun p m' => R p.1 m') (placed ar none 0 0 ms) ms' :=
    hboth.imp fun p m' hp => hp.1 m' hp.2
  have hmap := List.forall₂_map_left_iff.mpr hplaced
  rwa [map_fst_placed] at hmap

/-- The names of an archive come back where its members fit. -/
theorem readsBack_of_fits (hnamed : ∀ m ∈ ms, m.Named)
    (hfits : ∀ p ∈ placed ar none 0 0 ms, Fits ar p) :
    ∃ c, constructExtendedNameTable ar ms = some c ∧
      c.table = tableOf ar (entries ar none ms) ∧ c.table.length = c.tablen ∧
      ∀ front text rest, writeTable ar c.tablen c.table = some text →
        (c.tablen ≠ 0 → ∃ found,
          slurpExtendedNameTable (front ++ (text ++ rest)) front.length = some found) ∧
        ∀ found, slurpExtendedNameTable (front ++ (text ++ rest)) front.length = some found →
          List.Forall₂ (ReadsBack ar found.extendedNames) ms c.members := by
  have hsizes : ∀ m ∈ ms, Sizes ar m := by
    intro m hm
    rw [← map_fst_placed ar none 0 0 ms] at hm
    obtain ⟨p, hp, rfl⟩ := List.mem_map.mp hm
    exact (hfits p hp).toSizes
  obtain ⟨ms', hconstruct, hput⟩ :=
    constructExtendedNameTable_eq hsizes fun p hp hin => (hfits p hp).room hin
  have hplain : ∀ n ∈ entries ar none ms, Plain ar n := by
    intro n hn
    obtain ⟨p, hp, rfl⟩ := mem_entries hn 0 0
    exact (hfits p hp).plain (hnamed _ (mem_of_placed hp))
  refine ⟨_, hconstruct, rfl, rfl, ?_⟩
  intro front text rest hwrite
  by_cases hzero : (tableOf ar (entries ar none ms)).length = 0
  · refine ⟨fun hne => absurd hzero hne, ?_⟩
    intro found _
    apply forall₂_of_placed hput
    intro p hp m' hput'
    have hm := mem_of_placed hp
    exact readsBack_short (hnamed _ hm) (hfits p hp) (not_inTable_of_tablen hzero _ hm) hput'
  · obtain ⟨pos, hslurp⟩ := slurp_written front rest rfl hzero hwrite
    refine ⟨fun _ => ⟨_, hslurp⟩, ?_⟩
    intro found hfound
    obtain rfl := Option.some.inj (hslurp.symm.trans hfound)
    apply forall₂_of_placed hput
    intro p hp m' hput'
    by_cases hin : ar.InTable p.1
    · exact readsBack_long hplain hp hin ((hfits p hp).room hin) hput'
    · exact readsBack_short (hnamed _ (mem_of_placed hp)) (hfits p hp) hin hput'

/-- Where no name is long, the names come back only if the members fit. -/
theorem fits_of_readsBack (hnamed : ∀ m ∈ ms, m.Named) (hsizes : ∀ m ∈ ms, Sizes ar m)
    (hshort : ∀ m ∈ ms, ¬ ar.InTable m) :
    ∃ c, constructExtendedNameTable ar ms = some c ∧
      (List.Forall₂ (ReadsBack ar none) ms c.members → ∀ p ∈ placed ar none 0 0 ms, Fits ar p) := by
  obtain ⟨ms', hconstruct, hput⟩ := constructExtendedNameTable_eq hsizes fun p hp hin =>
    absurd hin (hshort _ (mem_of_placed hp))
  refine ⟨_, hconstruct, ?_⟩
  intro hreads p hp
  have hm := mem_of_placed hp
  have hin := hshort _ hm
  have hthin : ¬ ar.thin = true := fun hthin => hin (.inl hthin)
  have hnormal : ar.normal p.1 = lbasename p.1.filename := by rw [Ar.normal, if_neg hthin]
  -- its header, and what is read of it
  have hboth : List.Forall₂ (fun p m' => ReadsBack ar none p.1 m') (placed ar none 0 0 ms) ms' := by
    rw [← map_fst_placed ar none 0 0 ms] at hreads
    exact List.forall₂_map_left_iff.mp hreads
  obtain ⟨i, hi⟩ := List.getElem?_of_mem hp
  obtain ⟨m', hi', hput'⟩ := Cells.getElem?_of_forall₂ hput hi
  obtain ⟨m'', hi'', hread⟩ := Cells.getElem?_of_forall₂ hboth hi
  obtain rfl := Option.some.inj (hi'.symm.trans hi'')
  rw [Put, if_neg hin] at hput'
  obtain ⟨size, hsize⟩ := readArHdrMag_bytes m'.hdr
  have hlength : (ar.normal p.1).length ≤ maxname := by
    by_contra hlong
    exact hin (.inr (by omega))
  have hends : Ends (ar.normal p.1) (p.1.hdr.name.drop ((ar.normal p.1).length + 1)) := by
    apply ends_of_readFilename hput' _ _ _ hlength
    · intro after
      obtain ⟨r, hr, hfilename, -⟩ := hread none after
      exact ⟨r, (hsize _ _ _ _).symm.trans hr, hfilename⟩
    · rw [hnormal]
      exact (hnamed _ hm).nonempty
    · rw [hnormal]
      exact slash_not_mem_lbasename _
    · rw [hnormal]
      exact (hnamed _ hm).nuls
  refine ⟨hsizes _ hm, fun h => absurd h hthin, fun h => absurd h hin, fun _ => hends.stale,
    fun _ => hends.blanks, ?_⟩
  intro _ heq b hb
  apply hends.bsd heq b
  rw [heq, List.head?_drop]
  exact hb

/-- The names of the members of an archive come back where every member fits; and for members without
long names, of a size that is read right, only there. -/
theorem names_read_back (ar : Ar) (ms : List Member) (hnamed : ∀ m ∈ ms, m.Named) :
    ((∀ p ∈ placed ar none 0 0 ms, Fits ar p) →
      ∃ c, constructExtendedNameTable ar ms = some c ∧
        c.table = tableOf ar (entries ar none ms) ∧ c.table.length = c.tablen ∧
        ∀ front text rest, writeTable ar c.tablen c.table = some text →
          (c.tablen ≠ 0 → ∃ found,
            slurpExtendedNameTable (front ++ (text ++ rest)) front.length = some found) ∧
          ∀ found, slurpExtendedNameTable (front ++ (text ++ rest)) front.length = some found →
            List.Forall₂ (ReadsBack ar found.extendedNames) ms c.members) ∧
    ((∀ m ∈ ms, Sizes ar m ∧ ¬ ar.InTable m) →
      ∃ c, constructExtendedNameTable ar ms = some c ∧
        (List.Forall₂ (ReadsBack ar none) ms c.members →
          ∀ p ∈ placed ar none 0 0 ms, Fits ar p)) :=
  ⟨readsBack_of_fits hnamed, fun h =>
    fits_of_readsBack hnamed (fun m hm => (h m hm).1) fun m hm => (h m hm).2⟩

/-- A header of spaces, for an empty file. -/
def blankHeader : Header where
  name := List.replicate 16 space
  rest := List.replicate 32 space ++ Armap.field 10 [48#8] ++ arfmag
  nameLength := rfl
  restLength := rfl
  fmag := rfl
  size := rfl

/-- `ar rc` of files in a directory, with a `/` behind the names. -/
def plainAr : Ar := ⟨Armap.ascii ['l', '.', 'a'], false, true, false, fun path _ => path⟩

/-- `d/a.o` and `a-rather-long-name.o` -/
def twoMembers : List Member :=
  [⟨Armap.ascii ['d', '/', 'a', '.', 'o'], none, 0, blankHeader⟩,
    ⟨Armap.ascii ['a', '-', 'r', 'a', 't', 'h', 'e', 'r', '-', 'l', 'o', 'n', 'g', '-', 'n', 'a', 'm',
      'e', '.', 'o'], none, 0, blankHeader⟩]

theorem names_read_back_twoMembers :
    ∃ c, constructExtendedNameTable plainAr twoMembers = some c ∧
      c.table = tableOf plainAr (entries plainAr none twoMembers) ∧ c.table.length = c.tablen ∧
      ∀ front text rest, writeTable plainAr c.tablen c.table = some text →
        (c.tablen ≠ 0 → ∃ found,
          slurpExtendedNameTable (front ++ (text ++ rest)) front.length = some found) ∧
        ∀ found, slurpExtendedNameTable (front ++ (text ++ rest)) front.length = some found →
          List.Forall₂ (ReadsBack plainAr found.extendedNames) twoMembers c.members := by
  apply (names_read_back plainAr twoMembers _).1
  · intro p hp
    have hplaced : placed plainAr none 0 0 twoMembers =
        [(⟨Armap.ascii ['d', '/', 'a', '.', 'o'], none, 0, blankHeader⟩, 0),
          (⟨Armap.ascii ['a', '-', 'r', 'a', 't', 'h', 'e', 'r', '-', 'l', 'o', 'n', 'g', '-', 'n', 'a',
            'm', 'e', '.', 'o'], none, 0, blankHeader⟩, 0)] := rfl
    rw [hplaced, List.mem_cons, List.mem_singleton] at hp
    rcases hp with rfl | rfl
    · refine ⟨⟨by decide, by decide⟩, fun hthin => (by cases hthin), ?_, by decide, by decide,
        by decide⟩
      intro hin
      exact absurd hin (by decide)
    · refine ⟨⟨by decide, by decide⟩, fun hthin => (by cases hthin), ?_, ?_, ?_, ?_⟩
      · intro _
        exact ⟨by decide, by decide⟩
      all_goals
        intro hin
        exact absurd (by decide) hin
  · intro m hm
    rw [twoMembers, List.mem_cons, List.mem_singleton] at hm
    rcases hm with rfl | rfl
    · exact ⟨by decide, by decide, by decide, by decide⟩
    · exact ⟨by decide, by decide, by decide, by decide⟩

/-- A name of fifteen characters with a blank in it. -/
def blankName : Member :=
  ⟨Armap.ascii ['a', ' ', 'b', 'c', 'd', 'e', 'f', 'g', 'h', 'i', 'j', 'k', 'l', 'm', 'n'], none, 0,
    blankHeader⟩

/-- It ends at the blank when it is read. -/
theorem blank_name_cut : blankName.Named ∧
    ∃ c, constructExtendedNameTable plainAr [blankName] = some c ∧ c.tablen = 0 ∧
      ¬ ∃ names, List.Forall₂ (ReadsBack plainAr names) [blankName] c.members := by
  refine ⟨⟨by decide, by decide, by decide, by decide⟩, _, rfl, rfl, ?_⟩
  rintro ⟨names, hreads⟩
  cases hreads with
  | cons hread _ =>
    obtain ⟨r, hr, hfilename, -⟩ := hread none []
    have hcut : some 1 = (some r).map fun r : AreltData => r.filename.length :=
      congrArg (Option.map fun r : AreltData => r.filename.length) hr
    rw [Option.map_some, hfilename] at hcut
    exact absurd hcut (by decide)

end FusionBinutils.Bfd.NameTable
