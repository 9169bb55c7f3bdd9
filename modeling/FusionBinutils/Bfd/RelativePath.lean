import FusionBinutils.Lib.Paths

/-! `adjust_relative_path` (bfd/archive.c): the path of a member of a thin archive, from the
directory of the archive. A string is the list of its characters, without the null character that
ends it. -/
namespace FusionBinutils.Bfd.RelativePath
open Paths

/-- The text up to the next separator, and what is left from there on. -/
def element (p : List Char) : List Char × List Char := (p.takeWhile (· ≠ '/'), p.dropWhile (· ≠ '/'))

/-- "Remove common leading path elements." The characters of the reference path that the loop has
passed are kept, the last one first; every turn takes a character. -/
def stripCommon : Nat → List Char → List Char → List Char → List Char × List Char × List Char
  | 0, pathp, seen, refp => (pathp, seen, refp)
  | n + 1, pathp, seen, refp =>
    let (c₁, e₁) := element pathp
    let (c₂, e₂) := element refp
    if e₁ = [] ∨ e₂ = [] ∨ c₁.length ≠ c₂.length ∨ c₁ ≠ c₂ then (pathp, seen, refp)
    else stripCommon n e₁.tail ('/' :: (c₂.reverse ++ seen)) e₂.tail

/-- "For each leading path element in the reference path": `dir_up` and `dir_down`. -/
def countDirs : List Char → List Char → Nat × Nat
  | _, [] => (0, 0)
  | seen, c :: refp =>
    let dirs := countDirs (c :: seen) refp
    if c = '/' then
      -- "If the path element is "../" then instead of inserting "../" we need to insert the name of
      -- the directory at the current level."
      if seen.take 2 = ['.', '.'] then (dirs.1, dirs.2 + 1) else (dirs.1 + 1, dirs.2)
    else dirs

/-- The loop over the name of the current directory, with `down` as an index into it. It is `none`
where the loop goes on for longer than the fuel. -/
def downLoop (pwd : List Char) : Nat → Nat → Nat → Option (Nat × Nat)
  | 0, _, _ => none
  | n + 1, dirDown, down =>
    if dirDown ≠ 0 ∧ 0 < down then
      downLoop pwd n (if pwd[down]? = some '/' then dirDown - 1 else dirDown) down
    else some (dirDown, down)

/-- `adjust_relative_path` in the directory `pwd`, where `lrealpath` gives back its argument, or
nothing. -/
def adjustRelativePath (fuel : Nat) (pwd path refPath : List Char) : Option (List Char) := do
  let (pathp, seen, refp) := stripCommon path.length path [] refPath
  let (dirUp, dirDown) := countDirs seen refp
  let ups := (List.replicate dirUp ['.', '.', '/']).flatten
  if dirDown ≠ 0 then
    let r ← downLoop pwd fuel dirDown (pwd.length - 1)
    some (ups ++ (pwd.drop r.2 ++ '/' :: pathp))
  else some (ups ++ pathp)

/-! Paths by their elements. -/

/-- A relative path of names and of elements that go up. -/
structure RelPath where
  comps : List (List Char)
  ne : comps ≠ []
  valid : ∀ c ∈ comps, Component c

def RelPath.text (p : RelPath) : List Char := join p.comps

/-- The current directory by its names. -/
structure Cwd where
  names : List (List Char)
  valid : ∀ c ∈ names, Component c ∧ c ≠ parent

/-- What `getpwd` gives. -/
def Cwd.text (cwd : Cwd) : List Char := '/' :: join cwd.names

/-- The directory in which a path is. -/
def RelPath.dir (p : RelPath) (cwd : Cwd) : List (List Char) := p.comps.dropLast.foldl walk cwd.names

/-- Two paths without the elements that they begin with in common; both keep their last one. -/
def uncommon : List (List Char) → List (List Char) → List (List Char) × List (List Char)
  | c :: c' :: cs, d :: d' :: ds =>
    if c = d then uncommon (c' :: cs) (d' :: ds) else (c :: c' :: cs, d :: d' :: ds)
  | cs, ds => (cs, ds)

/-- The function returns, and from the directory of the reference path its result names the file
that the path names. -/
def Adjusts (cwd : Cwd) (path ref : RelPath) : Prop :=
  ∃ fuel r, adjustRelativePath fuel cwd.text path.text ref.text = some r ∧
    resolve (ref.dir cwd) r = resolve cwd.names path.text

variable {c d : List Char} {cs ds dir : List (List Char)} {seen p q : List Char} {n : Nat}

theorem not_mem_of_component (h : Component c) {x : Char} (hx : x ∈ c) : x ≠ '/' := by
  rintro rfl
  exact h.slash hx

theorem element_join (h : Component c) :
    element (join (c :: cs)) = (c, if cs = [] then [] else '/' :: join cs) := by
  have hplain : ∀ x ∈ c, decide (x ≠ '/') = true := by
    intro x hx
    exact decide_eq_true (not_mem_of_component h hx)
  by_cases hcs : cs = []
  · have htext : join (c :: cs) = c ++ [] := by rw [hcs, join_singleton, List.append_nil]
    rw [htext, element, if_pos hcs, List.takeWhile_append_of_pos hplain,
      List.dropWhile_append_of_pos hplain, List.takeWhile_nil, List.dropWhile_nil, List.append_nil]
  · rw [join_cons hcs, element, if_neg hcs, List.takeWhile_append_of_pos hplain,
      List.dropWhile_append_of_pos hplain]
    simp

/-- The elements that are left behind the common ones. -/
theorem stripCommon_join (hcs : ∀ x ∈ cs, Component x) (hds : ∀ x ∈ ds, Component x)
    (hc : cs ≠ []) (hd : ds ≠ []) (hn : (join cs).length ≤ n) :
    ∃ seen', stripCommon n (join cs) seen (join ds) =
        (join (uncommon cs ds).1, seen', join (uncommon cs ds).2) ∧
      (seen' = seen ∨ seen'.head? = some '/') := by
  induction n generalizing cs ds seen with
  | zero =>
    obtain ⟨c, cs, rfl⟩ := List.exists_cons_of_ne_nil hc
    have hlen := List.length_pos_iff.mpr (hcs c List.mem_cons_self).ne
    by_cases hnil : cs = []
    · rw [hnil, join_singleton] at hn
      omega
    · rw [join_cons hnil, List.length_append] at hn
      omega
  | succ n ih =>
    obtain ⟨c, cs, rfl⟩ := List.exists_cons_of_ne_nil hc
    obtain ⟨d, ds, rfl⟩ := List.exists_cons_of_ne_nil hd
    obtain ⟨hc₁, hcs₁⟩ := List.forall_mem_cons.mp hcs
    obtain ⟨hd₁, hds₁⟩ := List.forall_mem_cons.mp hds
    rw [stripCommon, element_join hc₁, element_join hd₁]
    cases cs with
    | nil => exact ⟨seen, by rw [uncommon] <;> simp, .inl rfl⟩
    | cons c' cs =>
      cases ds with
      | nil => exact ⟨seen, by rw [uncommon] <;> simp, .inl rfl⟩
      | cons d' ds =>
        by_cases heq : c = d
        · subst heq
          rw [join_cons (List.cons_ne_nil _ _), List.length_append, List.length_cons] at hn
          obtain ⟨seen', hgo, hseen⟩ := @ih _ _ ('/' :: (c.reverse ++ seen)) hcs₁ hds₁
            (List.cons_ne_nil _ _) (List.cons_ne_nil _ _) (by omega)
          refine ⟨seen', ?_, .inr ?_⟩
          · simpa [uncommon] using hgo
          · rcases hseen with rfl | hseen
            · rfl
            · exact hseen
        · exact ⟨seen, by simp [uncommon, heq], .inl rfl⟩

/-! The directories that are left of the reference path. -/

theorem countDirs_append (h : ∀ x ∈ c, x ≠ '/') :
    countDirs seen (c ++ p) = countDirs (c.reverse ++ seen) p := by
  induction c generalizing seen with
  | nil => rfl
  | cons x c ih =>
    obtain ⟨hx, hc⟩ := List.forall_mem_cons.mp h
    rw [List.cons_append, countDirs, if_neg hx, ih hc, List.reverse_cons, List.append_assoc]
    rfl

/-- Only the end of the name before a separator is looked at. -/
theorem take_reverse_eq_iff (h : Component c) (hseen : seen = [] ∨ seen.head? = some '/') :
    (c.reverse ++ seen).take 2 = ['.', '.'] ↔ parent <:+ c := by
  have hsuffix : parent <:+ c ↔ c.reverse.take 2 = ['.', '.'] := by
    rw [← List.reverse_prefix, List.prefix_iff_eq_take, eq_comm]
    rfl
  rw [hsuffix]
  by_cases hlen : 2 ≤ c.length
  · rw [List.take_append_of_le_length (by rwa [List.length_reverse])]
  · obtain ⟨x, rfl⟩ : ∃ x, c = [x] := by
      have hpos := List.length_pos_iff.mpr h.ne
      exact List.length_eq_one_iff.mp (by omega)
    rcases hseen with rfl | hseen
    · rw [List.append_nil]
    · obtain ⟨seen, rfl⟩ : ∃ l, seen = '/' :: l := by
        cases seen with
        | nil => cases hseen
        | cons y l => exact ⟨l, by rw [Option.some.inj hseen]⟩
      simp

theorem countDirs_join (h : ∀ x ∈ ds, Component x) (hne : ds ≠ [])
    (hseen : seen = [] ∨ seen.head? = some '/') :
    countDirs seen (join ds) = ((ds.dropLast.filter fun d => ¬ parent <:+ d).length,
      (ds.dropLast.filter fun d => parent <:+ d).length) := by
  induction ds generalizing seen with
  | nil => exact absurd rfl hne
  | cons d ds ih =>
    obtain ⟨hd, hds⟩ := List.forall_mem_cons.mp h
    have hplain : ∀ x ∈ d, x ≠ '/' := fun x hx => not_mem_of_component hd hx
    by_cases hnil : ds = []
    · have hlast := @countDirs_append d seen [] hplain
      rw [List.append_nil] at hlast
      rw [hnil, join_singleton, hlast]
      rfl
    · rw [join_cons hnil, countDirs_append hplain, countDirs, if_pos rfl, ih hds hnil (.inr rfl),
        List.dropLast_cons_of_ne_nil hnil]
      by_cases hup : parent <:+ d
      · rw [if_pos ((take_reverse_eq_iff hd hseen).mpr hup)]
        simp [hup]
      · rw [if_neg fun htake => hup ((take_reverse_eq_iff hd hseen).mp htake)]
        simp [hup]

/-! The result. -/

theorem uncommon_split (hc : cs ≠ []) (hd : ds ≠ []) :
    (uncommon cs ds).1 ≠ [] ∧ (uncommon cs ds).2 ≠ [] ∧
      ∃ common, cs = common ++ (uncommon cs ds).1 ∧ ds = common ++ (uncommon cs ds).2 := by
  fun_induction uncommon cs ds with
  | case1 c' cs c d' ds ih =>
    obtain ⟨h₁, h₂, common, hcs, hds⟩ := ih (List.cons_ne_nil _ _) (List.cons_ne_nil _ _)
    refine ⟨h₁, h₂, c :: common, ?_, ?_⟩
    · rw [List.cons_append, ← hcs]
    · rw [List.cons_append, ← hds]
  | case2 => exact ⟨hc, hd, [], rfl, rfl⟩
  | case3 => exact ⟨hc, hd, [], rfl, rfl⟩

theorem ups_join (k : Nat) (hne : cs ≠ []) :
    (List.replicate k ['.', '.', '/']).flatten ++ join cs = join (List.replicate k parent ++ cs) := by
  induction k with
  | zero => rfl
  | succ k ih =>
    have hne' : List.replicate k parent ++ cs ≠ [] := List.append_ne_nil_of_right_ne_nil _ hne
    rw [List.replicate_succ, List.flatten_cons, List.append_assoc, ih, List.replicate_succ]
    exact (join_cons (c := parent) hne').symm

theorem getLast?_join_ne (h : ∀ c ∈ cs, Component c) : (join cs).getLast? ≠ some '/' := by
  induction cs with
  | nil => simp [join, List.intercalate]
  | cons c cs ih =>
    obtain ⟨hc, hcs⟩ := List.forall_mem_cons.mp h
    by_cases hnil : cs = []
    · rw [hnil, join_singleton]
      intro hlast
      exact hc.slash (List.mem_of_getLast? hlast)
    · have hlast := ih hcs
      rw [join_cons hnil]
      cases hjoin : join cs with
      | nil =>
        obtain ⟨d, ds, rfl⟩ := List.exists_cons_of_ne_nil hnil
        have hlen := congrArg List.length hjoin
        have hpos := List.length_pos_iff.mpr (hcs d List.mem_cons_self).ne
        by_cases hds : ds = []
        · rw [hds, join_singleton, List.length_nil] at hlen
          omega
        · rw [join_cons hds, List.length_append, List.length_nil] at hlen
          omega
      | cons x l =>
        rw [hjoin] at hlast
        simpa [List.getLast?_append, List.getLast?_cons_cons] using hlast

/-- `down` stays where it is, and so does the loop. -/
theorem downLoop_none {pwd : List Char} {dirDown down : Nat} (hdir : dirDown ≠ 0) (hdown : 0 < down)
    (hplain : pwd[down]? ≠ some '/') : downLoop pwd n dirDown down = none := by
  induction n with
  | zero => rfl
  | succ n ih => rw [downLoop, if_pos ⟨hdir, hdown⟩, if_neg hplain, ih]

variable {cwd : Cwd} {path ref : RelPath}

/-- The directories left of the reference path, and those that the function takes for going up. -/
def leftDirs (path ref : RelPath) : List (List Char) := (uncommon path.comps ref.comps).2.dropLast

def upDirs (path ref : RelPath) : List (List Char) := (leftDirs path ref).filter fun d => parent <:+ d

/-- `../` for each of the other ones. -/
def ups (path ref : RelPath) : List Char :=
  (List.replicate ((leftDirs path ref).filter fun d => ¬ parent <:+ d).length ['.', '.', '/']).flatten

/-- The result depends on how many there are of both. -/
theorem adjustRelativePath_eq (fuel : Nat) (pwd : List Char) (path ref : RelPath) :
    adjustRelativePath fuel pwd path.text ref.text =
      if (upDirs path ref).length ≠ 0 then
        (downLoop pwd fuel (upDirs path ref).length (pwd.length - 1)).bind fun r =>
          some (ups path ref ++ (pwd.drop r.2 ++ '/' :: join (uncommon path.comps ref.comps).1))
      else some (ups path ref ++ join (uncommon path.comps ref.comps).1) := by
  obtain ⟨seen, hstrip, hseen⟩ := @stripCommon_join _ _ [] _ path.valid ref.valid path.ne ref.ne
    (Nat.le_refl _)
  obtain ⟨hne₁, hne₂, common, hpath, href⟩ := uncommon_split path.ne ref.ne
  have hvalid : ∀ d ∈ (uncommon path.comps ref.comps).2, Component d := by
    intro d hd
    apply ref.valid
    rw [href]
    exact List.mem_append_right _ hd
  have hcount := countDirs_join hvalid hne₂ hseen
  rw [adjustRelativePath, RelPath.text, RelPath.text, hstrip]
  dsimp only
  rw [hcount]
  rfl

theorem adjusts_of_names (h : ∀ d ∈ leftDirs path ref, ¬ parent <:+ d) :
    Adjusts cwd path ref := by
  obtain ⟨hne₁, hne₂, common, hpath, href⟩ := uncommon_split path.ne ref.ne
  have hup : upDirs path ref = [] := by
    rw [upDirs, List.filter_eq_nil_iff]
    simpa using h
  have hname : ((leftDirs path ref).filter fun d => ¬ parent <:+ d) = leftDirs path ref := by
    rw [List.filter_eq_self]
    simpa using h
  have hresult := adjustRelativePath_eq 0 cwd.text path ref
  rw [hup, ups, hname, if_neg (by simp), ups_join _ hne₁] at hresult
  refine ⟨0, _, hresult, ?_⟩
  have hleft : ∀ c ∈ (uncommon path.comps ref.comps).1, Component c := by
    intro c hc
    apply path.valid
    rw [hpath]
    exact List.mem_append_right _ hc
  have hcomps : ∀ c ∈ List.replicate (leftDirs path ref).length parent ++
      (uncommon path.comps ref.comps).1, Component c := by
    intro c hc
    rcases List.mem_append.mp hc with hc | hc
    · rw [List.eq_of_mem_replicate hc]
      exact ⟨by decide, by decide, by decide⟩
    · exact hleft c hc
  -- the directory of the reference path is below the common one
  have hdir : ref.dir cwd = common.foldl walk cwd.names ++ leftDirs path ref := by
    have hdrop : ref.comps.dropLast = common ++ leftDirs path ref := by
      conv_lhs => rw [href]
      exact List.dropLast_append_of_ne_nil hne₂
    rw [RelPath.dir, hdrop, List.foldl_append]
    apply foldl_walk_names
    rintro d hd rfl
    exact h _ hd (List.suffix_refl _)
  rw [resolve_join hcomps (by simp [hne₁]), List.foldl_append, hdir, foldl_walk_parents,
    ← List.foldl_append, ← hpath, RelPath.text, resolve_join path.valid path.ne]

theorem adjustRelativePath_none (hcwd : ref.comps.length ≤ cwd.names.length) {d : List Char}
    (hd : d ∈ leftDirs path ref) (hup : parent <:+ d) (fuel : Nat) :
    adjustRelativePath fuel cwd.text path.text ref.text = none := by
  have hresult := adjustRelativePath_eq fuel cwd.text path ref
  have hdowns : (upDirs path ref).length ≠ 0 := by
    have hmem : d ∈ upDirs path ref := List.mem_filter.mpr ⟨hd, by simpa using hup⟩
    exact Nat.pos_iff_ne_zero.mp (List.length_pos_of_mem hmem)
  have hnames : cwd.names ≠ [] := by
    have hpos := List.length_pos_iff.mpr ref.ne
    exact List.length_pos_iff.mp (by omega)
  have hvalid : ∀ c ∈ cwd.names, Component c := fun c hc => (cwd.valid c hc).1
  have hjoin : join cwd.names ≠ [] := by
    intro hnil
    have hcomps := components_join hvalid hnames
    rw [hnil] at hcomps
    exact hnames hcomps.symm
  have hlength : 0 < cwd.text.length - 1 := by
    have hpos := List.length_pos_iff.mpr hjoin
    rw [Cwd.text, List.length_cons]
    omega
  have hlast : cwd.text[cwd.text.length - 1]? ≠ some '/' := by
    rw [← List.getLast?_eq_getElem?, Cwd.text]
    have hne := getLast?_join_ne hvalid
    obtain ⟨x, l, hcons⟩ := List.exists_cons_of_ne_nil hjoin
    rw [hcons] at hne ⊢
    rwa [List.getLast?_cons_cons]
  rw [hresult, if_pos hdowns, downLoop_none hdowns hlength hlast]
  rfl

/-- The loop for elements that go up in the reference path never moves; a directory whose name ends
in two periods is taken for one. -/
theorem adjusts_iff (hcwd : ref.comps.length ≤ cwd.names.length) :
    Adjusts cwd path ref ↔ ∀ d ∈ leftDirs path ref, ¬ parent <:+ d := by
  constructor
  · rintro ⟨fuel, r, hr, -⟩ d hd hup
    rw [adjustRelativePath_none hcwd hd hup] at hr
    cases hr
  · exact adjusts_of_names

/-- `foo/bar.o` -/
def fooBar : RelPath where
  comps := [['f', 'o', 'o'], ['b', 'a', 'r', '.', 'o']]
  ne := by decide
  valid := by
    simp only [List.forall_mem_cons, List.not_mem_nil, false_implies, implies_true, and_true]
    exact ⟨⟨by decide, by decide, by decide⟩, ⟨by decide, by decide, by decide⟩⟩

/-- `baz/lib.a` and `../lib.a` -/
def libIn (dir : List Char) (h : Component dir) : RelPath where
  comps := [dir, ['l', 'i', 'b', '.', 'a']]
  ne := List.cons_ne_nil _ _
  valid := by
    simp only [List.forall_mem_cons, List.not_mem_nil, false_implies, implies_true, and_true]
    exact ⟨h, ⟨by decide, by decide, by decide⟩⟩

/-- `/x/y` -/
def twoLevels : Cwd where
  names := [['x'], ['y']]
  valid := by
    simp only [List.forall_mem_cons, List.not_mem_nil, false_implies, implies_true, and_true]
    exact ⟨⟨⟨by decide, by decide, by decide⟩, by decide⟩, ⟨by decide, by decide, by decide⟩, by decide⟩

theorem adjusts_fooBar :
    Adjusts twoLevels fooBar (libIn ['b', 'a', 'z'] ⟨by decide, by decide, by decide⟩) :=
  (adjusts_iff (by decide)).mpr (by decide)

theorem parent_never_adjusts :
    ¬ Adjusts twoLevels fooBar (libIn parent ⟨by decide, by decide, by decide⟩) := by
  rintro ⟨fuel, r, hr, -⟩
  rw [adjustRelativePath_none (by decide) (d := parent) (by decide) (by decide)] at hr
  cases hr

end FusionBinutils.Bfd.RelativePath
