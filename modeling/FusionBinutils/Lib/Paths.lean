import Mathlib.Data.List.Induction

/-! Paths as text and as lists of names, and what file they name. Nothing here refers to a
program. -/
namespace FusionBinutils.Paths
variable {c : List Char} {cs dir cwd names : List (List Char)}

/-- The name of the directory above. -/
def parent : List Char := ['.', '.']

/-- An element of a path. -/
structure Component (c : List Char) : Prop where
  ne : c ≠ []
  slash : '/' ∉ c
  dot : c ≠ ['.']

/-- The text of some elements. -/
def join (cs : List (List Char)) : List Char := ['/'].intercalate cs

@[simp] theorem join_singleton (c : List Char) : join [c] = c := by
  simp [join, List.intercalate]

theorem join_cons (h : cs ≠ []) : join (c :: cs) = c ++ '/' :: join cs := by
  cases cs with
  | nil => exact absurd rfl h
  | cons d cs => simp [join, List.intercalate]

/-- The elements of a text. -/
def components (text : List Char) : List (List Char) :=
  (text.splitOn '/').filter fun c => c ≠ [] ∧ c ≠ ['.']

theorem splitOn_join (h : ∀ c ∈ cs, '/' ∉ c) (hne : cs ≠ []) : (join cs).splitOn '/' = cs := by
  induction cs with
  | nil => exact absurd rfl hne
  | cons c cs ih =>
    obtain ⟨hc, hcs⟩ := List.forall_mem_cons.mp h
    have hplain : ∀ x ∈ c, (x == '/') = false := by
      intro x hx
      rw [beq_eq_false_iff_ne]
      rintro rfl
      exact hc hx
    by_cases hnil : cs = []
    · rw [hnil, join_singleton]
      exact List.splitOnP_eq_singleton hplain
    · rw [join_cons hnil]
      have happend : (c ++ '/' :: join cs).splitOnP (· == '/') =
          c.splitOnP (· == '/') ++ (join cs).splitOnP (· == '/') :=
        List.splitOnP_append_cons c (join cs) rfl
      rw [List.splitOnP_eq_singleton hplain] at happend
      exact happend.trans (congrArg (c :: ·) (ih hcs hnil))

theorem components_join (h : ∀ c ∈ cs, Component c) (hne : cs ≠ []) : components (join cs) = cs := by
  rw [components, splitOn_join (fun c hc => (h c hc).slash) hne, List.filter_eq_self]
  intro c hc
  simpa using ⟨(h c hc).ne, (h c hc).dot⟩

/-! Directories are lists of names, from the root on. -/

/-- From a directory on to an element; the root is its own parent. -/
def walk (dir : List (List Char)) (c : List Char) : List (List Char) :=
  if c = parent then dir.dropLast else dir ++ [c]

/-- The file that a text names for a program in the directory `cwd`. -/
def resolve (cwd : List (List Char)) (text : List Char) : List (List Char) :=
  (components text).foldl walk (if text.head? = some '/' then [] else cwd)

theorem head?_join_ne (h : ∀ c ∈ cs, Component c) : (join cs).head? ≠ some '/' := by
  cases cs with
  | nil => simp [join, List.intercalate]
  | cons c cs =>
    obtain ⟨hne, hslash, -⟩ := h c List.mem_cons_self
    obtain ⟨x, c, rfl⟩ := List.exists_cons_of_ne_nil hne
    have hx : x ≠ '/' := by
      rintro rfl
      exact hslash List.mem_cons_self
    by_cases hcs : cs = []
    · simpa [hcs] using hx
    · simpa [join_cons hcs] using hx

theorem resolve_join (h : ∀ c ∈ cs, Component c) (hne : cs ≠ []) :
    resolve cwd (join cs) = cs.foldl walk cwd := by
  rw [resolve, components_join h hne, if_neg (head?_join_ne h)]

theorem foldl_walk_names (h : ∀ c ∈ names, c ≠ parent) : names.foldl walk dir = dir ++ names := by
  induction names generalizing dir with
  | nil => exact (List.append_nil dir).symm
  | cons c names ih =>
    obtain ⟨hc, hnames⟩ := List.forall_mem_cons.mp h
    rw [List.foldl_cons, ih hnames, walk, if_neg hc, List.append_assoc]
    rfl

/-- Up again. -/
theorem foldl_walk_parents (dir names : List (List Char)) :
    (List.replicate names.length parent).foldl walk (dir ++ names) = dir := by
  induction names using List.reverseRecOn with
  | nil => exact List.append_nil dir
  | append_singleton names c ih =>
    rw [List.length_append, List.length_singleton, List.replicate_succ, List.foldl_cons, walk,
      if_pos rfl, ← List.append_assoc, List.dropLast_concat, ih]

end FusionBinutils.Paths
