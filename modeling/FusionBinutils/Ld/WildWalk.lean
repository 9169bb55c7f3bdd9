import FusionBinutils.Ld.Wild
import Mathlib.Data.List.Nodup
import Mathlib.Data.List.Infix
import Mathlib.Data.List.TakeWhile

/-! The walkers that a wild statement is given, against the general one. -/
namespace FusionBinutils.Ld

variable {env : Env} {l l' : List WildcardSpec} {file : InputStatement} {sec : WildcardSpec}
  {s : Section} {name : CString} {c : Char} {p n : List Char} {abfd : Bfd}

/-! Sections and their names. -/

theorem insertSecond_perm (s : Section) (l : List Section) : (insertSecond s l).Perm (s :: l) := by
  cases l with
  | nil => exact .refl _
  | cons a l => exact .swap s a l

theorem chain_makeSectionAnyway (abfd : Bfd) (name n : CString) :
    (abfd.makeSectionAnyway name).chain n =
      if n = name then insertSecond ⟨abfd.sections.length, name⟩ (abfd.chain name)
      else abfd.chain n := by
  unfold Bfd.chain Bfd.makeSectionAnyway
  rw [List.lookup_cons]
  by_cases hn : n = name
  · simp [hn, Bfd.chain]
  · simp [hn, beq_eq_false_iff_ne.mpr hn]

theorem Bfd.empty_consistent : Bfd.empty.Consistent := by
  refine ⟨List.nodup_nil, ?_, ?_⟩
  · intro name
    exact .refl _
  · intro s hs
    cases hs

/-- A new section is in the list and in its chain. -/
theorem Bfd.Consistent.makeSectionAnyway (h : abfd.Consistent) (name : CString) :
    (abfd.makeSectionAnyway name).Consistent := by
  refine ⟨?_, ?_, ?_⟩
  · show (abfd.sections ++ [_]).Nodup
    rw [List.nodup_append]
    refine ⟨h.nodup, List.nodup_singleton _, ?_⟩
    intro a ha b hb hab
    have hlt := h.index a ha
    rw [List.mem_singleton] at hb
    rw [hab, hb] at hlt
    exact absurd hlt (Nat.lt_irrefl _)
  · intro n
    rw [chain_makeSectionAnyway]
    show List.Perm _ ((abfd.sections ++ [_]).filter _)
    rw [List.filter_append]
    by_cases hn : n = name
    · subst hn
      rw [if_pos rfl, List.filter_singleton]
      simp only [decide_true, cond_true]
      refine (insertSecond_perm _ _).trans ?_
      exact ((h.chain n).cons _).trans (List.perm_append_singleton _ _).symm
    · rw [if_neg hn, List.filter_singleton]
      simp only [Ne.symm hn, decide_false, cond_false, List.append_nil]
      exact h.chain n
  · intro a ha
    show a.index < (abfd.sections ++ [_]).length
    rw [List.length_append, List.length_singleton]
    rcases List.mem_append.mp ha with ha | ha
    · exact Nat.lt_succ_of_lt (h.index a ha)
    · rw [List.mem_singleton.mp ha]
      exact Nat.lt_succ_self _

/-- A section that was found alone is the one with the name. -/
theorem findSection_eq {s0 : Option Section} (hname : sec.name = some name)
    (hfind : findSection file sec = (s0, false)) (hs : s ∈ file.theBfd.sections) :
    some s = s0 ↔ s.name = name := by
  have hperm := file.consistent.chain name
  have hmem : s ∈ file.theBfd.chain name ↔ s.name = name := by
    rw [hperm.mem_iff, List.mem_filter, decide_eq_true_eq]
    exact and_iff_right hs
  rw [← hmem]
  unfold findSection at hfind
  rw [hname] at hfind
  simp only at hfind
  cases hc : file.theBfd.chain name with
  | nil =>
    rw [hc] at hfind
    cases hfind
    simp
  | cons a rest =>
    rw [hc] at hfind
    cases rest with
    | nil =>
      cases hfind
      simp
    | cons b rest => cases hfind

/-! Patterns. -/

/-- The part of a pattern that a name has to start with, if the pattern is plain. -/
def CString.key (name : CString) : List Char := name.withNul.take (prefixLen name)

/-- The pattern matches the name, its characters taken as they are. -/
def litMatch (sec : WildcardSpec) (s : Section) : Bool :=
  match sec.name with
  | some name => name.key.isPrefixOf s.name.withNul
  | none => false

theorem takeWhile_of_not_wildcardp (h : wildcardp name = false) :
    name.chars.takeWhile (fun c => !isWild c) = name.chars := by
  rw [List.takeWhile_eq_self_iff]
  intro c hc
  rw [wildcardp, List.any_eq_false] at h
  simpa using h c hc

/-- The key of a name without wildcards is the whole name, terminator included. -/
theorem key_of_not_wildcardp (h : wildcardp name = false) : name.key = name.withNul := by
  have hlen : strcspnWild name = name.chars.length := by
    rw [strcspnWild, takeWhile_of_not_wildcardp h]
  have hpre : prefixLen name = name.withNul.length := by
    unfold prefixLen charAt
    rw [hlen]
    simp [CString.withNul]
  rw [CString.key, hpre, List.take_length]

/-- A simple wildcard is at least four plain characters and a `*`. -/
theorem isSimpleWild_spec (h : isSimpleWild name = true) :
    ∃ lit, name.chars = lit ++ ['*'] ∧ 4 ≤ lit.length ∧ (∀ c ∈ lit, isWild c = false) ∧
      name.key = lit := by
  simp only [isSimpleWild, Bool.and_eq_true, decide_eq_true_eq] at h
  obtain ⟨⟨h4, hstar⟩, hnul⟩ := h
  obtain ⟨lit, hlit⟩ : ∃ lit, lit = name.chars.takeWhile fun c => !isWild c := ⟨_, rfl⟩
  have hlen : strcspnWild name = lit.length := by rw [strcspnWild, hlit]
  have hsplit : name.chars = lit ++ name.chars.dropWhile fun c => !isWild c := by
    rw [hlit, List.takeWhile_append_dropWhile]
  have hplain : ∀ c ∈ lit, isWild c = false := by
    intro c hc
    rw [hlit] at hc
    simpa using List.mem_takeWhile_imp hc
  rw [hlen] at h4 hstar hnul
  generalize name.chars.dropWhile (fun c => !isWild c) = rest at hsplit
  unfold charAt at hstar hnul
  rw [hsplit] at hstar hnul
  cases rest with
  | nil => simp at hstar
  | cons a rest =>
    have ha : a = '*' := by simpa using hstar
    subst ha
    have hrest : rest = [] := by
      cases rest with
      | nil => rfl
      | cons b rest =>
        -- the next character would be the terminator
        have hb : b = '\x00' := by simpa [List.getElem?_append_right] using hnul
        exact absurd (by rw [hsplit, hb]; simp) name.noNul
    subst hrest
    refine ⟨lit, hsplit, h4, hplain, ?_⟩
    have hpre : prefixLen name = lit.length := by
      unfold prefixLen charAt
      rw [hlen, hsplit]
      simp
    rw [CString.key, hpre, CString.withNul, hsplit]
    simp

theorem isPrefixOf_withNul (hp : '\x00' ∉ p) : p.isPrefixOf (n ++ ['\x00']) = p.isPrefixOf n := by
  induction p generalizing n with
  | nil => simp
  | cons a p ih =>
    rw [List.mem_cons, not_or] at hp
    cases n with
    | nil => simp [List.isPrefixOf, Ne.symm hp.1]
    | cons b n => simp [List.isPrefixOf, ih hp.2]

theorem matchRest_eq (hp : ∀ c ∈ p, isWild c = false) :
    matchRest (p ++ ['*']) n = p.isPrefixOf n := by
  induction p generalizing n with
  | nil => simp [matchRest]
  | cons a p ih =>
    have ha : a ≠ '*' := by
      rintro rfl
      exact absurd (hp '*' (by simp)) (by decide)
    rw [List.cons_append, matchRest.eq_def]
    simp only [if_neg ha]
    cases n with
    | nil => rfl
    | cons b n =>
      simp only [List.isPrefixOf, ih fun c hc => hp c (by simp [hc])]
      by_cases hab : b = a
      · simp [hab]
      · simp [hab, Ne.symm hab]

/-- The comparison of the first four characters stops at the end of the name. -/
theorem matchSimpleWild_eq (h4 : 4 ≤ p.length) (hp : ∀ c ∈ p, isWild c = false)
    (hnul : '\x00' ∉ p) : matchSimpleWild (p ++ ['*']) n = p.isPrefixOf n := by
  match p, h4 with
  | a :: b :: c :: d :: p, _ =>
    simp only [List.mem_cons, not_or] at hnul
    obtain ⟨ha, hb, hc, hd, -⟩ := hnul
    have hrest : ∀ n, matchRest (p ++ ['*']) n = p.isPrefixOf n := fun n =>
      matchRest_eq fun c hc => hp c (by simp [hc])
    unfold matchSimpleWild charAt
    match n with
    | [] => simp [List.isPrefixOf, Ne.symm ha]
    | [w] => simp [List.isPrefixOf, Ne.symm hb]
    | [w, x] => simp [List.isPrefixOf, Ne.symm hc]
    | [w, x, y] => simp [List.isPrefixOf, Ne.symm hd]
    | w :: x :: y :: z :: n =>
      simp only [List.getD_cons_zero, List.getD_cons_succ, List.drop_succ_cons, List.drop_zero,
        List.cons_append, hrest, List.isPrefixOf, Bool.and_assoc]
      rfl

/-- The specialised match of a simple wildcard takes its characters as they are. -/
theorem litMatch_eq_matchSimpleWild (hname : sec.name = some name)
    (hsimple : isSimpleWild name = true) :
    matchSimpleWild sec.str s.name.chars = litMatch sec s := by
  obtain ⟨lit, hlit, h4, hplain, hkey⟩ := isSimpleWild_spec hsimple
  have hnul : '\x00' ∉ lit := fun h => name.noNul (by rw [hlit]; simp [h])
  have hstr : sec.str = lit ++ ['*'] := by
    unfold WildcardSpec.str
    rw [hname]
    exact hlit
  unfold litMatch
  rw [hstr, matchSimpleWild_eq h4 hplain hnul, hname]
  simp only
  rw [hkey, CString.withNul, isPrefixOf_withNul hnul]

theorem eq_of_nul_prefix (h : p ++ ['\x00'] <+: n ++ ['\x00']) (hn : '\x00' ∉ n) : p = n := by
  induction p generalizing n with
  | nil =>
    cases n with
    | nil => rfl
    | cons b n =>
      rw [List.nil_append, List.cons_append, List.cons_prefix_cons] at h
      exact absurd (List.mem_cons.mpr (.inl h.1)) hn
  | cons a p ih =>
    cases n with
    | nil =>
      have hlen := h.length_le
      simp at hlen
    | cons b n =>
      rw [List.cons_append, List.cons_append, List.cons_prefix_cons] at h
      rw [h.1, ih h.2 fun hmem => hn (List.mem_cons_of_mem b hmem)]

/-- A name without wildcards is matched by itself only. -/
theorem litMatch_iff_eq (hname : sec.name = some name) (hw : wildcardp name = false) :
    litMatch sec s = true ↔ s.name = name := by
  unfold litMatch
  rw [hname]
  simp only
  rw [key_of_not_wildcardp hw, List.isPrefixOf_iff_prefix]
  constructor
  · intro h
    have hchars := eq_of_nul_prefix h s.name.noNul
    cases s with
    | mk index sname =>
      cases sname
      cases name
      simp_all
  · rintro rfl
    exact List.prefix_rfl

theorem prefixLen_le (name : CString) : prefixLen name ≤ name.withNul.length := by
  have hle : strcspnWild name ≤ name.chars.length := (List.takeWhile_prefix _).length_le
  unfold prefixLen CString.withNul
  rw [List.length_append, List.length_singleton]
  split <;> omega

/-- Patterns that cannot overlap match no section together. -/
theorem canOverlap_of_litMatch {sec2 : WildcardSpec} (h : litMatch sec s = true)
    (h2 : litMatch sec2 s = true) : sec.canOverlap sec2 = true := by
  unfold litMatch at h h2
  unfold WildcardSpec.canOverlap
  cases hn : sec.name with
  | none =>
    rw [hn] at h
    cases h
  | some name =>
    cases hn2 : sec2.name with
    | none =>
      rw [hn2] at h2
      cases h2
    | some name2 =>
      rw [hn] at h
      rw [hn2] at h2
      simp only [List.isPrefixOf_iff_prefix] at h h2
      have htake : ∀ {name : CString} {k : Nat}, name.key <+: s.name.withNul →
          k ≤ prefixLen name → name.withNul.take k = s.name.withNul.take k := by
        intro name k hkey hk
        have hlen : k ≤ name.key.length := by
          rw [CString.key, List.length_take]
          exact Nat.le_min.mpr ⟨hk, hk.trans (prefixLen_le name)⟩
        obtain ⟨r, hr⟩ := hkey
        rw [← hr, List.take_append_of_le_length hlen, CString.key, List.take_take,
          Nat.min_eq_left hk]
      simp only [wildSpecCanOverlap, decide_eq_true_eq]
      rw [htake h (Nat.min_le_left _ _), htake h2 (Nat.min_le_right _ _)]

theorem pairwise_of_not_anyOverlap (h : anyOverlap l = false) :
    l.Pairwise fun a b => a.canOverlap b = false := by
  induction l with
  | nil => exact .nil
  | cons a l ih =>
    rw [anyOverlap, Bool.or_eq_false_iff, List.any_eq_false] at h
    refine .cons ?_ (ih h.2)
    intro b hb
    simpa using h.1 b hb

/-! The walkers on patterns that do not overlap. -/

/-- One pattern, its characters taken as they are. -/
def considerLit (env : Env) (file : InputStatement) (s : Section) (sec : WildcardSpec) :
    List Call :=
  if litMatch sec s then walkWildConsiderSection env file s sec else []

/-- The first pattern of the list that matches. -/
def considerFirst (env : Env) (file : InputStatement) (s : Section) :
    List WildcardSpec → List Call
  | [] => []
  | sec :: rest =>
    if litMatch sec s then walkWildConsiderSection env file s sec
    else considerFirst env file s rest

theorem considerFirst_eq (h : l.Pairwise fun a b => a.canOverlap b = false) :
    considerFirst env file s l = l.flatMap (considerLit env file s) := by
  induction l with
  | nil => rfl
  | cons a l ih =>
    rw [List.pairwise_cons] at h
    rw [considerFirst, List.flatMap_cons]
    unfold considerLit
    split
    · next ha =>
      -- no later pattern matches the section too
      have hrest : (l.flatMap fun sec => considerLit env file s sec) = [] := by
        rw [List.flatMap_eq_nil_iff]
        intro b hb
        unfold considerLit
        rw [if_neg]
        intro hmatch
        exact absurd (h.1 b hb) (by simp [canOverlap_of_litMatch ha hmatch])
      exact (List.append_nil _).symm.trans (congrArg _ hrest.symm)
    · exact ih h.2

theorem canOverlap_comm (a b : WildcardSpec) : a.canOverlap b = b.canOverlap a := by
  unfold WildcardSpec.canOverlap
  cases a.name with
  | none => cases b.name <;> rfl
  | some n =>
    cases b.name with
    | none => rfl
    | some n2 =>
      simp only [wildSpecCanOverlap, Nat.min_comm (prefixLen n), eq_comm]

/-- The order of patterns that do not overlap does not matter. -/
theorem flatMap_considerLit_perm (hperm : l.Perm l')
    (h : l.Pairwise fun a b => a.canOverlap b = false) :
    l.flatMap (considerLit env file s) = l'.flatMap (considerLit env file s) := by
  induction hperm with
  | nil => rfl
  | cons a _ ih =>
    rw [List.pairwise_cons] at h
    rw [List.flatMap_cons, List.flatMap_cons, ih h.2]
  | swap a b l =>
    have hab : considerLit env file s a = [] ∨ considerLit env file s b = [] := by
      unfold considerLit
      by_cases ha : litMatch a s = true
      · right
        rw [if_neg]
        intro hb
        rw [List.pairwise_cons] at h
        exact absurd (h.1 a (by simp)) (by simp [canOverlap_of_litMatch hb ha])
      · exact .inl (if_neg ha)
    simp only [List.flatMap_cons]
    rcases hab with h | h <;> simp [h]
  | trans hp _ ih₁ ih₂ =>
    rw [ih₁ h, ih₂]
    exact (hp.pairwise_iff fun {a b} hab => by rwa [canOverlap_comm]).mp h

theorem handlerData_perm (l : List WildcardSpec) : (handlerData l).Perm l := by
  unfold handlerData
  have h := List.filter_append_perm WildcardSpec.isWildcard l
  exact List.perm_append_comm.trans h

/-- The statements that are given a walker of their own. -/
structure Specialised (l : List WildcardSpec) : Prop where
  plain : ∀ sec ∈ l, sec.isPlain = true
  disjoint : anyOverlap l = false
  shape : (l.length = 1 ∧ (l.filter WildcardSpec.isWildcard).length = 0) ∨
    (l.length = 1 ∧ (l.filter WildcardSpec.isWildcard).length = 1) ∨
    (l.length = 2 ∧ (l.filter WildcardSpec.isWildcard).length = 1) ∨
    (l.length = 3 ∧ (l.filter WildcardSpec.isWildcard).length = 2) ∨
    (l.length = 4 ∧ (l.filter WildcardSpec.isWildcard).length = 2)

/-- A pattern of a specialised statement that has no wildcard. -/
structure Named (l : List WildcardSpec) (sec : WildcardSpec) : Prop where
  mem : sec ∈ l
  notWild : sec.isWildcard = false

/-- A pattern of a specialised statement that has one. -/
structure Wild (l : List WildcardSpec) (sec : WildcardSpec) : Prop where
  mem : sec ∈ l
  isWild : sec.isWildcard = true

/-- The walker that a specialised statement is given. -/
inductive Given (l : List WildcardSpec) : Handler → List WildcardSpec → Prop
  | specs1Wild0 {sec0} (h0 : Named l sec0) : Given l (.specs1Wild0 sec0) [sec0]
  | specs1Wild1 {wildsec0} (h0 : Wild l wildsec0) : Given l (.specs1Wild1 wildsec0) [wildsec0]
  | specs2Wild1 {sec0 wildsec1} (h0 : Named l sec0) (h1 : Wild l wildsec1) :
    Given l (.specs2Wild1 sec0 wildsec1) [sec0, wildsec1]
  | specs3Wild2 {sec0 wildsec1 wildsec2} (h0 : Named l sec0) (h1 : Wild l wildsec1)
      (h2 : Wild l wildsec2) :
    Given l (.specs3Wild2 sec0 wildsec1 wildsec2) [sec0, wildsec1, wildsec2]
  | specs4Wild2 {sec0 sec1 wildsec2 wildsec3} (h0 : Named l sec0) (h1 : Named l sec1)
      (h2 : Wild l wildsec2) (h3 : Wild l wildsec3) :
    Given l (.specs4Wild2 sec0 sec1 wildsec2 wildsec3) [sec0, sec1, wildsec2, wildsec3]

theorem analyze_specialised (h : Specialised l) :
    Given l (analyzeWalkWildSectionHandler l) (handlerData l) := by
  have hall : l.all WildcardSpec.isPlain = true := List.all_eq_true.mpr h.plain
  have hsplit : (l.filter fun sec => !sec.isWildcard).length
      + (l.filter WildcardSpec.isWildcard).length = l.length := by
    have h := (handlerData_perm l).length_eq
    rwa [handlerData, List.length_append] at h
  have hnamed : ∀ sec ∈ l.filter (fun sec => !sec.isWildcard), Named l sec := by
    intro sec hsec
    rw [List.mem_filter] at hsec
    exact ⟨hsec.1, by simpa using hsec.2⟩
  have hwild : ∀ sec ∈ l.filter WildcardSpec.isWildcard, Wild l sec := by
    intro sec hsec
    rw [List.mem_filter] at hsec
    exact ⟨hsec.1, hsec.2⟩
  have hshape := h.shape
  unfold analyzeWalkWildSectionHandler handlerData
  simp only [hall, h.disjoint]
  generalize l.filter (fun sec => !sec.isWildcard) = named at hsplit hnamed ⊢
  generalize l.filter WildcardSpec.isWildcard = wild at hsplit hnamed hwild hshape ⊢
  obtain ⟨hl, hw⟩ | ⟨hl, hw⟩ | ⟨hl, hw⟩ | ⟨hl, hw⟩ | ⟨hl, hw⟩ := hshape
  · obtain rfl := List.length_eq_zero_iff.mp hw
    obtain ⟨a, rfl⟩ := List.length_eq_one_iff.mp (by omega : named.length = 1)
    rw [hl]
    exact .specs1Wild0 (hnamed a (by simp))
  · obtain ⟨b, rfl⟩ := List.length_eq_one_iff.mp hw
    obtain rfl := List.length_eq_zero_iff.mp (by omega : named.length = 0)
    rw [hl]
    exact .specs1Wild1 (hwild b (by simp))
  · obtain ⟨b, rfl⟩ := List.length_eq_one_iff.mp hw
    obtain ⟨a, rfl⟩ := List.length_eq_one_iff.mp (by omega : named.length = 1)
    rw [hl]
    exact .specs2Wild1 (hnamed a (by simp)) (hwild b (by simp))
  · obtain ⟨b, c, rfl⟩ := List.length_eq_two.mp hw
    obtain ⟨a, rfl⟩ := List.length_eq_one_iff.mp (by omega : named.length = 1)
    rw [hl]
    exact .specs3Wild2 (hnamed a (by simp)) (hwild b (by simp)) (hwild c (by simp))
  · obtain ⟨b, c, rfl⟩ := List.length_eq_two.mp hw
    obtain ⟨a, d, rfl⟩ := List.length_eq_two.mp (by omega : named.length = 2)
    rw [hl]
    exact .specs4Wild2 (hnamed a (by simp)) (hnamed d (by simp)) (hwild b (by simp))
      (hwild c (by simp))

/-- Every other statement keeps the general walker. -/
theorem analyze_general (h : ¬ Specialised l) : analyzeWalkWildSectionHandler l = .general := by
  unfold analyzeWalkWildSectionHandler
  simp only
  split
  · rfl
  · next hall =>
    split
    · rfl
    · next hcount =>
      split
      · rfl
      · next hover =>
        have hle : (l.filter WildcardSpec.isWildcard).length ≤ l.length :=
          List.length_filter_le _ _
        have hshape := fun hs => h ⟨by simpa using hall, by simpa using hover, hs⟩
        rw [Nat.shiftLeft_eq]
        -- each of the signatures tells the two counts
        split
        all_goals first | rfl | (exfalso; apply hshape; omega)

/-! Each walker is the list of patterns read literally, unless it falls back. -/

theorem Named.hasName (h : Specialised l) (hsec : Named l sec) :
    ∃ name, sec.name = some name ∧ wildcardp name = false := by
  have hp := h.plain sec hsec.mem
  have hw := hsec.notWild
  unfold WildcardSpec.isPlain at hp
  unfold WildcardSpec.isWildcard at hw
  cases hn : sec.name with
  | none =>
    rw [hn] at hp
    cases hp
  | some name =>
    rw [hn] at hw
    exact ⟨name, rfl, hw⟩

theorem Wild.hasName (h : Specialised l) (hsec : Wild l sec) :
    ∃ name, sec.name = some name ∧ wildcardp name = true ∧ isSimpleWild name = true := by
  have hp := h.plain sec hsec.mem
  have hw := hsec.isWild
  unfold WildcardSpec.isPlain at hp
  unfold WildcardSpec.isWildcard at hw
  cases hn : sec.name with
  | none =>
    rw [hn] at hp
    cases hp
  | some name =>
    rw [hn] at hw hp
    simp only at hw hp
    rw [hw] at hp
    exact ⟨name, rfl, hw, hp⟩

theorem Named.found (h : Specialised l) (hsec : Named l sec) {s0 : Option Section}
    (hfind : findSection file sec = (s0, false)) (hs : s ∈ file.theBfd.sections) :
    (some s = s0) = (litMatch sec s = true) := by
  obtain ⟨name, hn, hw⟩ := hsec.hasName h
  rw [eq_iff_iff, findSection_eq hn hfind hs, litMatch_iff_eq hn hw]

theorem Wild.matched (h : Specialised l) (hsec : Wild l sec) :
    matchSimpleWild sec.str s.name.chars = litMatch sec s := by
  obtain ⟨name, hn, -, hsimple⟩ := hsec.hasName h
  exact litMatch_eq_matchSimpleWild hn hsimple

/-- The sections of the file, each given to the first pattern that matches it. -/
def walkFirst (env : Env) (data : List WildcardSpec) (file : InputStatement) : List Call :=
  file.theBfd.sections.flatMap fun s => considerFirst env file s data

theorem flatMap_if (q : Section → Bool) (f : Section → List Call) (l : List Section) :
    (l.flatMap fun s => if q s then f s else []) = (l.filter q).flatMap f := by
  induction l with
  | nil => rfl
  | cons a l ih =>
    rw [List.flatMap_cons, List.filter_cons, ih]
    cases q a <;> simp

/-- The section that was found alone is the only one that matches. -/
theorem walkFirst_found (h : Specialised l) (hsec : Named l sec) {s0 : Option Section}
    (hfind : findSection file sec = (s0, false)) :
    walkFirst env [sec] file = match s0 with
      | some s0 => walkWildConsiderSection env file s0 sec
      | none => [] := by
  obtain ⟨name, hn, hw⟩ := hsec.hasName h
  have hfilter : file.theBfd.sections.filter (fun s => litMatch sec s)
      = file.theBfd.sections.filter (fun s => s.name = name) := by
    refine List.filter_congr fun s _ => ?_
    rw [Bool.eq_iff_iff, litMatch_iff_eq hn hw, decide_eq_true_eq]
  have hperm := file.consistent.chain name
  unfold walkFirst
  simp only [considerFirst]
  rw [flatMap_if (fun s => litMatch sec s), hfilter]
  unfold findSection at hfind
  rw [hn] at hfind
  simp only at hfind
  cases hc : file.theBfd.chain name with
  | nil =>
    rw [hc] at hfind hperm
    cases hfind
    rw [hperm.symm.eq_nil]
    rfl
  | cons a rest =>
    rw [hc] at hfind hperm
    cases rest with
    | nil =>
      cases hfind
      rw [List.perm_singleton.mp hperm.symm]
      exact List.append_nil _
    | cons b rest => cases hfind

theorem walkWildSection_specialised (env : Env) (h : Specialised l) (file : InputStatement) :
    (walkWildSection env l file = walkWildSectionGeneral env l file ∧
        ∃ sec, Named l sec ∧ (findSection file sec).2 = true) ∨
      walkWildSection env l file = walkFirst env (handlerData l) file := by
  have hgiven := analyze_specialised h
  unfold walkWildSection
  generalize analyzeWalkWildSectionHandler l = handler at hgiven
  generalize handlerData l = data at hgiven
  cases hgiven with
  | @specs1Wild0 sec0 h0 =>
    simp only [walkWildSectionSpecs1Wild0]
    cases hf : findSection file sec0 with
    | mk s0 multiple =>
      cases multiple with
      | true => exact .inl ⟨rfl, sec0, h0, by rw [hf]⟩
      | false =>
        right
        rw [walkFirst_found h h0 hf]
        cases s0 <;> rfl
  | specs1Wild1 h0 =>
    right
    simp only [walkWildSectionSpecs1Wild1, h0.matched h]
    rfl
  | @specs2Wild1 sec0 wildsec1 h0 h1 =>
    simp only [walkWildSectionSpecs2Wild1, h1.matched h]
    cases hf : findSection file sec0 with
    | mk s0 multiple =>
      cases multiple with
      | true => exact .inl ⟨rfl, sec0, h0, by rw [hf]⟩
      | false =>
        right
        refine List.flatMap_congr fun s hs => ?_
        simp only [h0.found h hf hs]
        rfl
  | @specs3Wild2 sec0 wildsec1 wildsec2 h0 h1 h2 =>
    simp only [walkWildSectionSpecs3Wild2, h1.matched h, h2.matched h]
    cases hf : findSection file sec0 with
    | mk s0 multiple =>
      cases multiple with
      | true => exact .inl ⟨rfl, sec0, h0, by rw [hf]⟩
      | false =>
        right
        refine List.flatMap_congr fun s hs => ?_
        simp only [h0.found h hf hs]
        rfl
  | @specs4Wild2 sec0 sec1 wildsec2 wildsec3 h0 h1 h2 h3 =>
    simp only [walkWildSectionSpecs4Wild2, h2.matched h, h3.matched h]
    cases hf : findSection file sec0 with
    | mk s0 multiple =>
      cases hf1 : findSection file sec1 with
      | mk s1 multiple1 =>
        cases multiple with
        | true => exact .inl ⟨rfl, sec0, h0, by rw [hf]⟩
        | false =>
          cases multiple1 with
          | true => exact .inl ⟨rfl, sec1, h1, by rw [hf1]⟩
          | false =>
            right
            refine List.flatMap_congr fun s hs => ?_
            simp only [h0.found h hf hs, h1.found h hf1 hs]
            rfl

/-! Wildcards that `fnmatch` reads otherwise. -/

/-- What POSIX says about `fnmatch` with flags 0 and the characters that a simple wildcard is made
of: an ordinary character stands for itself, a backslash takes the meaning from the next
character, and an asterisk at the end matches everything. -/
structure PosixFnmatch (fnmatch : List Char → List Char → Bool) : Prop where
  nil : ∀ n, fnmatch [] n = n.isEmpty
  star : ∀ n, fnmatch ['*'] n = true
  ordinary : ∀ c p, c ≠ '\\' → isWild c = false → fnmatch (c :: p) [] = false ∧
    ∀ d n, fnmatch (c :: p) (d :: n) = (c == d && fnmatch p n)
  escaped : ∀ c p, fnmatch ('\\' :: c :: p) [] = false ∧
    ∀ d n, fnmatch ('\\' :: c :: p) (d :: n) = (c == d && fnmatch p n)

variable {fnmatch : List Char → List Char → Bool}

theorem PosixFnmatch.eq_isPrefixOf (hf : PosixFnmatch fnmatch)
    (hp : ∀ c ∈ p, isWild c = false) (hb : '\\' ∉ p) :
    fnmatch (p ++ ['*']) n = p.isPrefixOf n := by
  induction p generalizing n with
  | nil => exact hf.star n
  | cons a p ih =>
    rw [List.mem_cons, not_or] at hb
    obtain ⟨hnil, hcons⟩ := hf.ordinary a (p ++ ['*']) (Ne.symm hb.1) (hp a (by simp))
    cases n with
    | nil => exact hnil
    | cons d n =>
      rw [List.cons_append, hcons, ih (fun c hc => hp c (by simp [hc])) hb.2]
      rfl

/-- A name that the pattern `p*` matches: without the backslashes that quote. -/
def unquote : List Char → List Char
  | [] => []
  | ['\\'] => ['*']
  | '\\' :: c :: p => c :: unquote p
  | c :: p => c :: unquote p

theorem length_unquote_le (p : List Char) : (unquote p).length ≤ p.length := by
  fun_induction unquote p with
  | case1 => exact Nat.le_refl _
  | case2 => exact Nat.le_refl _
  | case3 c p ih =>
    simp only [List.length_cons]
    omega
  | case4 c p _ _ ih =>
    simp only [List.length_cons]
    omega

theorem nul_not_mem_unquote (hp : '\x00' ∉ p) : '\x00' ∉ unquote p := by
  fun_induction unquote p with
  | case1 => exact hp
  | case2 => decide
  | case3 c p ih => simp_all
  | case4 c p _ _ ih => simp_all

theorem PosixFnmatch.matches_unquote (hf : PosixFnmatch fnmatch) (hp : ∀ c ∈ p, isWild c = false) :
    fnmatch (p ++ ['*']) (unquote p) = true := by
  fun_induction unquote p with
  | case1 => exact hf.star []
  | case2 =>
    show fnmatch ['\\', '*'] ['*'] = true
    rw [(hf.escaped '*' []).2, hf.nil]
    rfl
  | case3 c p ih =>
    rw [List.cons_append, List.cons_append, (hf.escaped c _).2, ih fun d hd => hp d (by simp [hd])]
    simp
  | case4 c p hone hnot ih =>
    have hc : c ≠ '\\' := by
      rintro rfl
      cases p with
      | nil => exact hone rfl rfl
      | cons d p => exact hnot d p rfl rfl
    rw [List.cons_append, (hf.ordinary c _ hc (hp c (by simp))).2,
      ih fun d hd => hp d (by simp [hd])]
    simp

/-- The literal match does not take it. -/
theorem not_prefix_unquote (hb : '\\' ∈ p) : ¬ p <+: unquote p := by
  fun_induction unquote p with
  | case1 => cases hb
  | case2 => decide
  | case3 c p ih =>
    intro h
    have hle := h.length_le
    have hlen := length_unquote_le p
    simp only [List.length_cons] at hle
    omega
  | case4 c p hone hnot ih =>
    intro h
    rcases List.mem_cons.mp hb with hc | hb
    · cases p with
      | nil => exact hone hc.symm rfl
      | cons d p => exact hnot d p hc.symm rfl
    · exact ih hb (List.cons_prefix_cons.mp h).2

/-! The walkers agree. -/

theorem handlerData_pairwise (h : Specialised l) :
    (handlerData l).Pairwise fun a b => a.canOverlap b = false :=
  ((handlerData_perm l).pairwise_iff fun {a b} hab => by rwa [canOverlap_comm]).mpr
    (pairwise_of_not_anyOverlap h.disjoint)

/-- The literal reading of a specialised statement, its patterns in their own order. -/
theorem walkFirst_eq (h : Specialised l) :
    walkFirst env (handlerData l) file
      = file.theBfd.sections.flatMap fun s => l.flatMap (considerLit env file s) := by
  refine List.flatMap_congr fun s _ => ?_
  rw [considerFirst_eq (handlerData_pairwise h),
    flatMap_considerLit_perm (handlerData_perm l) (handlerData_pairwise h)]

theorem Specialised.ne_nil (h : Specialised l) : l ≠ [] := by
  rintro rfl
  have hs := h.shape
  simp at hs

/-- The patterns of a specialised statement that `fnmatch` may read otherwise. -/
def Quotes (sec : WildcardSpec) : Prop :=
  ∃ name, sec.name = some name ∧ wildcardp name = true ∧ '\\' ∈ name.chars

/-- A pattern without quoting is matched as it is. -/
theorem considerPattern_eq (hf : PosixFnmatch env.fnmatch) (h : Specialised l) (hsec : sec ∈ l)
    (hq : Quotes sec → walkWildFileInExcludeList env sec.excludeNameList file = true) :
    considerPattern env file s sec = considerLit env file s sec := by
  unfold considerPattern considerLit
  cases hw : sec.isWildcard with
  | false =>
    obtain ⟨name, hn, hnot⟩ := Named.hasName h ⟨hsec, hw⟩
    have hlit := litMatch_iff_eq (s := s) hn hnot
    simp only [hn, nameMatch, hnot, Bool.false_eq_true, if_false, decide_eq_true_eq]
    by_cases hs : s.name = name
    · rw [if_pos hs.symm, if_pos (hlit.mpr hs)]
    · rw [if_neg (Ne.symm hs), if_neg (fun hl => hs (hlit.mp hl))]
  | true =>
    obtain ⟨name, hn, hwild, hsimple⟩ := Wild.hasName h ⟨hsec, hw⟩
    simp only [hn]
    by_cases hb : '\\' ∈ name.chars
    · -- no call either way
      have hnone : walkWildConsiderSection env file s sec = [] := by
        unfold walkWildConsiderSection
        rw [if_pos (hq ⟨name, hn, hwild, hb⟩)]
      rw [hnone, ite_self, ite_self]
    · obtain ⟨lit, hlit, h4, hplain, hkey⟩ := isSimpleWild_spec hsimple
      have hnul : '\x00' ∉ lit := fun hmem => name.noNul (by rw [hlit]; simp [hmem])
      have hb' : '\\' ∉ lit := fun hmem => hb (by rw [hlit]; simp [hmem])
      have hmatch : nameMatch env name s.name = litMatch sec s := by
        unfold nameMatch litMatch
        rw [if_pos hwild, hlit, hf.eq_isPrefixOf hplain hb', hn]
        simp only
        rw [hkey, CString.withNul, isPrefixOf_withNul hnul]
      rw [hmatch]

/-- A file whose only section has the name. -/
def InputStatement.withSection (file : InputStatement) (name : CString) : InputStatement :=
  { file with
    theBfd := Bfd.empty.makeSectionAnyway name
    consistent := Bfd.empty_consistent.makeSectionAnyway name }

theorem findSection_withSection (file : InputStatement) (name : CString) (sec : WildcardSpec) :
    (findSection (file.withSection name) sec).2 = false := by
  unfold findSection
  cases sec.name with
  | none => rfl
  | some n =>
    show (sectionIterator none ((Bfd.empty.makeSectionAnyway name).chain n)).2 = false
    rw [chain_makeSectionAnyway]
    split <;> rfl

theorem mem_walkWildConsiderSection {sec2 : WildcardSpec} {s2 : Section} :
    (some sec, s) ∈ walkWildConsiderSection env file s2 sec2 ↔
      sec = sec2 ∧ s = s2 ∧ walkWildFileInExcludeList env sec2.excludeNameList file = false := by
  unfold walkWildConsiderSection
  split
  · next h => simp [h]
  · next h => simp [h]

/-- A quoting pattern takes a section that its own walker does not. -/
theorem quotes_disagree (hf : PosixFnmatch env.fnmatch) (h : Specialised l) (hsec : sec ∈ l)
    (hq : Quotes sec) (hexcl : walkWildFileInExcludeList env sec.excludeNameList file = false) :
    ∃ name, walkWildSection env l (file.withSection name)
      ≠ walkWildSectionGeneral env l (file.withSection name) := by
  obtain ⟨name, hn, hwild, hb⟩ := hq
  obtain ⟨name', hn', -, hsimple⟩ := Wild.hasName h ⟨hsec, by simp [WildcardSpec.isWildcard, hn, hwild]⟩
  rw [hn, Option.some.injEq] at hn'
  subst hn'
  obtain ⟨lit, hlit, h4, hplain, hkey⟩ := isSimpleWild_spec hsimple
  have hnul : '\x00' ∉ lit := fun hmem => name.noNul (by rw [hlit]; simp [hmem])
  have hb' : '\\' ∈ lit := by
    rw [hlit, List.mem_append] at hb
    exact hb.resolve_right (by decide)
  refine ⟨⟨unquote lit, nul_not_mem_unquote hnul⟩, fun heq => ?_⟩
  rcases walkWildSection_specialised env h
      (file.withSection ⟨unquote lit, nul_not_mem_unquote hnul⟩) with ⟨-, sec', -, hmult⟩ | hfirst
  · rw [findSection_withSection] at hmult
    cases hmult
  · rw [hfirst, walkFirst_eq h] at heq
    obtain ⟨s, hs⟩ : ∃ s : Section, s = ⟨0, ⟨unquote lit, nul_not_mem_unquote hnul⟩⟩ := ⟨_, rfl⟩
    have hgen : (some sec, s) ∈ walkWildSectionGeneral env l
        (file.withSection ⟨unquote lit, nul_not_mem_unquote hnul⟩) := by
      unfold walkWildSectionGeneral
      rw [List.mem_flatMap]
      refine ⟨s, by rw [hs]; exact List.mem_singleton_self _, ?_⟩
      rw [if_neg h.ne_nil, List.mem_flatMap]
      refine ⟨sec, hsec, ?_⟩
      have hmatch : nameMatch env name s.name = true := by
        rw [nameMatch, if_pos hwild, hlit, hs]
        exact hf.matches_unquote hplain
      simp only [considerPattern, hn, if_pos hmatch]
      exact mem_walkWildConsiderSection.mpr ⟨rfl, rfl, hexcl⟩
    rw [← heq, List.mem_flatMap] at hgen
    obtain ⟨s', -, hmem⟩ := hgen
    obtain ⟨sec', -, hmem⟩ := List.mem_flatMap.mp hmem
    unfold considerLit at hmem
    split at hmem
    · next hmatch =>
      obtain ⟨rfl, rfl, -⟩ := mem_walkWildConsiderSection.mp hmem
      unfold litMatch at hmatch
      rw [hn] at hmatch
      simp only [hkey, hs, CString.withNul] at hmatch
      rw [isPrefixOf_withNul hnul, List.isPrefixOf_iff_prefix] at hmatch
      exact not_prefix_unquote hb' hmatch
    · cases hmem

/-- The walkers agree on every file if and only if no specialised statement has a wildcard pattern
with a backslash, but for patterns that exclude every file. -/
theorem walkers_agree_iff (env : Env) (hf : PosixFnmatch env.fnmatch) (l : List WildcardSpec) :
    (∀ file, walkWildSection env l file = walkWildSectionGeneral env l file) ↔
      (Specialised l → ∀ sec ∈ l, Quotes sec →
        ∀ file, walkWildFileInExcludeList env sec.excludeNameList file = true) := by
  constructor
  · intro hagree h sec hsec hq file
    by_contra hexcl
    obtain ⟨name, hne⟩ := quotes_disagree hf h hsec hq (by simpa using hexcl)
    exact hne (hagree (file.withSection name))
  · intro hcond file
    by_cases h : Specialised l
    · rcases walkWildSection_specialised env h file with ⟨hgen, -⟩ | hfirst
      · exact hgen
      · rw [hfirst, walkFirst_eq h]
        refine List.flatMap_congr fun s _ => ?_
        rw [if_neg h.ne_nil]
        refine List.flatMap_congr fun sec hsec => ?_
        exact (considerPattern_eq hf h hsec fun hq => hcond h sec hsec hq file).symm
    · unfold walkWildSection
      rw [analyze_general h]

/-- `fnmatch` on patterns without bracket expressions. -/
def fnmatchPlain : List Char → List Char → Bool
  | [], n => n.isEmpty
  | c :: p, n =>
    if c = '*' then n.tails.any (fnmatchPlain p)
    else if c = '\\' then
      match p, n with
      | e :: p, d :: n => e == d && fnmatchPlain p n
      | _, _ => false
    else
      match n with
      | d :: n => (c == '?' || c == d) && fnmatchPlain p n
      | [] => false

theorem fnmatchPlain_posix : PosixFnmatch fnmatchPlain := by
  refine ⟨fun n => rfl, ?_, ?_, ?_⟩
  · intro n
    show n.tails.any (fnmatchPlain []) = true
    rw [List.any_eq_true]
    exact ⟨[], (List.mem_tails _ _).mpr (List.nil_suffix), rfl⟩
  · intro c p hb hw
    have hstar : c ≠ '*' := by
      rintro rfl
      cases hw
    have hq : (c == '?') = false := by
      rw [beq_eq_false_iff_ne]
      rintro rfl
      cases hw
    refine ⟨?_, ?_⟩
    · rw [fnmatchPlain.eq_def]
      simp only [if_neg hstar, if_neg hb]
    · intro d n
      rw [fnmatchPlain.eq_def]
      simp only [if_neg hstar, if_neg hb, hq, Bool.false_or]
  · intro c p
    refine ⟨rfl, ?_⟩
    intro d n
    rw [fnmatchPlain]
    rfl

def plainEnv : Env := ⟨fnmatchPlain, some ':'⟩

def dotText : CString := ⟨['.', 't', 'e', 'x', 't'], by decide⟩

/-- The patterns `.text` and `.text.*`. -/
def textPatterns : List WildcardSpec :=
  [⟨some dotText, []⟩, ⟨some ⟨['.', 't', 'e', 'x', 't', '.', '*'], by decide⟩, []⟩]

/-- The patterns have a walker of their own, and it does what the general one does. -/
theorem walkers_agree_text : Specialised textPatterns ∧
    ∀ file, walkWildSection plainEnv textPatterns file
      = walkWildSectionGeneral plainEnv textPatterns file := by
  refine ⟨⟨by decide, by decide, by decide⟩, ?_⟩
  apply (walkers_agree_iff plainEnv fnmatchPlain_posix textPatterns).mpr
  rintro - sec hsec ⟨name, hn, -, hb⟩
  rcases List.mem_cons.mp hsec with rfl | hsec
  · cases hn
    exact absurd hb (by decide)
  · rw [List.mem_singleton.mp hsec] at hn
    cases hn
    exact absurd hb (by decide)

/-- The pattern `.te\xt*`. -/
def quotedText : WildcardSpec := ⟨some ⟨['.', 't', 'e', '\\', 'x', 't', '*'], by decide⟩, []⟩

/-- A file with a section `.text`. -/
def textFile : InputStatement where
  filename := ⟨['a', '.', 'o'], by decide⟩
  myArchive := none
  theBfd := Bfd.empty.makeSectionAnyway dotText
  consistent := Bfd.empty_consistent.makeSectionAnyway dotText

/-- The pattern takes the section, but its own walker looks for a backslash in the name. -/
theorem quotedText_missed :
    walkWildSection plainEnv [quotedText] textFile = [] ∧
      walkWildSectionGeneral plainEnv [quotedText] textFile = [(some quotedText, ⟨0, dotText⟩)] := by
  constructor <;> decide

end FusionBinutils.Ld
