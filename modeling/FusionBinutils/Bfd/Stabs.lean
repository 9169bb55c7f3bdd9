import FusionBinutils.Lib.Decimal
import FusionBinutils.Lib.Representatives
import FusionBinutils.Opcode.Encoding
import Mathlib.Data.List.Infix

/-! Headers that are left out of linked stabs (bfd/stabs.c): an `N_BINCL` whose stabs are those of an
earlier one becomes an `N_EXCL`. -/
namespace FusionBinutils.Bfd.Stabs

def nBincl : BfdByte := 0x82#8
def nEincl : BfdByte := 0xa2#8
def nExcl : BfdByte := 0xc2#8

/-- A symbol of a `.stab` section; nothing looks at its other fields. -/
structure Stab where
  strx : Nat
  type : BfdByte
  value : Nat
  deriving DecidableEq, Repr

/-- A string of a `.stabstr` section; without a NUL behind it something behind the section is read. -/
def stringAt (strs : List BfdByte) (offset : Nat) : Option (List BfdByte) :=
  if 0#8 ∈ strs.drop offset then some ((strs.drop offset).takeWhile (· ≠ 0#8)) else none

/-! The totals of a header. -/

/-- `struct stab_link_includes_totals`. -/
structure Totals where
  sumChars : BitVec 64
  numChars : Nat
  symb : List BfdByte
  deriving DecidableEq, Repr

def Totals.zero : Totals := ⟨0, 0, []⟩

def Totals.add (t : Totals) (c : BfdByte) : Totals :=
  ⟨t.sumChars + c.signExtend 64, t.numChars + 1, t.symb ++ [c]⟩

/-- The loop over a string; `skip` is set behind an opening parenthesis: "Skip the file number." -/
def addString : Bool → List BfdByte → Totals → Totals
  | _, [], t => t
  | skip, c :: str, t =>
    if skip && Decimal.isDigit c then addString true str t else addString (c = 40#8) str (t.add c)

/-- The scan ahead to the next `N_EINCL`, "ignoring nesting". -/
def scanIncl (strs : List BfdByte) (stroff : Nat) : Nat → Totals → List Stab → Option Totals
  | _, t, [] => some t
  | nest, t, s :: rest =>
    if s.type = 0 then some t
    else if s.type = nExcl then scanIncl strs stroff nest t rest
    else if s.type = nEincl then
      match nest with
      | 0 => some t
      | nest + 1 => scanIncl strs stroff nest t rest
    else if s.type = nBincl then scanIncl strs stroff (nest + 1) t rest
    else if nest = 0 then do
      let str ← stringAt strs (stroff + s.strx)
      scanIncl strs stroff nest (addString false str t) rest
    else scanIncl strs stroff nest t rest

/-- "If we have already included a header file with the same value". -/
def Totals.same (t u : Totals) : Bool :=
  t.sumChars = u.sumChars && t.numChars = u.numChars &&
    t.symb.take u.numChars = u.symb.take u.numChars

/-- "Mark the skipped symbols." -/
def markSkipped : Nat → List Stab → List Bool → List Bool
  | _, [], marks => marks
  | nest, s :: rest, marks =>
    let mark := marks.headD false
    if s.type = nEincl then
      match nest with
      | 0 => true :: marks.tail
      | nest + 1 => mark :: markSkipped nest rest marks.tail
    else if s.type = nBincl then mark :: markSkipped (nest + 1) rest marks.tail
    else if s.type = nExcl then mark :: markSkipped nest rest marks.tail
    else if nest = 0 then true :: markSkipped nest rest marks.tail
    else mark :: markSkipped nest rest marks.tail

/-! The loop over the symbols of a section. -/

/-- The places of the string tables of this unit and of the next one. -/
structure Units where
  stroff : Nat
  nextStroff : Nat
  deriving DecidableEq, Repr

/-- "Special type 0 stabs indicate the offset to the next string table." -/
def Units.at (u : Units) (s : Stab) : Units :=
  if s.type = 0 then ⟨u.nextStroff, u.nextStroff + s.value⟩ else u

/-- Where an `N_BINCL` stands: its strings, and the symbols behind it. -/
structure Incl where
  strs : List BfdByte
  stroff : Nat
  strx : Nat
  rest : List Stab
  deriving DecidableEq, Repr

/-- `struct stab_excl_list`. -/
structure Excl where
  incl : Incl
  val : BitVec 64
  type : BfdByte
  deriving DecidableEq, Repr

/-- What is kept from section to section, and the state of the loop over one: `includes` holds the
totals of the headers of each name, and `excls` all the symbols to convert. -/
structure Linking where
  includes : List BfdByte → List Totals
  excls : List Excl
  first : Bool
  units : Units

inductive Stop
  | done
  /-- FALSE is returned -/
  | failed
  /-- something behind the section of the strings is read -/
  | wild
  deriving DecidableEq, Repr

/-- A header whose totals were not met before. -/
def Linking.keep (l : Linking) (name : List BfdByte) (t : Totals) (h : Incl) : Linking :=
  { l with
    includes := fun n => if n = name then t :: l.includes n else l.includes n
    excls := l.excls ++ [⟨h, t.sumChars, nBincl⟩] }

/-- "We have seen this header file before." -/
def Linking.exclude (l : Linking) (t : Totals) (h : Incl) : Linking :=
  { l with excls := l.excls ++ [⟨h, t.sumChars, nExcl⟩] }

/-- The loop; a mark stands for an index of -1. -/
def linkStabs (strs : List BfdByte) : List Stab → List Bool → Linking → Stop × Linking
  | [], _, l => (.done, l)
  | s :: rest, marks, l =>
    if marks.headD false then linkStabs strs rest marks.tail l
    else
      let u := l.units.at s
      if s.type = 0 && !l.first then linkStabs strs rest marks.tail { l with units := u }
      else
        let l := { l with units := u, first := l.first && s.type ≠ 0 }
        if strs.length ≤ u.stroff + s.strx then (.failed, l)
        else
          match stringAt strs (u.stroff + s.strx) with
          | none => (.wild, l)
          | some name =>
            if s.type = nBincl then
              match scanIncl strs u.stroff 0 .zero rest with
              | none => (.wild, l)
              | some t =>
                let h : Incl := ⟨strs, u.stroff, s.strx, rest⟩
                if (l.includes name).any t.same then
                  linkStabs strs rest (markSkipped 0 rest marks.tail) (l.exclude t h)
                else linkStabs strs rest marks.tail (l.keep name t h)
            else linkStabs strs rest marks.tail l

/-- What `_bfd_link_section_stabs` is called with; `usable` says that the size is one of symbols,
that the strings have no relocations and that both sections go into the output. -/
structure Input where
  stabs : List Stab
  strs : List BfdByte
  usable : Bool
  stringOffset : Nat

def Input.linked (x : Input) : Bool := !x.stabs.isEmpty && !x.strs.isEmpty && x.usable

/-- `_bfd_link_section_stabs`. -/
def linkSectionStabs (l : Linking) (x : Input) : Stop × Linking :=
  if x.linked then
    let r := linkStabs x.strs x.stabs [] { l with units := ⟨0, x.stringOffset⟩ }
    (r.1, { r.2 with first := false })
  else (.done, l)

/-- The sections of a link, until a call does not succeed. -/
def linkAll : List Input → Linking → Stop × Linking
  | [], l => (.done, l)
  | x :: xs, l =>
    let r := linkSectionStabs l x
    if r.1 = .done then linkAll xs r.2 else r

def Linking.start : Linking := ⟨fun _ => [], [], true, ⟨0, 0⟩⟩

/-! What the headers of a file hold. -/

/-- A string without the numbers behind its opening parentheses. -/
def withoutNumbers : Bool → List BfdByte → List BfdByte
  | _, [] => []
  | skip, c :: str =>
    if skip && Decimal.isDigit c then withoutNumbers true str
    else c :: withoutNumbers (c = 40#8) str

/-- The strings directly inside a header, without the file numbers. -/
def inside (strs : List BfdByte) (stroff : Nat) : Nat → List Stab → Option (List (List BfdByte))
  | _, [] => some []
  | nest, s :: rest =>
    if s.type = 0 then some []
    else if s.type = nExcl then inside strs stroff nest rest
    else if s.type = nEincl then
      match nest with
      | 0 => some []
      | nest + 1 => inside strs stroff nest rest
    else if s.type = nBincl then inside strs stroff (nest + 1) rest
    else if nest = 0 then do
      let str ← stringAt strs (stroff + s.strx)
      let more ← inside strs stroff nest rest
      some (withoutNumbers false str :: more)
    else inside strs stroff nest rest

def Incl.name (h : Incl) : Option (List BfdByte) := stringAt h.strs (h.stroff + h.strx)

def Incl.strings (h : Incl) : Option (List (List BfdByte)) := inside h.strs h.stroff 0 h.rest

/-- The headers in the symbols of a section, each with the string table of its unit. -/
def headers (strs : List BfdByte) : Units → List Stab → List Incl
  | _, [] => []
  | u, s :: rest =>
    if s.type = nBincl then ⟨strs, (u.at s).stroff, s.strx, rest⟩ :: headers strs (u.at s) rest
    else headers strs (u.at s) rest

def Input.headers (x : Input) : List Incl :=
  if x.linked then Stabs.headers x.strs ⟨0, x.stringOffset⟩ x.stabs else []

/-- No unit begins directly inside a header. -/
def unitsApart : Nat → List Stab → Bool
  | _, [] => true
  | nest, s :: rest =>
    if s.type = nEincl then
      match nest with
      | 0 => true
      | nest + 1 => unitsApart nest rest
    else if s.type = nBincl then unitsApart (nest + 1) rest
    else if s.type = 0 && nest == 0 then false
    else unitsApart nest rest

/-- Headers of one name with the same text have strings that end at the same places. -/
def SameCuts (hs : List Incl) : Prop :=
  ∀ h ∈ hs, ∀ h' ∈ hs, h.name = h'.name → ∀ l l', h.strings = some l → h'.strings = some l' →
    l.flatten = l'.flatten → l.map List.length = l'.map List.length

/-- The headers that are left out repeat the strings of a header of the same name before them that
was kept. -/
def OnlyRepeated (es : List Excl) : Prop :=
  ∀ pre e post, es = pre ++ e :: post → e.type = nExcl → ∃ k ∈ pre, k.type = nBincl ∧
    k.incl.name = e.incl.name ∧ k.incl.strings = e.incl.strings

/-! The totals tell what the text of a header is. -/

variable {strs : List BfdByte} {stroff nest : Nat} {stabs rest : List Stab} {marks : List Bool}
  {t u : Totals} {h : Incl} {l l' : Linking} {stop : Stop} {name : List BfdByte} {units : Units}
  {es : List Excl} {x : Input} {xs : List Input}

theorem addString_eq (skip : Bool) (str : List BfdByte) (t : Totals) :
    addString skip str t = (withoutNumbers skip str).foldl Totals.add t := by
  fun_induction addString skip str t with
  | case1 => rfl
  | case2 skip c str t hdigit ih => rw [ih, withoutNumbers, if_pos hdigit]
  | case3 skip c str t hdigit ih => rw [ih, withoutNumbers, if_neg hdigit, List.foldl_cons]

theorem scanIncl_eq (t : Totals) (nest : Nat) : scanIncl strs stroff nest t rest =
    (inside strs stroff nest rest).map fun ls => ls.flatten.foldl Totals.add t := by
  induction rest generalizing t nest with
  | nil => rfl
  | cons s rest ih =>
    rw [scanIncl.eq_def, inside.eq_def]
    simp only
    split_ifs with h0 hexcl hend hbegin hnest
    · rfl
    · exact ih t nest
    · cases nest with
      | zero => rfl
      | succ nest => exact ih t nest
    · exact ih t (nest + 1)
    · cases hstr : stringAt strs (stroff + s.strx) with
      | none => rfl
      | some str =>
        simp only [Option.bind_eq_bind, Option.bind_some]
        rw [ih, addString_eq]
        cases inside strs stroff nest rest with
        | none => rfl
        | some more => simp [List.foldl_append]
    · exact ih t nest

/-- The totals of a text. -/
def totalOf (text : List BfdByte) : Totals := text.foldl Totals.add .zero

theorem foldl_add (text : List BfdByte) (t : Totals) :
    (text.foldl Totals.add t).symb = t.symb ++ text ∧
      (text.foldl Totals.add t).numChars = t.numChars + text.length := by
  induction text generalizing t with
  | nil => exact ⟨(List.append_nil _).symm, rfl⟩
  | cons c text ih =>
    obtain ⟨hsymb, hnum⟩ := ih (t.add c)
    rw [List.foldl_cons]
    refine ⟨?_, ?_⟩
    · rw [hsymb, Totals.add, List.append_assoc, List.singleton_append]
    · rw [hnum, List.length_cons, Nat.add_comm text.length, ← Nat.add_assoc]
      rfl

/-- The sum is not needed: the buffers hold all of both texts. -/
theorem same_totalOf (a b : List BfdByte) : (totalOf a).same (totalOf b) = true ↔ a = b := by
  obtain ⟨hsymb, hnum⟩ := foldl_add a .zero
  obtain ⟨hsymb', hnum'⟩ := foldl_add b .zero
  have hzero : Totals.zero.symb = [] ∧ Totals.zero.numChars = 0 := ⟨rfl, rfl⟩
  rw [hzero.1, List.nil_append] at hsymb hsymb'
  rw [hzero.2, Nat.zero_add] at hnum hnum'
  simp only [Totals.same, totalOf, hsymb, hsymb', hnum, hnum', Bool.and_eq_true, decide_eq_true_eq]
  constructor
  · rintro ⟨⟨-, hlen⟩, htake⟩
    rwa [← hlen, List.take_length, hlen, List.take_length] at htake
  · rintro rfl
    exact ⟨⟨by simp, rfl⟩, rfl⟩

/-! What the loop keeps. -/

/-- What tells headers apart. -/
def key (h : Incl) : Option (List BfdByte) × Option (List BfdByte) :=
  (h.name, h.strings.map List.flatten)

def Excl.item (e : Excl) : Incl × Bool := (e.incl, e.type == nExcl)

/-- The table holds the totals of the headers that were kept. -/
structure Keeps (l : Linking) : Prop where
  marked : Representatives.Marked key (l.excls.map Excl.item)
  includes : ∀ name t, t ∈ l.includes name ↔ ∃ e ∈ l.excls, e.type = nBincl ∧
    e.incl.name = some name ∧ e.incl.strings.map (fun ls => totalOf ls.flatten) = some t
  read : ∀ e ∈ l.excls, (e.type = nBincl ∨ e.type = nExcl) ∧
    (∃ name, e.incl.name = some name) ∧ ∃ ls, e.incl.strings = some ls

theorem item_kept {e : Excl} {a : Incl} (htype : e.type = nBincl ∨ e.type = nExcl) :
    e.item = (a, false) ↔ e.incl = a ∧ e.type = nBincl := by
  rw [Excl.item, Prod.mk.injEq]
  refine and_congr_right fun _ => ?_
  rcases htype with ht | ht
  · rw [ht]
    decide
  · rw [ht]
    decide

/-- Whether a header was met before. -/
theorem Keeps.any_same (hk : Keeps l) {ls : List (List BfdByte)} (hname : h.name = some name)
    (hls : h.strings = some ls) : (l.includes name).any (totalOf ls.flatten).same = true ↔
      ∃ a, (a, false) ∈ l.excls.map Excl.item ∧ key a = key h := by
  rw [List.any_eq_true]
  constructor
  · rintro ⟨t, ht, hsame⟩
    obtain ⟨e, he, htype, hname', htotal⟩ := (hk.includes name t).mp ht
    obtain ⟨ls', hls', rfl⟩ := Option.map_eq_some_iff.mp htotal
    refine ⟨e.incl, List.mem_map.mpr ⟨e, he, (item_kept (.inl htype)).mpr ⟨rfl, htype⟩⟩, ?_⟩
    rw [key, key, hname, hname', hls, hls', Option.map_some, Option.map_some,
      (same_totalOf _ _).mp hsame]
  · rintro ⟨a, ha, hkey⟩
    obtain ⟨e, he, hitem⟩ := List.mem_map.mp ha
    obtain ⟨htype, -, ls', hls'⟩ := hk.read e he
    obtain ⟨rfl, hbincl⟩ := (item_kept htype).mp hitem
    obtain ⟨hname', htext⟩ := Prod.mk.inj hkey
    rw [hls, hls', Option.map_some, Option.map_some] at htext
    refine ⟨totalOf ls'.flatten, (hk.includes name _).mpr ⟨e, he, hbincl, hname'.trans hname, ?_⟩, ?_⟩
    · rw [hls']
      rfl
    · exact (same_totalOf _ _).mpr (Option.some.inj htext).symm

theorem Keeps.keep (hk : Keeps l) {ls : List (List BfdByte)} (hname : h.name = some name)
    (hls : h.strings = some ls)
    (hnew : ¬ (l.includes name).any (totalOf ls.flatten).same = true) :
    Keeps (l.keep name (totalOf ls.flatten) h) := by
  rw [hk.any_same hname hls] at hnew
  refine ⟨?_, fun n t => ?_, ?_⟩
  · rw [Linking.keep, List.map_append]
    exact hk.marked.snoc (iff_of_false Bool.false_ne_true hnew)
  · simp only [Linking.keep, List.mem_append, List.mem_singleton, or_and_right, exists_or,
      exists_eq_left, true_and, hname, hls, Option.map_some, Option.some.injEq]
    by_cases hn : n = name
    · subst hn
      rw [if_pos rfl, List.mem_cons, hk.includes n t]
      constructor
      · rintro (rfl | hold)
        · exact .inr ⟨rfl, rfl⟩
        · exact .inl hold
      · rintro (hold | ⟨-, rfl⟩)
        · exact .inr hold
        · exact .inl rfl
    · rw [if_neg hn, hk.includes n t]
      simp [Ne.symm hn]
  · refine List.forall_mem_append.mpr ⟨hk.read, ?_⟩
    simp [hname, hls]

theorem Keeps.exclude (hk : Keeps l) {ls : List (List BfdByte)} (hname : h.name = some name)
    (hls : h.strings = some ls)
    (hold : (l.includes name).any (totalOf ls.flatten).same = true) :
    Keeps (l.exclude (totalOf ls.flatten) h) := by
  rw [hk.any_same hname hls] at hold
  refine ⟨?_, fun n t => ?_, ?_⟩
  · rw [Linking.exclude, List.map_append]
    exact hk.marked.snoc (iff_of_true rfl hold)
  · have hne : ¬ nExcl = nBincl := by decide
    simp only [Linking.exclude, List.mem_append, List.mem_singleton, or_and_right, exists_or,
      exists_eq_left, hne, false_and, or_false]
    exact hk.includes n t
  · refine List.forall_mem_append.mpr ⟨hk.read, ?_⟩
    simp [hname, hls]

theorem Keeps.of_eq (hk : Keeps l) (hincludes : l'.includes = l.includes)
    (hexcls : l'.excls = l.excls) : Keeps l' := by
  refine ⟨?_, ?_, ?_⟩
  · rw [hexcls]
    exact hk.marked
  · rw [hexcls, hincludes]
    exact hk.includes
  · rw [hexcls]
    exact hk.read

/-! What one symbol does. -/

/-- The loop comes to a symbol that is not marked. -/
def Linking.come (l : Linking) (s : Stab) : Linking :=
  { l with units := l.units.at s, first := l.first && s.type ≠ 0 }

/-- The marks of the symbols behind `s`, and what is kept, when the loop goes on. -/
inductive Step (strs : List BfdByte) (s : Stab) (rest : List Stab) (marks : List Bool) (l : Linking) :
    List Bool → Linking → Prop
  | marked (hmark : marks.headD false = true) : Step strs s rest marks l marks.tail l
  | unit (hmark : marks.headD false = false) (htype : s.type = 0) :
    Step strs s rest marks l marks.tail { l with units := l.units.at s }
  | plain (hmark : marks.headD false = false) (htype : s.type ≠ nBincl) :
    Step strs s rest marks l marks.tail (l.come s)
  | excluded (hmark : marks.headD false = false) (htype : s.type = nBincl) {name : List BfdByte}
    {ls : List (List BfdByte)} {h : Incl} (hh : h = ⟨strs, (l.units.at s).stroff, s.strx, rest⟩)
    (hname : h.name = some name) (hls : h.strings = some ls)
    (hold : (l.includes name).any (totalOf ls.flatten).same = true) :
    Step strs s rest marks l (markSkipped 0 rest marks.tail)
      ((l.come s).exclude (totalOf ls.flatten) h)
  | kept (hmark : marks.headD false = false) (htype : s.type = nBincl) {name : List BfdByte}
    {ls : List (List BfdByte)} {h : Incl} (hh : h = ⟨strs, (l.units.at s).stroff, s.strx, rest⟩)
    (hname : h.name = some name) (hls : h.strings = some ls)
    (hnew : ¬ (l.includes name).any (totalOf ls.flatten).same = true) :
    Step strs s rest marks l marks.tail ((l.come s).keep name (totalOf ls.flatten) h)

/-- The loop goes on, or it stops with what it has. -/
theorem linkStabs_step (strs : List BfdByte) (s : Stab) (rest : List Stab) (marks : List Bool)
    (l : Linking) :
    (∃ marks' l', Step strs s rest marks l marks' l' ∧
      linkStabs strs (s :: rest) marks l = linkStabs strs rest marks' l') ∨
    ∃ stop, stop ≠ .done ∧ linkStabs strs (s :: rest) marks l = (stop, l.come s) := by
  rw [linkStabs.eq_def]
  simp only
  split_ifs with hmark hunit hlen htype
  · exact .inl ⟨_, _, .marked hmark, rfl⟩
  · obtain ⟨htype, -⟩ := Bool.and_eq_true_iff.mp hunit
    exact .inl ⟨_, _, .unit (Bool.not_eq_true _ ▸ hmark) (of_decide_eq_true htype), rfl⟩
  · exact .inr ⟨.failed, by decide, rfl⟩
  · have hmark : marks.headD false = false := Bool.not_eq_true _ ▸ hmark
    cases hname : stringAt strs ((l.units.at s).stroff + s.strx) with
    | none => exact .inr ⟨.wild, by decide, rfl⟩
    | some name =>
      simp only
      rw [scanIncl_eq]
      cases hls : inside strs (l.units.at s).stroff 0 rest with
      | none => exact .inr ⟨.wild, by decide, rfl⟩
      | some ls =>
        simp only [Option.map_some]
        by_cases hany : (l.includes name).any (totalOf ls.flatten).same = true
        · exact .inl ⟨_, _, .excluded hmark htype rfl hname hls hany, if_pos hany⟩
        · exact .inl ⟨_, _, .kept hmark htype rfl hname hls hany, if_neg hany⟩
  · have hmark : marks.headD false = false := Bool.not_eq_true _ ▸ hmark
    cases stringAt strs ((l.units.at s).stroff + s.strx) with
    | none => exact .inr ⟨.wild, by decide, rfl⟩
    | some name => exact .inl ⟨_, _, .plain hmark htype, rfl⟩

theorem Keeps.step {s : Stab} {marks' : List Bool} (hk : Keeps l)
    (hstep : Step strs s rest marks l marks' l') : Keeps l' := by
  cases hstep with
  | marked => exact hk
  | unit | plain => exact hk.of_eq rfl rfl
  | excluded _ _ _ hname hls hold =>
    have hcome : Keeps (l.come s) := hk.of_eq rfl rfl
    exact hcome.exclude hname hls hold
  | kept _ _ _ hname hls hnew =>
    have hcome : Keeps (l.come s) := hk.of_eq rfl rfl
    exact hcome.keep hname hls hnew

theorem linkStabs_keeps (hk : Keeps l) : Keeps (linkStabs strs stabs marks l).2 := by
  induction stabs generalizing marks l with
  | nil => exact hk
  | cons s rest ih =>
    obtain ⟨marks', l', hstep, heq⟩ | ⟨stop, -, heq⟩ := linkStabs_step strs s rest marks l
    · rw [heq]
      exact ih (hk.step hstep)
    · rw [heq]
      exact hk.of_eq rfl rfl

/-! The marks. -/

/-- No header and no beginning of a unit is marked. -/
def Clean : List Stab → List Bool → Prop
  | [], _ => True
  | s :: rest, marks =>
    (marks.headD false = true → s.type ≠ nBincl ∧ s.type ≠ 0) ∧ Clean rest marks.tail

theorem clean_nil (stabs : List Stab) : Clean stabs [] := by
  induction stabs with
  | nil => trivial
  | cons s rest ih => exact ⟨fun hmark => (by cases hmark), ih⟩

theorem markSkipped_clean (hc : Clean rest marks) (hapart : unitsApart nest rest = true) :
    Clean rest (markSkipped nest rest marks) := by
  induction rest generalizing nest marks with
  | nil => trivial
  | cons s rest ih =>
    obtain ⟨hs, hrest⟩ := hc
    rw [markSkipped.eq_def]
    rw [unitsApart.eq_def] at hapart
    simp only at hapart ⊢
    have hend0 : nEincl ≠ nBincl ∧ nEincl ≠ 0 := by decide
    have hkeep : ∀ {nest}, unitsApart nest rest = true →
        Clean (s :: rest) (marks.headD false :: markSkipped nest rest marks.tail) :=
      fun h => ⟨hs, ih hrest h⟩
    by_cases hend : s.type = nEincl
    · rw [if_pos hend] at hapart ⊢
      cases nest with
      | zero => exact ⟨fun _ => hend ▸ hend0, hrest⟩
      | succ nest => exact hkeep hapart
    rw [if_neg hend] at hapart ⊢
    by_cases hbegin : s.type = nBincl
    · rw [if_pos hbegin] at hapart ⊢
      exact hkeep hapart
    rw [if_neg hbegin] at hapart ⊢
    by_cases hunit : (s.type = 0 && nest == 0) = true
    · rw [if_pos hunit] at hapart
      cases hapart
    rw [if_neg hunit] at hapart
    split_ifs with hexcl hnest
    · exact hkeep hapart
    · subst hnest
      exact ⟨fun _ => ⟨hbegin, fun h0 => hunit (by rw [h0]; rfl)⟩, ih hrest hapart⟩
    · exact hkeep hapart

theorem headers_other {s : Stab} (hs : s.type ≠ nBincl) (u : Units) :
    headers strs u (s :: rest) = headers strs (u.at s) rest :=
  if_neg hs

theorem headers_bincl {s : Stab} (hs : s.type = nBincl) (u : Units) :
    headers strs u (s :: rest) =
      ⟨strs, (u.at s).stroff, s.strx, rest⟩ :: headers strs (u.at s) rest :=
  if_pos hs

/-- Where the headers do not run into the next unit, the loop comes to all of them, each with the
string table of its unit. -/
theorem linkStabs_headers (hc : Clean stabs marks)
    (hapart : ∀ h ∈ headers strs l.units stabs, unitsApart 0 h.rest = true) :
    ∃ new, (linkStabs strs stabs marks l).2.excls = l.excls ++ new ∧
      new.map Excl.incl <+: headers strs l.units stabs ∧
      ((linkStabs strs stabs marks l).1 = .done → new.map Excl.incl = headers strs l.units stabs) := by
  induction stabs generalizing marks l with
  | nil => exact ⟨[], (List.append_nil _).symm, List.nil_prefix, fun _ => rfl⟩
  | cons s rest ih =>
    obtain ⟨hs, hrest⟩ := hc
    obtain ⟨marks', l', hstep, heq⟩ | ⟨stop, hstop, heq⟩ := linkStabs_step strs s rest marks l
    · rw [heq]
      cases hstep with
      | marked hmark =>
        obtain ⟨hbegin, h0⟩ := hs hmark
        have hat : l.units.at s = l.units := if_neg h0
        rw [headers_other hbegin, hat] at hapart ⊢
        exact ih hrest hapart
      | unit hmark htype =>
        have hbegin : s.type ≠ nBincl := by
          rw [htype]
          decide
        rw [headers_other hbegin] at hapart ⊢
        exact @ih _ { l with units := l.units.at s } hrest hapart
      | plain hmark htype =>
        rw [headers_other htype] at hapart ⊢
        exact @ih _ (l.come s) hrest hapart
      | @excluded hmark htype name ls h hh =>
        rw [headers_bincl htype] at hapart ⊢
        obtain ⟨hhead, htail⟩ := List.forall_mem_cons.mp hapart
        obtain ⟨new, hnew, hpre, hdone⟩ := @ih _ ((l.come s).exclude (totalOf ls.flatten) h)
          (markSkipped_clean hrest hhead) htail
        refine ⟨⟨h, (totalOf ls.flatten).sumChars, nExcl⟩ :: new, ?_, ?_, fun hd => ?_⟩
        · rw [hnew, Linking.exclude, List.append_assoc]
          rfl
        · rw [List.map_cons, hh]
          exact (List.cons_prefix_cons).mpr ⟨rfl, hpre⟩
        · rw [List.map_cons, hh, hdone hd]
          rfl
      | @kept hmark htype name ls h hh =>
        rw [headers_bincl htype] at hapart ⊢
        obtain ⟨-, htail⟩ := List.forall_mem_cons.mp hapart
        obtain ⟨new, hnew, hpre, hdone⟩ := @ih _ ((l.come s).keep name (totalOf ls.flatten) h) hrest htail
        refine ⟨⟨h, (totalOf ls.flatten).sumChars, nBincl⟩ :: new, ?_, ?_, fun hd => ?_⟩
        · rw [hnew, Linking.keep, List.append_assoc]
          rfl
        · rw [List.map_cons, hh]
          exact (List.cons_prefix_cons).mpr ⟨rfl, hpre⟩
        · rw [List.map_cons, hh, hdone hd]
          rfl
    · rw [heq]
      exact ⟨[], (List.append_nil _).symm, List.nil_prefix, fun hdone => absurd hdone hstop⟩

/-! All the sections of a link. -/

theorem linkSectionStabs_keeps (hk : Keeps l) : Keeps (linkSectionStabs l x).2 := by
  rw [linkSectionStabs]
  split_ifs
  · have hstart : Keeps { l with units := ⟨0, x.stringOffset⟩ } := hk.of_eq rfl rfl
    exact (linkStabs_keeps hstart).of_eq rfl rfl
  · exact hk

theorem linkAll_keeps (hk : Keeps l) : Keeps (linkAll xs l).2 := by
  induction xs generalizing l with
  | nil => exact hk
  | cons x xs ih =>
    rw [linkAll]
    split_ifs
    · exact ih (linkSectionStabs_keeps hk)
    · exact linkSectionStabs_keeps hk

theorem linkSectionStabs_headers (hapart : ∀ h ∈ x.headers, unitsApart 0 h.rest = true) :
    ∃ new, (linkSectionStabs l x).2.excls = l.excls ++ new ∧ new.map Excl.incl <+: x.headers ∧
      ((linkSectionStabs l x).1 = .done → new.map Excl.incl = x.headers) := by
  rw [Input.headers] at hapart ⊢
  rw [linkSectionStabs]
  split_ifs at hapart ⊢ with hlinked
  · exact @linkStabs_headers x.strs x.stabs [] { l with units := ⟨0, x.stringOffset⟩ }
      (clean_nil x.stabs) hapart
  · exact ⟨[], (List.append_nil _).symm, List.nil_prefix, fun _ => rfl⟩

theorem linkAll_headers (hapart : ∀ h ∈ xs.flatMap Input.headers, unitsApart 0 h.rest = true) :
    ∃ new, (linkAll xs l).2.excls = l.excls ++ new ∧ new.map Excl.incl <+: xs.flatMap Input.headers ∧
      ((linkAll xs l).1 = .done → new.map Excl.incl = xs.flatMap Input.headers) := by
  induction xs generalizing l with
  | nil => exact ⟨[], (List.append_nil _).symm, List.nil_prefix, fun _ => rfl⟩
  | cons x xs ih =>
    rw [List.flatMap_cons] at hapart ⊢
    obtain ⟨hx, hxs⟩ := List.forall_mem_append.mp hapart
    obtain ⟨new, hnew, hpre, hdone⟩ := @linkSectionStabs_headers l x hx
    rw [linkAll]
    split_ifs with hstop
    · obtain ⟨more, hmore, hpre', hdone'⟩ := @ih (linkSectionStabs l x).2 hxs
      refine ⟨new ++ more, ?_, ?_, fun hd => ?_⟩
      · rw [hmore, hnew, List.append_assoc]
      · rw [List.map_append, hdone hstop]
        exact (List.prefix_append_right_inj _).mpr hpre'
      · rw [List.map_append, hdone hstop, hdone' hd]
    · exact ⟨new, hnew, hpre.trans (List.prefix_append _ _), fun hd => absurd hd hstop⟩

theorem keeps_start : Keeps .start :=
  ⟨Representatives.marked_nil key, fun _ _ => ⟨fun ht => (by cases ht), fun ⟨_, he, _⟩ => (by cases he)⟩,
    fun _ he => (by cases he)⟩

/-- What a header repeats. -/
def val (h : Incl) : Option (List BfdByte) × Option (List (List BfdByte)) := (h.name, h.strings)

theorem onlyRepeated_iff (htype : ∀ e ∈ es, e.type = nBincl ∨ e.type = nExcl) :
    OnlyRepeated es ↔ Representatives.Repeats val (es.map Excl.item) := by
  constructor
  · intro h pre a post heq
    obtain ⟨pre', tail, rfl, rfl, htail⟩ := List.map_eq_append_iff.mp heq
    obtain ⟨e, post', rfl, he, -⟩ := List.map_eq_cons_iff.mp htail
    obtain ⟨rfl, hexcl⟩ := Prod.mk.inj he
    obtain ⟨k, hk, hbincl, hname, hstrings⟩ := h pre' e post' rfl (beq_iff_eq.mp hexcl)
    exact ⟨k.incl, List.mem_map.mpr ⟨k, hk, (item_kept (.inl hbincl)).mpr ⟨rfl, hbincl⟩⟩,
      Prod.ext hname hstrings⟩
  · intro h pre e post heq hexcl
    have hitem : e.item = (e.incl, true) := by rw [Excl.item, hexcl, beq_self_eq_true]
    obtain ⟨a, ha, hval⟩ := h (pre.map Excl.item) e.incl (post.map Excl.item) (by
      rw [heq, List.map_append, List.map_cons, hitem])
    obtain ⟨k, hk, hkitem⟩ := List.mem_map.mp ha
    have hkes : k ∈ es := by
      rw [heq]
      exact List.mem_append_left _ hk
    obtain ⟨rfl, hbincl⟩ := (item_kept (htype k hkes)).mp hkitem
    exact ⟨k, hk, hbincl, congrArg Prod.fst hval, congrArg Prod.snd hval⟩

theorem eq_of_sameCuts {hs : List Incl} {a b : Incl} (h : SameCuts hs) (ha : a ∈ hs) (hb : b ∈ hs)
    {ls ls' : List (List BfdByte)} (hls : a.strings = some ls) (hls' : b.strings = some ls')
    (hkey : key a = key b) : val a = val b := by
  obtain ⟨hname, htext⟩ := Prod.mk.inj hkey
  rw [hls, hls', Option.map_some, Option.map_some] at htext
  have hflat := Option.some.inj htext
  have hcuts := h a ha b hb hname ls ls' hls hls' hflat
  rw [val, val, hname, hls, hls', List.eq_iff_flatten_eq.mpr ⟨hflat, hcuts⟩]

/-- Where no unit begins inside a header, a header is left out only when it repeats one that was
kept, as long as the headers of one name with the same text have strings that end at the same places.
In a link that succeeds the condition is exact. -/
theorem excluded_repeat_iff (hapart : ∀ h ∈ xs.flatMap Input.headers, unitsApart 0 h.rest = true) :
    (linkAll xs .start).2.excls.map Excl.incl <+: xs.flatMap Input.headers ∧
    (SameCuts (xs.flatMap Input.headers) → OnlyRepeated (linkAll xs .start).2.excls) ∧
    ((linkAll xs .start).1 = .done → OnlyRepeated (linkAll xs .start).2.excls →
      SameCuts (xs.flatMap Input.headers)) := by
  have hk : Keeps (linkAll xs .start).2 := linkAll_keeps keeps_start
  obtain ⟨new, hnew, hpre, hdone⟩ := @linkAll_headers .start xs hapart
  have hexcls : (linkAll xs .start).2.excls = new := hnew
  rw [hexcls]
  obtain ⟨hmarked, -, hread⟩ := hk
  rw [hexcls] at hmarked hread
  rw [onlyRepeated_iff fun e he => (hread e he).1]
  refine ⟨hpre, fun hcuts => hmarked.repeats ?_, fun hd hr h hh h' hh' hname ls ls' hls hls' hflat => ?_⟩
  · intro a ha b hb hkey
    obtain ⟨e, he, rfl⟩ := List.mem_map.mp ha
    obtain ⟨e', he', rfl⟩ := List.mem_map.mp hb
    obtain ⟨-, -, ls, hls⟩ := hread e he
    obtain ⟨-, -, ls', hls'⟩ := hread e' he'
    exact eq_of_sameCuts hcuts (hpre.subset (List.mem_map_of_mem he))
      (hpre.subset (List.mem_map_of_mem he')) hls hls' hkey
  · rw [← hdone hd] at hh hh'
    obtain ⟨e, he, rfl⟩ := List.mem_map.mp hh
    obtain ⟨e', he', rfl⟩ := List.mem_map.mp hh'
    have hkey : key e.incl = key e'.incl := by
      rw [key, key, hname, hls, hls', Option.map_some, Option.map_some, hflat]
    have hval := hmarked.same_of_repeats hr (fun a b hab => by
      obtain ⟨hn, hs⟩ := Prod.mk.inj hab
      rw [key, key, hn, hs]) (List.mem_map_of_mem he) (List.mem_map_of_mem he') hkey
    have hstrings : some ls = some ls' := hls.symm.trans ((Prod.mk.inj hval).2.trans hls')
    rw [Option.some.inj hstrings]

/-- A unit with one header of two strings, and a unit with a header of the same name whose strings
are cut at another place. -/
def twoHeaders (cut : Nat) : Input where
  stabs := [⟨0, 0, 8⟩, ⟨1, nBincl, 0⟩, ⟨3, 0x80#8, 0⟩, ⟨3 + cut + 1, 0x80#8, 0⟩, ⟨0, nEincl, 0⟩]
  strs := [0#8, 104#8, 0#8] ++ ([97#8, 98#8, 99#8].take cut ++ 0#8 :: [97#8, 98#8, 99#8].drop cut) ++ [0#8]
  usable := true
  stringOffset := 0

theorem excluded_repeat_twice :
    (linkAll [twoHeaders 2, twoHeaders 2] .start).2.excls.map Excl.incl <+:
      [twoHeaders 2, twoHeaders 2].flatMap Input.headers ∧
    (SameCuts ([twoHeaders 2, twoHeaders 2].flatMap Input.headers) →
      OnlyRepeated (linkAll [twoHeaders 2, twoHeaders 2] .start).2.excls) ∧
    ((linkAll [twoHeaders 2, twoHeaders 2] .start).1 = .done →
      OnlyRepeated (linkAll [twoHeaders 2, twoHeaders 2] .start).2.excls →
      SameCuts ([twoHeaders 2, twoHeaders 2].flatMap Input.headers)) :=
  excluded_repeat_iff (by decide)

/-- "ab" and "c" are taken for "a" and "bc". -/
theorem other_strings_excluded :
    ((linkAll [twoHeaders 2, twoHeaders 1] .start).2.excls.map fun e => (e.type, e.incl.strings)) =
      [(nBincl, some [[97#8, 98#8], [99#8]]), (nExcl, some [[97#8], [98#8, 99#8]])] ∧
    ¬ OnlyRepeated (linkAll [twoHeaders 2, twoHeaders 1] .start).2.excls := by
  have hexcls : ((linkAll [twoHeaders 2, twoHeaders 1] .start).2.excls.map
      fun e => (e.type, e.incl.strings)) =
      [(nBincl, some [[97#8, 98#8], [99#8]]), (nExcl, some [[97#8], [98#8, 99#8]])] := by
    decide
  refine ⟨hexcls, fun h => ?_⟩
  obtain ⟨k, tail, hes, hk, htail⟩ := List.map_eq_cons_iff.mp hexcls
  obtain ⟨e, post, rfl, he, -⟩ := List.map_eq_cons_iff.mp htail
  obtain ⟨k', hk', -, -, hstrings⟩ := h [k] e post hes (Prod.mk.inj he).1
  obtain rfl := List.mem_singleton.mp hk'
  have hone := (Prod.mk.inj hk).2
  rw [hstrings, (Prod.mk.inj he).2] at hone
  exact absurd hone (by decide)

end FusionBinutils.Bfd.Stabs
