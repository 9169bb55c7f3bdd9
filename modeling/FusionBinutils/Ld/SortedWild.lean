import FusionBinutils.Ld.Wild
import FusionBinutils.Lib.Insertion
import Mathlib.Algebra.Group.Nat.Defs

/-! Where the sections that a wild statement takes are put, when file names are not sorted
(ld/ldlang.c). -/
namespace FusionBinutils.Ld

open Insertion (SearchTree)

/-- `sort_type`. -/
inductive SortType where
  | none | byName | byAlignment | byNameAlignment | byAlignmentName | byNone | byInitPriority
  deriving DecidableEq

/-- `asection`. -/
structure Asection where
  address : Nat
  name : CString
  alignmentPower : BitVec 32
  deriving DecidableEq

/-! `compare_section`. -/

/-- `strcmp`, with the difference of the first characters that differ. -/
def strcmp : List Char → List Char → Int
  | [], [] => 0
  | [], d :: _ => -d.toNat
  | c :: _, [] => c.toNat
  | c :: s, d :: t => if c = d then strcmp s t else (c.toNat : Int) - d.toNat

/-- `isspace`. -/
def isSpace (c : Char) : Bool := c = ' ' || (9 ≤ c.toNat && c.toNat ≤ 13)

def digitsValue (digits : List Char) : Nat :=
  digits.foldl (fun v c => v * 10 + (c.toNat - 48)) 0

/-- `strtoul` in base 10, with the characters from `end` on. -/
def strtoul (s : List Char) : BitVec 64 × List Char :=
  let t := s.dropWhile isSpace
  let negative := t.head? = some '-'
  let t := if t.head? = some '-' ∨ t.head? = some '+' then t.tail else t
  let digits := t.takeWhile Char.isDigit
  if digits = [] then (0, s)
  else
    let n := digitsValue digits
    let value := if 2 ^ 64 ≤ n then BitVec.allOnes 64
      else if negative then -BitVec.ofNat 64 n else BitVec.ofNat 64 n
    (value, t.dropWhile Char.isDigit)

def initArray : List Char := ['.', 'i', 'n', 'i', 't', '_', 'a', 'r', 'r', 'a', 'y', '.']
def finiArray : List Char := ['.', 'f', 'i', 'n', 'i', '_', 'a', 'r', 'r', 'a', 'y', '.']
def ctors : List Char := ['.', 'c', 't', 'o', 'r', 's', '.']
def dtors : List Char := ['.', 'd', 't', 'o', 'r', 's', '.']

/-- `get_init_priority`. -/
def getInitPriority (name : List Char) : BitVec 64 :=
  if initArray.isPrefixOf name || finiArray.isPrefixOf name then
    let (initPriority, rest) := strtoul (name.drop 12)
    if rest ≠ [] then 0 else initPriority
  else if ctors.isPrefixOf name || dtors.isPrefixOf name then
    let (initPriority, rest) := strtoul (name.drop 7)
    if rest ≠ [] then 0 else 65535 - initPriority
  else 0

def Asection.initPriority (s : Asection) : BitVec 64 := getInitPriority s.name.chars

def compareNames (asec bsec : Asection) : Int := strcmp asec.name.chars bsec.name.chars

/-- The difference of two `unsigned int`, as an `int`. -/
def compareAlignments (asec bsec : Asection) : Int :=
  (bsec.alignmentPower - asec.alignmentPower).toInt

/-- The difference of two `unsigned long`, as an `int`. -/
def comparePriorities (asec bsec : Asection) : Int :=
  ((asec.initPriority - bsec.initPriority).setWidth 32).toInt

/-- `compare_section`; `none` is its `abort`. -/
def compareSection (sort : SortType) (asec bsec : Asection) : Option Int :=
  match sort with
  | .none => none
  | .byNone => none
  | .byInitPriority =>
    if asec.initPriority = 0 ∨ bsec.initPriority = 0 then some (compareNames asec bsec)
    else if comparePriorities asec bsec ≠ 0 then some (comparePriorities asec bsec)
    else some (compareNames asec bsec)
  | .byAlignmentName =>
    if compareAlignments asec bsec ≠ 0 then some (compareAlignments asec bsec)
    else some (compareNames asec bsec)
  | .byName => some (compareNames asec bsec)
  | .byNameAlignment =>
    if compareNames asec bsec ≠ 0 then some (compareNames asec bsec)
    else some (compareAlignments asec bsec)
  | .byAlignment => some (compareAlignments asec bsec)

/-- `compare_section (sort, section, l) < 0`. -/
def goesBefore (sort : SortType) (s l : Asection) : Bool :=
  match compareSection sort s l with
  | some ret => ret < 0
  | none => false

/-! Adding a section to the statement. -/

/-- What is asked about a section on behalf of the statement and its output section:
`unique_section_p`; `lang_discard_section_p`, or the output section being `/DISCARD/`; and
`bfd_lookup_section_flags` for the list of flags, where the statement has one. -/
structure Output where
  unique : Asection → Bool
  discard : Asection → Bool
  sectionFlagList : Option (Asection → Bool)

/-- The sections that have an output section, and the input sections among the children of the
statement. -/
structure Placed where
  assigned : List Asection
  children : List Asection

/-- `lang_add_section`: whether a statement is made for the section, and what is assigned after
it. -/
def langAddSection (out : Output) (s : Asection) (sflagInfo : Option (Asection → Bool))
    (assigned : List Asection) : Bool × List Asection :=
  if out.discard s then (false, s :: assigned)
  else if sflagInfo.any (fun keep => !keep s) then (false, assigned)
  else if s ∈ assigned then (false, assigned)
  else (true, s :: assigned)

/-- The arguments `sec->spec.sorted`, where there is a pattern, and `section` of a callback. -/
abbrev Visit := Option SortType × Asection

/-- `wild_sort`: the place among the children of the one that should follow. -/
def wildSort (children : List Asection) (sec : Option SortType) (s : Asection) : Option Nat :=
  match sec with
  | none => none
  | some .none => none
  | some sort => children.findIdx? fun l => sort ≠ .byNone && goesBefore sort s l

/-- The statement of a section, before the one that should follow, or at the end. -/
def insertStatement (children : List Asection) (s : Asection) : Option Nat → List Asection
  | none => children ++ [s]
  | some before => children.insertIdx before s

/-- `output_section_callback`. -/
def outputSectionCallback (out : Output) (st : Placed) (v : Visit) : Placed :=
  if out.unique v.2 then st
  else
    let before := wildSort st.children v.1 v.2
    let (made, assigned) := langAddSection out v.2 out.sectionFlagList st.assigned
    { assigned := assigned
      children := if made then insertStatement st.children v.2 before else st.children }

/-! The fast way. -/

/-- `wild_sort_fast` and the node put there. -/
def wildSortFast (sec : Option SortType) (s : Asection) :
    SearchTree Asection → Option (SearchTree Asection)
  | .nil => some (.node .nil s .nil)
  | .node left l right =>
    match sec with
    | none => (wildSortFast sec s right).map fun right => .node left l right
    | some .none => (wildSortFast sec s right).map fun right => .node left l right
    | some sort => do
      let ret ← compareSection sort s l
      if ret < 0 then (wildSortFast sec s left).map fun left => .node left l right
      else (wildSortFast sec s right).map fun right => .node left l right

/-- `output_section_callback_fast`. -/
def outputSectionCallbackFast (out : Output) (tree : SearchTree Asection) (v : Visit) :
    Option (SearchTree Asection) :=
  if out.unique v.2 then some tree else wildSortFast v.1 v.2 tree

/-- A section of the tree is added without the list of flags. -/
def addFromTree (out : Output) (st : Placed) (s : Asection) : Placed :=
  let (made, assigned) := langAddSection out s none st.assigned
  { assigned := assigned, children := if made then st.children ++ [s] else st.children }

/-- `output_section_callback_tree_to_list`. -/
def treeToList (out : Output) : SearchTree Asection → Placed → Placed
  | .nil, st => st
  | .node left s right, st => treeToList out right (addFromTree out (treeToList out left st) s)

/-- The children that `walk_wild` with `output_section_callback` gives. -/
def wildPlain (out : Output) (visits : List Visit) (st : Placed) : Placed :=
  visits.foldl (outputSectionCallback out) st

/-- `wild`, for the sections that `walk_wild` visits; `handlerData0` is the sort kind of
`s->handler_data[0]`, where there is one. -/
def wild (out : Output) (handlerData0 : Option SortType) (visits : List Visit) (st : Placed) :
    Option Placed :=
  if handlerData0 = some .byName then do
    let tree ← visits.foldlM (outputSectionCallbackFast out) .nil
    some (treeToList out tree st)
  else some (wildPlain out visits st)

end FusionBinutils.Ld
