import FusionBinutils.Opcode.Encoding
import FusionBinutils.Lib.Sharing

/-! Merging of SEC_MERGE sections of one kind (bfd/merge.c). Pointers into a section are at
multiples of the entity size, and are counted in entities. -/
namespace FusionBinutils.Bfd.Merge

/-- What the sections of one `sec_merge_info` have in common. -/
structure Kind where
  entsize : Nat
  alignmentPower : Nat
  strings : Bool
  deriving DecidableEq, Repr

/-- The tests of `_bfd_add_merge_section`, for an `unsigned int` entity size; shifts by 32 or more
have no meaning. -/
def Kind.accepts (k : Kind) : Bool :=
  k.entsize ≠ 0 && k.entsize < 2 ^ 32 && k.alignmentPower < 32 &&
    !((k.entsize < 1 <<< k.alignmentPower &&
        ((k.entsize &&& (k.entsize - 1)) ≠ 0 || !k.strings)) ||
      (1 <<< k.alignmentPower < k.entsize &&
        (k.entsize &&& (1 <<< k.alignmentPower - 1)) ≠ 0))

/-- The sections that were recorded, with their contents; none is empty. -/
structure Input where
  kind : Kind
  secs : List (List BfdByte)
  accepted : kind.accepts = true
  recorded : secs ≠ []
  nonempty : ∀ c ∈ secs, c ≠ []

variable (k : Kind)

/-- `secinfo->contents`: "some versions of gcc may emit a string without a zero terminator", so
there is an extra zero behind the strings. -/
def Kind.buffer (c : List BfdByte) : List BfdByte :=
  if k.strings then c ++ List.replicate k.entsize 0 else c

/-- The entity at position `m`, if all of it was read or cleared. -/
def Kind.entity (buf : List BfdByte) (m : Nat) : Option (List BfdByte) :=
  if (m + 1) * k.entsize ≤ buf.length then some ((buf.drop (m * k.entsize)).take k.entsize)
  else none

def isZero (x : List BfdByte) : Bool := x.all (· == 0)

/-- The first zero entity from position `m` on. -/
def Kind.terminator (buf : List BfdByte) : Nat → Nat → Option Nat
  | 0, _ => none
  | fuel + 1, m => do
    let x ← k.entity buf m
    if isZero x then some m else Kind.terminator buf fuel (m + 1)

/-- The string that starts at position `m`, with its terminator. -/
def Kind.stringAt (buf : List BfdByte) (m : Nat) : Option (List BfdByte) := do
  let z ← k.terminator buf (buf.length + 1) m
  some ((buf.drop (m * k.entsize)).take ((z + 1 - m) * k.entsize))

/-- What `sec_merge_hash_lookup` reads. A length that does not fit an `unsigned int` is left
out. -/
def Kind.keyAt (buf : List BfdByte) (m : Nat) : Option (List BfdByte) := do
  let str ← if k.strings then k.stringAt buf m else k.entity buf m
  if str.length < 2 ^ 32 then some str else none

/-! The hash table. -/

/-- The union of an entry; a suffix is the position of the longer entry. -/
inductive EntryU where
  | index (n : Nat)
  | suffix (e : Nat)
  deriving DecidableEq, Repr

/-- `struct sec_merge_hash_entry`, with the bytes that `root.string` points at. Sections are
numbered in the order in which they were recorded. -/
structure Entry where
  string : List BfdByte
  len : Nat
  alignment : Nat
  u : EntryU
  secinfo : Nat
  deriving DecidableEq, Repr

/-- The entries in the order of `first` and `next`, which is that of their creation. At most one
entry of a string has a length that is not 0, so the order in a bucket does not matter. -/
abbrev Tab := List Entry

/-- `sec_merge_hash_lookup` without `create` and with alignment 0. -/
def lookup (tab : Tab) (str : List BfdByte) : Option Nat :=
  tab.findIdx? fun e => e.len == str.length && e.string.take str.length == str

/-- A less aligned copy is marked as deleted. -/
def Entry.delete (e : Entry) : Entry := { e with len := 0, alignment := 0 }

/-- `sec_merge_add`. -/
def secMergeAdd (tab : Tab) (str : List BfdByte) (alignment secinfo : Nat) : Tab :=
  let new : Entry := ⟨str, str.length, alignment, .index 0, secinfo⟩
  match lookup tab str with
  | none => tab ++ [new]
  | some i =>
    match tab[i]? with
    | none => tab
    | some e => if e.alignment < alignment then tab.set i e.delete ++ [new] else tab

/-! `record_section`. -/

def Kind.mask : Nat := 1 <<< k.alignmentPower - 1

/-- The alignment that a string at an offset is known to have. -/
def Kind.eltalign (offset : Nat) : Nat :=
  let a := ((offset ^^^ (offset - 1)) + 1) >>> 1
  if a = 0 ∨ k.mask < a then k.mask + 1 else a

/-- The loop over zero entities behind a string; `nul` is set once an aligned one was added. -/
def Kind.recordZeros (buf : List BfdByte) (size sec : Nat) :
    Nat → Nat → Bool → Tab → Option (Nat × Bool × Tab)
  | 0, m, nul, tab => some (m, nul, tab)
  | fuel + 1, m, nul, tab =>
    if size ≤ m * k.entsize then some (m, nul, tab)
    else do
      let x ← k.entity buf m
      if !isZero x then some (m, nul, tab)
      else if !nul && (m * k.entsize &&& k.mask) == 0 then
        Kind.recordZeros buf size sec fuel (m + 1) true (secMergeAdd tab x (k.mask + 1) sec)
      else Kind.recordZeros buf size sec fuel (m + 1) nul tab

/-- The loop over strings. -/
def Kind.recordStrings (buf : List BfdByte) (size sec : Nat) :
    Nat → Nat → Bool → Tab → Option Tab
  | 0, _, _, tab => some tab
  | fuel + 1, m, nul, tab =>
    if size ≤ m * k.entsize then some tab
    else do
      let str ← k.keyAt buf m
      let tab := secMergeAdd tab str (k.eltalign (m * k.entsize)) sec
      let (m, nul, tab) ← k.recordZeros buf size sec size (m + str.length / k.entsize) nul tab
      Kind.recordStrings buf size sec fuel m nul tab

/-- The loop over constants. -/
def Kind.recordConstants (buf : List BfdByte) (size sec : Nat) : Nat → Nat → Tab → Option Tab
  | 0, _, tab => some tab
  | fuel + 1, m, tab =>
    if size ≤ m * k.entsize then some tab
    else do
      let str ← k.keyAt buf m
      Kind.recordConstants buf size sec fuel (m + 1) (secMergeAdd tab str 1 sec)

/-- `record_section`; an entity takes at least one byte, so the size bounds the rounds. -/
def Kind.recordSection (tab : Tab) (c : List BfdByte) (sec : Nat) : Option Tab :=
  if k.strings then k.recordStrings (k.buffer c) c.length sec c.length 0 false tab
  else k.recordConstants (k.buffer c) c.length sec c.length 0 tab

/-- All sections, numbered from `sec` on. -/
def Kind.recordSections : Tab → Nat → List (List BfdByte) → Option Tab
  | tab, _, [] => some tab
  | tab, sec, c :: rest => do
    let tab ← k.recordSection tab c sec
    Kind.recordSections tab (sec + 1) rest

/-! `merge_strings`. -/

/-- The loop of `strrevcmp`, on what is left of both strings from the end. -/
def revcmp : List BfdByte → List BfdByte → Int
  | x :: xs, y :: ys => if x ≠ y then (x.toNat : Int) - y.toNat else revcmp xs ys
  | xs, ys => (xs.length : Int) - ys.length

def strrevcmp (a b : Entry) : Int :=
  revcmp (a.string.take a.len).reverse (b.string.take b.len).reverse

def strrevcmpAlign (a b : Entry) : Int :=
  let tailAlign := ((a.len &&& (a.alignment - 1) : Nat) : Int) - (b.len &&& (a.alignment - 1) : Nat)
  if tailAlign ≠ 0 then tailAlign else strrevcmp a b

/-- `is_suffix`: `b` is a proper suffix of `a`. -/
def isSuffix (a b : Entry) : Bool :=
  if a.len ≤ b.len then false
  else (a.string.drop (a.len - b.len)).take b.len == b.string.take b.len

/-- `e->len -= entsize`, for an entry that is not deleted. -/
def Kind.adjustLen (e : Entry) : Entry :=
  if e.alignment ≠ 0 then { e with len := e.len - k.entsize } else e

/-- `e->len += entsize`. -/
def Kind.restoreLen (e : Entry) : Entry := { e with len := e.len + k.entsize }

/-- `cmp->u.suffix = e; cmp->alignment = 0`. -/
def Entry.share (cmp : Entry) (e : Nat) : Entry := { cmp with u := .suffix e, alignment := 0 }

/-- The alignment that all entries have, 0 if there are none and `(unsigned) -1` if they differ. -/
def commonAlignment (tab : Tab) : Nat :=
  tab.foldl (fun alignment e =>
    if e.alignment ≠ 0 ∧ alignment ≠ e.alignment then
      if alignment = 0 then e.alignment else 2 ^ 32 - 1
    else alignment) 0

/-- The positions of the entries that are not deleted, sorted by suffix and length. -/
def Kind.sortedArray (tab : Tab) : List Nat :=
  let alignment := commonAlignment tab
  let compare := if alignment ≠ 2 ^ 32 - 1 ∧ k.entsize < alignment then strrevcmpAlign
    else strrevcmp
  let array := (List.range tab.length).filter fun i =>
    (tab[i]?.map fun e => e.alignment != 0).getD false
  array.mergeSort fun i j =>
    match tab[i]?, tab[j]? with
    | some a, some b => compare a b ≤ 0
    | _, _ => true

/-- The condition under which `cmp` is merged into the end of `e`. -/
def canShare (e cmp : Entry) : Bool :=
  cmp.alignment ≤ e.alignment && ((e.len - cmp.len) &&& (cmp.alignment - 1)) == 0 && isSuffix e cmp

/-- The loop over the sorted array, from its end; `e` is the last entry that is kept. -/
def Kind.mergeLoop : Tab → Nat → List Nat → Option Tab :=
  Sharing.loop k.restoreLen canShare Entry.share

/-- Merge suffixes, when the array to sort could be allocated. -/
def Kind.mergeSuffixes (tab : Tab) : Option Tab := do
  let tab := tab.map k.adjustLen
  match (k.sortedArray tab).reverse with
  | [] => some tab
  | e :: rest =>
    let last ← tab[e]?
    k.mergeLoop (tab.set e (k.restoreLen last)) e rest

/-- `(size + alignment - 1) & ~(alignment - 1)`. -/
def alignUp (size alignment : Nat) : Nat :=
  (size + alignment - 1) - ((size + alignment - 1) &&& (alignment - 1))

/-- The variables of the loops that assign positions. -/
structure Layout where
  size : Nat
  secinfo : Nat
  secSize : Nat → Nat
  firstStr : Nat → Option Nat

def Layout.store (st : Layout) : Layout :=
  { st with secSize := Function.update st.secSize st.secinfo st.size }

/-- The first entry of a section that is kept starts it. -/
def Layout.begin (st : Layout) (i secinfo : Nat) : Layout :=
  { st with firstStr := Function.update st.firstStr secinfo (some i), size := 0 }

/-- `e->u.index = size; size += e->len`, with the size aligned. -/
def Layout.put (st : Layout) (e : Entry) : Layout × Entry :=
  let index := alignUp st.size e.alignment
  ({ st with size := index + e.len }, { e with u := .index index })

/-- One entry of a table of strings. -/
def assignString (st : Layout) (i : Nat) (e : Entry) : Layout × Entry :=
  let st := if e.secinfo ≠ st.secinfo then { st.store with secinfo := e.secinfo } else st
  if e.alignment ≠ 0 then
    let st := if st.firstStr e.secinfo = none then st.begin i e.secinfo else st
    st.put e
  else (st, e)

/-- One entry of a table of constants; `started` tells that `secinfo` is not a null pointer. -/
def assignConstant (started : Bool) (st : Layout) (i : Nat) (e : Entry) : Layout × Entry :=
  let st :=
    if st.firstStr e.secinfo = none then (if started then st.store else st).begin i e.secinfo
    else st
  let r := st.put e
  ({ r.1 with secinfo := e.secinfo }, r.2)

/-- Assign positions to the entries from position `i` on. -/
def assign (one : Layout → Nat → Entry → Layout × Entry) : Layout → Nat → Tab → Layout × Tab
  | st, _, [] => (st, [])
  | st, i, e :: tab =>
    let r := one st i e
    let rest := assign one r.1 (i + 1) tab
    (rest.1, r.2 :: rest.2)

/-- An entry that is not kept gets the position of its string in the longer one, which is. -/
def adjust (tab : Tab) (e : Entry) : Option Entry :=
  if e.alignment ≠ 0 ∨ e.len = 0 then some e
  else
    match e.u with
    | .index _ => none
    | .suffix j => do
      let s ← tab[j]?
      match s.u with
      | .suffix _ => none
      | .index n =>
        if s.alignment = 0 then none
        else some { e with
          secinfo := s.secinfo, alignment := s.alignment, u := .index (n + (s.len - e.len)) }

/-! `_bfd_merge_sections`. -/

/-- The entries, the positions of those that are still in the chain, and what the sections know. -/
structure Merged where
  tab : Tab
  chain : List Nat
  secSize : Nat → Nat
  firstStr : Nat → Option Nat

/-- The positions of the entries that are kept. -/
def keptChain (tab : Tab) : List Nat :=
  (List.range tab.length).filter fun i => (tab[i]?.map fun e => e.alignment != 0).getD false

/-- Before positions are assigned; `secs` still have the sizes they were read with. -/
def Layout.start (secs : List (List BfdByte)) (tab : Tab) : Layout :=
  ⟨0, (tab.head?.map Entry.secinfo).getD 0, fun i => (secs[i]?.map List.length).getD 0,
    fun _ => none⟩

/-- The last section is as long as its alignment asks for. -/
def Kind.finish (st : Layout) : Layout :=
  if k.alignmentPower ≠ 0 then
    { st with size := alignUp st.size (1 <<< k.alignmentPower) }.store
  else st.store

/-- `merge_strings`, told whether the array to sort can be allocated. -/
def Kind.mergeStrings (secs : List (List BfdByte)) (mallocOk : Bool) (tab : Tab) :
    Option Merged := do
  let tab ← if mallocOk then k.mergeSuffixes tab else some tab
  let r := assign assignString (Layout.start secs tab) 0 tab
  let st := k.finish r.1
  let tab ← r.2.mapM (adjust r.2)
  some ⟨tab, keptChain r.2, st.secSize, st.firstStr⟩

/-- "Things are much simpler for non-strings." -/
def mergeConstants (secs : List (List BfdByte)) : Tab → Merged
  | [] => ⟨[], [], (Layout.start secs []).secSize, fun _ => none⟩
  | e :: tab =>
    let r := assignConstant false (Layout.start secs (e :: tab)) 0 e
    let rest := assign (assignConstant true) r.1 1 tab
    let st := rest.1.store
    ⟨r.2 :: rest.2, List.range (r.2 :: rest.2).length, st.secSize, st.firstStr⟩

def mergeSections (inp : Input) (mallocOk : Bool) : Option Merged := do
  let tab ← inp.kind.recordSections [] 0 inp.secs
  if inp.kind.strings then inp.kind.mergeStrings inp.secs mallocOk tab
  else some (mergeConstants inp.secs tab)

/-! What comes after. -/

/-- `-off & (entry->alignment - 1)`. -/
def padLen (off alignment : Nat) : Nat := (2 ^ 64 - off % 2 ^ 64) &&& (alignment - 1)

/-- The loop of `sec_merge_emit`: what is written and the offset after it. -/
def emitEntries : Nat → List Entry → List BfdByte × Nat
  | off, [] => ([], off)
  | off, e :: rest =>
    let len := padLen off e.alignment
    let r := emitEntries (off + len + e.len) rest
    (List.replicate len 0 ++ e.string.take e.len ++ r.1, r.2)

/-- The entries of the chain from position `first` on. -/
def Merged.chainFrom (mg : Merged) (first : Nat) : List Entry :=
  (mg.chain.dropWhile (· ≠ first)).filterMap fun i => mg.tab[i]?

/-- `sec_merge_emit`, as `_bfd_write_merged_section` calls it. -/
def Merged.emit (mg : Merged) (sec : Nat) : List BfdByte :=
  match mg.firstStr sec with
  | none => []
  | some first =>
    let r := emitEntries 0 ((mg.chainFrom first).takeWhile fun e => e.secinfo == sec)
    -- "trailing alignment needed?"
    r.1 ++ List.replicate (mg.secSize sec - r.2) 0

/-- The start of the string that holds the entity at position `m`. -/
def Kind.startOf (buf : List BfdByte) : Nat → Nat
  | 0 => 0
  | m + 1 =>
    match k.entity buf m with
    | some x => if isZero x then m + 1 else Kind.startOf buf m
    | none => m + 1

/-- `_bfd_merged_section_offset`: the section and the offset in it. -/
def mergedSectionOffset (inp : Input) (mg : Merged) (sec offset : Nat) : Option (Nat × Nat) := do
  let k := inp.kind
  let c ← inp.secs[sec]?
  if c.length ≤ offset then
    some (sec, if (mg.firstStr sec).isSome then mg.secSize sec else 0)
  else
    let m := offset / k.entsize
    let p := if k.strings then k.startOf (k.buffer c) m else m
    let str ← k.keyAt (k.buffer c) p
    match lookup mg.tab str with
    | some i =>
      let e ← mg.tab[i]?
      let .index n := e.u | none
      some (e.secinfo, n + (offset - p * k.entsize))
    | none =>
      -- somebody points into the padding after a NUL character but before the next entity
      if !k.strings || str.head? != some 0 then none
      else
        let i ← mg.chain.head?
        let e ← mg.tab[i]?
        let .index n := e.u | none
        some (e.secinfo, n + e.len + offset - (m + 1) * k.entsize)

end FusionBinutils.Bfd.Merge
