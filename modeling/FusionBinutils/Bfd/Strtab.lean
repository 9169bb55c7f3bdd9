import FusionBinutils.Opcode.Encoding
import FusionBinutils.Lib.Blocks

/-! The ELF string table (bfd/elf-strtab.c). -/
namespace FusionBinutils.Bfd.Strtab

/-- A string that the table can take: "2G strings lose". -/
structure CStr where
  chars : List BfdByte
  noNul : 0 ∉ chars
  short : chars.length + 1 < 2 ^ 31
  deriving DecidableEq

/-- The union of an entry; a suffix is the position of the longer entry in the array. -/
inductive EntryU where
  | index (n : Nat)
  | suffix (e : Nat)
  deriving DecidableEq, Repr

/-- `struct elf_strtab_hash_entry`. -/
structure Entry where
  string : CStr
  len : Int
  refcount : BitVec 32
  u : EntryU
  deriving DecidableEq

def Entry.setRefcount (e : Entry) (r : BitVec 32) : Entry := { e with refcount := r }

/-- `struct elf_strtab_hash`. The array leaves out the null pointer at index 0. An entry of the
hash table gets its length with its index, so the table holds the entries of the array. -/
structure Tab where
  array : List Entry
  alloced : Nat
  secSize : Nat
  deriving DecidableEq

def Tab.size (tab : Tab) : Nat := tab.array.length + 1

/-- `_bfd_elf_strtab_init`. -/
def strtabInit : Tab := ⟨[], 64, 0⟩

/-- `_bfd_elf_strtab_add`, told which allocations succeed. The index `none` is `(size_t) -1`; the
answer `none` is a table that has lost its array. -/
def strtabAdd (tab : Tab) (str : CStr) (lookupOk reallocOk : Bool) : Option (Option Nat × Tab) :=
  if str.chars = [] then some (some 0, tab)
  else
    match tab.array.findIdx? (·.string == str) with
    | some k => do
      let e ← tab.array[k]?
      match e.u with
      | .index n =>
        let array := tab.array.set k (e.setRefcount (e.refcount + 1))
        some (some n, { tab with array := array })
      | .suffix _ => none
    | none =>
      if !lookupOk then some (none, tab)
      else if tab.size = tab.alloced ∧ !reallocOk then none
      else
        let e : Entry := ⟨str, str.chars.length + 1, 1, .index tab.size⟩
        let alloced := if tab.size = tab.alloced then tab.alloced * 2 else tab.alloced
        some (some tab.size, { tab with array := tab.array ++ [e], alloced := alloced })

/-- The entry of an index that is neither 0 nor `(size_t) -1`, with a changed reference count; an
index outside of the array fails an assertion and leaves the array. -/
def changeRef (f : BitVec 32 → BitVec 32) (tab : Tab) : Option Nat → Option Tab
  | none | some 0 => some tab
  | some (k + 1) => do
    let e ← tab.array[k]?
    some { tab with array := tab.array.set k (e.setRefcount (f e.refcount)) }

/-- `_bfd_elf_strtab_addref`. -/
def strtabAddref : Tab → Option Nat → Option Tab := changeRef (· + 1)

/-- `_bfd_elf_strtab_delref`. -/
def strtabDelref : Tab → Option Nat → Option Tab := changeRef (· - 1)

/-- `_bfd_elf_strtab_refcount`; index 0 has none. -/
def strtabRefcount (tab : Tab) : Nat → BitVec 32
  | 0 => 0
  | k + 1 => (tab.array[k]?.map Entry.refcount).getD 0

/-- `_bfd_elf_strtab_size`. -/
def strtabSize (tab : Tab) : Nat := if tab.secSize ≠ 0 then tab.secSize else tab.size

/-- `_bfd_elf_strtab_offset`. It also takes back one reference. -/
def strtabOffset (tab : Tab) : Nat → Option (Nat × Tab)
  | 0 => some (0, tab)
  | k + 1 => do
    let e ← tab.array[k]?
    match e.u with
    | .index n =>
      some (n, { tab with array := tab.array.set k (e.setRefcount (e.refcount - 1)) })
    | .suffix _ => none

/-- What `_bfd_elf_strtab_emit` writes for one entry. -/
def Entry.bytes (e : Entry) : List BfdByte :=
  if e.len < 0 then [] else (e.string.chars ++ [0]).take e.len.toNat

/-- `_bfd_elf_strtab_emit`. -/
def strtabEmit (tab : Tab) : List BfdByte := [0] ++ tab.array.flatMap Entry.bytes

/-! `_bfd_elf_strtab_finalize`. -/

/-- The loop of `strrevcmp`, on what is left of both strings from the end. -/
def revcmp : List BfdByte → List BfdByte → Int
  | x :: xs, y :: ys => if x ≠ y then (x.toNat : Int) - y.toNat else revcmp xs ys
  | xs, ys => (xs.length : Int) - ys.length

def strrevcmp (a b : Entry) : Int :=
  revcmp (a.string.chars.take a.len.toNat).reverse (b.string.chars.take b.len.toNat).reverse

/-- `is_suffix`: `b` is a proper suffix of `a`. -/
def isSuffix (a b : Entry) : Bool :=
  if a.len ≤ b.len then false
  else
    (a.string.chars.drop (a.len - b.len).toNat).take (b.len - 1).toNat
      == b.string.chars.take (b.len - 1).toNat

/-- Live entries lose the terminator of their length, the others all of it. -/
def adjustLen (e : Entry) : Entry :=
  { e with len := if e.refcount ≠ 0 then e.len - 1 else 0 }

/-- The positions of the live entries, sorted by suffix and length. -/
def sortedLive (array : List Entry) : List Nat :=
  let live := (List.range array.length).filter fun k =>
    (array[k]?.map fun e => e.refcount != 0).getD false
  live.mergeSort fun i j =>
    match array[i]?, array[j]? with
    | some a, some b => strrevcmp a b ≤ 0
    | _, _ => true

/-- `cmp->len += 1`. -/
def Entry.restoreLen (e : Entry) : Entry := { e with len := e.len + 1 }

/-- `cmp->u.suffix = e; cmp->len = -cmp->len`. -/
def Entry.share (cmp : Entry) (e : Nat) : Entry := { cmp with u := .suffix e, len := -cmp.len }

/-- The loop over the sorted array, from its end; `e` is the last entry that is kept. -/
def mergeLoop : List Entry → Nat → List Nat → Option (List Entry)
  | array, _, [] => some array
  | array, e, k :: rest => do
    let kept ← array[e]?
    let cmp ← array[k]?
    let cmp := cmp.restoreLen
    if isSuffix kept cmp then mergeLoop (array.set k (cmp.share e)) e rest
    else mergeLoop (array.set k cmp) k rest

/-- Merge suffixes, when the array to sort could be allocated. -/
def mergeSuffixes (array : List Entry) : Option (List Entry) := do
  let array := array.map adjustLen
  match (sortedLive array).reverse with
  | [] => some array
  | e :: rest =>
    let last ← array[e]?
    mergeLoop (array.set e last.restoreLen) e rest

/-- An entry that gets a position of its own. -/
def Entry.keeps (e : Entry) : Bool := e.refcount != 0 && decide (0 < e.len)

/-- Assign positions to the strings we want to keep, from `secSize` on. -/
def assignPositions : Nat → List Entry → List Entry × Nat
  | secSize, [] => ([], secSize)
  | secSize, e :: es =>
    if e.keeps then
      let r := assignPositions (secSize + e.len.toNat) es
      ({ e with u := .index secSize } :: r.1, r.2)
    else
      let r := assignPositions secSize es
      (e :: r.1, r.2)

/-- The position of an entry that is a suffix of another. -/
def adjustOne (array : List Entry) (k : Nat) : Option (List Entry) := do
  let e ← array[k]?
  if e.refcount ≠ 0 ∧ e.len < 0 then
    match e.u with
    | .index _ => none
    | .suffix j =>
      let s ← array[j]?
      match s.u with
      | .suffix _ => none
      | .index n => some (array.set k { e with u := .index (n + (s.len + e.len).toNat) })
  else some array

/-- Adjust the rest. -/
def adjustRest (array : List Entry) : Option (List Entry) :=
  (List.range array.length).foldlM adjustOne array

/-- `_bfd_elf_strtab_finalize`, told whether the array to sort can be allocated. -/
def strtabFinalize (mallocOk : Bool) (tab : Tab) : Option Tab := do
  let array ← (if mallocOk then mergeSuffixes tab.array else some tab.array : Option (List Entry))
  let r := assignPositions 1 array
  let array ← adjustRest r.1
  some { tab with array := array, secSize := r.2 }

/-! Sequences of calls. -/

inductive Call where
  | add (str : CStr) (lookupOk reallocOk : Bool)
  | addref (idx : Option Nat)
  | delref (idx : Option Nat)

/-- The table, and the indices that were returned for the strings added so far. -/
structure Session where
  tab : Tab
  added : List (CStr × Nat)

def Session.start : Session := ⟨strtabInit, []⟩

def Session.call (s : Session) : Call → Option Session
  | .add str lookupOk reallocOk => do
    let (idx, tab) ← strtabAdd s.tab str lookupOk reallocOk
    match idx with
    | none => some ⟨tab, s.added⟩
    | some idx => some ⟨tab, s.added ++ [(str, idx)]⟩
  | .addref idx => (strtabAddref s.tab idx).map fun tab => ⟨tab, s.added⟩
  | .delref idx => (strtabDelref s.tab idx).map fun tab => ⟨tab, s.added⟩

def Session.run (calls : List Call) : Option Session := calls.foldlM Session.call .start

end FusionBinutils.Bfd.Strtab
