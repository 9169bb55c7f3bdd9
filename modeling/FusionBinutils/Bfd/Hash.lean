import FusionBinutils.Lib.Buckets
import FusionBinutils.Bfd.Bytes

/-! The hash tables of BFD (bfd/hash.c): entering, growing, renaming and traversing. -/
namespace FusionBinutils.Bfd

open Function (update)

/-- A string up to its NUL. -/
abbrev HashName := { l : List BfdByte // 0 ∉ l }

/-- `struct bfd_hash_entry` at its address. Its `next` is what follows it in its chain. -/
structure HashEntry where
  id : Nat
  string : HashName
  hash : BitVec 64
  deriving DecidableEq

/-- Which allocations succeed: the copy of the string, `newfunc`, and the larger array. -/
structure HashMemory where
  string : Bool
  entry : Bool
  grow : Bool

def hashStep (hash : BitVec 64) (c : BfdByte) : BitVec 64 :=
  let c32 : BitVec 32 := c.setWidth 32
  let h := hash + (c32 + (c32 <<< 17)).setWidth 64
  h ^^^ (h >>> 2)

def bfdHashHash (string : HashName) : BitVec 64 :=
  let len : BitVec 32 := .ofNat 32 string.1.length
  let h := string.1.foldl hashStep 0 + (len + (len <<< 17)).setWidth 64
  h ^^^ (h >>> 2)

def hashPrimes : List Nat :=
  [31, 61, 127, 251, 509, 1021, 2039, 4093, 8191, 16381, 32749, 65521, 131071, 262139, 524287,
   1048573, 2097143, 4194301, 8388593, 16777213, 33554393, 67108859, 134217689, 268435399,
   536870909, 1073741789, 2147483647, 4294967291]

def higherPrimeLoop (n : Nat) : Nat → Nat → Nat → Nat
  | 0, low, _ => low
  | fuel + 1, low, high =>
    if low ≠ high then
      let mid := low + (high - low) / 2
      if hashPrimes.getD mid 0 ≤ n then higherPrimeLoop n fuel (mid + 1) high
      else higherPrimeLoop n fuel low mid
    else low

/-- `higher_prime_number`. From the last prime on, it reads what stands `beyond` the array. -/
def higherPrimeNumber (beyond n : Nat) : Nat :=
  let low := (hashPrimes ++ [beyond]).getD (higherPrimeLoop n 28 0 28) 0
  if low ≤ n then 0 else low

structure HashTable where
  chains : Nat → List HashEntry
  size : Nat
  count : Nat
  frozen : Bool

namespace HashTable

/-- `bfd_hash_table_init_n` -/
def init (size : Nat) : HashTable := ⟨fun _ => [], size, 0, false⟩

variable (t : HashTable)

def index (hash : BitVec 64) : Nat := hash.toNat % t.size

/-- The entries of the table, in the order of a traversal. -/
def entries : List HashEntry := Buckets.all t.chains t.size

/-- The search of `bfd_hash_lookup`. -/
def find (string : HashName) : Option HashEntry :=
  (t.chains (t.index (bfdHashHash string))).find? fun e =>
    e.hash = bfdHashHash string ∧ e.string = string

/-- A chain is moved in runs of entries with one hash; each round moves one entry at least. -/
def moveChain (newsize : Nat) : Nat → List HashEntry → (Nat → List HashEntry) →
    Nat → List HashEntry
  | n + 1, e :: l, newtable =>
    let i := e.hash.toNat % newsize % 2 ^ 32
    moveChain newsize n (l.dropWhile (·.hash = e.hash))
      (update newtable i (e :: l.takeWhile (·.hash = e.hash) ++ newtable i))
  | _, _, newtable => newtable

def moveChains (newsize : Nat) : Nat → List HashEntry :=
  (List.range t.size).foldl
    (fun newtable hi => moveChain newsize (t.chains hi).length (t.chains hi) newtable) fun _ => []

/-- The table is more than three quarters full. -/
def full : Bool := t.size * 3 % 2 ^ 32 / 4 < t.count

def grow (beyond : Nat) (m : HashMemory) : HashTable :=
  let newsize := higherPrimeNumber beyond t.size
  if newsize = 0 ∨ newsize * 8 % 2 ^ 64 / 8 ≠ newsize then { t with frozen := true }
  else if m.grow = false then { t with frozen := true }
  else { t with chains := t.moveChains newsize, size := newsize % 2 ^ 32 }

/-- The new entry is the head of its chain. -/
def link (e : HashEntry) : HashTable :=
  { t with
    chains := update t.chains (t.index e.hash) (e :: t.chains (t.index e.hash))
    count := (t.count + 1) % 2 ^ 32 }

/-- `bfd_hash_insert`; `id` is the address `newfunc` takes for the entry. -/
def bfdHashInsert (beyond : Nat) (m : HashMemory) (id : Nat) (string : HashName)
    (hash : BitVec 64) : HashTable × Option HashEntry :=
  if m.entry = false then (t, none)
  else
    let e : HashEntry := ⟨id, string, hash⟩
    let t' := t.link e
    (if t'.frozen = false ∧ t'.full = true then t'.grow beyond m else t', some e)

def bfdHashLookup (beyond : Nat) (m : HashMemory) (id : Nat) (string : HashName)
    (create copy : Bool) : HashTable × Option HashEntry :=
  match t.find string with
  | some e => (t, some e)
  | none =>
    if create = false then (t, none)
    else if copy = true ∧ m.string = false then (t, none)
    else t.bfdHashInsert beyond m id string (bfdHashHash string)

/-- The walk over the pointers of a chain that ends at an entry, and what it does there. -/
def edit (id : Nat) (f : List HashEntry → List HashEntry) :
    List HashEntry → Option (List HashEntry)
  | [] => none
  | e :: l => if e.id = id then some (f l) else (edit id f l).map (e :: ·)

/-- `bfd_hash_rename`, or nothing for its `abort`. -/
def bfdHashRename (string : HashName) (ent : HashEntry) : Option HashTable := do
  let chain ← edit ent.id id (t.chains (t.index ent.hash))
  let chains := update t.chains (t.index ent.hash) chain
  let ent' : HashEntry := { ent with string, hash := bfdHashHash string }
  let i := t.index ent'.hash
  some { t with chains := update chains i (ent' :: chains i) }

/-- `bfd_hash_replace`, or nothing for its `abort`. Its caller has copied the whole of `old` to
`nw`, so the chain goes on behind `nw` as it did behind `old`. -/
def bfdHashReplace (old nw : HashEntry) : Option HashTable := do
  let chain ← edit old.id (nw :: ·) (t.chains (t.index old.hash))
  some { t with chains := update t.chains (t.index old.hash) chain }

/-- `p->next` -/
def next (p : HashEntry) : Option HashEntry :=
  ((t.chains (t.index p.hash)).dropWhile (·.id ≠ p.id)).tail.head?

/-- The loops of `bfd_hash_traverse` from the head of a chain on. -/
def seek (i : Nat) : Option (Nat × HashEntry) := Buckets.seek t.chains (t.size - i) i

/-- The loops of `bfd_hash_traverse` from an entry on. -/
def advance (i : Nat) (p : HashEntry) : Option (Nat × HashEntry) :=
  match t.next p with
  | some e => some (i, e)
  | none => t.seek (i + 1)

end HashTable

/-- A running traversal: its locals, and which entries there were and have been visited. -/
structure HashFrame where
  i : Nat
  p : HashEntry
  start : List Nat
  visited : List Nat

/-- A traversal that has ended, by itself or at an answer of its callback. -/
structure HashTraversal where
  start : List Nat
  visited : List Nat
  stopped : Bool

/-- A call into the table, or a callback that returns. -/
inductive HashEvent where
  | lookup (string : HashName) (create copy : Bool) (m : HashMemory)
  | insert (string : HashName) (hash : BitVec 64) (m : HashMemory)
  | rename (string : HashName) (ent : HashEntry)
  | replace (old : HashEntry)
  | traverse
  | ret (more : Bool)

/-- The table with the traversals on the stack of the program. `live` are the entries there ought
to be, and `keyed` says that all names entered directly were new and came with their hash. -/
structure HashState where
  table : HashTable
  fresh : Nat
  live : List HashEntry
  keyed : Bool
  frames : List HashFrame
  finished : List HashTraversal

namespace HashState

def init (size : Nat) : HashState := ⟨.init size, 0, [], true, [], []⟩

variable (s : HashState)

/-- After a call that may have made an entry. -/
def record (r : HashTable × Option HashEntry) : HashState :=
  match r.2 with
  | some e =>
    if e.id = s.fresh then { s with table := r.1, live := e :: s.live, fresh := s.fresh + 1 }
    else { s with table := r.1 }
  | none => { s with table := r.1 }

def unused (string : HashName) : Bool := s.live.all (·.string ≠ string)

/-- The end of `bfd_hash_traverse`. -/
def thaw (tr : HashTraversal) (frames : List HashFrame) : HashState :=
  { s with table := { s.table with frozen := false }, frames, finished := tr :: s.finished }

/-- One event. Names are changed and entries replaced outside of traversals, entries of the table
only, and names only to ones that are unused. -/
def step (beyond : Nat) : HashEvent → Option HashState
  | .lookup string create copy m =>
    some (s.record (s.table.bfdHashLookup beyond m s.fresh string create copy))
  | .insert string hash m =>
    let keyed := s.keyed && decide (hash = bfdHashHash string) && s.unused string
    some { s.record (s.table.bfdHashInsert beyond m s.fresh string hash) with keyed }
  | .rename string ent =>
    if s.frames.isEmpty ∧ ent ∈ s.live ∧ s.unused string then do
      let table ← s.table.bfdHashRename string ent
      let ent' : HashEntry := { ent with string, hash := bfdHashHash string }
      some { s with table, live := s.live.map fun e => if e.id = ent.id then ent' else e }
    else none
  | .replace old =>
    if s.frames.isEmpty ∧ old ∈ s.live then do
      let nw := { old with id := s.fresh }
      let table ← s.table.bfdHashReplace old nw
      some { s with
        table, fresh := s.fresh + 1, live := s.live.map fun e => if e.id = old.id then nw else e }
    else none
  | .traverse =>
    let s' := { s with table := { s.table with frozen := true } }
    let start := s.table.entries.map (·.id)
    some (match s'.table.seek 0 with
      | some (i, p) => { s' with frames := ⟨i, p, start, [p.id]⟩ :: s.frames }
      | none => s'.thaw ⟨start, [], false⟩ s.frames)
  | .ret more =>
    match s.frames with
    | [] => none
    | f :: frames =>
      if more = false then some (s.thaw ⟨f.start, f.visited, true⟩ frames)
      else some (match s.table.advance f.i f.p with
        | some (i, p) => { s with frames := ⟨i, p, f.start, p.id :: f.visited⟩ :: frames }
        | none => s.thaw ⟨f.start, f.visited, false⟩ frames)

def run (beyond : Nat) : HashState → List HashEvent → Option HashState
  | s, [] => some s
  | s, e :: es => do
    let s' ← step s beyond e
    run beyond s' es

/-- The table is a map, and its traversals have done what they are for. -/
structure Correct : Prop where
  /-- every entry is in the bucket of its hash -/
  bucket : Buckets.Placed (fun e => s.table.index e.hash) s.table.chains
  /-- no entry is lost -/
  kept : s.table.entries.Perm s.live
  /-- what is found is an entry of that name, and what is not found is no entry of its hash -/
  found : ∀ string, match s.table.find string with
    | some e => e ∈ s.live ∧ e.string = string
    | none => ∀ e ∈ s.live, e.string = string → e.hash ≠ bfdHashHash string
  /-- where each name was entered once and with its hash, it is found exactly -/
  exact : s.keyed = true → ∀ string e, s.table.find string = some e ↔
    e ∈ s.live ∧ e.string = string
  /-- a traversal visits no entry twice -/
  once : (∀ f ∈ s.frames, f.visited.Nodup) ∧ ∀ tr ∈ s.finished, tr.visited.Nodup
  /-- one that has not been stopped has visited every entry there was at its start -/
  every : ∀ tr ∈ s.finished, tr.stopped = false → ∀ id ∈ tr.start, tr.visited.count id = 1

/-- A call that may make an entry does not grow the table while a traversal runs, nor beyond the
last of the primes. -/
def Room (m : HashMemory) : Prop :=
  m.entry = false ∨ m.grow = false ∨ s.table.frozen = true ∨
    (s.table.count + 1) % 2 ^ 32 ≤ s.table.size * 3 % 2 ^ 32 / 4 ∨
    s.frames.isEmpty = true ∧ s.table.size < 4294967291

instance (m : HashMemory) : Decidable (s.Room m) := inferInstanceAs (Decidable (_ ∨ _))

/-- Only calls that make an entry need room. -/
def Calm : HashEvent → Prop
  | .lookup string create copy m =>
    s.table.find string = none → create = true → (copy = true → m.string = true) → s.Room m
  | .insert _ _ m => s.Room m
  | _ => True

instance : DecidablePred s.Calm
  | .lookup _ _ _ _ => inferInstanceAs (Decidable (_ → _ → _ → _))
  | .insert _ _ m => inferInstanceAs (Decidable (s.Room m))
  | .rename _ _ | .replace _ | .traverse | .ret _ => inferInstanceAs (Decidable True)

/-- Every step of a run has room. -/
def CalmRun (beyond : Nat) : HashState → List HashEvent → Prop
  | _, [] => True
  | s, e :: es => s.Calm e ∧ match step s beyond e with
    | some s' => CalmRun beyond s' es
    | none => True

instance decidableCalmRun (beyond : Nat) (s : HashState) :
    (es : List HashEvent) → Decidable (CalmRun beyond s es)
  | [] => inferInstanceAs (Decidable True)
  | e :: es =>
    match h : step s beyond e with
    | some s' =>
      have := decidableCalmRun beyond s' es
      decidable_of_iff (s.Calm e ∧ CalmRun beyond s' es) (by rw [CalmRun, h])
    | none => decidable_of_iff (s.Calm e) (by rw [CalmRun, h]; simp)

end HashState

/-- Every run of calls on a table that was initialised keeps it correct. -/
def HashTablesCorrect : Prop :=
  ∀ beyond size : Nat, 0 < size → size < 2 ^ 32 → ∀ es s,
    HashState.run beyond (.init size) es = some s → s.Correct

end FusionBinutils.Bfd
