import FusionBinutils.Lib.Buckets
import Mathlib.Data.Nat.Prime.Basic
import Mathlib.Tactic.Positivity
import Mathlib.Tactic.Ring

/-! The expandable hash tables of libiberty/hashtab.c, whose sizes are primes. -/
namespace FusionBinutils.Libiberty.Hashtab

open Probing
open scoped List

/-- A prime near a power of two, the low words of the multiplicative inverses of it and of the
number two below, and the shift that goes with them. -/
structure PrimeEnt where
  prime : UInt32
  inv : UInt32
  invM2 : UInt32
  shift : UInt32
  deriving DecidableEq, Repr

def primeTab : List PrimeEnt :=
  [⟨7, 0x24924925, 0x9999999b, 2⟩,
    ⟨13, 0x3b13b13c, 0x745d1747, 3⟩,
    ⟨31, 0x08421085, 0x1a7b9612, 4⟩,
    ⟨61, 0x0c9714fc, 0x15b1e5f8, 5⟩,
    ⟨127, 0x02040811, 0x0624dd30, 6⟩,
    ⟨251, 0x05197f7e, 0x073260a5, 7⟩,
    ⟨509, 0x01824366, 0x02864fc8, 8⟩,
    ⟨1021, 0x00c0906d, 0x014191f7, 9⟩,
    ⟨2039, 0x0121456f, 0x0161e69e, 10⟩,
    ⟨4093, 0x00300902, 0x00501908, 11⟩,
    ⟨8191, 0x00080041, 0x00180241, 12⟩,
    ⟨16381, 0x000c0091, 0x00140191, 13⟩,
    ⟨32749, 0x002605a5, 0x002a06e6, 14⟩,
    ⟨65521, 0x000f00e2, 0x00110122, 15⟩,
    ⟨131071, 0x00008001, 0x00018003, 16⟩,
    ⟨262139, 0x00014002, 0x0001c004, 17⟩,
    ⟨524287, 0x00002001, 0x00006001, 18⟩,
    ⟨1048573, 0x00003001, 0x00005001, 19⟩,
    ⟨2097143, 0x00004801, 0x00005801, 20⟩,
    ⟨4194301, 0x00000c01, 0x00001401, 21⟩,
    ⟨8388593, 0x00001e01, 0x00002201, 22⟩,
    ⟨16777213, 0x00000301, 0x00000501, 23⟩,
    ⟨33554393, 0x00001381, 0x00001481, 24⟩,
    ⟨67108859, 0x00000141, 0x000001c1, 25⟩,
    ⟨134217689, 0x000004e1, 0x00000521, 26⟩,
    ⟨268435399, 0x00000391, 0x000003b1, 27⟩,
    ⟨536870909, 0x00000019, 0x00000029, 28⟩,
    ⟨1073741789, 0x0000008d, 0x00000095, 29⟩,
    ⟨2147483647, 0x00000003, 0x00000007, 30⟩,
    ⟨0xfffffffb, 0x00000006, 0x00000008, 31⟩]

def primeAt (i : Nat) : PrimeEnt := primeTab.getD i ⟨0, 0, 0, 0⟩

/-- The loop of `higher_prime_index`, over the rows from `low` up to `high`. -/
def higherPrimeLoop (n : Nat) : Nat → Nat → Nat → Nat
  | 0, low, _ => low
  | fuel + 1, low, high =>
    if low = high then low
    else
      let mid := low + (high - low) / 2
      if (primeAt mid).prime.toNat < n then higherPrimeLoop n fuel (mid + 1) high
      else higherPrimeLoop n fuel low mid

/-- `higher_prime_index`; there is no answer when the primes run out. -/
def higherPrimeIndex (n : Nat) : Option Nat :=
  let low := higherPrimeLoop n primeTab.length 0 primeTab.length
  if low < primeTab.length ∧ n ≤ (primeAt low).prime.toNat then some low else none

/-- `htab_mod_1` -/
def htabMod1 (x y inv shift : UInt32) : UInt32 :=
  let t1 := ((x.toUInt64 * inv.toUInt64) >>> 32).toUInt32
  let t2 := x - t1
  let t3 := t2 >>> 1
  let t4 := t1 + t3
  let q := t4 >>> shift
  x - q * y

variable {α : Type}

/-- The fields of `struct htab` but the counts of searches and collisions and the functions. -/
structure Htab (α : Type) where
  sizePrimeIndex : Nat
  size : Nat
  entries : Nat → Slot α
  nElements : Nat
  nDeleted : Nat

/-- `htab_elements` -/
def htabElements (t : Htab α) : Nat := t.nElements - t.nDeleted

def htabMod (hash : UInt32) (t : Htab α) : UInt32 :=
  let p := primeAt t.sizePrimeIndex
  htabMod1 hash p.prime p.inv p.shift

/-- `htab_mod_m2` -/
def htabModM2 (hash : UInt32) (t : Htab α) : UInt32 :=
  let p := primeAt t.sizePrimeIndex
  1 + htabMod1 hash (p.prime - 2) p.invM2 p.shift

/-- `htab_create`; memory does not run out. -/
def htabCreate (size : Nat) : Option (Htab α) := do
  let i ← higherPrimeIndex size
  pure ⟨i, (primeAt i).prime.toNat, fun _ => .empty, 0, 0⟩

/-- The index after `index`, in the arithmetic of `hashval_t`. -/
def Htab.next (t : Htab α) (index hash2 : UInt32) : UInt32 :=
  let index := index + hash2
  if t.size ≤ index.toNat then index - UInt32.ofNat t.size else index

def Htab.write (t : Htab α) (slot : Nat) (x : Slot α) : Htab α :=
  { t with entries := Function.update t.entries slot x }

/-- `*slot = HTAB_DELETED_ENTRY; htab->n_deleted++` -/
def Htab.bury (t : Htab α) (slot : Nat) : Htab α :=
  { t.write slot .deleted with nDeleted := t.nDeleted + 1 }

/-- A loop that goes on for ever has no answer, nor has `abort`. -/
def findEmptyLoop (t : Htab α) (hash2 : UInt32) : Nat → UInt32 → Option Nat
  | 0, _ => none
  | n + 1, index =>
    match t.entries index.toNat with
    | .empty => some index.toNat
    | .deleted => none
    | .live _ => findEmptyLoop t hash2 n (t.next index hash2)

def findEmptySlotForExpand (t : Htab α) (hash : UInt32) : Option Nat :=
  findEmptyLoop t (htabModM2 hash t) t.size (htabMod hash t)

section Functions

variable (hashF : α → UInt32) (eqF : α → α → Bool)

/-- An element of the old entries is put in the new ones. -/
def reinsert (t : Htab α) (x : α) : Option (Htab α) := do
  let q ← findEmptySlotForExpand t (hashF x)
  pure (t.write q (.live x))

/-- `htab_expand` -/
def htabExpand (t : Htab α) : Option (Htab α) := do
  let elts := htabElements t
  let resized : Bool := t.size < elts * 2 ∨ elts * 8 < t.size ∧ 32 < t.size
  let nindex ← (if resized then higherPrimeIndex (elts * 2) else some t.sizePrimeIndex)
  let nsize := if resized then (primeAt nindex).prime.toNat else t.size
  (elements t.entries t.size).foldlM (reinsert hashF)
    ⟨nindex, nsize, fun _ => .empty, t.nElements - t.nDeleted, 0⟩

/-- The loop of `htab_find_with_hash`. -/
def findLoop (t : Htab α) (element : α) (hash2 : UInt32) : Nat → UInt32 → Option (Option α)
  | 0, _ => none
  | n + 1, index =>
    match t.entries index.toNat with
    | .empty => some none
    | .deleted => findLoop t element hash2 n (t.next index hash2)
    | .live entry =>
      if eqF entry element then some (some entry)
      else findLoop t element hash2 n (t.next index hash2)

def htabFindWithHash (t : Htab α) (element : α) (hash : UInt32) : Option (Option α) :=
  findLoop eqF t element (htabModM2 hash t) t.size (htabMod hash t)

def htabFind (t : Htab α) (element : α) : Option (Option α) :=
  htabFindWithHash eqF t element (hashF element)

/-- `enum insert_option` -/
inductive InsertOption
  | noInsert
  | insert
  deriving DecidableEq, Repr

/-- The loop of `htab_find_slot_with_hash`: where it ends, and the first deleted slot before. -/
def findSlotLoop (t : Htab α) (element : α) (hash2 : UInt32) :
    Nat → UInt32 → Option Nat → Option (Nat × Option Nat)
  | 0, _, _ => none
  | n + 1, index, firstDeleted =>
    match t.entries index.toNat with
    | .empty => some (index.toNat, firstDeleted)
    | .deleted =>
      findSlotLoop t element hash2 n (t.next index hash2) (firstDeleted.or (some index.toNat))
    | .live entry =>
      if eqF entry element then some (index.toNat, firstDeleted)
      else findSlotLoop t element hash2 n (t.next index hash2) firstDeleted

/-- `htab_find_slot_with_hash`; the slot is none for `NULL`. -/
def htabFindSlotWithHash (t : Htab α) (element : α) (hash : UInt32) (option : InsertOption) :
    Option (Htab α × Option Nat) := do
  let t ← (if option = .insert ∧ t.size * 3 ≤ t.nElements * 4 then htabExpand hashF t else some t)
  let (index, firstDeleted) ←
    findSlotLoop eqF t element (htabModM2 hash t) t.size (htabMod hash t) none
  match t.entries index with
  | .live _ => some (t, some index)
  | _ =>
    if option = .noInsert then some (t, none)
    else
      match firstDeleted with
      | some slot => some ({ t.write slot .empty with nDeleted := t.nDeleted - 1 }, some slot)
      | none => some ({ t with nElements := t.nElements + 1 }, some index)

def htabFindSlot (t : Htab α) (element : α) (option : InsertOption) :
    Option (Htab α × Option Nat) :=
  htabFindSlotWithHash hashF eqF t element (hashF element) option

/-- `htab_remove_elt_with_hash`, with the element that `del_f` is called on. The slot of an element
that is not there is `NULL`, and is looked at all the same. -/
def htabRemoveEltWithHash (t : Htab α) (element : α) (hash : UInt32) :
    Option (Htab α × Option α) := do
  let (t, slot) ← htabFindSlotWithHash hashF eqF t element hash .noInsert
  match slot with
  | none => none
  | some i =>
    match t.entries i with
    | .empty => some (t, none)
    | .deleted => none
    | .live x => some (t.bury i, some x)

def htabRemoveElt (t : Htab α) (element : α) : Option (Htab α × Option α) :=
  htabRemoveEltWithHash hashF eqF t element (hashF element)

/-- `htab_clear_slot`, with the element that `del_f` is called on. -/
def htabClearSlot (t : Htab α) (slot : Nat) : Option (Htab α × α) :=
  if t.size ≤ slot then none
  else
    match t.entries slot with
    | .live x => some (t.bury slot, x)
    | _ => none

/-- `htab_empty`, with the elements that `del_f` is called on, the last one first. The index that
counts them down is an `int`. -/
def htabEmpty (t : Htab α) : Option (Htab α × List α) := do
  let dels := if t.size ≤ 2 ^ 31 then (elements t.entries t.size).reverse else []
  let downsized : Bool := 1024 * 1024 / 8 < t.size
  let nindex ← (if downsized then higherPrimeIndex (1024 / 8) else some t.sizePrimeIndex)
  let nsize := if downsized then (primeAt nindex).prime.toNat else t.size
  pure (⟨nindex, nsize, fun _ => .empty, 0, 0⟩, dels)

/-- The loop of `htab_traverse_noresize` over `n` slots from `slot` on. The callback goes on to the
next slot; it clears the slots of some elements. -/
def traverseLoop (clears : α → Bool) : Nat → Nat → Htab α → Option (Htab α × List α)
  | 0, _, t => some (t, [])
  | n + 1, slot, t =>
    match t.entries slot with
    | .live x => do
      let t ← (if clears x then (htabClearSlot t slot).map Prod.fst else some t)
      let (t, visited) ← traverseLoop clears n (slot + 1) t
      pure (t, x :: visited)
    | _ => traverseLoop clears n (slot + 1) t

def htabTraverseNoresize (t : Htab α) (clears : α → Bool) : Option (Htab α × List α) :=
  traverseLoop clears t.size 0 t

def htabTraverse (t : Htab α) (clears : α → Bool) : Option (Htab α × List α) := do
  let t ← (if htabElements t * 8 < t.size ∧ 32 < t.size then htabExpand hashF t else some t)
  htabTraverseNoresize t clears

/-- The calls of a program. An element that is inserted is written into the slot that was found for
it, unless one is there already that it does not replace. -/
inductive Op (α : Type)
  | find (x : α)
  | insert (x : α) (replaces : Bool)
  | remove (x : α)
  | clear (x : α)
  | empty
  | traverse (clears : α → Bool)
  | elements

inductive Answer (α : Type)
  | element (x : Option α)
  | list (l : List α)
  | count (n : Nat)

def step (t : Htab α) : Op α → Option (Htab α × Answer α)
  | .find x => do
    let found ← htabFind hashF eqF t x
    pure (t, .element found)
  | .insert x replaces => do
    let (t, slot) ← htabFindSlot hashF eqF t x .insert
    let i ← slot
    match t.entries i with
    | .live y => pure (if replaces then t.write i (.live x) else t, .element (some y))
    | _ => pure (t.write i (.live x), .element none)
  | .remove x => do
    let (t, del) ← htabRemoveElt hashF eqF t x
    pure (t, .element del)
  | .clear x => do
    let (t, slot) ← htabFindSlot hashF eqF t x .noInsert
    match slot with
    | none => pure (t, .element none)
    | some i =>
      let (t, del) ← htabClearSlot t i
      pure (t, .element (some del))
  | .empty => do
    let (t, dels) ← htabEmpty t
    pure (t, .list dels)
  | .traverse clears => do
    let (t, visited) ← htabTraverse hashF t clears
    pure (t, .list visited)
  | .elements => pure (t, .count (htabElements t))

def run : Htab α → List (Op α) → Option (Htab α × List (Answer α))
  | t, [] => some (t, [])
  | t, op :: ops => do
    let (t, answer) ← step hashF eqF t op
    let (t, answers) ← run t ops
    pure (t, answer :: answers)

end Functions

/-- A multiple that is a little too large gives the quotient of every number of 32 bits. -/
theorem div_eq_of_inverse {x y m s : Nat} (hx : x < 2 ^ 32) (hlow : 2 ^ (33 + s) ≤ m * y)
    (hhigh : m * y ≤ 2 ^ (33 + s) + 2 ^ (s + 1)) : x * m / 2 ^ (33 + s) = x / y := by
  have hy : 0 < y := by
    rcases Nat.eq_zero_or_pos y with rfl | hy
    · have : 0 < 2 ^ (33 + s) := by positivity
      omega
    · exact hy
  have hpow : 2 ^ (33 + s) = 2 ^ 32 * 2 ^ (s + 1) := by ring
  obtain ⟨k, hk⟩ : ∃ k, k = 2 ^ (33 + s) := ⟨_, rfl⟩
  rw [← hk] at hlow hhigh ⊢
  obtain ⟨e, he⟩ : ∃ e, m * y = k + e := ⟨m * y - k, by omega⟩
  have hsmall : x * e < k := by
    have hle : e ≤ 2 ^ (s + 1) := by omega
    calc x * e ≤ x * 2 ^ (s + 1) := Nat.mul_le_mul_left x hle
      _ < 2 ^ 32 * 2 ^ (s + 1) := Nat.mul_lt_mul_of_pos_right hx (by positivity)
      _ = k := by rw [hk, hpow]
  have hxy : y * (x / y) + x % y = x := Nat.div_add_mod x y
  have hmod : x % y < y := Nat.mod_lt x hy
  have hsum : x * m * y = x * k + x * e := by
    rw [Nat.mul_assoc, he, Nat.mul_add]
  refine Nat.div_eq_of_lt_le ?_ ?_
  · refine Nat.le_of_mul_le_mul_right ?_ hy
    calc x / y * k * y = y * (x / y) * k := by ring
      _ ≤ x * k := Nat.mul_le_mul_right k (by omega)
      _ ≤ x * m * y := by omega
  · refine Nat.lt_of_mul_lt_mul_right (a := y) ?_
    calc x * m * y < (x + 1) * k := by rw [Nat.succ_mul]; omega
      _ ≤ (y * (x / y) + y) * k := Nat.mul_le_mul_right k (by omega)
      _ = (x / y + 1) * k * y := by ring

/-- The inverse of `y` that belongs to the shift `s`. -/
def isInverse (y inv shift : UInt32) : Prop :=
  shift.toNat < 32 ∧ 2 ^ (33 + shift.toNat) ≤ (2 ^ 32 + inv.toNat) * y.toNat ∧
    (2 ^ 32 + inv.toNat) * y.toNat ≤ 2 ^ (33 + shift.toNat) + 2 ^ (shift.toNat + 1)

instance (y inv shift : UInt32) : Decidable (isInverse y inv shift) :=
  inferInstanceAs (Decidable (_ ∧ _))

theorem primeTab_inverses : ∀ e ∈ primeTab, isInverse e.prime e.inv e.shift ∧
    isInverse (e.prime - 2) e.invM2 e.shift := by
  decide +kernel

/-- `htab_mod_1` is the remainder, for every hash. -/
theorem htabMod1_eq {y inv shift : UInt32} (h : isInverse y inv shift) (x : UInt32) :
    htabMod1 x y inv shift = x % y := by
  obtain ⟨hshift, hlow, hhigh⟩ := h
  have hx : x.toNat < 2 ^ 32 := x.toNat_lt
  have hinv : inv.toNat < 2 ^ 32 := inv.toNat_lt
  obtain ⟨t1, ht1⟩ : ∃ t, t = ((x.toUInt64 * inv.toUInt64) >>> 32).toUInt32 := ⟨_, rfl⟩
  have hprod : x.toNat * inv.toNat < 2 ^ 64 := by
    calc x.toNat * inv.toNat < 2 ^ 32 * 2 ^ 32 :=
          Nat.mul_lt_mul'' hx hinv
      _ = 2 ^ 64 := by norm_num
  have hdiv : x.toNat * inv.toNat / 2 ^ 32 ≤ x.toNat := by
    refine Nat.div_le_of_le_mul ?_
    rw [Nat.mul_comm]
    exact Nat.mul_le_mul_right _ hinv.le
  have hn1 : t1.toNat = x.toNat * inv.toNat / 2 ^ 32 := by
    rw [ht1, UInt64.toNat_toUInt32, UInt64.toNat_shiftRight, UInt64.toNat_mul,
      UInt32.toNat_toUInt64, UInt32.toNat_toUInt64, Nat.mod_eq_of_lt hprod]
    show (x.toNat * inv.toNat) >>> 32 % 2 ^ 32 = _
    rw [Nat.shiftRight_eq_div_pow, Nat.mod_eq_of_lt (by omega)]
  have hle : t1 ≤ x := by
    rw [UInt32.le_iff_toNat_le]
    omega
  have hn2 : (x - t1).toNat = x.toNat - t1.toNat := UInt32.toNat_sub_of_le _ _ hle
  have hn3 : ((x - t1) >>> 1).toNat = (x.toNat - t1.toNat) / 2 := by
    rw [UInt32.toNat_shiftRight, hn2]
    show (x.toNat - t1.toNat) >>> 1 = _
    rw [Nat.shiftRight_eq_div_pow]
  have hn4 : (t1 + (x - t1) >>> 1).toNat = (x.toNat + t1.toNat) / 2 := by
    rw [UInt32.toNat_add, hn3, Nat.mod_eq_of_lt (by omega)]
    omega
  have hq : ((t1 + (x - t1) >>> 1) >>> shift).toNat = x.toNat / y.toNat := by
    rw [UInt32.toNat_shiftRight, hn4, Nat.mod_eq_of_lt hshift, Nat.shiftRight_eq_div_pow,
      ← div_eq_of_inverse hx hlow hhigh]
    have hsum : x.toNat + t1.toNat = x.toNat * (2 ^ 32 + inv.toNat) / 2 ^ 32 := by
      rw [hn1, Nat.mul_add, Nat.add_comm (x.toNat * 2 ^ 32),
        Nat.add_mul_div_right _ _ (by norm_num), Nat.add_comm]
    have hpow : 2 ^ 32 * (2 * 2 ^ shift.toNat) = 2 ^ (33 + shift.toNat) := by ring
    rw [hsum, Nat.div_div_eq_div_mul, Nat.div_div_eq_div_mul, hpow]
  unfold htabMod1
  rw [← ht1]
  refine UInt32.toNat_inj.mp ?_
  obtain ⟨q, hqdef⟩ : ∃ q, q = (t1 + (x - t1) >>> 1) >>> shift := ⟨_, rfl⟩
  rw [← hqdef] at hq
  have hmul : (q * y).toNat = x.toNat / y.toNat * y.toNat := by
    have := Nat.div_mul_le_self x.toNat y.toNat
    rw [UInt32.toNat_mul, hq, Nat.mod_eq_of_lt (by omega)]
  have hqy : q * y ≤ x := by
    rw [UInt32.le_iff_toNat_le, hmul]
    exact Nat.div_mul_le_self ..
  dsimp only
  rw [← hqdef, UInt32.toNat_sub_of_le _ _ hqy, hmul, UInt32.toNat_mod, Nat.mod_eq_sub,
    Nat.mul_comm]

/-- The two hashes of a table are remainders, in all rows of the table. -/
theorem htabMod_remainder (i : Fin primeTab.length) (x : UInt32) :
    htabMod1 x primeTab[i].prime primeTab[i].inv primeTab[i].shift = x % primeTab[i].prime ∧
      htabMod1 x (primeTab[i].prime - 2) primeTab[i].invM2 primeTab[i].shift =
        x % (primeTab[i].prime - 2) := by
  obtain ⟨hinv, hinv2⟩ := primeTab_inverses primeTab[i] (List.getElem_mem i.isLt)
  exact ⟨htabMod1_eq hinv x, htabMod1_eq hinv2 x⟩

/-- No number from `d` on, of every second one up to `d + 2 * n`, divides `p`. -/
def noDivisor (p : Nat) : Nat → Nat → Bool
  | 0, _ => true
  | n + 1, d =>
    match p % d with
    | 0 => false
    | _ + 1 => noDivisor p n (d + 2)

theorem noDivisor_spec {p n d : Nat} (h : noDivisor p n d) : ∀ k < n, ¬ d + 2 * k ∣ p := by
  induction n generalizing d with
  | zero => exact fun k hk => absurd hk (Nat.not_lt_zero k)
  | succ n ih =>
    unfold noDivisor at h
    cases hr : p % d with
    | zero =>
      rw [hr] at h
      cases h
    | succ r =>
      rw [hr] at h
      intro k hk hdvd
      cases k with
      | zero =>
        have := Nat.mod_eq_zero_of_dvd hdvd
        rw [Nat.mul_zero, Nat.add_zero, hr] at this
        cases this
      | succ k => exact ih h k (by omega) (by rwa [show d + 2 + 2 * k = d + 2 * (k + 1) by ring])

theorem prime_of_noDivisor {p n : Nat} (hodd : p % 2 = 1) (hp : 3 ≤ p)
    (hn : p < (2 * n + 3) * (2 * n + 3)) (h : noDivisor p n 3) : p.Prime := by
  rw [Nat.prime_def_le_sqrt]
  refine ⟨by omega, fun d hd hsqrt hdvd => ?_⟩
  have hlt : d < 2 * n + 3 := by
    have := Nat.le_sqrt.mp hsqrt
    by_contra hge
    have := Nat.mul_le_mul (Nat.le_of_not_lt hge) (Nat.le_of_not_lt hge)
    omega
  rcases Nat.even_or_odd' d with ⟨k, rfl | rfl⟩
  · have := Nat.dvd_trans (Dvd.intro k rfl) hdvd
    omega
  · refine noDivisor_spec h (k - 1) (by omega) ?_
    rwa [show 3 + 2 * (k - 1) = 2 * k + 1 by omega]

/-- The primes of the table that fit in 31 bits, with numbers of candidates below their roots. -/
def smallPrimes : List (Nat × Nat) :=
  [(7, 2), (13, 2), (31, 2), (61, 4), (127, 5), (251, 8), (509, 11), (1021, 16), (2039, 23),
    (4093, 32), (8191, 46), (16381, 64), (32749, 91), (65521, 128), (131071, 182), (262139, 256),
    (524287, 363), (1048573, 512), (2097143, 725), (4194301, 1024), (8388593, 1449),
    (16777213, 2048), (33554393, 2897), (67108859, 4096), (134217689, 5793), (268435399, 8192),
    (536870909, 11586), (1073741789, 16384), (2147483647, 23170)]

theorem smallPrimes_noDivisor : ∀ c ∈ smallPrimes, noDivisor c.1 c.2 3 := by
  simp only [smallPrimes, List.forall_mem_cons]
  refine ⟨?_, ?_, ?_, ?_, ?_, ?_, ?_, ?_, ?_, ?_, ?_, ?_, ?_, ?_, ?_, ?_, ?_, ?_, ?_, ?_, ?_, ?_,
    ?_, ?_, ?_, ?_, ?_, ?_, ?_, fun _ h => by cases h⟩
  all_goals decide +kernel

theorem smallPrimes_prime : ∀ c ∈ smallPrimes, c.1.Prime := by
  have h : ∀ c ∈ smallPrimes, c.1 % 2 = 1 ∧ 3 ≤ c.1 ∧ c.1 < (2 * c.2 + 3) * (2 * c.2 + 3) := by
    decide +kernel
  intro c hc
  obtain ⟨hodd, hp, hn⟩ := h c hc
  exact prime_of_noDivisor hodd hp hn (smallPrimes_noDivisor c hc)

/-- What tables of a size below `2 ^ 31` rely on. -/
structure Sized (i : Nat) : Prop where
  prime : (primeAt i).prime.toNat.Prime
  seven_le : 7 ≤ (primeAt i).prime.toNat
  lt : (primeAt i).prime.toNat < 2 ^ 31
  sub_two : ((primeAt i).prime - 2).toNat = (primeAt i).prime.toNat - 2
  mod : ∀ x, htabMod1 x (primeAt i).prime (primeAt i).inv (primeAt i).shift =
    x % (primeAt i).prime
  modM2 : ∀ x, htabMod1 x ((primeAt i).prime - 2) (primeAt i).invM2 (primeAt i).shift =
    x % ((primeAt i).prime - 2)

theorem primeAt_mem {i : Nat} (hi : i < 29) : primeAt i ∈ primeTab := by
  have hlen : i < primeTab.length := by
    show i < 30
    omega
  unfold primeAt
  rw [List.getD_eq_getElem?_getD, List.getElem?_eq_getElem hlen]
  exact List.getElem_mem hlen

theorem sized {i : Nat} (hi : i < 29) : Sized i := by
  have h : ∀ i < 29, (primeAt i).prime.toNat ∈ smallPrimes.map Prod.fst ∧
      7 ≤ (primeAt i).prime.toNat ∧ (primeAt i).prime.toNat < 2 ^ 31 ∧
      ((primeAt i).prime - 2).toNat = (primeAt i).prime.toNat - 2 := by
    decide +kernel
  obtain ⟨hmem, hseven, hlt, hsub⟩ := h i hi
  obtain ⟨c, hc, heq⟩ := List.mem_map.mp hmem
  obtain ⟨hinv, hinv2⟩ := primeTab_inverses _ (primeAt_mem hi)
  exact ⟨heq ▸ smallPrimes_prime c hc, hseven, hlt, hsub, htabMod1_eq hinv, htabMod1_eq hinv2⟩

/-- The rows below the interval of the search have primes that are too small, the others not. -/
theorem higherPrimeLoop_spec {n fuel low high : Nat} (hle : low ≤ high) (hhigh : high ≤ 30)
    (hfuel : high - low ≤ fuel) (hbelow : low = 0 ∨ (primeAt (low - 1)).prime.toNat < n)
    (habove : high = 30 ∨ n ≤ (primeAt high).prime.toNat) :
    ∃ i ≤ 30, higherPrimeLoop n fuel low high = i ∧
      (i = 0 ∨ (primeAt (i - 1)).prime.toNat < n) ∧ (i = 30 ∨ n ≤ (primeAt i).prime.toNat) := by
  induction fuel generalizing low high with
  | zero =>
    have heq : low = high := by omega
    exact ⟨low, by omega, rfl, hbelow, heq ▸ habove⟩
  | succ fuel ih =>
    unfold higherPrimeLoop
    by_cases heq : low = high
    · rw [if_pos heq]
      exact ⟨low, by omega, rfl, hbelow, heq ▸ habove⟩
    · rw [if_neg heq]
      dsimp only
      split_ifs with hmid
      · exact ih (by omega) hhigh (by omega) (.inr (by rwa [Nat.add_sub_cancel])) habove
      · exact ih (by omega) (by omega) (by omega) hbelow (.inr (Nat.le_of_not_lt hmid))

theorem higherPrimeIndex_small {n : Nat} (hn : n < 2 ^ 31) :
    ∃ i < 29, higherPrimeIndex n = some i ∧ n ≤ (primeAt i).prime.toNat := by
  obtain ⟨i, hi, hloop, hbelow, habove⟩ : ∃ i ≤ 30, higherPrimeLoop n 30 0 30 = i ∧
      (i = 0 ∨ (primeAt (i - 1)).prime.toNat < n) ∧ (i = 30 ∨ n ≤ (primeAt i).prime.toNat) :=
    higherPrimeLoop_spec (Nat.zero_le 30) le_rfl le_rfl (.inl rfl) (.inl rfl)
  have hlarge : ∀ i ≤ 30, 29 ≤ i → 2 ^ 31 ≤ (primeAt (i - 1)).prime.toNat + 1 := by
    decide +kernel
  have hlt : i < 29 := by
    by_contra hge
    have := hlarge i hi (by omega)
    rcases hbelow with h | h <;> omega
  have hle := habove.resolve_left (by omega)
  refine ⟨i, hlt, ?_, hle⟩
  have hlen : primeTab.length = 30 := rfl
  unfold higherPrimeIndex
  rw [hlen, hloop]
  exact if_pos ⟨by omega, hle⟩

variable {α : Type} {t t' : Htab α} {s s' : List α} {x y : α} {hashF : α → UInt32}
  {eqF : α → α → Bool} {index : UInt32} {n k i j : Nat}

/-- The places of an element in a table of `size` entries. -/
def placeOf (hashF : α → UInt32) (size : Nat) (x : α) (k : Nat) : Nat :=
  ((hashF x).toNat % size + k * (1 + (hashF x).toNat % (size - 2))) % size

/-- Which elements count as equal, and that these hash alike. -/
structure Consistent (hashF : α → UInt32) (eqF : α → α → Bool) : Prop where
  refl : ∀ a, eqF a a
  symm : ∀ a b, eqF a b → eqF b a
  trans : ∀ a b c, eqF a b → eqF b c → eqF a c
  hash : ∀ a b, eqF a b → hashF a = hashF b

theorem Consistent.places (hc : Consistent hashF eqF) (hi : i < 29) :
    Places (primeAt i).prime.toNat (placeOf hashF (primeAt i).prime.toNat) eqF := by
  have hsz := sized hi
  obtain ⟨p, hp⟩ : ∃ p, p = (primeAt i).prime.toNat := ⟨_, rfl⟩
  have hprime := hsz.prime
  have hseven := hsz.seven_le
  rw [← hp] at hprime hseven ⊢
  refine ⟨fun a k => Nat.mod_lt _ (by omega), ?_, hc.refl, hc.symm, hc.trans, ?_⟩
  · intro a i hi
    have hlt : (hashF a).toNat % (p - 2) < p - 2 := Nat.mod_lt _ (by omega)
    refine places_coprime (by omega) ?_ hi
    exact Nat.Coprime.symm (Nat.coprime_of_lt_prime (by omega) (by omega) hprime)
  · intro a b hab
    unfold placeOf
    rw [hc.hash a b hab]

structure Shaped (t : Htab α) : Prop where
  index : t.sizePrimeIndex < 29
  size : t.size = (primeAt t.sizePrimeIndex).prime.toNat

theorem Shaped.first (hs : Shaped t) (x : α) :
    (htabMod (hashF x) t).toNat = placeOf hashF t.size x 0 := by
  unfold htabMod placeOf
  dsimp only
  rw [(sized hs.index).mod, UInt32.toNat_mod, ← hs.size, Nat.zero_mul, Nat.add_zero, Nat.mod_mod]

theorem Shaped.modM2 (hs : Shaped t) (hash : UInt32) :
    (htabModM2 hash t).toNat = 1 + hash.toNat % (t.size - 2) := by
  have hsz := sized hs.index
  unfold htabModM2
  dsimp only
  have hlt := hsz.lt
  have hseven := hsz.seven_le
  rw [← hs.size] at hlt hseven
  have : hash.toNat % (t.size - 2) < t.size - 2 := Nat.mod_lt _ (by omega)
  rw [hsz.modM2, UInt32.toNat_add, UInt32.toNat_mod, hsz.sub_two, ← hs.size]
  show (1 + _) % 2 ^ 32 = _
  rw [Nat.mod_eq_of_lt (by omega)]

theorem Shaped.next (hs : Shaped t) (h : index.toNat = placeOf hashF t.size x k) :
    (t.next index (htabModM2 (hashF x) t)).toNat = placeOf hashF t.size x (k + 1) := by
  have hsz := sized hs.index
  have hlt := hsz.lt
  have hseven := hsz.seven_le
  rw [← hs.size] at hlt hseven
  obtain ⟨d, hd⟩ : ∃ d, d = 1 + (hashF x).toNat % (t.size - 2) := ⟨_, rfl⟩
  have hstep : (htabModM2 (hashF x) t).toNat = d := (hs.modM2 (hashF x)).trans hd.symm
  have hdlt : d < t.size := by
    have : (hashF x).toNat % (t.size - 2) < t.size - 2 := Nat.mod_lt _ (by omega)
    omega
  have hindex : index.toNat < t.size := by
    rw [h]
    exact Nat.mod_lt _ (by omega)
  have hplace : placeOf hashF t.size x (k + 1) = (index.toNat + d) % t.size := by
    rw [h]
    unfold placeOf
    rw [← hd, Nat.mod_add_mod ((hashF x).toNat % t.size + k * d), Nat.succ_mul, Nat.add_assoc]
  have hsum : (index + htabModM2 (hashF x) t).toNat = index.toNat + d := by
    rw [UInt32.toNat_add, hstep, Nat.mod_eq_of_lt (by omega)]
  unfold Htab.next
  dsimp only
  rw [hplace, hsum]
  split_ifs with hge
  · have hsize : (UInt32.ofNat t.size).toNat = t.size := by
      rw [UInt32.toNat_ofNat', Nat.mod_eq_of_lt (by omega)]
    have hle : UInt32.ofNat t.size ≤ index + htabModM2 (hashF x) t := by
      rw [UInt32.le_iff_toNat_le, hsize, hsum]
      exact hge
    rw [UInt32.toNat_sub_of_le _ _ hle, hsum, hsize, Nat.mod_eq_sub_mod hge,
      Nat.mod_eq_of_lt (by omega)]
  · rw [hsum, Nat.mod_eq_of_lt (by omega)]

/-- The searches of the table are those along the places. -/
theorem Shaped.findLoop (hs : Shaped t) (h : index.toNat = placeOf hashF t.size x k) :
    findLoop eqF t x (htabModM2 (hashF x) t) n index =
      (probe t.entries (eqF · x) (placeOf hashF t.size x) n k).map fun j =>
        (t.entries (placeOf hashF t.size x j)).elements.head? := by
  induction n generalizing index k with
  | zero => rfl
  | succ n ih =>
    unfold Hashtab.findLoop
    rw [h]
    cases hm : t.entries (placeOf hashF t.size x k) with
    | empty =>
      rw [probe_of_ends (by rw [hm]; rfl), Option.map_some, hm]
      rfl
    | deleted =>
      rw [probe_of_not_ends (by rw [hm]; simp [Slot.ends])]
      exact ih (hs.next h)
    | live a =>
      dsimp only
      split_ifs with heq
      · rw [probe_of_ends (by rw [hm]; exact heq), Option.map_some, hm]
        rfl
      · rw [probe_of_not_ends (by rw [hm]; exact heq)]
        exact ih (hs.next h)

theorem Shaped.findEmptyLoop (hs : Shaped t) (h : index.toNat = placeOf hashF t.size x k)
    (hnone : ∀ j, t.entries (placeOf hashF t.size x j) ≠ .deleted)
    (hnew : ∀ j a, t.entries (placeOf hashF t.size x j) = .live a → ¬ eqF a x) :
    findEmptyLoop t (htabModM2 (hashF x) t) n index =
      (probe t.entries (eqF · x) (placeOf hashF t.size x) n k).map (placeOf hashF t.size x) := by
  induction n generalizing index k with
  | zero => rfl
  | succ n ih =>
    unfold Hashtab.findEmptyLoop
    rw [h]
    cases hm : t.entries (placeOf hashF t.size x k) with
    | empty =>
      rw [probe_of_ends (by rw [hm]; rfl)]
      rfl
    | deleted => exact absurd hm (hnone k)
    | live a =>
      rw [probe_of_not_ends (by rw [hm]; exact hnew k a hm)]
      exact ih (hs.next h)

/-- The first deleted slot on the way is remembered. -/
theorem Shaped.findSlotLoop (hs : Shaped t) (firstDeleted : Option Nat)
    (h : index.toNat = placeOf hashF t.size x k)
    (hp : probe t.entries (eqF · x) (placeOf hashF t.size x) n k = some j) :
    ∃ slot, findSlotLoop eqF t x (htabModM2 (hashF x) t) n index firstDeleted =
        some (placeOf hashF t.size x j, slot) ∧
      (slot = firstDeleted ∨ firstDeleted = none ∧ ∃ i < j,
        slot = some (placeOf hashF t.size x i) ∧
          t.entries (placeOf hashF t.size x i) = .deleted) := by
  induction n generalizing index k firstDeleted with
  | zero => cases hp
  | succ n ih =>
    unfold Hashtab.findSlotLoop
    rw [h]
    cases hm : t.entries (placeOf hashF t.size x k) with
    | empty =>
      rw [probe_of_ends (by rw [hm]; rfl)] at hp
      cases hp
      exact ⟨firstDeleted, rfl, .inl rfl⟩
    | deleted =>
      have hkj : k < j := by
        obtain ⟨hle, -, hends, -⟩ := probe_some hp
        refine hle.lt_of_ne ?_
        rintro rfl
        rw [hm] at hends
        cases hends
      rw [probe_of_not_ends (by rw [hm]; simp [Slot.ends])] at hp
      obtain ⟨slot, hloop, hslot⟩ :=
        ih (firstDeleted.or (some (placeOf hashF t.size x k))) (hs.next h) hp
      refine ⟨slot, hloop, ?_⟩
      cases firstDeleted with
      | some f => exact hslot.imp id fun ⟨hnone, _⟩ => by cases hnone
      | none =>
        rcases hslot with rfl | ⟨hnone, _⟩
        · exact .inr ⟨rfl, k, hkj, rfl, hm⟩
        · cases hnone
    | live a =>
      dsimp only
      split_ifs with heq
      · rw [probe_of_ends (by rw [hm]; exact heq)] at hp
        cases hp
        exact ⟨firstDeleted, rfl, .inl rfl⟩
      · rw [probe_of_not_ends (by rw [hm]; exact heq)] at hp
        exact ih firstDeleted (hs.next h) hp

/-- The table is in order and has the elements `s`. -/
structure Stands (hashF : α → UInt32) (eqF : α → α → Bool) (t : Htab α) (s : List α) : Prop where
  shaped : Shaped t
  filed : Filed t.size (placeOf hashF t.size) eqF t.entries
  nDeleted : t.nDeleted = graves t.entries t.size
  nElements : t.nElements = s.length + t.nDeleted
  room : t.nElements < t.size
  holds : elements t.entries t.size ~ s

theorem Stands.places (ht : Stands hashF eqF t s) (hc : Consistent hashF eqF) :
    Places t.size (placeOf hashF t.size) eqF := by
  rw [ht.shaped.size]
  exact hc.places ht.shaped.index

theorem Stands.elts (ht : Stands hashF eqF t s) : htabElements t = s.length := by
  unfold htabElements
  have := ht.nElements
  omega

/-- A search in the table ends. -/
theorem Stands.search (ht : Stands hashF eqF t s) (hc : Consistent hashF eqF) (x : α) :
    ∃ k, probe t.entries (eqF · x) (placeOf hashF t.size x) t.size 0 = some k ∧
      Search t.size (placeOf hashF t.size) eqF t.entries x k := by
  refine ht.filed.search (ht.places hc) (exists_empty ?_) x
  have hlen := ht.holds.length_eq
  have hroom := ht.room
  rw [ht.nElements, ht.nDeleted] at hroom
  omega

/-- At most one element of the set is equal to `x`. -/
theorem find_eq_of_mem {l : List α} (hc : Consistent hashF eqF)
    (hp : l.Pairwise fun a b => ¬ eqF a b) (hy : y ∈ l) (heq : eqF y x) :
    l.find? (eqF · x) = some y := by
  induction l with
  | nil => cases hy
  | cons z l ih =>
    obtain ⟨hz, hp⟩ := List.pairwise_cons.mp hp
    rw [List.find?_cons]
    rcases List.mem_cons.mp hy with rfl | hy
    · rw [heq]
    · have hne : ¬ eqF z x := fun hzx =>
        hz y hy (hc.trans z x y hzx (hc.symm y x heq))
      rw [Bool.eq_false_iff.mpr hne]
      exact ih hp hy

theorem find_eq_none {l : List α} (h : ∀ y ∈ l, ¬ eqF y x) : l.find? (eqF · x) = none :=
  List.find?_eq_none.mpr h

theorem Stands.pairwise (ht : Stands hashF eqF t s) (hc : Consistent hashF eqF) :
    s.Pairwise fun a b => ¬ eqF a b :=
  (ht.holds.pairwise_iff fun {a b} h hba => h (hc.symm b a hba)).mp ht.filed.pairwise

/-- What the set says about an element, and where the search for it ends. -/
theorem Stands.ends (ht : Stands hashF eqF t s) (hc : Consistent hashF eqF)
    (h : Search t.size (placeOf hashF t.size) eqF t.entries x k) :
    (∃ y, t.entries (placeOf hashF t.size x k) = .live y ∧ eqF y x ∧
        s.find? (eqF · x) = some y) ∨
      t.entries (placeOf hashF t.size x k) = .empty ∧ s.find? (eqF · x) = none ∧
        ∀ y ∈ elements t.entries t.size, ¬ eqF y x := by
  rcases h.ends with ⟨y, hy, heq⟩ | ⟨hempty, hnew⟩
  · have hmem : y ∈ s :=
      ht.holds.subset (mem_elements.mpr ⟨_, (ht.places hc).lt x k, hy⟩)
    exact .inl ⟨y, hy, heq, find_eq_of_mem hc (ht.pairwise hc) hmem heq⟩
  · refine .inr ⟨hempty, find_eq_none fun y hy => ?_, hnew⟩
    exact hnew y (ht.holds.symm.subset hy)

/-- `htab_find` answers with the equal element of the set. -/
theorem Stands.find (ht : Stands hashF eqF t s) (hc : Consistent hashF eqF) (x : α) :
    htabFind hashF eqF t x = some (s.find? (eqF · x)) := by
  obtain ⟨k, hk, hsearch⟩ := ht.search hc x
  unfold htabFind htabFindWithHash
  rw [ht.shaped.findLoop (ht.shaped.first x), hk, Option.map_some]
  rcases ht.ends hc hsearch with ⟨y, hy, -, hfind⟩ | ⟨hempty, hfind, -⟩
  · rw [hy, hfind]
    rfl
  · rw [hempty, hfind]
    rfl

section FindSlot

variable {u : Htab α} {option : InsertOption} {slot : Option Nat}
  (hu : (if option = .insert ∧ t.size * 3 ≤ t.nElements * 4 then htabExpand hashF t else some t) =
    some u)
  (hloop : findSlotLoop eqF u x (htabModM2 (hashF x) u) u.size (htabMod (hashF x) u) none =
    some (i, slot))

include hu hloop

theorem findSlot_live (hy : u.entries i = .live y) :
    htabFindSlot hashF eqF t x option = some (u, some i) := by
  unfold htabFindSlot htabFindSlotWithHash
  rw [hu]
  simp only [Option.bind_eq_bind, Option.bind_some, hloop, hy]

theorem findSlot_empty (he : u.entries i = .empty) :
    htabFindSlot hashF eqF t x option =
      if option = .noInsert then some (u, none)
      else some (slot.elim ({ u with nElements := u.nElements + 1 }, some i) fun d =>
        ({ u.write d .empty with nDeleted := u.nDeleted - 1 }, some d)) := by
  unfold htabFindSlot htabFindSlotWithHash
  rw [hu]
  simp only [Option.bind_eq_bind, Option.bind_some, hloop, he]
  cases slot <;> rfl

end FindSlot

/-- Without `INSERT` a slot is found for the elements that are there. -/
theorem Stands.findSlot_noInsert (ht : Stands hashF eqF t s) (hc : Consistent hashF eqF) (x : α) :
    (∃ i y, htabFindSlot hashF eqF t x .noInsert = some (t, some i) ∧ i < t.size ∧
        t.entries i = .live y ∧ eqF y x ∧ s.find? (eqF · x) = some y) ∨
      htabFindSlot hashF eqF t x .noInsert = some (t, none) ∧ s.find? (eqF · x) = none := by
  obtain ⟨k, hk, hsearch⟩ := ht.search hc x
  obtain ⟨slot, hloop, -⟩ := ht.shaped.findSlotLoop none (ht.shaped.first x) hk
  have hu : (if InsertOption.noInsert = .insert ∧ t.size * 3 ≤ t.nElements * 4 then
      htabExpand hashF t else some t) = some t := if_neg (by simp)
  rcases ht.ends hc hsearch with ⟨y, hy, heq, hfind⟩ | ⟨hempty, hfind, -⟩
  · exact .inl ⟨_, y, findSlot_live hu hloop hy, (ht.places hc).lt x k, hy, heq, hfind⟩
  · exact .inr ⟨findSlot_empty hu hloop hempty, hfind⟩

theorem Stands.perm (ht : Stands hashF eqF t s) (h : s ~ s') : Stands hashF eqF t s' :=
  ⟨ht.shaped, ht.filed, ht.nDeleted, by rw [ht.nElements, h.length_eq], ht.room, ht.holds.trans h⟩

/-- An element is deleted from its slot. -/
theorem Stands.bury (ht : Stands hashF eqF t s) (hi : i < t.size) (hy : t.entries i = .live y)
    (hs : s ~ y :: s') :
    Stands hashF eqF (t.bury i) s' := by
  have hgraves := graves_update (m := t.entries) hi .deleted
  have hlen := hs.length_eq
  rw [hy] at hgraves
  simp only [Slot.graves, List.length_nil, List.length_cons] at hgraves hlen
  refine ⟨⟨ht.shaped.index, ht.shaped.size⟩, ht.filed.bury i, ?_, ?_, ht.room, ?_⟩
  · show t.nDeleted + 1 = _
    rw [ht.nDeleted]
    exact hgraves.symm
  · show t.nElements = s'.length + (t.nDeleted + 1)
    rw [ht.nElements, hlen]
    omega
  · have hvacate := elements_vacate hi hy (x := .deleted) rfl
    exact List.Perm.cons_inv (hvacate.symm.trans (ht.holds.trans hs))

theorem clearSlot_live (hi : i < t.size) (hy : t.entries i = .live y) :
    htabClearSlot t i = some (t.bury i, y) := by
  unfold htabClearSlot
  rw [if_neg (by omega), hy]

/-- The element equal to `x` is all that the set loses. -/
theorem perm_filter_not (hc : Consistent hashF eqF) {l : List α}
    (hp : l.Pairwise fun a b => ¬ eqF a b) (hy : y ∈ l) (heq : eqF y x) :
    l ~ y :: l.filter fun z => !eqF z x := by
  induction l with
  | nil => cases hy
  | cons z l ih =>
    obtain ⟨hz, hp⟩ := List.pairwise_cons.mp hp
    rcases List.mem_cons.mp hy with rfl | hy
    · have hrest : l.filter (fun z => !eqF z x) = l := by
        refine List.filter_eq_self.mpr fun w hw => ?_
        have hne : ¬ eqF w x := fun hwx =>
          hz w hw (hc.trans y x w heq (hc.symm w x hwx))
        simpa using hne
      rw [List.filter_cons_of_neg (by simpa using heq), hrest]
    · have hne : ¬ eqF z x := fun hzx =>
        hz y hy (hc.trans z x y hzx (hc.symm y x heq))
      rw [List.filter_cons_of_pos (by simpa using hne)]
      exact ((ih hp hy).cons z).trans (.swap y z _)

/-- A table that is being filled has no deleted slots. -/
structure Filling (hashF : α → UInt32) (eqF : α → α → Bool) (t : Htab α) (l : List α) : Prop where
  shaped : Shaped t
  filed : Filed t.size (placeOf hashF t.size) eqF t.entries
  graves : graves t.entries t.size = 0
  holds : elements t.entries t.size ~ l

theorem Filling.reinsert (hf : Filling hashF eqF t s) (hc : Consistent hashF eqF)
    (hroom : s.length < t.size) (hnew : ∀ y ∈ s, ¬ eqF y x) :
    ∃ q, reinsert hashF t x = some (t.write q (.live x)) ∧
      Filling hashF eqF (t.write q (.live x)) (x :: s) := by
  have hp : Places t.size (placeOf hashF t.size) eqF := by
    rw [hf.shaped.size]
    exact hc.places hf.shaped.index
  have hlen := hf.holds.length_eq
  have hgraves := hf.graves
  obtain ⟨k, hk, hsearch⟩ := hf.filed.search hp (exists_empty (by omega)) x
  have hnone : ∀ j, t.entries (placeOf hashF t.size x j) ≠ .deleted := fun j =>
    ne_deleted hf.graves (hp.lt x j)
  have hother : ∀ y ∈ elements t.entries t.size, ¬ eqF y x := fun y hy =>
    hnew y (hf.holds.subset hy)
  have hloop : findEmptySlotForExpand t (hashF x) = some (placeOf hashF t.size x k) := by
    unfold findEmptySlotForExpand
    rw [hf.shaped.findEmptyLoop (hf.shaped.first x) hnone
      fun j a ha => hother a (mem_elements.mpr ⟨_, hp.lt x j, ha⟩), hk, Option.map_some]
  have hempty : t.entries (placeOf hashF t.size x k) = .empty := by
    rcases hsearch.ends with ⟨y, hy, heq⟩ | ⟨hempty, -⟩
    · exact absurd heq (hother y (mem_elements.mpr ⟨_, hp.lt x k, hy⟩))
    · exact hempty
  refine ⟨placeOf hashF t.size x k, ?_, ⟨hf.shaped.index, hf.shaped.size⟩,
    hf.filed.put hp hsearch.passed hother, ?_, ?_⟩
  · unfold Hashtab.reinsert
    rw [hloop]
    rfl
  · have h := graves_update (m := t.entries) (hp.lt x k) (.live x)
    rw [hempty, hgraves] at h
    exact h
  · exact (elements_live (hp.lt x k) (by rw [hempty]; rfl) x).trans (hf.holds.cons x)

theorem Filling.foldlM (hf : Filling hashF eqF t s) (hc : Consistent hashF eqF) {l : List α}
    (hroom : l.length + s.length < t.size) (hp : l.Pairwise fun a b => ¬ eqF a b)
    (hnew : ∀ x ∈ l, ∀ y ∈ s, ¬ eqF y x) :
    ∃ t', l.foldlM (Hashtab.reinsert hashF) t = some t' ∧ Filling hashF eqF t' (l ++ s) ∧
      t'.size = t.size ∧ t'.nElements = t.nElements ∧ t'.nDeleted = t.nDeleted := by
  induction l generalizing t s with
  | nil => exact ⟨t, rfl, hf, rfl, rfl, rfl⟩
  | cons x l ih =>
    obtain ⟨hx, hp⟩ := List.pairwise_cons.mp hp
    rw [List.length_cons] at hroom
    obtain ⟨q, hq, hfill⟩ := hf.reinsert hc (by omega) (hnew x List.mem_cons_self)
    have hroom' : l.length + (x :: s).length < t.size := by
      rw [List.length_cons]
      omega
    have hnew' : ∀ z ∈ l, ∀ y ∈ x :: s, ¬ eqF y z := by
      intro z hz y hy
      rcases List.mem_cons.mp hy with rfl | hy
      · exact hx z hz
      · exact hnew z (List.mem_cons_of_mem x hz) y hy
    obtain ⟨t', ht', hfill', hrest⟩ := ih hfill hroom' hp hnew'
    refine ⟨t', ?_, ?_, hrest⟩
    · rw [List.foldlM_cons, hq]
      exact ht'
    · exact ⟨hfill'.shaped, hfill'.filed, hfill'.graves,
        hfill'.holds.trans (List.perm_middle)⟩

/-- An expanded table is at most half full. -/
theorem Stands.expand (ht : Stands hashF eqF t s) (hc : Consistent hashF eqF)
    (hsmall : s.length < 2 ^ 30) :
    ∃ t', htabExpand hashF t = some t' ∧ Stands hashF eqF t' s ∧ s.length * 2 ≤ t'.size ∧
      t'.nElements = s.length := by
  obtain ⟨resized, hres⟩ : ∃ r : Bool, r = decide
    (t.size < s.length * 2 ∨ s.length * 8 < t.size ∧ 32 < t.size) := ⟨_, rfl⟩
  obtain ⟨i, hi, hindex, hle⟩ := higherPrimeIndex_small (n := s.length * 2) (by omega)
  obtain ⟨nindex, hn⟩ : ∃ n, n = if resized then i else t.sizePrimeIndex := ⟨_, rfl⟩
  obtain ⟨nsize, hnsize⟩ : ∃ n, n = (primeAt nindex).prime.toNat := ⟨_, rfl⟩
  have hlt : nindex < 29 := by
    rw [hn]
    split_ifs
    · exact hi
    · exact ht.shaped.index
  have hhalf : s.length * 2 ≤ nsize := by
    rw [hnsize, hn]
    split_ifs with hr
    · exact hle
    · have hnot : ¬ (t.size < s.length * 2 ∨ s.length * 8 < t.size ∧ 32 < t.size) := fun h =>
        hr (hres.trans (decide_eq_true h))
      rw [← ht.shaped.size]
      omega
  have hseven := (sized hlt).seven_le
  rw [← hnsize] at hseven
  have hlen := ht.holds.length_eq
  have hfill : Filling hashF eqF (⟨nindex, nsize, fun _ => .empty, s.length, 0⟩ : Htab α) [] :=
    ⟨⟨hlt, hnsize⟩, filed_empty, graves_empty _, by rw [elements_empty]⟩
  have hroom : (elements t.entries t.size).length + 0 < nsize := by omega
  obtain ⟨t', ht', hfill', hsize, hnel, hndel⟩ := hfill.foldlM hc hroom ht.filed.pairwise (by simp)
  rw [List.append_nil] at hfill'
  refine ⟨t', ?_, ⟨hfill'.shaped, hfill'.filed, ?_, ?_, ?_, hfill'.holds.trans ht.holds⟩,
    hsize ▸ hhalf, hnel⟩
  · unfold htabExpand
    have hel : t.nElements - t.nDeleted = s.length := ht.elts
    rw [ht.elts, hel]
    dsimp only
    rw [← hres]
    have hni : (if resized = true then higherPrimeIndex (s.length * 2)
        else some t.sizePrimeIndex) = some nindex := by
      rw [hn]
      split_ifs
      · exact hindex
      · rfl
    have hns : (if resized = true then (primeAt nindex).prime.toNat else t.size) = nsize := by
      split_ifs with hr
      · exact hnsize.symm
      · rw [hnsize, hn, if_neg hr, ht.shaped.size]
    rw [hni]
    simp only [Option.bind_eq_bind, Option.bind_some]
    rw [hns]
    exact ht'
  · rw [hndel, hfill'.graves]
  · rw [hnel, hndel]
    rfl
  · rw [hnel, hsize]
    show s.length < nsize
    omega

/-- With `INSERT` a slot is found for every element, in a table that has room for it. -/
theorem Stands.findSlot_insert (ht : Stands hashF eqF t s) (hc : Consistent hashF eqF)
    (hsmall : s.length < 2 ^ 30) (x : α) :
    (∃ t' i y, htabFindSlot hashF eqF t x .insert = some (t', some i) ∧ Stands hashF eqF t' s ∧
        i < t'.size ∧ t'.entries i = .live y ∧ eqF y x ∧ s.find? (eqF · x) = some y) ∨
      ∃ t' i, htabFindSlot hashF eqF t x .insert = some (t', some i) ∧
        (t'.entries i).elements = [] ∧ s.find? (eqF · x) = none ∧
        Stands hashF eqF (t'.write i (.live x)) (x :: s) := by
  -- the table is expanded, or it has room as it is
  obtain ⟨u, hu, hst, hroom⟩ : ∃ u, (if InsertOption.insert = .insert ∧
        t.size * 3 ≤ t.nElements * 4 then htabExpand hashF t else some t) = some u ∧
      Stands hashF eqF u s ∧ u.nElements + 1 < u.size := by
    have hseven := (sized ht.shaped.index).seven_le
    rw [← ht.shaped.size] at hseven
    by_cases hfull : t.size * 3 ≤ t.nElements * 4
    · rw [if_pos ⟨rfl, hfull⟩]
      obtain ⟨u, hu, hst, hhalf, hnel⟩ := ht.expand hc hsmall
      have hseven := (sized hst.shaped.index).seven_le
      rw [← hst.shaped.size] at hseven
      exact ⟨u, hu, hst, by omega⟩
    · rw [if_neg fun h => hfull h.2]
      exact ⟨t, rfl, ht, by omega⟩
  have hp := hst.places hc
  obtain ⟨k, hk, hsearch⟩ := hst.search hc x
  obtain ⟨slot, hloop, hslot⟩ := hst.shaped.findSlotLoop none (hst.shaped.first x) hk
  rcases hst.ends hc hsearch with ⟨y, hy, heq, hfind⟩ | ⟨hempty, hfind, hnew⟩
  · exact .inl ⟨u, _, y, findSlot_live hu hloop hy, hst, hp.lt x k, hy, heq, hfind⟩
  have hfound := findSlot_empty hu hloop hempty
  rcases hslot with rfl | ⟨-, j, hjk, rfl, hdel⟩
  · -- the slot that was never used
    refine .inr ⟨_, _, hfound, by rw [hempty]; rfl, hfind, ?_⟩
    have hgraves := graves_update (m := u.entries) (hp.lt x k) (.live x)
    rw [hempty] at hgraves
    refine ⟨⟨hst.shaped.index, hst.shaped.size⟩, hst.filed.put hp hsearch.passed hnew, ?_, ?_,
      hroom, (elements_live (hp.lt x k) (by rw [hempty]; rfl) x).trans (hst.holds.cons x)⟩
    · exact hst.nDeleted.trans hgraves.symm
    · show u.nElements + 1 = s.length + 1 + u.nDeleted
      rw [hst.nElements]
      omega
  · -- a deleted slot on the way to it
    have hpassed : ∀ i < j, u.entries (placeOf hashF u.size x i) ≠ .empty := fun i hi =>
      hsearch.passed i (hi.trans hjk)
    refine .inr ⟨_, _, hfound, ?_, hfind, ?_⟩
    · show (Function.update u.entries _ _ _).elements = []
      rw [Function.update_self]
      rfl
    have hgraves := graves_update (m := u.entries) (hp.lt x j) (.live x)
    rw [hdel] at hgraves
    have hwrite : ∀ i, Function.update (Function.update u.entries i .empty) i (.live x) =
        Function.update u.entries i (.live x) := fun i => Function.update_idem ..
    have hnd := hst.nDeleted
    simp only [Slot.graves, List.length_nil, List.length_cons] at hgraves
    refine ⟨⟨hst.shaped.index, hst.shaped.size⟩, ?_, ?_, ?_, ?_, ?_⟩
    · show Filed u.size _ _ (Function.update (Function.update u.entries _ _) _ _)
      rw [hwrite]
      exact hst.filed.put hp hpassed hnew
    · show u.nDeleted - 1 = graves (Function.update (Function.update u.entries _ _) _ _) u.size
      rw [hwrite]
      omega
    · show u.nElements = s.length + 1 + (u.nDeleted - 1)
      rw [hst.nElements]
      omega
    · show u.nElements < u.size
      omega
    · show elements (Function.update (Function.update u.entries _ _) _ _) u.size ~ _
      rw [hwrite]
      exact (elements_live (hp.lt x j) (by rw [hdel]; rfl) x).trans (hst.holds.cons x)

/-- An equal element is written over the one that is there. -/
theorem Stands.swap (ht : Stands hashF eqF t s) (hc : Consistent hashF eqF) (hi : i < t.size)
    (hy : t.entries i = .live y) (heq : eqF y x) (hs : s ~ y :: s') :
    Stands hashF eqF (t.write i (.live x)) (x :: s') := by
  have hgraves := graves_update (m := t.entries) hi (.live x)
  rw [hy] at hgraves
  have hlen := hs.length_eq
  refine ⟨⟨ht.shaped.index, ht.shaped.size⟩, ht.filed.swap (ht.places hc) hi hy heq,
    ht.nDeleted.trans hgraves.symm, ?_, ht.room, ?_⟩
  · show t.nElements = (x :: s').length + t.nDeleted
    rw [ht.nElements, hlen, List.length_cons, List.length_cons]
  · -- the slot could as well have been emptied first
    have hvacate := elements_vacate hi hy (x := .empty) rfl
    have hlive := elements_live (m := Function.update t.entries i .empty) hi
      (by rw [Function.update_self]; rfl) x
    rw [Function.update_idem] at hlive
    exact hlive.trans ((List.Perm.cons_inv (hvacate.symm.trans (ht.holds.trans hs))).cons x)

/-- What a walk from the slot `i` on visits. -/
def visitedFrom (t : Htab α) (i : Nat) : List α :=
  Buckets.chainsFrom (fun j => (t.entries j).elements) t.size i

theorem visitedFrom_succ (hi : i < t.size) :
    visitedFrom t i = (t.entries i).elements ++ visitedFrom t (i + 1) :=
  Buckets.chainsFrom_succ hi

theorem visitedFrom_bury (t : Htab α) (i : Nat) :
    visitedFrom (t.bury i) (i + 1) = visitedFrom t (i + 1) := by
  refine Buckets.chainsFrom_congr fun j hij _ => ?_
  show (Function.update t.entries i .deleted j).elements = _
  rw [Function.update_of_ne (by omega)]

/-- A walk leaves what it does not clear. -/
theorem Stands.traverseLoop (ht : Stands hashF eqF t s) (clears : α → Bool)
    (hn : i + n = t.size) :
    ∃ t' rest, traverseLoop clears n i t = some (t', visitedFrom t i) ∧
      Stands hashF eqF t' rest ∧ s ~ (visitedFrom t i).filter clears ++ rest := by
  induction n generalizing t s i with
  | zero =>
    have hend : visitedFrom t i = [] := Buckets.chainsFrom_end (by omega)
    rw [hend]
    exact ⟨t, s, rfl, ht, .refl s⟩
  | succ n ih =>
    have hi : i < t.size := by omega
    rw [visitedFrom_succ hi]
    unfold Hashtab.traverseLoop
    cases hm : t.entries i with
    | empty => exact ih ht (by omega)
    | deleted => exact ih ht (by omega)
    | live x =>
      simp only [Slot.elements, List.singleton_append]
      by_cases hx : clears x
      · have hvacate := elements_vacate hi hm (x := .deleted) rfl
        have hs := ht.holds.symm.trans hvacate
        have hsize : i + 1 + n = (t.bury i).size := by
          show i + 1 + n = t.size
          omega
        obtain ⟨t', rest, hloop, hst, hperm⟩ := ih (ht.bury hi hm hs) hsize
        rw [visitedFrom_bury] at hloop hperm
        refine ⟨t', rest, ?_, hst, ?_⟩
        · rw [if_pos hx, clearSlot_live hi hm]
          simp only [Option.map_some, Option.bind_eq_bind, Option.bind_some, hloop]
          rfl
        · rw [List.filter_cons_of_pos hx]
          exact hs.trans (hperm.cons x)
      · obtain ⟨t', rest, hloop, hst, hperm⟩ := ih ht (by omega : i + 1 + n = t.size)
        refine ⟨t', rest, ?_, hst, ?_⟩
        · rw [if_neg hx]
          simp only [Option.bind_eq_bind, Option.bind_some, hloop]
          rfl
        · rwa [List.filter_cons_of_neg hx]

/-- `htab_traverse` visits every element once. -/
theorem Stands.traverse (ht : Stands hashF eqF t s) (hc : Consistent hashF eqF)
    (hsmall : s.length < 2 ^ 30) (clears : α → Bool) :
    ∃ t' visited, htabTraverse hashF t clears = some (t', visited) ∧ visited ~ s ∧
      Stands hashF eqF t' (s.filter fun x => !clears x) := by
  obtain ⟨u, hu, hst⟩ : ∃ u, (if htabElements t * 8 < t.size ∧ 32 < t.size then htabExpand hashF t
      else some t) = some u ∧ Stands hashF eqF u s := by
    split_ifs
    · obtain ⟨u, hu, hst, -⟩ := ht.expand hc hsmall
      exact ⟨u, hu, hst⟩
    · exact ⟨t, rfl, ht⟩
  obtain ⟨t', rest, hloop, hst', hperm⟩ := hst.traverseLoop clears (Nat.zero_add u.size)
  have hall : visitedFrom u 0 ~ s := hst.holds
  refine ⟨t', visitedFrom u 0, ?_, hall, hst'.perm ?_⟩
  · unfold htabTraverse htabTraverseNoresize
    rw [hu]
    exact hloop
  · -- what is cleared is the same on both sides
    have hsplit : s.filter clears ++ s.filter (fun x => !clears x) ~ s :=
      List.filter_append_perm clears s
    have hleft : s.filter clears ++ rest ~ s :=
      (((hall.filter clears).symm.append_right rest).trans hperm.symm)
    exact (List.perm_append_left_iff _).mp (hleft.trans hsplit.symm)

theorem Stands.empty (ht : Stands hashF eqF t s) :
    ∃ t' dels, htabEmpty t = some (t', dels) ∧ dels ~ s ∧ Stands hashF eqF t' [] := by
  have hsz := sized ht.shaped.index
  have hlt := hsz.lt
  rw [← ht.shaped.size] at hlt
  have hindex : higherPrimeIndex (1024 / 8) = some 5 := by decide +kernel
  have hempty : ∀ i < 29, Stands hashF eqF
      (⟨i, (primeAt i).prime.toNat, fun _ => .empty, 0, 0⟩ : Htab α) [] := by
    intro i hi
    have hseven := (sized hi).seven_le
    refine ⟨⟨hi, rfl⟩, filed_empty, (graves_empty _).symm, rfl, ?_, by rw [elements_empty]⟩
    show 0 < (primeAt i).prime.toNat
    omega
  have hres : ∃ i < 29, htabEmpty t =
      some (⟨i, (primeAt i).prime.toNat, fun _ => .empty, 0, 0⟩,
        (elements t.entries t.size).reverse) := by
    unfold htabEmpty
    rw [if_pos (by omega : t.size ≤ 2 ^ 31), hindex]
    by_cases hdown : 1024 * 1024 / 8 < t.size
    · refine ⟨5, by decide, ?_⟩
      simp [hdown]
    · refine ⟨t.sizePrimeIndex, ht.shaped.index, ?_⟩
      rw [← ht.shaped.size]
      simp [hdown]
  obtain ⟨i, hi, hres⟩ := hres
  exact ⟨_, _, hres, (List.reverse_perm _).trans ht.holds, hempty i hi⟩

/-- A table just made is empty. -/
theorem create_stands {size : Nat} (hsize : size < 2 ^ 31) :
    ∃ t : Htab α, htabCreate size = some t ∧ Stands hashF eqF t [] := by
  obtain ⟨i, hi, hindex, -⟩ := higherPrimeIndex_small hsize
  have hseven := (sized hi).seven_le
  refine ⟨⟨i, (primeAt i).prime.toNat, fun _ => .empty, 0, 0⟩, ?_, ⟨hi, rfl⟩, filed_empty,
    (graves_empty _).symm, rfl, ?_, by rw [elements_empty]⟩
  · unfold htabCreate
    rw [hindex]
    rfl
  · show 0 < (primeAt i).prime.toNat
    omega

/-- What a call does to the set of elements that the program has put in the table. There is no
answer to the removal of an element that is not there. -/
def setStep (eqF : α → α → Bool) (s : List α) : Op α → Option (List α × Answer α)
  | .find x => some (s, .element (s.find? (eqF · x)))
  | .insert x replaces =>
    match s.find? (eqF · x) with
    | none => some (x :: s, .element none)
    | some y => some (if replaces then x :: s.filter fun z => !eqF z x else s, .element (some y))
  | .remove x =>
    match s.find? (eqF · x) with
    | none => none
    | some y => some (s.filter fun z => !eqF z x, .element (some y))
  | .clear x => some (s.filter fun z => !eqF z x, .element (s.find? (eqF · x)))
  | .empty => some ([], .list s)
  | .traverse clears => some (s.filter fun x => !clears x, .list s)
  | .elements => some (s, .count s.length)

def setRun (eqF : α → α → Bool) : List α → List (Op α) → Option (List α × List (Answer α))
  | s, [] => some (s, [])
  | s, op :: ops => do
    let (s, answer) ← setStep eqF s op
    let (s, answers) ← setRun eqF s ops
    pure (s, answer :: answers)

/-- The set never has `2 ^ 30` elements when a call is made. -/
def small (eqF : α → α → Bool) : List α → List (Op α) → Bool
  | _, [] => true
  | s, op :: ops => decide (s.length < 2 ^ 30) &&
      match setStep eqF s op with
      | none => true
      | some (s, _) => small eqF s ops

/-- Two answers, where the order of a list does not matter. -/
inductive Answer.Alike : Answer α → Answer α → Prop
  | element (x : Option α) : Alike (.element x) (.element x)
  | list {l l' : List α} : l ~ l' → Alike (.list l) (.list l')
  | count (n : Nat) : Alike (.count n) (.count n)

theorem filter_eq_self_of_none {l : List α} (h : l.find? (eqF · x) = none) :
    (l.filter fun z => !eqF z x) = l := by
  refine List.filter_eq_self.mpr fun z hz => ?_
  have := List.find?_eq_none.mp h z hz
  simpa using this

/-- The table does to its entries what the call does to the set. -/
theorem Stands.step (ht : Stands hashF eqF t s) (hc : Consistent hashF eqF)
    (hsmall : s.length < 2 ^ 30) (op : Op α) :
    (setStep eqF s op = none ∧ Hashtab.step hashF eqF t op = none) ∨
      ∃ t' s' answer answer', Hashtab.step hashF eqF t op = some (t', answer) ∧
        setStep eqF s op = some (s', answer') ∧ Stands hashF eqF t' s' ∧
        Answer.Alike answer answer' := by
  cases op with
  | find x =>
    refine .inr ⟨t, s, _, _, ?_, rfl, ht, .element _⟩
    simp only [Hashtab.step, ht.find hc, Option.bind_eq_bind, Option.bind_some]
    rfl
  | insert x replaces =>
    right
    rcases ht.findSlot_insert hc hsmall x with
      ⟨t', i, y, hslot, hst, hi, hy, heq, hfind⟩ | ⟨t', i, hslot, hvacant, hfind, hst⟩
    · have hmem : y ∈ s := List.mem_of_find?_eq_some hfind
      have hperm := perm_filter_not hc (hst.pairwise hc) hmem heq
      have hstep : Hashtab.step hashF eqF t (.insert x replaces) =
          some (if replaces then t'.write i (.live x) else t', .element (some y)) := by
        simp only [Hashtab.step, hslot, Option.bind_eq_bind, Option.bind_some, hy]
        rfl
      have hset : setStep eqF s (.insert x replaces) =
          some (if replaces then x :: s.filter fun z => !eqF z x else s, .element (some y)) := by
        simp only [setStep, hfind]
      refine ⟨_, _, _, _, hstep, hset, ?_, .element _⟩
      split_ifs
      · exact hst.swap hc hi hy heq hperm
      · exact hst
    · have hstep : Hashtab.step hashF eqF t (.insert x replaces) =
          some (t'.write i (.live x), .element none) := by
        simp only [Hashtab.step, hslot, Option.bind_eq_bind, Option.bind_some]
        cases hm : t'.entries i with
        | live z =>
          rw [hm] at hvacant
          cases hvacant
        | empty => rfl
        | deleted => rfl
      have hset : setStep eqF s (.insert x replaces) = some (x :: s, .element none) := by
        simp only [setStep, hfind]
      exact ⟨_, _, _, _, hstep, hset, hst, .element _⟩
  | remove x =>
    rcases ht.findSlot_noInsert hc x with ⟨i, y, hslot, hi, hy, heq, hfind⟩ | ⟨hslot, hfind⟩
    · have hmem : y ∈ s := List.mem_of_find?_eq_some hfind
      refine .inr ⟨t.bury i, s.filter fun z => !eqF z x, .element (some y), .element (some y), ?_,
        ?_, ht.bury hi hy (perm_filter_not hc (ht.pairwise hc) hmem heq), .element _⟩
      · unfold htabFindSlot at hslot
        simp only [Hashtab.step, htabRemoveElt, htabRemoveEltWithHash, hslot, Option.bind_eq_bind,
          Option.bind_some, hy]
        rfl
      · simp only [setStep, hfind]
    · refine .inl ⟨by simp only [setStep, hfind], ?_⟩
      unfold htabFindSlot at hslot
      simp only [Hashtab.step, htabRemoveElt, htabRemoveEltWithHash, hslot, Option.bind_eq_bind,
        Option.bind_some, Option.bind_none]
  | clear x =>
    right
    rcases ht.findSlot_noInsert hc x with ⟨i, y, hslot, hi, hy, heq, hfind⟩ | ⟨hslot, hfind⟩
    · have hmem : y ∈ s := List.mem_of_find?_eq_some hfind
      refine ⟨t.bury i, s.filter fun z => !eqF z x, .element (some y), .element (some y), ?_, ?_,
        ht.bury hi hy (perm_filter_not hc (ht.pairwise hc) hmem heq), .element _⟩
      · simp only [Hashtab.step, hslot, Option.bind_eq_bind, Option.bind_some,
          clearSlot_live hi hy]
        rfl
      · simp only [setStep, hfind]
    · refine ⟨t, s, .element none, .element none, ?_, ?_, ht, .element _⟩
      · simp only [Hashtab.step, hslot, Option.bind_eq_bind, Option.bind_some]
        rfl
      · simp only [setStep, hfind, filter_eq_self_of_none hfind]
  | empty =>
    obtain ⟨t', dels, hempty, hdels, hst⟩ := ht.empty
    refine .inr ⟨t', [], .list dels, .list s, ?_, rfl, hst, .list hdels⟩
    simp only [Hashtab.step, hempty, Option.bind_eq_bind, Option.bind_some]
    rfl
  | traverse clears =>
    obtain ⟨t', visited, hwalk, hvisited, hst⟩ := ht.traverse hc hsmall clears
    refine .inr ⟨t', _, .list visited, .list s, ?_, rfl, hst, .list hvisited⟩
    simp only [Hashtab.step, hwalk, Option.bind_eq_bind, Option.bind_some]
    rfl
  | elements => exact .inr ⟨t, s, _, _, rfl, rfl, ht, ht.elts ▸ .count _⟩

/-- A run of the table, and the run of the set. -/
theorem Stands.run (ht : Stands hashF eqF t s) (hc : Consistent hashF eqF) {ops : List (Op α)}
    (hsmall : small eqF s ops) :
    (setRun eqF s ops = none ∧ Hashtab.run hashF eqF t ops = none) ∨
      ∃ t' s' answers answers', Hashtab.run hashF eqF t ops = some (t', answers) ∧
        setRun eqF s ops = some (s', answers') ∧ Stands hashF eqF t' s' ∧
        List.Forall₂ Answer.Alike answers answers' := by
  induction ops generalizing t s with
  | nil => exact .inr ⟨t, s, [], [], rfl, rfl, ht, .nil⟩
  | cons op ops ih =>
    simp only [small, Bool.and_eq_true, decide_eq_true_eq] at hsmall
    rcases ht.step hc hsmall.1 op with
      ⟨hset, hstep⟩ | ⟨t', s', answer, answer', hstep, hset, hst, halike⟩
    · refine .inl ⟨?_, ?_⟩
      · simp only [setRun, hset, Option.bind_eq_bind, Option.bind_none]
      · simp only [Hashtab.run, hstep, Option.bind_eq_bind, Option.bind_none]
    · have hrest := hsmall.2
      rw [hset] at hrest
      rcases ih hst hrest with
        ⟨hset', hrun⟩ | ⟨t'', s'', answers, answers', hrun, hset', hst', halikes⟩
      · refine .inl ⟨?_, ?_⟩
        · simp only [setRun, hset, hset', Option.bind_eq_bind, Option.bind_some, Option.bind_none]
        · simp only [Hashtab.run, hstep, hrun, Option.bind_eq_bind, Option.bind_some,
            Option.bind_none]
      · refine .inr ⟨t'', s'', answer :: answers, answer' :: answers', ?_, ?_, hst',
          .cons halike halikes⟩
        · simp only [Hashtab.run, hstep, hrun, Option.bind_eq_bind, Option.bind_some]
          rfl
        · simp only [setRun, hset, hset', Option.bind_eq_bind, Option.bind_some]
          rfl

section Digits

/-- Numbers that count as equal when they end in the same digit, two digits to a hash. -/
def digitHash (n : Nat) : UInt32 := UInt32.ofNat (n % 10 / 2)

def sameDigit (a b : Nat) : Bool := a % 10 == b % 10

theorem consistent_digits : Consistent digitHash sameDigit := by
  refine ⟨?_, ?_, ?_, ?_⟩
  · simp [sameDigit]
  · simp only [sameDigit, beq_iff_eq]
    exact fun a b h => h.symm
  · simp only [sameDigit, beq_iff_eq]
    exact fun a b c h₁ h₂ => h₁.trans h₂
  · simp only [sameDigit, beq_iff_eq, digitHash]
    exact fun a b h => by rw [h]

/-- The table is filled beyond its first size, and emptied again. -/
def digitRun : List (Op Nat) :=
  (List.range 8).map (fun n => .insert (10 + n) false) ++
    [.find 3, .clear 4, .remove 25, .insert 36 true, .insert 104 false, .elements,
      .traverse fun n => n % 2 == 0, .find 2, .empty, .find 1]

example : (setRun sameDigit [] digitRun).isSome := by decide

end Digits

end FusionBinutils.Libiberty.Hashtab
