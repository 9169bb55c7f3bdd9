import FusionBinutils.Lib.Cells
import FusionBinutils.Lib.Ranges
import Mathlib.Data.List.Forall2
import Mathlib.Data.List.Infix
import Mathlib.Data.Nat.Bitwise
import Mathlib.Data.UInt

/-! `objalloc` of libiberty, which gives out the memory that a BFD owns, on a host with 64-bit
pointers, and `bfd_alloc` and `bfd_release` over it. -/
namespace FusionBinutils.Libiberty.Chunks

open Ranges

/-- `struct objalloc_chunk`, with its address; the pointer is null for a chunk of small objects. -/
structure Chunk where
  addr : Nat
  currentPtr : Option Nat
  deriving DecidableEq, Repr

/-- `struct objalloc`, with its address and the chunks of its list. -/
structure Objalloc where
  addr : Nat
  currentPtr : Nat
  currentSpace : Nat
  chunks : List Chunk
  deriving DecidableEq, Repr

/-- `CHUNK_HEADER_SIZE`. -/
def chunkHeaderSize : Nat := 16

/-- `CHUNK_SIZE`. -/
def chunkSize : Nat := 4096 - 32

/-- `BIG_REQUEST`. -/
def bigRequest : Nat := 512

/-- The memory that `malloc` has given out and `free` has not taken back, and the number of the
calls of `malloc`. -/
structure Heap where
  calls : Nat
  used : List Range

/-- Memory that `malloc` may give out. -/
structure Fresh (used : List Range) (size a : Nat) : Prop where
  pos : 0 < a
  aligned : 8 ∣ a
  room : a + size ≤ 2 ^ 64
  apart : ∀ r ∈ used, Apart ⟨a, size⟩ r

/-- A `malloc`, which may answer every call in its own way, or not at all. -/
structure Malloc where
  get : Nat → List Range → Nat → Option Nat
  fresh : ∀ calls used size a, get calls used size = some a → Fresh used size a

def Malloc.call (malloc : Malloc) (heap : Heap) (size : Nat) : Option Nat × Heap :=
  match malloc.get heap.calls heap.used size with
  | none => (none, ⟨heap.calls + 1, heap.used⟩)
  | some a => (some a, ⟨heap.calls + 1, ⟨a, size⟩ :: heap.used⟩)

/-- `free`, of memory that is in use. -/
def free (heap : Heap) (a : Nat) : Option Heap :=
  if heap.used.any (·.start = a) then
    some ⟨heap.calls, heap.used.eraseP (·.start = a)⟩
  else none

/-- The size of `struct objalloc`. -/
def sizeofObjalloc : Nat := 24

/-- `objalloc_create`. -/
def objallocCreate (malloc : Malloc) (heap : Heap) : Option (Option Objalloc × Heap) :=
  match malloc.call heap sizeofObjalloc with
  | (none, heap) => some (none, heap)
  | (some ret, heap) =>
    match malloc.call heap chunkSize with
    | (none, heap) => (free heap ret).map fun heap => (none, heap)
    | (some chunk, heap) =>
      some (some ⟨ret, chunk + chunkHeaderSize, chunkSize - chunkHeaderSize, [⟨chunk, none⟩]⟩, heap)

/-- A length made a multiple of `OBJALLOC_ALIGN`. -/
def alignUp (len : UInt64) : UInt64 := (len + (8 - 1)) &&& ~~~(8 - 1)

/-- What is left when a block has been taken from the current chunk. -/
def Objalloc.bump (o : Objalloc) (len : Nat) : Objalloc :=
  { o with currentPtr := o.currentPtr + len, currentSpace := o.currentSpace - len }

/-- The macro `objalloc_alloc`, over the function that it calls where the current chunk has no
room. -/
def objallocAlloc (alloc : Objalloc → Heap → UInt64 → Option Nat × Objalloc × Heap)
    (o : Objalloc) (heap : Heap) (l : UInt64) : Option Nat × Objalloc × Heap :=
  let len := alignUp (if l = 0 then 1 else l)
  if len ≠ 0 ∧ len.toNat ≤ o.currentSpace then (some o.currentPtr, o.bump len.toNat, heap)
  else alloc o heap len

/-- `_objalloc_alloc`, which the macro calls again when there is a new chunk. -/
def objallocAllocChunk (malloc : Malloc) : Nat → Objalloc → Heap → UInt64 →
    Option Nat × Objalloc × Heap
  | 0, o, heap, _ => (none, o, heap)
  | fuel + 1, o, heap, originalLen =>
    let len := alignUp (if originalLen = 0 then 1 else originalLen)
    if len + 16 < originalLen then (none, o, heap)
    else if len.toNat ≤ o.currentSpace then (some o.currentPtr, o.bump len.toNat, heap)
    else if bigRequest ≤ len.toNat then
      match malloc.call heap (chunkHeaderSize + len.toNat) with
      | (none, heap) => (none, o, heap)
      | (some ret, heap) =>
        (some (ret + chunkHeaderSize),
          { o with chunks := ⟨ret, some o.currentPtr⟩ :: o.chunks }, heap)
    else
      match malloc.call heap chunkSize with
      | (none, heap) => (none, o, heap)
      | (some chunk, heap) =>
        objallocAlloc (objallocAllocChunk malloc fuel)
          ⟨o.addr, chunk + chunkHeaderSize, chunkSize - chunkHeaderSize, ⟨chunk, none⟩ :: o.chunks⟩
          heap len

/-- `objalloc_free`. -/
def objallocFree (o : Objalloc) (heap : Heap) : Option Heap := do
  let heap ← o.chunks.foldlM (fun heap c => free heap c.addr) heap
  free heap o.addr

/-- The loop for the chunk of a block, with what is behind it in the list, and the last chunk of
small objects before it. -/
def findChunk (b : Nat) : Option Nat → List Chunk → Option (Option Nat × Chunk × List Chunk)
  | _, [] => none
  | small, p :: next =>
    match p.currentPtr with
    | none =>
      if p.addr < b ∧ b < p.addr + chunkSize then some (small, p, next)
      else findChunk b (some p.addr) next
    | some _ =>
      if b = p.addr + chunkHeaderSize then some (small, p, next) else findChunk b small next

/-- The loop that frees what is newer than a block of a small chunk, up to this chunk `p`. -/
def freeSmaller (p b : Nat) : Option Nat → Option (List Chunk) → Heap → List Chunk →
    Option (List Chunk × Heap)
  | _, _, _, [] => none
  | small, first, heap, q :: next =>
    if q.addr = p then some (first.getD (q :: next), heap)
    else if small.isSome then
      (free heap q.addr).bind fun heap =>
        freeSmaller p b (if small = some q.addr then none else small) first heap next
    else if q.currentPtr.any (b < ·) then
      (free heap q.addr).bind fun heap => freeSmaller p b small first heap next
    else freeSmaller p b small (first <|> some (q :: next)) heap next

/-- The loop that frees the chunks before the chunk at the head of `p`. -/
def freeBefore (p : List Chunk) : Heap → List Chunk → Option Heap
  | heap, q =>
    if q.head?.map Chunk.addr = p.head?.map Chunk.addr then some heap
    else
      match q with
      | [] => none
      | c :: next => (free heap c.addr).bind fun heap => freeBefore p heap next

/-- `objalloc_free_block`. -/
def objallocFreeBlock (o : Objalloc) (heap : Heap) (b : Nat) : Option (Objalloc × Heap) :=
  match findChunk b none o.chunks with
  | none => none
  | some (small, p, next) =>
    match p.currentPtr with
    | none =>
      (freeSmaller p.addr b small none heap o.chunks).map fun r =>
        (⟨o.addr, b, p.addr + chunkSize - b, r.1⟩, r.2)
    | some currentPtr =>
      (freeBefore next heap o.chunks).bind fun heap =>
        (next.find? (·.currentPtr.isNone)).map fun p =>
          (⟨o.addr, currentPtr, p.addr + chunkSize - currentPtr, next⟩, heap)

/-- `bfd_alloc`. -/
def bfdAlloc (malloc : Malloc) (o : Objalloc) (heap : Heap) (size : UInt64) :
    Option Nat × Objalloc × Heap :=
  if 2 ^ 63 ≤ size.toNat then (none, o, heap)
  else objallocAlloc (objallocAllocChunk malloc 2) o heap size

/-- `bfd_alloc2`. -/
def bfdAlloc2 (malloc : Malloc) (o : Objalloc) (heap : Heap) (nmemb size : UInt64) :
    Option Nat × Objalloc × Heap :=
  if 2 ^ 32 ≤ nmemb ||| size ∧ size ≠ 0 ∧ ~~~0 / size < nmemb then (none, o, heap)
  else bfdAlloc malloc o heap (size * nmemb)

/-! What a call of `bfd_alloc` does. -/

theorem and_mask {x : Nat} (h : x < 2 ^ 64) : x &&& (2 ^ 64 - 8) = x / 8 * 8 := by
  have hmask : 2 ^ 64 - 8 = (2 ^ 61 - 1) <<< 3 := rfl
  have hdiv : x / 8 * 8 = (x >>> 3) <<< 3 := by
    rw [Nat.shiftRight_eq_div_pow, Nat.shiftLeft_eq]
  rw [hmask, hdiv]
  refine Nat.eq_of_testBit_eq fun i => ?_
  rw [Nat.testBit_and, Nat.testBit_shiftLeft, Nat.testBit_shiftLeft, Nat.testBit_shiftRight,
    Nat.testBit_two_pow_sub_one]
  by_cases hi : 3 ≤ i
  · rw [Nat.add_sub_cancel' hi]
    by_cases hlt : i < 64
    · simp [hi, show i - 3 < 61 by omega]
    · have hbit : x.testBit i = false := Nat.testBit_lt_two_pow
        (Nat.lt_of_lt_of_le h (Nat.pow_le_pow_right (by decide) (by omega)))
      simp [hbit]
  · simp [hi]

theorem alignUp_toNat {len : UInt64} (h : len.toNat ≤ 2 ^ 64 - 8) :
    (alignUp len).toNat = (len.toNat + 7) / 8 * 8 := by
  have hadd : (len + (8 - 1)).toNat = len.toNat + 7 := by
    rw [UInt64.toNat_add]
    exact Nat.mod_eq_of_lt (by
      have : (8 - 1 : UInt64).toNat = 7 := rfl
      omega)
  rw [alignUp, UInt64.toNat_and, hadd]
  exact and_mask (by omega)

/-- The length of a block for a request. -/
def blockLen (size : Nat) : Nat := (max 1 size + 7) / 8 * 8

theorem le_blockLen (size : Nat) : size ≤ blockLen size := by
  unfold blockLen
  omega

theorem blockLen_pos (size : Nat) : 0 < blockLen size := by
  unfold blockLen
  omega

theorem dvd_blockLen (size : Nat) : 8 ∣ blockLen size := Nat.dvd_mul_left ..

theorem toNat_max_one (l : UInt64) : (if l = 0 then 1 else l).toNat = max 1 l.toNat := by
  by_cases hl : l = 0
  · rw [if_pos hl, hl]
    rfl
  · have hpos : 0 < l.toNat := Nat.pos_of_ne_zero fun h => hl (UInt64.toNat_inj.mp h)
    rw [if_neg hl]
    omega

/-- An allocator and the memory in use. -/
structure Store where
  o : Objalloc
  used : List Range

/-- A block is taken from the current chunk, or has a chunk of its own. -/
inductive Takes : Store → Range → Store → Prop
  | small {s : Store} {n : Nat} (hpos : 0 < n) (haligned : 8 ∣ n) (hroom : n ≤ s.o.currentSpace) :
      Takes s ⟨s.o.currentPtr, n⟩ ⟨s.o.bump n, s.used⟩
  | big {s : Store} {n a : Nat} (hpos : 0 < n) (haligned : 8 ∣ n)
      (hfresh : Fresh s.used (chunkHeaderSize + n) a) :
      Takes s ⟨a + chunkHeaderSize, n⟩
        ⟨{ s.o with chunks := ⟨a, some s.o.currentPtr⟩ :: s.o.chunks },
          ⟨a, chunkHeaderSize + n⟩ :: s.used⟩

/-- There is a new chunk of small objects. -/
inductive Extends : Store → Store → Prop
  | chunk {s : Store} {a : Nat} (hfresh : Fresh s.used chunkSize a) :
      Extends s ⟨⟨s.o.addr, a + chunkHeaderSize, chunkSize - chunkHeaderSize,
        ⟨a, none⟩ :: s.o.chunks⟩, ⟨a, chunkSize⟩ :: s.used⟩

variable {malloc : Malloc} {o o' : Objalloc} {heap heap' : Heap} {size : UInt64} {r : Option Nat}

theorem Malloc.call_cases (malloc : Malloc) (heap : Heap) (n : Nat) :
    malloc.call heap n = (none, ⟨heap.calls + 1, heap.used⟩) ∨
      ∃ a, malloc.call heap n = (some a, ⟨heap.calls + 1, ⟨a, n⟩ :: heap.used⟩) ∧
        Fresh heap.used n a := by
  unfold Malloc.call
  cases hget : malloc.get heap.calls heap.used n with
  | none => exact .inl rfl
  | some a => exact .inr ⟨a, rfl, malloc.fresh _ _ _ _ hget⟩

/-- What a call leaves: everything as it was, or a block taken, from a new chunk where the current
one has no room and the block is not a big one. -/
inductive Allocates (s : Store) (n : Nat) : Option Nat → Store → Prop
  | fails : Allocates s n none s
  | takes {x : Nat} {s' : Store} (h : Takes s ⟨x, n⟩ s') : Allocates s n (some x) s'
  | takesNew {x : Nat} {s₁ s' : Store} (hroom : s.o.currentSpace < n) (hsmall : n < bigRequest)
      (hextends : Extends s s₁) (h : Takes s₁ ⟨x, n⟩ s') : Allocates s n (some x) s'

theorem objallocAlloc_room {alloc : Objalloc → Heap → UInt64 → Option Nat × Objalloc × Heap}
    {l len : UInt64} (hlen : alignUp (if l = 0 then 1 else l) = len) (hpos : len ≠ 0)
    (hroom : len.toNat ≤ o.currentSpace) :
    objallocAlloc alloc o heap l = (some o.currentPtr, o.bump len.toNat, heap) := by
  unfold objallocAlloc
  rw [hlen]
  exact if_pos ⟨hpos, hroom⟩

theorem alignUp_twice {l : UInt64} (hl : l.toNat < 2 ^ 63) :
    (alignUp (if l = 0 then 1 else l)).toNat = blockLen l.toNat ∧
      alignUp (if alignUp (if l = 0 then 1 else l) = 0 then 1
        else alignUp (if l = 0 then 1 else l)) = alignUp (if l = 0 then 1 else l) := by
  have hfirst : (alignUp (if l = 0 then 1 else l)).toNat = blockLen l.toNat := by
    rw [alignUp_toNat (by rw [toNat_max_one]; omega), toNat_max_one]
    rfl
  have hpos := blockLen_pos l.toNat
  refine ⟨hfirst, UInt64.toNat_inj.mp ?_⟩
  have hle : blockLen l.toNat ≤ 2 ^ 63 := by
    unfold blockLen
    omega
  rw [alignUp_toNat (by rw [toNat_max_one]; omega), toNat_max_one, hfirst]
  have hdvd := dvd_blockLen l.toNat
  omega

theorem bfdAlloc_spec (halloc : bfdAlloc malloc o heap size = (r, o', heap')) :
    Allocates ⟨o, heap.used⟩ (blockLen size.toNat) r ⟨o', heap'.used⟩ := by
  unfold bfdAlloc at halloc
  split at halloc
  · cases halloc
    exact .fails
  rename_i hsize
  obtain ⟨hlen, htwice⟩ := alignUp_twice (Nat.lt_of_not_le hsize)
  have hle : blockLen size.toNat ≤ 2 ^ 63 := by
    unfold blockLen
    omega
  have hpos := blockLen_pos size.toNat
  have hdvd := dvd_blockLen size.toNat
  rw [← hlen] at hle hpos hdvd ⊢
  generalize hn : alignUp (if size = 0 then 1 else size) = len at *
  have hne : len ≠ 0 := by
    rintro rfl
    exact absurd hpos (by decide)
  by_cases hroom : len.toNat ≤ o.currentSpace
  · rw [objallocAlloc_room hn hne hroom] at halloc
    cases halloc
    exact .takes (.small (s := ⟨o, heap.used⟩) hpos hdvd hroom)
  have hwrap : ¬ len + 16 < len := by
    rw [UInt64.lt_iff_toNat_lt, UInt64.toNat_add]
    have : (16 : UInt64).toNat = 16 := rfl
    omega
  unfold objallocAlloc at halloc
  rw [hn] at halloc
  dsimp only at halloc
  rw [if_neg fun h => hroom h.2, objallocAllocChunk] at halloc
  rw [htwice, if_neg hwrap, if_neg hroom] at halloc
  by_cases hbig : bigRequest ≤ len.toNat
  · rw [if_pos hbig] at halloc
    rcases malloc.call_cases heap (chunkHeaderSize + len.toNat) with hcall | ⟨a, hcall, hfresh⟩
    · rw [hcall] at halloc
      cases halloc
      exact .fails
    · rw [hcall] at halloc
      cases halloc
      exact .takes (.big (s := ⟨o, heap.used⟩) hpos hdvd hfresh)
  · rw [if_neg hbig] at halloc
    rcases malloc.call_cases heap chunkSize with hcall | ⟨a, hcall, hfresh⟩
    · rw [hcall] at halloc
      cases halloc
      exact .fails
    · rw [hcall] at halloc
      have hfits : len.toNat ≤ chunkSize - chunkHeaderSize := by
        unfold bigRequest at hbig
        unfold chunkSize chunkHeaderSize
        omega
      dsimp only at halloc
      rw [objallocAlloc_room htwice hne] at halloc
      · cases halloc
        exact .takesNew (Nat.lt_of_not_le hroom) (Nat.lt_of_not_le hbig)
          (.chunk (s := ⟨o, heap.used⟩) hfresh) (.small hpos hdvd hfits)
      · exact hfits

/-- The product of two numbers that pass the test of `bfd_alloc2` does not overflow. -/
theorem toNat_mul_of_fits {nmemb : UInt64}
    (hfits : ¬(2 ^ 32 ≤ nmemb ||| size ∧ size ≠ 0 ∧ ~~~0 / size < nmemb)) :
    (size * nmemb).toNat = nmemb.toNat * size.toNat := by
  rw [UInt64.toNat_mul, Nat.mul_comm]
  refine Nat.mod_eq_of_lt ?_
  by_cases hhalf : (2 ^ 32 : UInt64) ≤ nmemb ||| size
  · by_cases hzero : size = 0
    · rw [hzero]
      exact Nat.two_pow_pos 64
    · have hdiv : ¬ ~~~0 / size < nmemb := fun h => hfits ⟨hhalf, hzero, h⟩
      rw [UInt64.lt_iff_toNat_lt, UInt64.toNat_div, Nat.not_lt] at hdiv
      have hones : (~~~0 : UInt64).toNat = 2 ^ 64 - 1 := rfl
      rw [hones, Nat.le_div_iff_mul_le (Nat.pos_of_ne_zero fun h =>
        hzero (UInt64.toNat_inj.mp h))] at hdiv
      omega
  · -- both numbers are below the half size
    have hlt : nmemb.toNat ||| size.toNat < 2 ^ 32 := by
      have h32 : (2 ^ 32 : UInt64).toNat = 2 ^ 32 := rfl
      rw [UInt64.le_iff_toNat_le, h32, UInt64.toNat_or] at hhalf
      exact Nat.lt_of_not_le hhalf
    have hl := Nat.left_le_or.trans_lt hlt
    have hr := Nat.right_le_or.trans_lt hlt
    calc nmemb.toNat * size.toNat < 2 ^ 32 * 2 ^ 32 := Nat.mul_lt_mul'' hl hr
      _ = 2 ^ 64 := rfl

theorem bfdAlloc2_spec {nmemb : UInt64}
    (halloc : bfdAlloc2 malloc o heap nmemb size = (r, o', heap')) :
    Allocates ⟨o, heap.used⟩ (blockLen (nmemb.toNat * size.toNat)) r ⟨o', heap'.used⟩ := by
  unfold bfdAlloc2 at halloc
  split at halloc
  · cases halloc
    exact .fails
  rename_i hfits
  rw [← toNat_mul_of_fits hfits]
  exact bfdAlloc_spec halloc

/-! The list of chunks. -/

/-- What calls that free nothing leave of an allocator, with the blocks they take, the newest
first. -/
inductive Grows (s₀ : Store) : Store → List Range → Prop
  | refl : Grows s₀ s₀ []
  | take {s s' : Store} {b : Range} {bs : List Range} (h : Grows s₀ s bs) (htake : Takes s b s') :
      Grows s₀ s' (b :: bs)
  | extend {s s' : Store} {bs : List Range} (h : Grows s₀ s bs) (hextend : Extends s s') :
      Grows s₀ s' bs

variable {s₀ s s₁ s₂ : Store} {b : Range} {bs newer older base : List Range}

/-- The calls up to one that takes a block, and those after it. -/
theorem Grows.split (h : Grows s₀ s bs) (hbs : bs = newer ++ b :: older) :
    ∃ s₁ s₂, Grows s₀ s₁ older ∧ Takes s₁ b s₂ ∧ Grows s₂ s newer := by
  induction h generalizing newer with
  | refl => simp at hbs
  | @take s s' x xs h htake ih =>
    cases newer with
    | nil =>
      cases hbs
      exact ⟨s, s', h, htake, .refl⟩
    | cons y newer =>
      cases hbs
      obtain ⟨s₁, s₂, h₁, htake₁, h₂⟩ := ih rfl
      exact ⟨s₁, s₂, h₁, htake₁, .take h₂ htake⟩
  | extend h hextend ih =>
    obtain ⟨s₁, s₂, h₁, htake₁, h₂⟩ := ih hbs
    exact ⟨s₁, s₂, h₁, htake₁, .extend h₂ hextend⟩

/-- The memory of a chunk. -/
structure Houses (c : Chunk) (r : Range) : Prop where
  start : r.start = c.addr
  length : chunkHeaderSize < r.length
  small : c.currentPtr = none → r.length = chunkSize

/-- The chunks are apart from each other and from all other memory, and the current pointer is in
the newest chunk of small objects. -/
structure Layout (base : List Range) (s : Store) : Prop where
  housed : ∃ rs, s.used = rs ++ base ∧ List.Forall₂ Houses s.o.chunks rs ∧ rs.Pairwise Apart ∧
    ∀ r ∈ rs, ∀ x ∈ base, Apart r x
  current : ∃ bigs c rest, s.o.chunks = bigs ++ c :: rest ∧ c.currentPtr = none ∧
    (∀ q ∈ bigs, ∃ p, q.currentPtr = some p ∧ p ≤ s.o.currentPtr) ∧
    c.addr + chunkHeaderSize ≤ s.o.currentPtr ∧
    s.o.currentPtr + s.o.currentSpace = c.addr + chunkSize

/-- A chunk in front of the others. -/
theorem Layout.housed_cons {c : Chunk} {n : Nat} (h : Layout base s)
    (hfresh : Fresh s.used n c.addr) (hlen : chunkHeaderSize < n)
    (hsmall : c.currentPtr = none → n = chunkSize) :
    ∃ rs, ⟨c.addr, n⟩ :: s.used = rs ++ base ∧ List.Forall₂ Houses (c :: s.o.chunks) rs ∧
      rs.Pairwise Apart ∧ ∀ r ∈ rs, ∀ x ∈ base, Apart r x := by
  obtain ⟨rs, hused, hhouses, hapart, hbase⟩ := h.housed
  have hnew := hfresh.apart
  rw [hused] at hnew ⊢
  refine ⟨⟨c.addr, n⟩ :: rs, rfl, .cons ⟨rfl, hlen, hsmall⟩ hhouses, ?_, ?_⟩
  · rw [List.pairwise_cons]
    exact ⟨fun r hr => hnew r (List.mem_append_left _ hr), hapart⟩
  · intro r hr x hx
    rcases List.mem_cons.mp hr with rfl | hr
    · exact hnew x (List.mem_append_right _ hx)
    · exact hbase r hr x hx

theorem Layout.take (h : Layout base s) (htake : Takes s b s₁) : Layout base s₁ := by
  obtain ⟨bigs, c, rest, hchunks, hc, hbigs, hlow, hhigh⟩ := h.current
  cases htake with
  | small hpos haligned hroom =>
    refine ⟨h.housed, bigs, c, rest, hchunks, hc, fun q hq => ?_, ?_, ?_⟩
    · obtain ⟨p, hp, hle⟩ := hbigs q hq
      exact ⟨p, hp, hle.trans (Nat.le_add_right _ _)⟩
    · exact hlow.trans (Nat.le_add_right _ _)
    · simp only [Objalloc.bump]
      omega
  | @big n a hpos haligned hfresh =>
    refine ⟨h.housed_cons (c := ⟨a, some s.o.currentPtr⟩) hfresh (by omega) (fun h => by cases h),
      ⟨a, some s.o.currentPtr⟩ :: bigs, c, rest, by rw [hchunks]; rfl, hc, fun q hq => ?_,
      hlow, hhigh⟩
    rcases List.mem_cons.mp hq with rfl | hq
    · exact ⟨_, rfl, Nat.le_refl _⟩
    · exact hbigs q hq

theorem Layout.extend (h : Layout base s) (hextend : Extends s s₁) : Layout base s₁ := by
  cases hextend with
  | @chunk a hfresh =>
    refine ⟨h.housed_cons (c := ⟨a, none⟩) hfresh (by decide) (fun _ => rfl), [], ⟨a, none⟩, _,
      rfl, rfl, List.forall_mem_nil _, Nat.le_refl _, ?_⟩
    simp only [chunkSize, chunkHeaderSize]

theorem Layout.grows (h : Layout base s₀) (hgrows : Grows s₀ s bs) : Layout base s := by
  induction hgrows with
  | refl => exact h
  | take _ htake ih => exact ih.take htake
  | extend _ hextend ih => exact ih.extend hextend

/-- What calls put in front of a list of chunks: after the last chunk of small objects, if there is
one, only big ones, which were made at a higher current pointer. -/
theorem Grows.chunks (h : Grows s₀ s bs) : ∃ front bigs rs rs',
    s.o.chunks = front ++ (bigs ++ s₀.o.chunks) ∧ s.used = rs ++ (rs' ++ s₀.used) ∧
      List.Forall₂ Houses front rs ∧ List.Forall₂ Houses bigs rs' ∧ s.o.addr = s₀.o.addr ∧
      (∀ q ∈ bigs, ∃ p, q.currentPtr = some p ∧ s₀.o.currentPtr ≤ p) ∧
      (front = [] ∧ s₀.o.currentPtr ≤ s.o.currentPtr ∨
        ∃ l c, front = l ++ [c] ∧ c.currentPtr = none) := by
  induction h with
  | refl =>
    exact ⟨[], [], [], [], rfl, rfl, .nil, .nil, rfl, List.forall_mem_nil _, .inl ⟨rfl, le_rfl⟩⟩
  | @take s _ _ _ _ htake ih =>
    obtain ⟨front, bigs, rs, rs', hchunks, hused, hhouses, hhouses', haddr, hbigs, hfront⟩ := ih
    cases htake with
    | small hpos haligned hroom =>
      refine ⟨front, bigs, rs, rs', hchunks, hused, hhouses, hhouses', haddr, hbigs,
        hfront.imp_left fun h => ?_⟩
      exact ⟨h.1, h.2.trans (Nat.le_add_right _ _)⟩
    | @big n a hpos haligned hfresh =>
      have hnew : Houses ⟨a, some s.o.currentPtr⟩ ⟨a, chunkHeaderSize + n⟩ :=
        ⟨rfl, Nat.lt_add_of_pos_right hpos, fun h => by cases h⟩
      rcases hfront with ⟨rfl, hle⟩ | ⟨l, c, rfl, hc⟩
      · cases hhouses
        refine ⟨[], ⟨a, some s.o.currentPtr⟩ :: bigs, [], _ :: rs', congrArg _ hchunks,
          congrArg _ hused, .nil, .cons hnew hhouses', haddr, fun q hq => ?_, .inl ⟨rfl, hle⟩⟩
        rcases List.mem_cons.mp hq with rfl | hq
        · exact ⟨_, rfl, hle⟩
        · exact hbigs q hq
      · exact ⟨⟨a, some s.o.currentPtr⟩ :: (l ++ [c]), bigs, _ :: rs, rs', congrArg _ hchunks,
          congrArg _ hused, .cons hnew hhouses, hhouses', haddr, hbigs,
          .inr ⟨⟨a, some s.o.currentPtr⟩ :: l, c, rfl, hc⟩⟩
  | @extend s _ _ _ hextend ih =>
    obtain ⟨front, bigs, rs, rs', hchunks, hused, hhouses, hhouses', haddr, hbigs, hfront⟩ := ih
    cases hextend with
    | @chunk a hfresh =>
      have hnew : Houses ⟨a, none⟩ ⟨a, chunkSize⟩ :=
        ⟨rfl, by simp only [chunkSize, chunkHeaderSize]; omega, fun _ => rfl⟩
      refine ⟨⟨a, none⟩ :: front, bigs, _ :: rs, rs', congrArg _ hchunks, congrArg _ hused,
        .cons hnew hhouses, hhouses', haddr, hbigs, .inr ?_⟩
      rcases hfront with ⟨rfl, -⟩ | ⟨l, c, rfl, hc⟩
      · exact ⟨[], ⟨a, none⟩, rfl, rfl⟩
      · exact ⟨⟨a, none⟩ :: l, c, rfl, hc⟩

/-- A chunk takes an address for that of its block. -/
def Chunk.Claims (c : Chunk) (b : Nat) : Prop :=
  match c.currentPtr with
  | none => c.addr < b ∧ b < c.addr + chunkSize
  | some _ => b = c.addr + chunkHeaderSize

theorem Houses.has {c : Chunk} {r : Range} {x : Nat} (h : Houses c r) (hx : c.Claims x) :
    r.Has x := by
  obtain ⟨hstart, hlen, hsmall⟩ := h
  unfold Range.Has Range.stop
  rw [hstart]
  unfold Chunk.Claims at hx
  split at hx
  · rename_i hnone
    rw [hsmall hnone]
    omega
  · omega

theorem Houses.has_addr {c : Chunk} {r : Range} {x : Nat} (h : Houses c r) (hx : c.addr = x) :
    r.Has x := by
  obtain ⟨hstart, hlen, -⟩ := h
  unfold Range.Has Range.stop
  omega

/-- No chunk of the list before another one has an address that is in the memory of this one. -/
theorem only_chunk {pre post : List Chunk} {c : Chunk} {rs : List Range} {x : Nat}
    {P : Chunk → Prop} (hhouses : List.Forall₂ Houses (pre ++ c :: post) rs)
    (hapart : rs.Pairwise Apart) (hP : ∀ c r, Houses c r → P c → r.Has x) (hc : P c) :
    ∀ q ∈ pre, ¬ P q := by
  induction pre generalizing rs with
  | nil => exact List.forall_mem_nil _
  | cons q pre ih =>
    rw [List.cons_append] at hhouses
    cases hhouses with
    | @cons _ r _ rs hq hrest =>
      rw [List.pairwise_cons] at hapart
      intro p hp
      rcases List.mem_cons.mp hp with rfl | hp
      · intro hPp
        obtain ⟨r', hr', hc'⟩ := Cells.mem_of_forall₂ hrest
          (List.mem_append_right _ List.mem_cons_self)
        exact hapart.1 r' hr' x (hP p r hq hPp) (hP c r' hc' hc)
      · exact ih hrest hapart.2 p hp

/-! Freeing a block. -/

@[simp]
theorem free_head (k : Nat) (r : Range) (used : List Range) :
    free ⟨k, r :: used⟩ r.start = some ⟨k, used⟩ := by
  simp [free]

/-- The last chunk of small objects in a list, or the one before it. -/
def lastSmall (small : Option Nat) (l : List Chunk) : Option Nat :=
  l.foldl (fun small q => if q.currentPtr = none then some q.addr else small) small

variable {l front pre post bigs : List Chunk} {c : Chunk} {small : Option Nat} {x k p : Nat}
  {rs used : List Range} {first : Option (List Chunk)}

theorem lastSmall_bigs (h : ∀ q ∈ bigs, ∃ p, q.currentPtr = some p) :
    lastSmall small (l ++ bigs) = lastSmall small l := by
  unfold lastSmall
  rw [List.foldl_append]
  generalize l.foldl _ small = small'
  induction bigs with
  | nil => rfl
  | cons q bigs ih =>
    obtain ⟨p, hp⟩ := h q List.mem_cons_self
    rw [List.foldl_cons, if_neg (by simp [hp])]
    exact ih fun q' hq' => h q' (List.mem_cons_of_mem q hq')

theorem lastSmall_snoc (hc : c.currentPtr = none) : lastSmall small (l ++ [c]) = some c.addr := by
  unfold lastSmall
  rw [List.foldl_append]
  exact if_pos hc

theorem findChunk_append (hpre : ∀ q ∈ pre, ¬ q.Claims x) (hc : c.Claims x) :
    findChunk x small (pre ++ c :: post) = some (lastSmall small pre, c, post) := by
  induction pre generalizing small with
  | nil =>
    rw [List.nil_append, findChunk]
    unfold Chunk.Claims at hc
    split <;> rename_i hptr <;> rw [hptr] at hc <;> exact if_pos hc
  | cons q pre ih =>
    have hq := hpre q List.mem_cons_self
    have hrest : ∀ small, findChunk x small (pre ++ c :: post) =
        some (lastSmall small pre, c, post) := fun small =>
      ih fun q' hq' => hpre q' (List.mem_cons_of_mem q hq')
    rw [List.cons_append, findChunk]
    unfold Chunk.Claims at hq
    unfold lastSmall
    rw [List.foldl_cons]
    split <;> rename_i hptr <;> rw [hptr] at hq
    · rw [if_neg hq, if_pos hptr]
      exact hrest (some q.addr)
    · rw [if_neg hq, if_neg (by simp [hptr])]
      exact hrest small

/-- All chunks up to the last one of small objects are freed. -/
theorem freeSmaller_front (hhouses : List.Forall₂ Houses (l ++ [c]) rs)
    (hp : ∀ q ∈ l ++ [c], q.addr ≠ p) (hc : ∀ q ∈ l, q.addr ≠ c.addr) :
    freeSmaller p x (some c.addr) none ⟨k, rs ++ used⟩ (l ++ c :: post) =
      freeSmaller p x none none ⟨k, used⟩ post := by
  induction l generalizing rs with
  | nil =>
    cases hhouses with
    | @cons _ r _ _ hr hnil =>
      cases hnil
      rw [List.nil_append, freeSmaller, if_neg (hp c (by simp)), if_pos rfl,
        if_pos Option.isSome_some, ← hr.start, List.singleton_append, free_head, Option.bind_some]
  | cons q l ih =>
    rw [List.cons_append] at hhouses
    cases hhouses with
    | @cons _ r _ rs hr hrest =>
      have hne := hc q List.mem_cons_self
      rw [List.cons_append, List.cons_append, freeSmaller, if_neg (hp q (by simp)),
        if_neg fun h => hne (Option.some.inj h).symm, if_pos Option.isSome_some, ← hr.start,
        free_head, Option.bind_some]
      exact ih hrest (fun q' hq' => hp q' (by simp_all)) fun q' hq' => hc q' (by simp [hq'])

/-- The big chunks are freed that were made at a higher current pointer. -/
theorem freeSmaller_bigs (hhouses : List.Forall₂ Houses bigs rs) (hp : ∀ q ∈ bigs, q.addr ≠ p)
    (hbigs : ∀ q ∈ bigs, ∃ n, q.currentPtr = some n ∧ x < n) :
    freeSmaller p x none none ⟨k, rs ++ used⟩ (bigs ++ post) =
      freeSmaller p x none none ⟨k, used⟩ post := by
  induction hhouses with
  | nil => rfl
  | @cons q r bigs rs hr _ ih =>
    obtain ⟨n, hn, hlt⟩ := hbigs q List.mem_cons_self
    rw [List.cons_append, List.cons_append, freeSmaller, if_neg (hp q List.mem_cons_self),
      if_neg (by simp), if_pos (by simp [hn, hlt]), ← hr.start, free_head, Option.bind_some]
    exact ih (fun q' hq' => hp q' (List.mem_cons_of_mem q hq'))
      fun q' hq' => hbigs q' (List.mem_cons_of_mem q hq')

/-- The others stay. -/
theorem freeSmaller_rest {heap : Heap} (hpre : ∀ q ∈ pre, q.addr ≠ c.addr)
    (hbigs : ∀ q ∈ pre, ∃ n, q.currentPtr = some n ∧ n ≤ x) :
    freeSmaller c.addr x none first heap (pre ++ c :: post) =
      some (first.getD (pre ++ c :: post), heap) := by
  induction pre generalizing first with
  | nil => rw [List.nil_append, freeSmaller, if_pos rfl]
  | cons q pre ih =>
    obtain ⟨n, hn, hle⟩ := hbigs q List.mem_cons_self
    rw [List.cons_append, freeSmaller, if_neg (hpre q List.mem_cons_self), if_neg (by simp),
      if_neg (by simp [hn, hle]), ih (fun q' hq' => hpre q' (List.mem_cons_of_mem q hq'))
      fun q' hq' => hbigs q' (List.mem_cons_of_mem q hq')]
    cases first <;> rfl

theorem freeBefore_append (hhouses : List.Forall₂ Houses l rs)
    (hl : ∀ q ∈ l, some q.addr ≠ post.head?.map Chunk.addr) :
    freeBefore post ⟨k, rs ++ used⟩ (l ++ post) = some ⟨k, used⟩ := by
  induction hhouses with
  | nil =>
    unfold freeBefore
    exact if_pos rfl
  | @cons q r l rs hr _ ih =>
    rw [List.cons_append, List.cons_append, freeBefore.eq_def]
    dsimp only
    rw [List.head?_cons, Option.map_some, if_neg (hl q List.mem_cons_self), ← hr.start, free_head,
      Option.bind_some]
    exact ih fun q' hq' => hl q' (List.mem_cons_of_mem q hq')

/-- A block of the current chunk, with everything newer. -/
theorem freeBlock_small {n : Nat} {heap : Heap} (h : Layout base s₁) (hpos : 0 < n)
    (hroom : n ≤ s₁.o.currentSpace) (hlayout : Layout base s)
    (hgrows : Grows ⟨s₁.o.bump n, s₁.used⟩ s newer) (hused : heap.used = s.used) :
    objallocFreeBlock s.o heap s₁.o.currentPtr = some (s₁.o, ⟨heap.calls, s₁.used⟩) := by
  obtain ⟨front, bigs, rs, rs', hchunks, hused', hhouses, hhouses', haddr, hbigs, hfront⟩ :=
    hgrows.chunks
  obtain ⟨all, -, hall, hapart, -⟩ := hlayout.housed
  obtain ⟨bigs₁, c, rest, hchunks₁, hc, hbigs₁, hlow, hhigh⟩ := h.current
  obtain ⟨calls, used⟩ := heap
  cases hused
  have hsplit : s.o.chunks = (front ++ (bigs ++ bigs₁)) ++ c :: rest := by
    rw [hchunks]
    simp [Objalloc.bump, hchunks₁]
  have hclaims : c.Claims s₁.o.currentPtr := by
    unfold Chunk.Claims
    rw [hc]
    unfold chunkHeaderSize at hlow
    exact ⟨by omega, by omega⟩
  rw [hsplit] at hall
  have hnone := only_chunk hall hapart (fun _ _ => Houses.has) hclaims
  have haddrs := only_chunk (P := fun q => q.addr = c.addr) hall hapart
    (fun _ _ => Houses.has_addr) rfl
  have hbig : ∀ q ∈ bigs ++ bigs₁, ∃ p, q.currentPtr = some p := by
    intro q hq
    rcases List.mem_append.mp hq with hq | hq
    · exact (hbigs q hq).imp fun _ => And.left
    · exact (hbigs₁ q hq).imp fun _ => And.left
  -- what is newer than the block is freed
  have hfree : freeSmaller c.addr s₁.o.currentPtr (lastSmall none front) none ⟨calls, s.used⟩
      s.o.chunks = freeSmaller c.addr s₁.o.currentPtr none none ⟨calls, s₁.used⟩
        (bigs₁ ++ c :: rest) := by
    have hnewer : ∀ q ∈ bigs, ∃ p, q.currentPtr = some p ∧ s₁.o.currentPtr < p := by
      intro q hq
      obtain ⟨p, hp, hle⟩ := hbigs q hq
      exact ⟨p, hp, (Nat.lt_add_of_pos_right hpos).trans_le hle⟩
    have hbigsFree : freeSmaller c.addr s₁.o.currentPtr none none ⟨calls, rs' ++ s₁.used⟩
        (bigs ++ (bigs₁ ++ c :: rest)) = freeSmaller c.addr s₁.o.currentPtr none none
          ⟨calls, s₁.used⟩ (bigs₁ ++ c :: rest) :=
      freeSmaller_bigs hhouses' (fun q hq => haddrs q (by simp [hq])) hnewer
    rw [hused', hsplit, List.append_assoc, List.append_assoc]
    rcases hfront with ⟨rfl, -⟩ | ⟨l, f, rfl, hf⟩
    · cases hhouses
      exact hbigsFree
    · rw [lastSmall_snoc hf, List.append_assoc, List.singleton_append]
      rw [List.append_assoc, List.append_assoc, List.singleton_append] at hall
      rw [freeSmaller_front hhouses (fun q hq => haddrs q (List.mem_append_left _ hq))
        (only_chunk (P := fun q => q.addr = f.addr) hall hapart
          (fun _ _ => Houses.has_addr) rfl)]
      exact hbigsFree
  have hrest : freeSmaller c.addr s₁.o.currentPtr none none ⟨calls, s₁.used⟩ (bigs₁ ++ c :: rest) =
      some (bigs₁ ++ c :: rest, ⟨calls, s₁.used⟩) :=
    freeSmaller_rest (fun q hq => haddrs q (by simp [hq])) hbigs₁
  unfold objallocFreeBlock
  rw [hsplit, findChunk_append hnone hclaims, ← hsplit, lastSmall_bigs hbig]
  dsimp only
  rw [hc]
  dsimp only
  rw [hfree, hrest, Option.map_some, ← hchunks₁, haddr]
  have hspace : c.addr + chunkSize - s₁.o.currentPtr = s₁.o.currentSpace := by omega
  rw [hspace]
  rfl

/-- A block with a chunk of its own, with everything newer. -/
theorem freeBlock_big {n a : Nat} {heap : Heap} (h : Layout base s₁) (hpos : 0 < n)
    (hlayout : Layout base s)
    (hgrows : Grows ⟨{ s₁.o with chunks := ⟨a, some s₁.o.currentPtr⟩ :: s₁.o.chunks },
      ⟨a, chunkHeaderSize + n⟩ :: s₁.used⟩ s newer) (hused : heap.used = s.used) :
    objallocFreeBlock s.o heap (a + chunkHeaderSize) = some (s₁.o, ⟨heap.calls, s₁.used⟩) := by
  obtain ⟨front, bigs, rs, rs', hchunks, hused', hhouses, hhouses', haddr, -, -⟩ := hgrows.chunks
  obtain ⟨all, -, hall, hapart, -⟩ := hlayout.housed
  obtain ⟨bigs₁, c, rest, hchunks₁, hc, hbigs₁, hlow, hhigh⟩ := h.current
  obtain ⟨calls, used⟩ := heap
  cases hused
  have hsplit : s.o.chunks = (front ++ bigs) ++ ⟨a, some s₁.o.currentPtr⟩ :: s₁.o.chunks := by
    rw [hchunks, List.append_assoc]
  have hclaims : Chunk.Claims ⟨a, some s₁.o.currentPtr⟩ (a + chunkHeaderSize) := rfl
  rw [hsplit] at hall
  have hnone := only_chunk hall hapart (fun _ _ => Houses.has) hclaims
  have hhouse : List.Forall₂ Houses (front ++ bigs ++ [⟨a, some s₁.o.currentPtr⟩])
      (rs ++ rs' ++ [⟨a, chunkHeaderSize + n⟩]) := by
    refine List.rel_append (List.rel_append hhouses hhouses') (.cons ⟨rfl, ?_, ?_⟩ .nil)
    · exact Nat.lt_add_of_pos_right hpos
    · rintro ⟨⟩
  obtain ⟨next, tail, hnext⟩ : ∃ next tail, s₁.o.chunks = next :: tail := by
    rw [hchunks₁]
    cases bigs₁ with
    | nil => exact ⟨c, rest, rfl⟩
    | cons q bigs₁ => exact ⟨q, _, rfl⟩
  have hfree : freeBefore s₁.o.chunks ⟨calls, s.used⟩ s.o.chunks = some ⟨calls, s₁.used⟩ := by
    have hl : ∀ q ∈ front ++ bigs ++ [⟨a, some s₁.o.currentPtr⟩],
        some q.addr ≠ s₁.o.chunks.head?.map Chunk.addr := by
      rw [hnext, ← List.singleton_append, ← List.append_assoc] at hall
      have haddrs := only_chunk (P := fun q => q.addr = next.addr) hall hapart
        (fun _ _ => Houses.has_addr) rfl
      intro q hq heq
      rw [hnext] at heq
      exact haddrs q hq (Option.some.inj heq)
    have hbefore : freeBefore s₁.o.chunks
        ⟨calls, rs ++ rs' ++ [⟨a, chunkHeaderSize + n⟩] ++ s₁.used⟩ _ = some ⟨calls, s₁.used⟩ :=
      freeBefore_append hhouse hl
    rw [hused', hsplit]
    simpa using hbefore
  have hfind : s₁.o.chunks.find? (·.currentPtr.isNone) = some c := by
    have hsome : bigs₁.find? (·.currentPtr.isNone) = none := by
      refine List.find?_eq_none.mpr fun q hq => ?_
      obtain ⟨p, hp, -⟩ := hbigs₁ q hq
      simp [hp]
    rw [hchunks₁, List.find?_append, hsome, Option.none_or]
    exact List.find?_cons_of_pos (by simp [hc])
  have hspace : c.addr + chunkSize - s₁.o.currentPtr = s₁.o.currentSpace := by omega
  unfold objallocFreeBlock
  rw [hsplit, findChunk_append hnone hclaims, ← hsplit]
  dsimp only
  rw [hfree, Option.bind_some, hfind, Option.map_some, haddr, hspace]

/-- To free a block undoes all calls from the one on that took it. -/
theorem freeBlock_undoes (heap : Heap) (h : Layout base s₁) (htake : Takes s₁ b s₂)
    (hgrows : Grows s₂ s newer) (hused : heap.used = s.used) :
    objallocFreeBlock s.o heap b.start = some (s₁.o, ⟨heap.calls, s₁.used⟩) := by
  have hlayout := (h.take htake).grows hgrows
  cases htake with
  | small hpos _ hroom => exact freeBlock_small h hpos hroom hlayout hgrows hused
  | big hpos => exact freeBlock_big h hpos hlayout hgrows hused

/-! The blocks. -/

/-- Parts of the memory that are apart from each other and from the parts that are kept, in regions
that are in use. -/
structure Parts (ps kept used : List Range) : Prop where
  apart : ps.Pairwise Apart
  clear : ∀ b ∈ ps, ∀ x ∈ kept, Apart b x
  inUse : ∀ x ∈ ps ++ kept, ∃ u ∈ used, Within x u
  aligned : ∀ b ∈ ps, 8 ∣ b.start

variable {ps kept : List Range} {r₁ r₂ : Range} {n a : Nat}

theorem Parts.perm {ps' : List Range} (h : Parts ps kept used) (hperm : ps.Perm ps') :
    Parts ps' kept used where
  apart := (hperm.pairwise_iff fun h => h.symm).mp h.apart
  clear b hb := h.clear b (hperm.mem_iff.mpr hb)
  inUse x hx := h.inUse x ((hperm.append_right kept).mem_iff.mpr hx)
  aligned b hb := h.aligned b (hperm.mem_iff.mpr hb)

theorem Parts.tail (h : Parts (b :: ps) kept used) : Parts ps kept used where
  apart := (List.pairwise_cons.mp h.apart).2
  clear x hx := h.clear x (List.mem_cons_of_mem b hx)
  inUse x hx := h.inUse x (List.mem_cons_of_mem b hx)
  aligned x hx := h.aligned x (List.mem_cons_of_mem b hx)

/-- A part is split in two. -/
theorem Parts.split (h : Parts (b :: ps) kept used) (h₁ : Within r₁ b) (h₂ : Within r₂ b)
    (hapart : Apart r₁ r₂) (h8₁ : 8 ∣ r₁.start) (h8₂ : 8 ∣ r₂.start) :
    Parts (r₁ :: r₂ :: ps) kept used := by
  obtain ⟨hb, hps⟩ := List.pairwise_cons.mp h.apart
  constructor
  · refine .cons (fun x hx => ?_) (.cons (fun x hx z hz => hb x hx z (h₂ z hz)) hps)
    rcases List.mem_cons.mp hx with rfl | hx
    · exact hapart
    · exact fun z hz => hb x hx z (h₁ z hz)
  · intro x hx y hy
    have hclear := h.clear b List.mem_cons_self y hy
    rcases List.mem_cons.mp hx with rfl | hx
    · exact fun z hz => hclear z (h₁ z hz)
    rcases List.mem_cons.mp hx with rfl | hx
    · exact fun z hz => hclear z (h₂ z hz)
    · exact h.clear x (List.mem_cons_of_mem b hx) y hy
  · intro x hx
    obtain ⟨u, hu, hbu⟩ := h.inUse b List.mem_cons_self
    rcases List.mem_cons.mp hx with rfl | hx
    · exact ⟨u, hu, fun z hz => hbu z (h₁ z hz)⟩
    rcases List.mem_cons.mp hx with rfl | hx
    · exact ⟨u, hu, fun z hz => hbu z (h₂ z hz)⟩
    · exact h.inUse x (List.mem_cons_of_mem b hx)
  · intro x hx
    rcases List.mem_cons.mp hx with rfl | hx
    · exact h8₁
    rcases List.mem_cons.mp hx with rfl | hx
    · exact h8₂
    · exact h.aligned x (List.mem_cons_of_mem b hx)

/-- New memory, with a header and a part behind it. -/
theorem Parts.fresh (h : Parts ps kept used) (hfresh : Fresh used (chunkHeaderSize + n) a) :
    Parts (⟨a + chunkHeaderSize, n⟩ :: ps) (⟨a, chunkHeaderSize⟩ :: kept)
      (⟨a, chunkHeaderSize + n⟩ :: used) := by
  have hheader : Within ⟨a, chunkHeaderSize⟩ ⟨a, chunkHeaderSize + n⟩ :=
    within_of_le le_rfl (Nat.add_le_add_left (Nat.le_add_right _ _) a)
  have hpart : Within ⟨a + chunkHeaderSize, n⟩ ⟨a, chunkHeaderSize + n⟩ :=
    within_of_le (Nat.le_add_right _ _) (Nat.add_assoc ..).le
  -- what was there before is apart from the new memory
  have hold : ∀ x ∈ ps ++ kept, Apart ⟨a, chunkHeaderSize + n⟩ x := by
    intro x hx z hz hxz
    obtain ⟨u, hu, hxu⟩ := h.inUse x hx
    exact hfresh.apart u hu z hz (hxu z hxz)
  constructor
  · exact .cons (fun x hx z hz => hold x (List.mem_append_left _ hx) z (hpart z hz)) h.apart
  · intro x hx y hy
    rcases List.mem_cons.mp hx with rfl | hx <;> rcases List.mem_cons.mp hy with rfl | hy
    · exact Apart.symm (Before.apart (b := ⟨a + chunkHeaderSize, n⟩) le_rfl)
    · exact fun z hz => hold y (List.mem_append_right _ hy) z (hpart z hz)
    · exact Apart.symm fun z hz => hold x (List.mem_append_left _ hx) z (hheader z hz)
    · exact h.clear x hx y hy
  · intro x hx
    rw [List.cons_append, List.mem_cons, List.mem_append, List.mem_cons] at hx
    rcases hx with rfl | hx | rfl | hx
    · exact ⟨_, List.mem_cons_self, hpart⟩
    · obtain ⟨u, hu, hxu⟩ := h.inUse x (List.mem_append_left _ hx)
      exact ⟨u, List.mem_cons_of_mem _ hu, hxu⟩
    · exact ⟨_, List.mem_cons_self, hheader⟩
    · obtain ⟨u, hu, hxu⟩ := h.inUse x (List.mem_append_right _ hx)
      exact ⟨u, List.mem_cons_of_mem _ hu, hxu⟩
  · intro x hx
    rcases List.mem_cons.mp hx with rfl | hx
    · exact (Nat.dvd_add hfresh.aligned ⟨2, rfl⟩)
    · exact h.aligned x hx

/-- What is left of the current chunk, and the blocks. -/
def Store.parts (s : Store) (bs : List Range) : List Range :=
  ⟨s.o.currentPtr, s.o.currentSpace⟩ :: bs

/-- The memory that no block may be in: the headers of the chunks, and what others use. -/
def Store.occupied (s : Store) (base : List Range) : List Range :=
  s.o.chunks.map (fun c => ⟨c.addr, chunkHeaderSize⟩) ++ base

theorem Grows.parts (hgrows : Grows s₀ s bs) (h : Parts (s₀.parts []) (s₀.occupied base) s₀.used) :
    Parts (s.parts bs) (s.occupied base) s.used := by
  induction hgrows with
  | refl => exact h
  | @take s s' b bs _ htake ih =>
    cases htake with
    | @small n hpos h8 hroom =>
      have hptr : 8 ∣ s.o.currentPtr := ih.aligned _ List.mem_cons_self
      have hblock : Within ⟨s.o.currentPtr, n⟩ ⟨s.o.currentPtr, s.o.currentSpace⟩ :=
        within_of_le le_rfl (Nat.add_le_add_left hroom _)
      have hrest : Within ⟨s.o.currentPtr + n, s.o.currentSpace - n⟩
          ⟨s.o.currentPtr, s.o.currentSpace⟩ := by
        refine within_of_le (Nat.le_add_right _ _) ?_
        unfold Range.stop
        dsimp only
        omega
      refine (ih.split hrest hblock ?_ (Nat.dvd_add hptr h8) hptr)
      exact Apart.symm (Before.apart (a := ⟨s.o.currentPtr, n⟩) le_rfl)
    | big hpos h8 hfresh => exact (ih.fresh hfresh).perm (List.Perm.swap ..)
  | @extend s s' bs _ hextend ih =>
    cases hextend with
    | @chunk a hfresh => exact ih.tail.fresh (n := chunkSize - chunkHeaderSize) hfresh

/-! Runs. -/

/-- A block that a caller has, with the number of bytes that it asked for. -/
structure Block where
  addr : Nat
  wanted : Nat
  deriving DecidableEq, Repr

/-- The bytes that are the caller's; a block of none has its address for itself. -/
def Block.range (b : Block) : Range := ⟨b.addr, max 1 b.wanted⟩

/-- The memory of a BFD, and the blocks that its callers have, the newest first. -/
structure State where
  o : Objalloc
  heap : Heap
  blocks : List Block

/-- What callers do. -/
inductive Call
  | alloc (size : UInt64)
  | alloc2 (nmemb size : UInt64)
  /-- `bfd_release`, of the `i`th of their blocks. -/
  | release (i : Nat)

def State.receive (s : State) (wanted : Nat) (r : Option Nat × Objalloc × Heap) : State :=
  ⟨r.2.1, r.2.2, (r.1.map fun addr => ⟨addr, wanted⟩).toList ++ s.blocks⟩

def step (malloc : Malloc) (s : State) : Call → Option State
  | .alloc size => some (s.receive size.toNat (bfdAlloc malloc s.o s.heap size))
  | .alloc2 nmemb size =>
    some (s.receive (nmemb.toNat * size.toNat) (bfdAlloc2 malloc s.o s.heap nmemb size))
  | .release i =>
    match s.blocks[i]? with
    | none => some s
    | some b =>
      (objallocFreeBlock s.o s.heap b.addr).map fun r => ⟨r.1, r.2, s.blocks.drop (i + 1)⟩

def run (malloc : Malloc) (s : State) (calls : List Call) : Option State :=
  calls.foldlM (step malloc) s

variable {t : State} {old : List Block} {call : Call} {calls : List Call}

def State.store (t : State) : Store := ⟨t.o, t.heap.used⟩

/-- The callers know a block by its address, and the allocator has made it long enough. -/
def Knows (b : Block) (r : Range) : Prop := r = ⟨b.addr, blockLen b.wanted⟩

/-- The state has grown from an allocator at which the callers had the `old` blocks. -/
def Tracks (s₀ : Store) (old : List Block) (t : State) : Prop :=
  ∃ bs newer, t.blocks = newer ++ old ∧ Grows s₀ t.store bs ∧ List.Forall₂ Knows newer bs

theorem Tracks.receive {wanted : Nat} (h : Tracks s₀ old t)
    (halloc : Allocates t.store (blockLen wanted) r ⟨o', heap'.used⟩) :
    Tracks s₀ old (t.receive wanted (r, o', heap')) := by
  obtain ⟨bs, newer, hblocks, hgrows, hknows⟩ := h
  unfold State.receive
  generalize hs : Store.mk o' heap'.used = s' at halloc
  have hcons : ∀ x, (⟨x, wanted⟩ : Block) :: t.blocks = (⟨x, wanted⟩ :: newer) ++ old := fun x =>
    congrArg _ hblocks
  cases halloc with
  | fails =>
    refine ⟨bs, newer, hblocks, ?_, hknows⟩
    unfold State.store
    rw [hs]
    exact hgrows
  | @takes x _ htake =>
    refine ⟨_ :: bs, ⟨x, wanted⟩ :: newer, hcons x, ?_, .cons rfl hknows⟩
    unfold State.store
    rw [hs]
    exact hgrows.take htake
  | @takesNew x s₁ _ _ _ hextend htake =>
    refine ⟨_ :: bs, ⟨x, wanted⟩ :: newer, hcons x, ?_, .cons rfl hknows⟩
    unfold State.store
    rw [hs]
    exact (hgrows.extend hextend).take htake

/-- A block that is released, and the older ones. -/
theorem forall₂_split {α β : Type*} {R : α → β → Prop} {l : List α} {l' : List β} {i : Nat} {x : α}
    (h : List.Forall₂ R l l') (hx : l[i]? = some x) :
    ∃ pre y post, l' = pre ++ y :: post ∧ R x y ∧ List.Forall₂ R (l.drop (i + 1)) post := by
  induction h generalizing i with
  | nil => simp at hx
  | @cons a b l l' hab hrest ih =>
    cases i with
    | zero =>
      cases hx
      exact ⟨[], b, l', rfl, hab, hrest⟩
    | succ i =>
      obtain ⟨pre, y, post, rfl, hxy, hpost⟩ := ih hx
      exact ⟨b :: pre, y, post, rfl, hxy, hpost⟩

theorem step_tracks (malloc : Malloc) (hl : Layout base s₀) (h : Tracks s₀ old t)
    (hold : ∀ i, call = .release i → i + old.length < t.blocks.length ∨ t.blocks.length ≤ i) :
    ∃ t', step malloc t call = some t' ∧ Tracks s₀ old t' := by
  cases call with
  | alloc size => exact ⟨_, rfl, h.receive (bfdAlloc_spec rfl)⟩
  | alloc2 nmemb size => exact ⟨_, rfl, h.receive (bfdAlloc2_spec rfl)⟩
  | release i =>
    cases hb : t.blocks[i]? with
    | none => exact ⟨t, by simp only [step, hb], h⟩
    | some x =>
      obtain ⟨bs, newer, hblocks, hgrows, hknows⟩ := h
      obtain ⟨hlt, -⟩ := List.getElem?_eq_some_iff.mp hb
      have hi : i < newer.length := by
        rcases hold i rfl with h | h
        · rw [hblocks, List.length_append] at h
          omega
        · omega
      rw [hblocks, List.getElem?_append_left hi] at hb
      obtain ⟨pre, y, post, hbs, hxy, hpost⟩ := forall₂_split hknows hb
      obtain ⟨s₁, s₂, hgrows₁, htake, hgrows₂⟩ := hgrows.split hbs
      have hfree := freeBlock_undoes t.heap (hl.grows hgrows₁) htake hgrows₂ rfl
      cases hxy
      refine ⟨⟨s₁.o, ⟨t.heap.calls, s₁.used⟩, t.blocks.drop (i + 1)⟩, ?_, post,
        newer.drop (i + 1), ?_, hgrows₁, hpost⟩
      · have hb' : t.blocks[i]? = some x := by
          rw [hblocks, List.getElem?_append_left hi, hb]
        simp only [step, hb']
        rw [show t.o = t.store.o from rfl, hfree]
        rfl
      · dsimp only
        rw [hblocks, List.drop_append_of_le_length hi]

theorem run_tracks (malloc : Malloc) (hl : Layout base s₀) (h : Tracks s₀ [] t)
    (calls : List Call) :
    ∃ t', run malloc t calls = some t' ∧ Tracks s₀ [] t' := by
  induction calls generalizing t with
  | nil => exact ⟨t, rfl, h⟩
  | cons call calls ih =>
    obtain ⟨t₁, hstep, h₁⟩ := step_tracks malloc hl h fun i _ => Nat.lt_or_ge i _
    obtain ⟨t', hrun, h'⟩ := ih h₁
    refine ⟨t', ?_, h'⟩
    rw [run, List.foldlM_cons, hstep]
    exact hrun

theorem objallocCreate_spec (hcreate : objallocCreate malloc heap = some (some o, heap')) :
    ∃ a, heap'.used = ⟨a, chunkSize⟩ :: ⟨o.addr, sizeofObjalloc⟩ :: heap.used ∧
      Fresh (⟨o.addr, sizeofObjalloc⟩ :: heap.used) chunkSize a ∧
      o = ⟨o.addr, a + chunkHeaderSize, chunkSize - chunkHeaderSize, [⟨a, none⟩]⟩ := by
  unfold objallocCreate at hcreate
  rcases malloc.call_cases heap sizeofObjalloc with hcall | ⟨ret, hcall, -⟩
  · rw [hcall] at hcreate
    cases hcreate
  · rw [hcall] at hcreate
    dsimp only at hcreate
    rcases malloc.call_cases ⟨heap.calls + 1, ⟨ret, sizeofObjalloc⟩ :: heap.used⟩ chunkSize with
      hcall' | ⟨a, hcall', hfresh⟩
    · rw [hcall'] at hcreate
      obtain ⟨heap₂, -, heq⟩ := Option.map_eq_some_iff.mp hcreate
      cases heq
    · rw [hcall'] at hcreate
      cases hcreate
      exact ⟨a, rfl, hfresh, rfl⟩

/-- The allocator after its creation. -/
theorem created_layout {a : Nat} (hfresh : Fresh base chunkSize a) (addr : Nat) :
    Layout base ⟨⟨addr, a + chunkHeaderSize, chunkSize - chunkHeaderSize, [⟨a, none⟩]⟩,
      ⟨a, chunkSize⟩ :: base⟩ where
  housed := by
    refine ⟨[⟨a, chunkSize⟩], rfl, .cons ⟨rfl, ?_, fun _ => rfl⟩ .nil, List.pairwise_singleton _ _,
      fun r hr => ?_⟩
    · simp only [chunkSize, chunkHeaderSize]
      omega
    · rw [List.mem_singleton.mp hr]
      exact hfresh.apart
  current := by
    refine ⟨[], ⟨a, none⟩, [], rfl, rfl, List.forall_mem_nil _, Nat.le_refl _, ?_⟩
    simp only [chunkSize, chunkHeaderSize]

theorem created_parts {a : Nat} (hfresh : Fresh base chunkSize a) :
    Parts [⟨a + chunkHeaderSize, chunkSize - chunkHeaderSize⟩] (⟨a, chunkHeaderSize⟩ :: base)
      (⟨a, chunkSize⟩ :: base) := by
  have hnone : Parts [] base base :=
    ⟨.nil, List.forall_mem_nil _, fun x hx => ⟨x, hx, fun _ => id⟩, List.forall_mem_nil _⟩
  exact hnone.fresh (n := chunkSize - chunkHeaderSize) hfresh

theorem free_chunks {chunks : List Chunk} (h : List.Forall₂ Houses chunks rs) :
    chunks.foldlM (fun heap c => free heap c.addr) ⟨k, rs ++ used⟩ = some ⟨k, used⟩ := by
  induction h with
  | nil => rfl
  | @cons c r chunks rs hr _ ih =>
    rw [List.foldlM_cons, ← hr.start, List.cons_append, free_head]
    exact ih

/-- What holds of the memory of a BFD, `others` being the memory in use beside it. -/
structure Sound (others : List Range) (t : State) : Prop where
  apart : t.blocks.Pairwise fun x y => Apart x.range y.range
  aligned : ∀ x ∈ t.blocks, 8 ∣ x.addr
  inUse : ∀ x ∈ t.blocks, ∃ r ∈ t.heap.used, Within x.range r
  headers : ∀ x ∈ t.blocks, ∀ c ∈ t.o.chunks, Apart x.range ⟨c.addr, chunkHeaderSize⟩
  beside : ∀ x ∈ t.blocks, ∀ r ∈ ⟨t.o.addr, sizeofObjalloc⟩ :: others, Apart x.range r
  freed : objallocFree t.o t.heap = some ⟨t.heap.calls, others⟩

theorem Knows.within {x : Block} {y : Range} (h : Knows x y) : Within x.range y := by
  cases h
  refine within_of_le le_rfl (Nat.add_le_add_left ?_ _)
  exact max_le (blockLen_pos _) (le_blockLen _)

theorem Tracks.sound {others : List Range} (hl : Layout base s₀)
    (hp : Parts (s₀.parts []) (s₀.occupied base) s₀.used)
    (hbase : base = ⟨s₀.o.addr, sizeofObjalloc⟩ :: others) (h : Tracks s₀ [] t) :
    Sound others t := by
  obtain ⟨bs, newer, hblocks, hgrows, hknows⟩ := h
  rw [List.append_nil] at hblocks
  subst hblocks
  have hparts := (hgrows.parts hp).tail
  have haddr : t.o.addr = s₀.o.addr := by
    obtain ⟨_, _, _, _, -, -, -, -, haddr, -⟩ := hgrows.chunks
    exact haddr
  have hmem : ∀ x ∈ t.blocks, ∃ y ∈ bs, Knows x y := fun x => Cells.mem_of_forall₂ hknows
  -- a block is clear of all that its range is clear of
  have hclear : ∀ x ∈ t.blocks, ∀ r ∈ t.store.occupied base, Apart x.range r := by
    intro x hx r hr z hz
    obtain ⟨y, hy, hxy⟩ := hmem x hx
    exact hparts.clear y hy r hr z (hxy.within z hz)
  constructor
  · refine Cells.pairwise_of_forall₂ hknows hparts.apart fun x x' y y' h h' hyy z hz hz' => ?_
    exact hyy z (h.within z hz) (h'.within z hz')
  · intro x hx
    obtain ⟨y, hy, hxy⟩ := hmem x hx
    have h8 := hparts.aligned y hy
    rw [hxy] at h8
    exact h8
  · intro x hx
    obtain ⟨y, hy, hxy⟩ := hmem x hx
    obtain ⟨u, hu, hyu⟩ := hparts.inUse y (List.mem_append_left _ hy)
    exact ⟨u, hu, fun z hz => hyu z (hxy.within z hz)⟩
  · exact fun x hx c hc => hclear x hx _ (List.mem_append_left _ (List.mem_map_of_mem hc))
  · intro x hx r hr
    rw [haddr, ← hbase] at hr
    exact hclear x hx r (List.mem_append_right _ hr)
  · obtain ⟨rs, hused, hhouses, -, -⟩ := (hl.grows hgrows).housed
    obtain ⟨o, ⟨calls, used⟩, blocks⟩ := t
    dsimp only [State.store] at hused hhouses haddr
    subst hused
    unfold objallocFree
    rw [free_chunks hhouses, hbase, haddr]
    exact free_head calls ⟨s₀.o.addr, sizeofObjalloc⟩ others

/-- Whatever callers ask for and release, in any order: no request fails for another reason than
that `malloc` does, no chunk is freed twice or used when it is free, and the blocks that have not
been released are apart from each other and from all other memory, in memory that is in use; in the
end all memory goes back. -/
theorem run_sound (hcreate : objallocCreate malloc heap = some (some o, heap'))
    (calls : List Call) :
    ∃ t, run malloc ⟨o, heap', []⟩ calls = some t ∧ Sound heap.used t := by
  obtain ⟨a, hused, hfresh, ho⟩ := objallocCreate_spec hcreate
  have hstore : (State.mk o heap' []).store =
      ⟨⟨o.addr, a + chunkHeaderSize, chunkSize - chunkHeaderSize, [⟨a, none⟩]⟩,
        ⟨a, chunkSize⟩ :: ⟨o.addr, sizeofObjalloc⟩ :: heap.used⟩ := by
    rw [State.store, hused, ← ho]
  have hl := created_layout hfresh o.addr
  rw [← hstore] at hl
  have hp : Parts ((State.mk o heap' []).store.parts [])
      ((State.mk o heap' []).store.occupied (⟨o.addr, sizeofObjalloc⟩ :: heap.used))
      (State.mk o heap' []).store.used := by
    rw [hstore]
    exact created_parts hfresh
  obtain ⟨t, hrun, h⟩ := run_tracks malloc hl ⟨[], [], rfl, .refl, .nil⟩ calls
  exact ⟨t, hrun, h.sound hl hp rfl⟩

/-! Mark and release. -/

/-- Calls that release nothing but what is newer than the `old` blocks. -/
theorem run_keeps {u : State} (hl : Layout base s₀) (h : Tracks s₀ old t)
    (hrun : run malloc t calls = some u)
    (hkeep : ∀ c ∈ calls.inits, ∀ v ∈ run malloc t c, old.length ≤ v.blocks.length) :
    Tracks s₀ old u := by
  induction calls generalizing t with
  | nil =>
    cases hrun
    exact h
  | cons call calls ih =>
    rw [run, List.foldlM_cons] at hrun
    cases hstep : step malloc t call with
    | none =>
      rw [hstep] at hrun
      cases hrun
    | some t₁ =>
      rw [hstep] at hrun
      have hlater : ∀ c ∈ calls.inits, ∀ v ∈ run malloc t₁ c, old.length ≤ v.blocks.length := by
        intro c hc v hv
        refine hkeep (call :: c) (List.mem_inits _ _ |>.mpr ?_) v ?_
        · exact (List.prefix_cons_inj call).mpr ((List.mem_inits _ _).mp hc)
        · rw [run, List.foldlM_cons, hstep]
          exact hv
      have hold : ∀ i, call = .release i →
          i + old.length < t.blocks.length ∨ t.blocks.length ≤ i := by
        rintro i rfl
        by_cases hi : t.blocks.length ≤ i
        · exact .inr hi
        · left
          have hlen := hlater [] (by simp) t₁ rfl
          rw [Nat.not_le] at hi
          simp only [step, List.getElem?_eq_getElem hi] at hstep
          obtain ⟨r, -, rfl⟩ := Option.map_eq_some_iff.mp hstep
          rw [List.length_drop] at hlen
          omega
      obtain ⟨t₂, hstep₂, h₁⟩ := step_tracks malloc hl h hold
      rw [hstep] at hstep₂
      cases hstep₂
      exact ih h₁ hrun hlater

/-- A block that fits the current chunk, or is a big one, is a mark: to release it gives the
allocator back as it was before, whatever has been asked for in between. -/
theorem release_restores {u : State} {calls₀ : List Call}
    (hcreate : objallocCreate malloc heap = some (some o, heap'))
    (hrun : run malloc ⟨o, heap', []⟩ calls₀ = some t)
    (hroom : blockLen size.toNat ≤ t.o.currentSpace ∨ bigRequest ≤ blockLen size.toNat)
    (hlater : run malloc t (.alloc size :: calls) = some u)
    (hkeep : ∀ c ∈ calls.inits, ∀ v ∈ run malloc t (.alloc size :: c),
      t.blocks.length < v.blocks.length) :
    step malloc u (.release (u.blocks.length - t.blocks.length - 1)) =
      some ⟨t.o, ⟨u.heap.calls, t.heap.used⟩, t.blocks⟩ := by
  obtain ⟨a, hused, hfresh, ho⟩ := objallocCreate_spec hcreate
  have hl := created_layout hfresh o.addr
  obtain ⟨t', hrun', htracks⟩ := run_tracks malloc (t := ⟨o, heap', []⟩) hl
    ⟨[], [], rfl, by rw [State.store, hused, ← ho]; exact .refl, .nil⟩ calls₀
  rw [hrun] at hrun'
  cases hrun'
  obtain ⟨bs, -, -, hgrows, -⟩ := htracks
  have hlt : Layout _ t.store := hl.grows hgrows
  -- the call that makes the mark
  obtain ⟨r, o₁, heap₁, hcall⟩ : ∃ r o₁ heap₁, bfdAlloc malloc t.o t.heap size = (r, o₁, heap₁) :=
    ⟨_, _, _, rfl⟩
  have hspec := bfdAlloc_spec hcall
  have hstep : step malloc t (.alloc size) = some (t.receive size.toNat (r, o₁, heap₁)) := by
    rw [step, hcall]
  have hfirst := hkeep [] (by simp) _ (by rw [run, List.foldlM_cons, hstep]; rfl)
  rw [run, List.foldlM_cons, hstep] at hlater
  generalize hs₁ : Store.mk o₁ heap₁.used = s₁ at hspec
  cases hspec with
  | fails => exact absurd hfirst (lt_irrefl _)
  | takesNew hfull hsmall =>
    have hfull : t.o.currentSpace < blockLen size.toNat := hfull
    omega
  | @takes x _ htake =>
    have hmark : Tracks s₁ (⟨x, size.toNat⟩ :: t.blocks)
        (t.receive size.toNat (some x, o₁, heap₁)) :=
      ⟨[], [], rfl, by rw [← hs₁]; exact .refl, .nil⟩
    obtain ⟨bs', newer, hblocks, hgrows', -⟩ := run_keeps (hlt.take htake) hmark hlater
      fun c hc v hv => hkeep c hc v (by rw [run, List.foldlM_cons, hstep]; exact hv)
    have hindex : u.blocks.length - t.blocks.length - 1 = newer.length := by
      rw [hblocks, List.length_append, List.length_cons]
      omega
    have hget : u.blocks[newer.length]? = some ⟨x, size.toNat⟩ := by
      rw [hblocks, List.getElem?_append_right le_rfl, Nat.sub_self, List.getElem?_cons_zero]
    have hfree := freeBlock_undoes u.heap hlt htake hgrows' rfl
    rw [hindex]
    simp only [step, hget]
    rw [show u.o = u.store.o from rfl, hfree, Option.map_some, hblocks, ← List.singleton_append,
      ← List.append_assoc, List.drop_left' (by simp)]
    rfl

theorem le_foldr_stop {m : Nat} {r : Range} (hr : r ∈ used) :
    r.stop ≤ used.foldr (fun r m => max r.stop m) m := by
  induction used with
  | nil => cases hr
  | cons x used ih =>
    rw [List.foldr_cons]
    rcases List.mem_cons.mp hr with rfl | hr
    · exact le_max_left _ _
    · exact (ih hr).trans (le_max_right _ _)

/-- A `malloc` that gives out the first memory behind all that is in use. -/
def pile : Malloc where
  get _ used size :=
    let a := used.foldr (fun r m => max r.stop m) 0 / 8 * 8 + 8
    if a + size ≤ 2 ^ 64 then some a else none
  fresh _ used size a h := by
    obtain ⟨hroom, rfl⟩ : _ ∧ _ = a :=
      (Option.ite_none_right_eq_some.mp h).imp_right Option.some.inj
    refine ⟨Nat.succ_pos _, ?_, hroom, fun r hr => Apart.symm (Before.apart ?_)⟩
    · exact Nat.dvd_add (Nat.dvd_mul_left 8 _) (Nat.dvd_refl 8)
    · have hle := le_foldr_stop (m := 0) hr
      unfold Before
      dsimp only
      omega

/-- The start, and a run from it. -/
def pileStart : State := ⟨⟨8, 56, 4048, [⟨40, none⟩]⟩, ⟨2, [⟨40, 4064⟩, ⟨8, 24⟩]⟩, []⟩

def pileRun (calls : List Call) : State := (run pile pileStart calls).getD pileStart

theorem pile_create : objallocCreate pile ⟨0, []⟩ = some (some pileStart.o, pileStart.heap) := rfl

theorem pile_run (calls : List Call) : run pile pileStart calls = some (pileRun calls) := by
  obtain ⟨a, hused, hfresh, ho⟩ := objallocCreate_spec pile_create
  obtain ⟨t, ht, -⟩ := run_tracks pile (t := pileStart)
    (created_layout hfresh pileStart.o.addr)
    ⟨[], [], rfl, by rw [State.store, hused, ← ho]; exact .refl, .nil⟩ calls
  rw [pileRun, ht]
  rfl

theorem pile_run_append (calls later : List Call) :
    run pile (pileRun calls) later = some (pileRun (calls ++ later)) := by
  rw [← pile_run, run, run, List.foldlM_append]
  have h := pile_run calls
  rw [run] at h
  rw [h]
  rfl

theorem run_sound_pile : ∃ t, run pile pileStart [.alloc 4000, .alloc 600, .alloc2 10 5,
    .release 1, .alloc 0] = some t ∧ Sound [] t :=
  run_sound pile_create _

/-- A mark in a chunk of its own, behind a block that fills the first chunk, and a new chunk of
small objects after it. -/
theorem release_restores_pile :
    step pile (pileRun [.alloc 4000, .alloc 600, .alloc 30, .alloc 3000, .release 0, .alloc2 10 5])
      (.release 2) = some ⟨(pileRun [.alloc 4000]).o,
        ⟨5, (pileRun [.alloc 4000]).heap.used⟩, [⟨56, 4000⟩]⟩ :=
  @release_restores _ _ _ _ 600 _ [.alloc 30, .alloc 3000, .release 0, .alloc2 10 5] _ _
    pile_create (pile_run [.alloc 4000]) (.inr (by decide +kernel)) (pile_run_append _ _)
    (by decide +kernel)

end FusionBinutils.Libiberty.Chunks
