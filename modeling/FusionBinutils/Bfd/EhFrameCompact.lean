import FusionBinutils.Bfd.EhFrameLayout

/-! The entries that are kept in an .eh_frame section move without a loss and leave no gaps. -/
namespace FusionBinutils.Bfd.EhFrame

open Buffer Compaction Offsets

/-- The next multiple of an alignment. -/
def roundUp (offset alignment : Nat) : Nat := (offset + alignment - 1) / alignment * alignment

/-- `size_of_output_cie_fde` of a kept entry, in numbers without a bound. -/
def Entry.grown (e : Entry) : Nat :=
  if e.size = 4 then 4 else e.size + e.extraStringBytes + e.extraDataBytes

/-- Where entries that begin at `offset` end. -/
def extent (ptrSize : Nat) : Nat → List Entry → Nat
  | offset, [] => offset
  | offset, e :: l =>
    if e.removed then extent ptrSize offset l
    else extent ptrSize (roundUp offset (e.alignment ptrSize) + e.grown) l

/-- The sizes an address has, according to `elf_backend_eh_frame_address_size`. -/
def AddressSize (ptrSize : Nat) : Prop := ptrSize = 2 ∨ ptrSize = 4 ∨ ptrSize = 8

/-- The output has a size that its 32-bit offsets reach. -/
def Fits (ptrSize : Nat) (l : List Entry) : Prop := roundUp (extent ptrSize 0 l) 4 < 2 ^ 32

instance (ptrSize : Nat) (l : List Entry) : Decidable (Fits ptrSize l) :=
  inferInstanceAs (Decidable (_ < _))

/-- The entries lie one behind the other. -/
def Apart (l : List Entry) : Prop := l.Pairwise fun x y => x.offset + x.size ≤ y.offset

instance (l : List Entry) : Decidable (Apart l) := inferInstanceAs (Decidable (List.Pairwise _ _))

/-- Entries as they are found in a section: each one is apart from the others, and a terminator,
which is a zero word, comes last. -/
structure Sectioned (m : Contents) (l : List Entry) : Prop where
  apart : Apart l
  sized : ∀ e ∈ l, 4 ≤ e.size
  last : l.Pairwise fun x _ => x.size ≠ 4
  zero : ∀ e ∈ l, e.size = 4 → ∀ k < 4, (m (e.offset + k)).byte = 0

/-- The entries follow each other from 0 on, as long as their length fields say. -/
def Tiles (bigEndian : Bool) (m : Contents) (l : List Placed) (size : Nat) : Prop :=
  starts (fun x => lengthAt bigEndian m x.newOffset + 4) 0 l = l.map (·.newOffset) ∧
  (l.map fun x => lengthAt bigEndian m x.newOffset + 4).sum = size

instance (bigEndian : Bool) (m : Contents) (l : List Placed) (size : Nat) :
    Decidable (Tiles bigEndian m l size) := inferInstanceAs (Decidable (_ ∧ _))

/-- Every kept entry has its bytes at its new offset, and with their new lengths the kept entries
fill the section. -/
def Compacts (bigEndian : Bool) (ptrSize : Nat) (m : Contents) (l : List Entry) : Prop :=
  (∀ x ∈ placed ptrSize l, x.kept → HeldAt m (movePasses (placed ptrSize l) m) x.move x.newOffset) ∧
  Tiles bigEndian
    (putLengths bigEndian (secSize ptrSize l) (placed ptrSize l) (movePasses (placed ptrSize l) m))
    ((placed ptrSize l).filter Placed.kept) (secSize ptrSize l)

variable {ptrSize offset alignment size stop n p : Nat} {bigEndian : Bool} {m : Contents}
  {e : Entry} {l : List Entry} {x : Placed} {l' ks rest : List Placed}

/-! Offsets in 32 bits. -/

theorem le_roundUp (h : 0 < alignment) : offset ≤ roundUp offset alignment := by
  have hdiv := Nat.div_add_mod (offset + alignment - 1) alignment
  have hmod := Nat.mod_lt (offset + alignment - 1) h
  rw [roundUp, Nat.mul_comm]
  omega

theorem four_dvd_roundUp (ha : alignment = 4 ∨ alignment = 8) : 4 ∣ roundUp offset alignment := by
  rcases ha with rfl | rfl
  · exact Nat.dvd_mul_left 4 _
  · exact Nat.dvd_trans (by decide) (Nat.dvd_mul_left 8 _)

theorem alignment_cases (hp : AddressSize ptrSize) :
    e.alignment ptrSize = 4 ∨ e.alignment ptrSize = 8 := by
  unfold Entry.alignment
  split
  · exact .inl rfl
  · split
    · split
      · exact .inr rfl
      · exact .inl rfl
    · unfold peWidth
      rcases hp with rfl | rfl | rfl <;> (repeat' split) <;> simp

theorem alignOffset_eq (ha : alignment = 4 ∨ alignment = 8) (h : roundUp offset alignment < 2 ^ 32) :
    alignOffset offset alignment = roundUp offset alignment := by
  rcases ha with rfl | rfl
  · have hand := BitField.toNat_and_field (x := BitVec.ofNat 32 (offset + 4 - 1)) (m := -4#32) 2 30
      (by decide)
    rw [roundUp] at *
    rw [alignOffset, hand, BitVec.toNat_ofNat]
    omega
  · have hand := BitField.toNat_and_field (x := BitVec.ofNat 32 (offset + 8 - 1)) (m := -8#32) 3 29
      (by decide)
    rw [roundUp] at *
    rw [alignOffset, hand, BitVec.toNat_ofNat]
    omega

theorem le_extent (hp : AddressSize ptrSize) : offset ≤ extent ptrSize offset l := by
  induction l generalizing offset with
  | nil => exact le_rfl
  | cons e l ih =>
    rw [extent]
    split
    · exact ih
    · have halign := alignment_cases (e := e) hp
      have hround : offset ≤ roundUp offset (e.alignment ptrSize) := le_roundUp (by omega)
      have hrest : roundUp offset (e.alignment ptrSize) + e.grown ≤ extent ptrSize _ l := ih
      omega

theorem le_grown : e.size ≤ e.grown := by
  unfold Entry.grown
  split <;> omega

theorem outputSize_eq (hk : e.removed = false) (h : e.grown < 2 ^ 32) : e.outputSize = e.grown := by
  unfold Entry.outputSize
  rw [hk, if_neg Bool.false_ne_true]
  unfold Entry.grown at *
  split
  · rfl
  · next hsize =>
    rw [if_neg hsize] at h
    exact Nat.mod_eq_of_lt h

/-! The kept entries. -/

/-- They follow each other from `offset` on and end at `stop`. -/
def Chained : Nat → List Placed → Nat → Prop
  | offset, [], stop => offset = stop
  | offset, x :: rest, stop =>
    offset ≤ x.newOffset ∧ 4 ∣ x.newOffset ∧ Chained (x.newOffset + x.entry.grown) rest stop

theorem Chained.le (h : Chained offset ks stop) : offset ≤ stop := by
  induction ks generalizing offset with
  | nil => exact h.le
  | cons x rest ih =>
    have := ih h.2.2
    have := h.1
    omega

theorem Chained.mem (h : Chained offset ks stop) (hx : x ∈ ks) :
    offset ≤ x.newOffset ∧ x.newOffset + x.entry.grown ≤ stop := by
  induction ks generalizing offset with
  | nil => cases hx
  | cons y rest ih =>
    rcases List.mem_cons.mp hx with rfl | hx
    · exact ⟨h.1, h.2.2.le⟩
    · have := ih h.2.2 hx
      have := h.1
      omega

theorem Chained.pairwise (h : Chained offset ks stop) :
    ks.Pairwise fun x y => x.newOffset + x.entry.size ≤ y.newOffset := by
  induction ks generalizing offset with
  | nil => exact .nil
  | cons x rest ih =>
    refine List.pairwise_cons.mpr ⟨?_, ih h.2.2⟩
    intro y hy
    have := (h.2.2.mem hy).1
    have := le_grown (e := x.entry)
    omega

theorem map_entry_placeFrom : (placeFrom ptrSize offset l).1.map (·.entry) = l := by
  induction l generalizing offset with
  | nil => rfl
  | cons e l ih =>
    rw [placeFrom]
    split
    · exact congrArg (e :: ·) ih
    · exact congrArg (e :: ·) ih

theorem map_entry_placed : (placed ptrSize l).map (·.entry) = l := map_entry_placeFrom

/-- Up to 2 ^ 32 the offsets are what they would be without a bound. -/
theorem placeFrom_chained (hp : AddressSize ptrSize) (h : extent ptrSize offset l < 2 ^ 32) :
    Chained offset ((placeFrom ptrSize offset l).1.filter Placed.kept) (extent ptrSize offset l) ∧
      (placeFrom ptrSize offset l).2 = extent ptrSize offset l := by
  induction l generalizing offset with
  | nil => exact ⟨rfl, rfl⟩
  | cons e l ih =>
    rw [placeFrom, extent] at *
    split
    · next hr =>
      rw [if_pos hr] at h
      rw [List.filter_cons_of_neg (by simp [Placed.kept, hr])]
      exact ih h
    · next hr =>
      rw [if_neg hr] at h
      rw [Bool.not_eq_true] at hr
      have halign := alignment_cases (e := e) hp
      have hround : offset ≤ roundUp offset (e.alignment ptrSize) := le_roundUp (by omega)
      have hend : roundUp offset (e.alignment ptrSize) + e.grown ≤ extent ptrSize _ l :=
        le_extent hp
      have hnew : alignOffset offset (e.alignment ptrSize) = roundUp offset (e.alignment ptrSize) :=
        alignOffset_eq halign (by omega)
      have hnext : (alignOffset offset (e.alignment ptrSize) + e.outputSize) % 2 ^ 32 =
          roundUp offset (e.alignment ptrSize) + e.grown := by
        rw [hnew, outputSize_eq hr (by omega), Nat.mod_eq_of_lt (by omega)]
      dsimp only
      rw [hnext, List.filter_cons_of_pos (by simp [Placed.kept, hr])]
      obtain ⟨hchain, hstop⟩ := ih h
      refine ⟨⟨?_, ?_, ?_⟩, hstop⟩
      · exact hround.trans hnew.ge
      · show 4 ∣ alignOffset offset (e.alignment ptrSize)
        rw [hnew]
        exact four_dvd_roundUp halign
      · show Chained (alignOffset offset (e.alignment ptrSize) + e.grown) _ _
        rw [hnew]
        exact hchain

/-- The first one is at 0. -/
theorem head_placeFrom (hp : AddressSize ptrSize) :
    ∀ x ∈ ((placeFrom ptrSize 0 l).1.filter Placed.kept).head?, x.newOffset = 0 := by
  induction l with
  | nil => intro x hx; cases hx
  | cons e l ih =>
    rw [placeFrom]
    split
    · next hr =>
      rw [List.filter_cons_of_neg (by simp [Placed.kept, hr])]
      exact ih
    · next hr =>
      rw [List.filter_cons_of_pos (by simp [Placed.kept, hr])]
      intro x hx
      cases hx
      rcases alignment_cases (e := e) hp with ha | ha
      · simp only [ha]
        decide
      · simp only [ha]
        decide

/-! The passes. -/

theorem foldr_moveUp (l : List Placed) :
    l.foldr Placed.moveUp m = upward m ((l.filter Placed.kept).map Placed.move) := by
  induction l with
  | nil => rfl
  | cons x l ih =>
    rw [List.foldr_cons, ih, Placed.moveUp, List.filter_cons]
    cases x.kept
    · rfl
    · simp only [upward, if_true, List.map_cons, List.foldr_cons, Move.up, true_and]
      rfl

theorem foldl_moveDown (l : List Placed) :
    l.foldl (fun m x => x.moveDown m) m = downward m ((l.filter Placed.kept).map Placed.move) := by
  induction l generalizing m with
  | nil => rfl
  | cons x l ih =>
    rw [List.foldl_cons, ih, Placed.moveDown, List.filter_cons]
    cases x.kept
    · rfl
    · simp only [downward, if_true, List.map_cons, List.foldl_cons, Move.down, true_and]
      rfl

/-- Neither where they are nor where they go do the kept entries overlap. -/
theorem ordered_kept (hl : Apart l) (hc : Chained 0 ((placed ptrSize l).filter Placed.kept) stop) :
    Ordered (((placed ptrSize l).filter Placed.kept).map Placed.move) := by
  have hold : (placed ptrSize l).Pairwise fun x y =>
      x.entry.offset + x.entry.size ≤ y.entry.offset := by
    have hentries : Apart ((placed ptrSize l).map (·.entry)) := by rwa [map_entry_placed]
    exact List.pairwise_map.mp hentries
  apply List.pairwise_map.mpr
  exact (hold.filter _).and hc.pairwise

theorem heldAt_movePasses (hl : Apart l)
    (hc : Chained 0 ((placed ptrSize l).filter Placed.kept) stop) (hx : x ∈ placed ptrSize l)
    (hk : x.kept) : HeldAt m (movePasses (placed ptrSize l) m) x.move x.newOffset := by
  rw [movePasses, foldr_moveUp, foldl_moveDown]
  apply heldAt_passes (ordered_kept hl hc) x.move
  exact List.mem_map_of_mem (List.mem_filter.mpr ⟨hx, hk⟩)

/-! The length fields. -/

theorem nextOffset_filter : nextOffset size (l'.filter Placed.kept) = nextOffset size l' := by
  rw [nextOffset, List.find?_filter, nextOffset]
  simp only [and_self, Bool.decide_eq_true]

theorem putLengths_filter :
    putLengths bigEndian size (l'.filter Placed.kept) m = putLengths bigEndian size l' m := by
  induction l' generalizing m with
  | nil => rfl
  | cons x l' ih =>
    rw [List.filter_cons]
    split
    · rw [putLengths, putLengths, nextOffset_filter, ih, ih]
    · next hk =>
      rw [ih, putLengths, if_neg (by simp [hk])]

theorem distance_eq {next : Nat} (h : offset ≤ next) (hn : next < 2 ^ 32) :
    distance next offset = next - offset := by
  rw [distance]
  omega

/-- An entry is written from its new offset on. -/
theorem putLength_below (hp : p < x.newOffset) : x.putLength bigEndian n m p = m p := by
  have hstore : store m x.newOffset ((Endian.put bigEndian 4 (distance n 4)).map fresh) p = m p :=
    store_outside (.inl hp)
  unfold Placed.putLength
  split
  · rw [memset_outside (.inl (by omega)), hstore]
  · exact hstore

/-- It is written no further than it is long. -/
theorem putLength_above (hs : x.entry.size ≤ n) (hn : 4 ≤ n) (hn' : n < 2 ^ 32)
    (hp : x.newOffset + n ≤ p) : x.putLength bigEndian n m p = m p := by
  have hstore : store m x.newOffset ((Endian.put bigEndian 4 (distance n 4)).map fresh) p = m p := by
    apply store_outside
    rw [List.length_map, Endian.length_put]
    omega
  unfold Placed.putLength
  split
  · rw [memset_outside ?_, hstore]
    rw [distance_eq hs hn']
    omega
  · exact hstore

theorem putLengths_below (hp : ∀ x ∈ ks, p < x.newOffset) :
    putLengths bigEndian size ks m p = m p := by
  induction ks generalizing m with
  | nil => rfl
  | cons x rest ih =>
    have hrest : ∀ y ∈ rest, p < y.newOffset := fun y hy => hp y (List.mem_cons_of_mem x hy)
    rw [putLengths]
    split
    · rw [ih hrest, putLength_below (hp x List.mem_cons_self)]
    · exact ih hrest

theorem lengthAt_congr {m m' : Contents} (h : ∀ k < 4, m (p + k) = m' (p + k)) :
    lengthAt bigEndian m p = lengthAt bigEndian m' p := by
  rw [lengthAt, load_congr h, lengthAt]

theorem lengthAt_putLength (hs : 4 ≤ x.entry.size) (hn : 4 ≤ n) (hn' : n < 2 ^ 32) :
    lengthAt bigEndian (x.putLength bigEndian n m) x.newOffset + 4 = n := by
  have hstored : lengthAt bigEndian (x.putLength bigEndian n m) x.newOffset = distance n 4 := by
    have hcongr : ∀ k < 4, x.putLength bigEndian n m (x.newOffset + k) =
        store m x.newOffset ((Endian.put bigEndian 4 (distance n 4)).map fresh)
          (x.newOffset + k) := by
      intro k hk
      unfold Placed.putLength
      split
      · exact memset_outside (.inl (by omega))
      · rfl
    have hload := load_store (m := m) (p := x.newOffset)
      (l := (Endian.put bigEndian 4 (distance n 4)).map fresh)
    rw [List.length_map, Endian.length_put] at hload
    have hbytes : ((Endian.put bigEndian 4 (distance n 4)).map fresh).map Cell.byte =
        Endian.put bigEndian 4 (distance n 4) := by
      rw [List.map_map]
      exact List.map_id _
    rw [lengthAt_congr hcongr, lengthAt, hload, hbytes, Endian.get_put]
    exact Nat.mod_eq_of_lt (Nat.mod_lt _ (by decide))
  rw [hstored, distance]
  omega

/-- The offset behind an entry is where the next one is or where the section ends. -/
theorem Chained.le_nextOffset (h : Chained offset ks stop) (hk : ∀ x ∈ ks, x.kept)
    (hs : stop ≤ size) : offset ≤ nextOffset size ks ∧ nextOffset size ks ≤ size := by
  cases ks with
  | nil =>
    cases h
    exact ⟨hs, le_rfl⟩
  | cons x rest =>
    rw [nextOffset, List.find?_cons_of_pos (hk x List.mem_cons_self)]
    have := h.2.2.le
    exact ⟨h.1, show x.newOffset ≤ size by omega⟩

theorem Chained.nextOffset_le (h : Chained offset ks stop) (hk : ∀ x ∈ ks, x.kept) (hx : x ∈ ks) :
    nextOffset size ks ≤ x.newOffset := by
  cases ks with
  | nil => cases hx
  | cons y rest =>
    rw [nextOffset, List.find?_cons_of_pos (hk y List.mem_cons_self)]
    show y.newOffset ≤ x.newOffset
    rcases List.mem_cons.mp hx with rfl | hx
    · exact le_rfl
    · have := (h.2.2.mem hx).1
      omega

/-- Every entry is as long as the way to the next one. -/
theorem tiles_from (h : Chained offset ks stop) (hk : ∀ x ∈ ks, x.kept)
    (hsize : size = roundUp stop 4) (hlt : size < 2 ^ 32) (hsized : ∀ x ∈ ks, 4 ≤ x.entry.size)
    (hlast : ks.Pairwise fun x _ => x.entry.size ≠ 4)
    (hzero : ∀ x ∈ ks, x.entry.size = 4 → lengthAt bigEndian m x.newOffset = 0) :
    let length := fun x : Placed =>
      lengthAt bigEndian (putLengths bigEndian size ks m) x.newOffset + 4
    starts length (nextOffset size ks) ks = ks.map (·.newOffset) ∧
      nextOffset size ks + (ks.map length).sum = size := by
  induction ks generalizing offset m with
  | nil => exact ⟨rfl, rfl⟩
  | cons x rest ih =>
    intro length
    obtain ⟨-, hdvd, hrest⟩ := h
    obtain ⟨hx, hlast⟩ := List.pairwise_cons.mp hlast
    have hkr : ∀ y ∈ rest, y.kept := fun y hy => hk y (List.mem_cons_of_mem x hy)
    have hkx := hk x List.mem_cons_self
    have hsx := hsized x List.mem_cons_self
    have hgrown := le_grown (e := x.entry)
    have hnext := hrest.le_nextOffset hkr (hsize ▸ le_roundUp (by decide) : stop ≤ size)
    -- what is written behind the entry leaves it alone
    have hbelow : ∀ k < 4, ∀ y ∈ rest, x.newOffset + k < y.newOffset := by
      intro k hk y hy
      have := (hrest.mem hy).1
      omega
    have hfirst : nextOffset size (x :: rest) = x.newOffset := by
      rw [nextOffset, List.find?_cons_of_pos hkx]
      rfl
    have hself : lengthAt bigEndian (putLengths bigEndian size (x :: rest) m) x.newOffset + 4 =
        nextOffset size rest - x.newOffset := by
      rw [putLengths]
      split
      · rw [lengthAt_congr fun k hk => putLengths_below (hbelow k hk),
          distance_eq (by omega) (by omega)]
        exact lengthAt_putLength hsx (by omega) (by omega)
      · next hsz =>
        have hfour : x.entry.size = 4 := by
          by_contra hne
          exact hsz ⟨hkx, hne⟩
        have hnil : rest = [] := by
          cases rest with
          | nil => rfl
          | cons y rest => exact absurd hfour (hx y List.mem_cons_self)
        subst hnil
        have hstop : x.newOffset + x.entry.grown = stop := hrest
        rw [Entry.grown, if_pos hfour] at hstop
        have hend : nextOffset size [] = size := rfl
        rw [putLengths, hzero x List.mem_cons_self hfour, hend, hsize, roundUp]
        omega
    have htail : putLengths bigEndian size (x :: rest) m = putLengths bigEndian size rest
        (if x.entry.size ≠ 4 then
          x.putLength bigEndian (distance (nextOffset size rest) x.newOffset) m else m) := by
      rw [putLengths]
      simp only [hkx, true_and]
      split <;> rfl
    have hind := ih (m := if x.entry.size ≠ 4 then
        x.putLength bigEndian (distance (nextOffset size rest) x.newOffset) m else m) hrest hkr
      (fun y hy => hsized y (List.mem_cons_of_mem x hy)) hlast ?_
    · rw [← htail] at hind
      have hlen : length x = nextOffset size rest - x.newOffset := hself
      rw [hfirst, starts, List.map_cons, List.map_cons, List.sum_cons, hlen,
        Nat.add_sub_cancel' (by omega)]
      have hsum : nextOffset size rest + (rest.map length).sum = size := hind.2
      exact ⟨congrArg _ hind.1, by omega⟩
    · intro y hy hfour
      rw [← hzero y (List.mem_cons_of_mem x hy) hfour]
      apply lengthAt_congr
      intro k hk
      split
      · have hnew : nextOffset size rest ≤ y.newOffset := hrest.nextOffset_le hkr hy
        rw [distance_eq (by omega) (by omega)]
        exact putLength_above (by omega) (by omega) (by omega) (by omega)
      · rfl

theorem lengthAt_eq_zero (h : ∀ k < 4, (m (p + k)).byte = 0) : lengthAt bigEndian m p = 0 := by
  have hbytes : (load m p 4).map Cell.byte = List.replicate 4 0 := by
    apply List.eq_replicate_of_mem ?_ |>.trans
    · rw [List.length_map, length_load]
    · intro b hb
      obtain ⟨c, hc, rfl⟩ := List.mem_map.mp hb
      obtain ⟨k, hk, rfl⟩ := List.mem_map.mp hc
      exact h k (List.mem_range.mp hk)
  rw [lengthAt, hbytes]
  cases bigEndian <;> rfl

/-! The section as a whole. -/

/-- What holds of the entries in their order holds of them with their places. -/
theorem pairwise_placed {r : Entry → Entry → Prop} (h : l.Pairwise r) :
    (placed ptrSize l).Pairwise fun x y => r x.entry y.entry := by
  refine List.pairwise_map.mp ?_
  rwa [map_entry_placed]

theorem entry_mem (hx : x ∈ placed ptrSize l) : x.entry ∈ l := by
  have hmem := List.mem_map_of_mem (f := Placed.entry) hx
  rwa [map_entry_placed] at hmem

/-- An output of that size has its entries where they would be without a bound. -/
theorem placed_chained (hp : AddressSize ptrSize) (hfits : Fits ptrSize l) :
    Chained 0 ((placed ptrSize l).filter Placed.kept) (extent ptrSize 0 l) ∧
      secSize ptrSize l = roundUp (extent ptrSize 0 l) 4 := by
  have hround : extent ptrSize 0 l ≤ roundUp (extent ptrSize 0 l) 4 := le_roundUp (by decide)
  obtain ⟨hchain, hstop⟩ := placeFrom_chained hp (Nat.lt_of_le_of_lt hround hfits)
  refine ⟨hchain, ?_⟩
  rw [secSize, hstop]
  exact alignOffset_eq (.inl rfl) hfits

theorem nextOffset_placed (hp : AddressSize ptrSize) (hfits : Fits ptrSize l) :
    nextOffset (secSize ptrSize l) ((placed ptrSize l).filter Placed.kept) = 0 := by
  obtain ⟨hchain, hsize⟩ := placed_chained hp hfits
  have hhead := head_placeFrom (l := l) hp
  have hkept : ∀ x ∈ (placed ptrSize l).filter Placed.kept, x.kept :=
    fun x hx => (List.mem_filter.mp hx).2
  rw [← placed] at hhead
  cases hks : (placed ptrSize l).filter Placed.kept with
  | nil =>
    rw [hks] at hchain
    have hnone : nextOffset (secSize ptrSize l) [] = secSize ptrSize l := rfl
    have hstop : 0 = extent ptrSize 0 l := hchain
    rw [hnone, hsize, ← hstop]
    rfl
  | cons x rest =>
    rw [hks] at hhead hkept
    rw [nextOffset, List.find?_cons_of_pos (hkept x List.mem_cons_self)]
    exact hhead x rfl

/-- Compaction loses nothing where the output is within the reach of 32 bits. -/
theorem compacts_of_fits (hp : AddressSize ptrSize) (h : Sectioned m l) (hfits : Fits ptrSize l) :
    Compacts bigEndian ptrSize m l := by
  obtain ⟨hchain, hsize⟩ := placed_chained hp hfits
  have hheld : ∀ x ∈ placed ptrSize l, x.kept →
      HeldAt m (movePasses (placed ptrSize l) m) x.move x.newOffset :=
    fun x hx hk => heldAt_movePasses h.apart hchain hx hk
  refine ⟨hheld, ?_⟩
  have hzero : ∀ x ∈ (placed ptrSize l).filter Placed.kept, x.entry.size = 4 →
      lengthAt bigEndian (movePasses (placed ptrSize l) m) x.newOffset = 0 := by
    intro x hx hfour
    obtain ⟨hmem, hk⟩ := List.mem_filter.mp hx
    apply lengthAt_eq_zero
    intro k hlt
    rw [hheld x hmem hk k (show k < x.entry.size by omega)]
    exact h.zero x.entry (entry_mem hmem) hfour k hlt
  obtain ⟨hstarts, hsum⟩ := tiles_from hchain
    (fun x hx => (List.mem_filter.mp hx).2) hsize (hsize ▸ hfits)
    (fun x hx => h.sized _ (entry_mem (List.mem_filter.mp hx).1))
    ((pairwise_placed h.last).filter _) hzero
  rw [nextOffset_placed hp hfits, putLengths_filter] at hstarts hsum
  rw [Nat.zero_add] at hsum
  exact ⟨hstarts, hsum⟩

/-! Entries of a small section, and of one that is as large as it can be. -/

/-- A CIE without an encoding for its FDEs, to which one is added. -/
def growingCie (offset size : Nat) : Entry :=
  { offset := offset
    size := size
    relocIndex := 0
    fdeEncoding := peAbsptr
    lsdaEncoding := peOmit
    lsdaOffset := 0
    removed := false
    addAugmentationSize := true
    makeRelative := true
    setLoc := none
    kind := .cie ⟨0, 1, 0, false, false, false, false, true⟩
      ⟨size - 4, 1, [], 1, 0x7c, 8, 0, 0, peOmit, peOmit, peAbsptr, 0, false, [], []⟩ }

def growingFde (offset size : Nat) (removed : Bool) : Entry :=
  { offset := offset
    size := size
    relocIndex := 0
    fdeEncoding := peAbsptr
    lsdaEncoding := peOmit
    lsdaOffset := 0
    removed := removed
    addAugmentationSize := true
    makeRelative := true
    setLoc := none
    kind := .fde (some 0) }

/-- A section of zeros. -/
def zeros : Contents := fun p => ⟨0, some p⟩

/-- The first FDE moves up, the second one down. -/
theorem compacts_small : Compacts false 8 zeros
    [growingCie 0 16, growingFde 16 24 false, growingFde 40 64 true, growingFde 104 28 false,
      terminator 132 0] := by
  refine compacts_of_fits (.inr (.inr rfl)) ⟨?_, ?_, ?_, ?_⟩ (by decide)
  · decide
  · decide
  · decide
  · intro e _ _ k _
    rfl

/-- Neither a terminator in the middle nor an output of 2 ^ 32 bytes is provided for. -/
theorem not_every_list_compacts :
    (Apart [terminator 0 0, growingFde 8 24 false] ∧
      ¬ Compacts false 8 zeros [terminator 0 0, growingFde 8 24 false]) ∧
    (Apart [growingCie 0 20, growingFde 24 (2 ^ 32 - 28) false] ∧
      ¬ Compacts false 8 zeros [growingCie 0 20, growingFde 24 (2 ^ 32 - 28) false]) := by
  refine ⟨⟨by decide, ?_⟩, by decide, ?_⟩
  · intro h
    exact absurd h.2 (by decide +kernel)
  · intro h
    exact absurd h.2 (by decide +kernel)

end FusionBinutils.Bfd.EhFrame
