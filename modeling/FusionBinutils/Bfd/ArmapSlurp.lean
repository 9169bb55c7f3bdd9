import FusionBinutils.Bfd.Armap

/-! The three readers of an archive index as far as memory goes: where the entries and the names of
an accepted index lie (bfd/archive.c). -/
namespace FusionBinutils.Bfd.Armap

/-- A `carsym`, whose name is an offset into the block with the loaded map, or a null pointer. The
offset may be one behind the block. -/
structure Symdef where
  name : Option Nat
  fileOffset : Nat
  deriving DecidableEq, Repr

/-- What a reader leaves: the bytes allocated for `symdefs`, the block with the loaded map, the
`symdef_count` entries and `first_file_filepos`. -/
structure Slurped where
  tableBytes : Nat
  map : List BfdByte
  symdefs : List Symdef
  firstFileFilepos : Nat
  deriving DecidableEq, Repr

/-- `sizeof (carsym)` -/
def carsymSize : Nat := 16

/-- `BSD_SYMDEF_SIZE` -/
def bsdSymdefSize : Nat := 8

/-- "Pad to an even boundary if you have to." -/
def evenPos (pos : Nat) : Nat := pos + pos % 2

/-- The loop that fills the entries from the bytes at `rbase`, with the offset of `stringbase`. -/
def fillSymdefs (big : Bool) (stringbase : Nat) : Nat → List BfdByte → List Symdef
  | 0, _ => []
  | n + 1, rbase =>
    ⟨some (Endian.get big (rbase.take 4) + stringbase), Endian.get big ((rbase.drop 4).take 4)⟩ ::
      fillSymdefs big stringbase n (rbase.drop bsdSymdefSize)

/-! The BSD index. -/

/-- A loaded map, and where the file is read on. -/
structure RawMap where
  raw : List BfdByte
  stop : Nat
  deriving DecidableEq, Repr

/-- `H_GET_32 (abfd, raw_armap) / BSD_SYMDEF_SIZE` -/
def bsdCount (big : Bool) (raw : List BfdByte) : Nat := Endian.get big (raw.take 4) / bsdSymdefSize

/-- The checks of `do_slurp_bsd_armap`. -/
def loadBsd (big : Bool) (file : List BfdByte) (pos : Nat) : Option RawMap := do
  let mapdata ← readArHdr file pos
  let raw := (file.drop mapdata.pos).take mapdata.parsedSize
  if mapdata.parsedSize < 4 then none
  else if raw.length ≠ mapdata.parsedSize then none
  -- "Probably we're using the wrong byte ordering."
  else if mapdata.parsedSize - 4 < bsdCount big raw * bsdSymdefSize then none
  else some ⟨raw, mapdata.pos + mapdata.parsedSize⟩

def slurpBsd (big : Bool) (m : RawMap) : Slurped :=
  let count := bsdCount big m.raw
  let stringbase := 4 + count * bsdSymdefSize + 4
  ⟨count * carsymSize, m.raw, fillSymdefs big stringbase count (m.raw.drop 4), evenPos m.stop⟩

/-- `do_slurp_bsd_armap` at a position of a file of either byte order. -/
def doSlurpBsdArmap (big : Bool) (file : List BfdByte) (pos : Nat) : Option Slurped :=
  (loadBsd big file pos).map (slurpBsd big)

/-! The COFF index. -/

/-- The numbers of the index, in the byte order found, and its strings. -/
structure CoffMap where
  swapBig : Bool
  nsymz : Nat
  raw : List BfdByte
  strings : List BfdByte
  stop : Nat
  deriving DecidableEq, Repr

/-- The part of `do_slurp_coff_armap` that reads. -/
def loadCoff (i960Coff : Bool) (file : List BfdByte) (pos : Nat) : Option CoffMap := do
  let mapdata ← readArHdr file pos
  let intBuf := (file.drop mapdata.pos).take 4
  if intBuf.length ≠ 4 then none
  else
    let nsymz := Endian.get true intBuf
    let stringsize := (mapdata.parsedSize + 2 ^ 64 + 2 ^ 64 - 4 * nsymz - 4) % 2 ^ 64
    -- "This looks dangerous, let's do it the other way around."
    let hack := i960Coff && 0xfffff < stringsize
    let nsymz := if hack then Endian.get false intBuf else nsymz
    let stringsize :=
      if hack then (mapdata.parsedSize + 2 ^ 64 + 2 ^ 64 - 4 * nsymz - 4) % 2 ^ 64 else stringsize
    if (carsymSize * nsymz + stringsize + 1) % 2 ^ 64 ≤ carsymSize * nsymz then none
    else
      let raw := (file.drop (mapdata.pos + 4)).take (4 * nsymz)
      let strings := (file.drop (mapdata.pos + 4 + 4 * nsymz)).take stringsize
      if raw.length ≠ 4 * nsymz ∨ strings.length ≠ stringsize then none
      else some ⟨!hack, nsymz, raw, strings, mapdata.pos + 4 + 4 * nsymz + stringsize⟩

/-- The length of the next name, with its null character if it has one. -/
def nameLen (strings : List BfdByte) : Nat :=
  let len := strings.findIdx (· = 0#8)
  if len < strings.length then len + 1 else len

/-- "OK, build the carsyms." The loop stops when there are no characters left, and the entries
behind it stay as `bfd_zalloc` made them. -/
def buildSymdefs : List Nat → Nat → List BfdByte → List Symdef
  | [], _, _ => []
  | _ :: raw, stringbase, [] => ⟨none, 0⟩ :: buildSymdefs raw stringbase []
  | offset :: raw, stringbase, strings@(_ :: _) =>
    ⟨some stringbase, offset⟩ ::
      buildSymdefs raw (stringbase + nameLen strings) (strings.drop (nameLen strings))

/-- `stringbase` behind the loop. -/
def stringsEnd : List Nat → Nat → List BfdByte → Nat
  | [], stringbase, _ => stringbase
  | _ :: _, stringbase, [] => stringbase
  | _ :: raw, stringbase, strings@(_ :: _) =>
    stringsEnd raw (stringbase + nameLen strings) (strings.drop (nameLen strings))

/-- The block of the entries has the strings behind it, and a byte for a null character. -/
def slurpCoff (file : List BfdByte) (m : CoffMap) : Slurped :=
  let offsets := words (Endian.get m.swapBig) m.nsymz m.raw
  let first := evenPos m.stop
  -- "Check for a second archive header (as used by PE)."
  let second := ((readArHdr file first).map fun tmp =>
    if tmp.archHeader.take 2 = [slash, space] then (tmp.parsedSize + hdrSize + 1) &&& 0xfffffffe
    else 0).getD 0
  ⟨carsymSize * m.nsymz + m.strings.length + 1,
    (m.strings ++ [0#8]).set (stringsEnd offsets 0 m.strings) 0#8,
    buildSymdefs offsets 0 m.strings, first + second⟩

/-- `do_slurp_coff_armap`; `i960Coff` is its test of the architecture and the flavour. -/
def doSlurpCoffArmap (i960Coff : Bool) (file : List BfdByte) (pos : Nat) : Option Slurped :=
  (loadCoff i960Coff file pos).map (slurpCoff file)

/-! The index of HP-UX. -/

/-- `H_GET_16 (abfd, raw_armap)` -/
def f2Count (big : Bool) (raw : List BfdByte) : Nat := Endian.get big (raw.take 2)

/-- `H_GET_32 (abfd, raw_armap + HPUX_SYMDEF_COUNT_SIZE)` -/
def f2Stringsize (big : Bool) (raw : List BfdByte) : Nat := Endian.get big ((raw.drop 2).take 4)

/-- The checks of `bfd_slurp_bsd_armap_f2`; `left` is an `unsigned int`. -/
def loadF2 (big : Bool) (file : List BfdByte) (pos : Nat) : Option RawMap := do
  let mapdata ← readArHdr file pos
  let raw := (file.drop mapdata.pos).take mapdata.parsedSize
  let left := (mapdata.parsedSize - 6) % 2 ^ 32
  if mapdata.parsedSize < 6 then none
  else if raw.length ≠ mapdata.parsedSize then none
  else if left < f2Stringsize big raw then none
  else if left - f2Stringsize big raw < f2Count big raw * bsdSymdefSize then none
  else some ⟨raw, mapdata.pos + mapdata.parsedSize⟩

/-- The entries get the room that they have in the file. -/
def slurpF2 (big : Bool) (m : RawMap) : Slurped :=
  let count := f2Count big m.raw
  ⟨count * bsdSymdefSize, m.raw,
    fillSymdefs big 6 count (m.raw.drop (6 + f2Stringsize big m.raw)), evenPos m.stop⟩

/-- There is no map: `symdefs` and `symdef_count` stay zero. -/
def noMap : Slurped := ⟨0, [], [], 0⟩

/-- The names of a BSD index, "Old Linux archives" among them. -/
def isSymdefName (nextname : List BfdByte) : Bool :=
  nextname = field 16 symdef || nextname = field 16 (symdef ++ [slash])

/-- `bfd_slurp_bsd_armap_f2` -/
def bfdSlurpBsdArmapF2 (big : Bool) (file : List BfdByte) (pos : Nat) : Option Slurped :=
  let nextname := (file.drop pos).take 16
  if nextname = [] then some noMap
  else if nextname.length ≠ 16 then none
  else if isSymdefName nextname then doSlurpBsdArmap big file pos
  else if nextname ≠ field 16 [slash] then some noMap
  else (loadF2 big file pos).map (slurpF2 big)

/-! What the entries must be. -/

/-- Every entry is inside of the table, and its name is a string that begins and ends inside of the
loaded map. -/
structure Slurped.Valid (s : Slurped) : Prop where
  room : s.symdefs.length * carsymSize ≤ s.tableBytes
  names : ∀ e ∈ s.symdefs, ∃ o, e.name = some o ∧ 0#8 ∈ s.map.drop o

/-- The string offsets of a BSD index all lead to a null character. -/
def BsdNamed (big : Bool) (raw : List BfdByte) : Prop :=
  ∀ i < bsdCount big raw, 0#8 ∈ raw.drop
    (Endian.get big (((raw.drop 4).drop (bsdSymdefSize * i)).take 4) +
      (4 + bsdCount big raw * bsdSymdefSize + 4))

/-- The number of strings in the string area: the last one may lack its null character. -/
def stringCount (strings : List BfdByte) : Nat :=
  strings.count 0#8 + if strings.getLast?.any (· ≠ 0#8) then 1 else 0

variable {big : Bool} {base n : Nat} {rbase strings raw : List BfdByte} {offsets : List Nat}

@[simp]
theorem length_fillSymdefs : (fillSymdefs big base n rbase).length = n := by
  induction n generalizing rbase with
  | zero => rfl
  | succ n ih => rw [fillSymdefs, List.length_cons, ih]

theorem mem_fillSymdefs {e : Symdef} (he : e ∈ fillSymdefs big base n rbase) :
    ∃ i < n, e.name = some (Endian.get big ((rbase.drop (bsdSymdefSize * i)).take 4) + base) := by
  induction n generalizing rbase with
  | zero => cases he
  | succ n ih =>
    rw [fillSymdefs] at he
    rcases List.mem_cons.mp he with rfl | he
    · exact ⟨0, Nat.succ_pos n, rfl⟩
    · obtain ⟨i, hi, hname⟩ := ih he
      refine ⟨i + 1, Nat.succ_lt_succ hi, ?_⟩
      rw [hname, List.drop_drop, Nat.mul_succ, Nat.add_comm bsdSymdefSize]

theorem fillSymdefs_mem {i : Nat} (hi : i < n) : ∃ e ∈ fillSymdefs big base n rbase,
    e.name = some (Endian.get big ((rbase.drop (bsdSymdefSize * i)).take 4) + base) := by
  induction n generalizing rbase i with
  | zero => exact absurd hi (Nat.not_lt_zero _)
  | succ n ih =>
    rw [fillSymdefs]
    cases i with
    | zero => exact ⟨_, List.mem_cons_self, rfl⟩
    | succ i =>
      obtain ⟨e, he, hname⟩ := @ih (rbase.drop bsdSymdefSize) i (Nat.lt_of_succ_lt_succ hi)
      refine ⟨e, List.mem_cons_of_mem _ he, ?_⟩
      rw [hname, List.drop_drop, Nat.mul_succ, Nat.add_comm bsdSymdefSize]

theorem slurpBsd_valid_iff (m : RawMap) : (slurpBsd big m).Valid ↔ BsdNamed big m.raw := by
  constructor
  · intro h i hi
    obtain ⟨e, he, hname⟩ := @fillSymdefs_mem big (4 + bsdCount big m.raw * bsdSymdefSize + 4) _
      (m.raw.drop 4) i hi
    obtain ⟨o, ho, hnul⟩ := h.names e he
    obtain rfl := Option.some.inj (ho.symm.trans hname)
    exact hnul
  · intro h
    refine ⟨?_, fun e he => ?_⟩
    · simp [slurpBsd]
    · obtain ⟨i, hi, hname⟩ := mem_fillSymdefs he
      exact ⟨_, hname, h i hi⟩

/-- The table is too small for its first entry. -/
theorem slurpF2_valid_iff (m : RawMap) : (slurpF2 big m).Valid ↔ f2Count big m.raw = 0 := by
  constructor
  · intro h
    have hroom := h.room
    simp only [slurpF2, length_fillSymdefs, carsymSize, bsdSymdefSize] at hroom
    omega
  · intro h
    refine ⟨?_, fun e he => ?_⟩
    · simp [slurpF2, h]
    · rw [slurpF2, h] at he
      cases he

/-! The names of a COFF index. -/

/-- The next name, and what is left behind it. -/
theorem nameLen_cases (strings : List BfdByte) :
    (∃ name rest, strings = name ++ 0#8 :: rest ∧ 0#8 ∉ name ∧ nameLen strings = name.length + 1 ∧
      strings.drop (nameLen strings) = rest) ∨
    (0#8 ∉ strings ∧ nameLen strings = strings.length ∧ strings.drop (nameLen strings) = []) := by
  have hplain {l : List BfdByte} (hl : 0#8 ∉ l) : l.findIdx (· = 0#8) = l.length := by
    apply List.findIdx_eq_length_of_false
    intro b hb
    rw [decide_eq_false_iff_not]
    rintro rfl
    exact hl hb
  by_cases hnul : 0#8 ∈ strings
  · obtain ⟨name, rest, rfl, hname⟩ := List.eq_append_cons_of_mem hnul
    have hlen : nameLen (name ++ 0#8 :: rest) = name.length + 1 := by
      have hfind : (name ++ 0#8 :: rest).findIdx (· = 0#8) = name.length := by
        rw [List.findIdx_append, if_neg (by rw [hplain hname]; omega), List.findIdx_cons]
        simp
      rw [nameLen, hfind]
      exact if_pos (by simp)
    refine .inl ⟨name, rest, rfl, hname, hlen, ?_⟩
    rw [hlen, List.drop_append]
    simp
  · have hlen : nameLen strings = strings.length := by
      rw [nameLen, hplain hnul]
      exact if_neg (Nat.lt_irrefl _)
    exact .inr ⟨hnul, hlen, by rw [hlen, List.drop_length]⟩

theorem nameLen_le : nameLen strings ≤ strings.length := by
  have hfind : strings.findIdx (· = 0#8) ≤ strings.length := List.findIdx_le_length
  rw [nameLen]
  split_ifs with hlt
  · exact hlt
  · exact hfind

theorem stringCount_step (hne : strings ≠ []) :
    stringCount strings = stringCount (strings.drop (nameLen strings)) + 1 := by
  rcases nameLen_cases strings with ⟨name, rest, hsplit, hname, -, hdrop⟩ | ⟨hnul, -, hdrop⟩
  · have hcount : strings.count 0#8 = rest.count 0#8 + 1 := by
      rw [hsplit, List.count_append, List.count_cons_self, List.count_eq_zero.mpr hname, Nat.zero_add]
    have hlast : strings.getLast?.any (· ≠ 0#8) = rest.getLast?.any (· ≠ 0#8) := by
      rw [hsplit, List.getLast?_append]
      cases rest with
      | nil => simp
      | cons b rest => simp [List.getLast?_cons]
    rw [hdrop, stringCount, stringCount, hcount, hlast]
    omega
  · have hlast : strings.getLast?.any (· ≠ 0#8) = true := by
      rw [List.getLast?_eq_some_getLast hne, Option.any_some, decide_eq_true_iff]
      intro hzero
      exact hnul (hzero ▸ List.getLast_mem hne)
    rw [hdrop, stringCount, List.count_eq_zero.mpr hnul, hlast]
    rfl

/-- Every entry has a name as long as there are strings. -/
theorem buildSymdefs_named_iff : (∀ e ∈ buildSymdefs offsets base strings, e.name ≠ none) ↔
    offsets.length ≤ stringCount strings := by
  induction offsets generalizing base strings with
  | nil => simp [buildSymdefs]
  | cons offset raw ih =>
    cases hstrings : strings with
    | nil =>
      have hcount : stringCount [] = 0 := rfl
      rw [buildSymdefs, hcount]
      simp
    | cons b rest =>
      rw [buildSymdefs, List.forall_mem_cons, ih, stringCount_step (List.cons_ne_nil b rest),
        List.length_cons]
      simp

/-- A name is never behind the byte that follows the strings. -/
theorem buildSymdefs_name_le {e : Symdef} (he : e ∈ buildSymdefs offsets base strings) {o : Nat}
    (ho : e.name = some o) : o ≤ base + strings.length := by
  induction offsets generalizing base strings with
  | nil => cases he
  | cons offset raw ih =>
    cases strings with
    | nil =>
      rw [buildSymdefs] at he
      rcases List.mem_cons.mp he with rfl | he
      · cases ho
      · exact ih he
    | cons b rest =>
      rw [buildSymdefs] at he
      rcases List.mem_cons.mp he with rfl | he
      · obtain rfl := Option.some.inj ho
        omega
      · have hle := ih he
        rw [List.length_drop] at hle
        have hlen : nameLen (b :: rest) ≤ (b :: rest).length := nameLen_le
        omega

@[simp]
theorem length_buildSymdefs : (buildSymdefs offsets base strings).length = offsets.length := by
  induction offsets generalizing base strings with
  | nil => rfl
  | cons offset raw ih =>
    cases strings with
    | nil => rw [buildSymdefs, List.length_cons, ih, List.length_cons]
    | cons b rest => rw [buildSymdefs, List.length_cons, ih, List.length_cons]

@[simp]
theorem length_words (swap : List BfdByte → Nat) (n : Nat) (bs : List BfdByte) :
    (words swap n bs).length = n := by
  induction n generalizing bs with
  | zero => rfl
  | succ n ih => rw [words, List.length_cons, ih]

theorem mem_drop_set {l : List BfdByte} {k o : Nat} (h : 0#8 ∈ l.drop o) : 0#8 ∈ (l.set k 0#8).drop o := by
  obtain ⟨i, hi⟩ := List.mem_iff_getElem?.mp h
  rw [List.getElem?_drop] at hi
  refine List.mem_iff_getElem?.mpr ⟨i, ?_⟩
  have hlt := (List.getElem?_eq_some_iff.mp hi).1
  by_cases hk : k = o + i
  · rw [List.getElem?_drop, hk, List.getElem?_set_self hlt]
  · rw [List.getElem?_drop, List.getElem?_set_ne hk, hi]

theorem slurpCoff_valid_iff (file : List BfdByte) (m : CoffMap) :
    (slurpCoff file m).Valid ↔ m.nsymz ≤ stringCount m.strings := by
  have hnamed := @buildSymdefs_named_iff 0 m.strings (words (Endian.get m.swapBig) m.nsymz m.raw)
  rw [length_words] at hnamed
  rw [← hnamed]
  constructor
  · intro h e he hnone
    obtain ⟨o, ho, -⟩ := h.names e he
    rw [hnone] at ho
    cases ho
  · intro h
    refine ⟨?_, fun e he => ?_⟩
    · rw [slurpCoff, length_buildSymdefs, length_words, Nat.mul_comm]
      exact Nat.le_add_right_of_le (Nat.le_add_right _ _)
    · obtain ⟨o, ho⟩ := Option.ne_none_iff_exists'.mp (h e he)
      have hle := buildSymdefs_name_le he ho
      refine ⟨o, ho, mem_drop_set ?_⟩
      -- the byte behind the strings is a null character
      rw [List.drop_append_of_le_length (by omega)]
      exact List.mem_append_right _ (List.mem_singleton_self _)

/-- The names as strings. -/
def Slurped.carsyms (s : Slurped) : List Carsym :=
  s.symdefs.map fun e => ⟨e.name.map fun o => (s.map.drop o).takeWhile (· ≠ 0#8), e.fileOffset⟩

theorem le_stringsEnd : base ≤ stringsEnd offsets base strings := by
  induction offsets generalizing base strings with
  | nil => exact Nat.le_refl _
  | cons offset raw ih =>
    cases strings with
    | nil => exact Nat.le_refl _
    | cons b rest => exact Nat.le_trans (Nat.le_add_right _ _) ih

theorem plain_of_not_mem {l : List BfdByte} (hl : 0#8 ∉ l) : ∀ b ∈ l, decide (b ≠ 0#8) = true := by
  intro b hb
  rw [decide_eq_true_iff]
  rintro rfl
  exact hl hb

/-- The null character that is put behind the strings ends no name early. -/
theorem takeWhile_set (k : Nat) (hk : nameLen strings ≤ k) :
    ((strings ++ [0#8]).set k 0#8).takeWhile (· ≠ 0#8) = strings.takeWhile (· ≠ 0#8) := by
  rcases nameLen_cases strings with ⟨name, rest, rfl, hname, hlen, -⟩ | ⟨hnul, hlen, -⟩
  · obtain ⟨j, rfl⟩ : ∃ j, k = name.length + (j + 1) := ⟨k - (name.length + 1), by omega⟩
    rw [List.append_assoc, List.set_append_right _ _ (by omega), Nat.add_sub_cancel_left,
      List.cons_append, List.set_cons_succ, List.takeWhile_append_of_pos (plain_of_not_mem hname),
      List.takeWhile_append_of_pos (plain_of_not_mem hname)]
    simp
  · obtain ⟨j, rfl⟩ : ∃ j, k = strings.length + j := ⟨k - strings.length, by omega⟩
    have htake : strings.takeWhile (· ≠ 0#8) = strings := by
      rw [← List.append_nil strings, List.takeWhile_append_of_pos (plain_of_not_mem hnul)]
      simp
    rw [List.set_append_right _ _ (by omega), List.takeWhile_append_of_pos (plain_of_not_mem hnul), htake]
    cases j <;> simp

theorem stringsEnd_nil : stringsEnd offsets base [] = base := by
  cases offsets <;> rfl

theorem drop_takeWhile (strings : List BfdByte) :
    strings.drop ((strings.takeWhile (· ≠ 0#8)).length + 1) = strings.drop (nameLen strings) := by
  rcases nameLen_cases strings with ⟨name, rest, rfl, hname, hlen, -⟩ | ⟨hnul, hlen, hdrop⟩
  · have htake : (name ++ 0#8 :: rest).takeWhile (· ≠ 0#8) = name := by
      rw [List.takeWhile_append_of_pos (plain_of_not_mem hname)]
      simp
    rw [htake, hlen]
  · have htake : strings.takeWhile (· ≠ 0#8) = strings := by
      rw [← List.append_nil strings, List.takeWhile_append_of_pos (plain_of_not_mem hnul)]
      simp
    rw [htake, hdrop]
    exact List.drop_eq_nil_of_le (Nat.le_succ _)

theorem buildCarsyms_eq (front : List BfdByte) :
    (buildSymdefs offsets front.length strings).map (fun e => (⟨e.name.map fun o =>
        (((front ++ (strings ++ [0#8])).set (stringsEnd offsets front.length strings) 0#8).drop
          o).takeWhile (· ≠ 0#8), e.fileOffset⟩ : Carsym)) = buildCarsyms offsets strings := by
  induction offsets generalizing front strings with
  | nil => rfl
  | cons offset raw ih =>
    cases hstrings : strings with
    | nil =>
      have hrest := @ih [] front
      rw [stringsEnd_nil] at hrest
      rw [stringsEnd_nil, buildSymdefs, List.map_cons, hrest, buildCarsyms]
      rfl
    | cons b rest =>
      rw [← hstrings]
      have hfront : (front ++ strings.take (nameLen strings)).length =
          front.length + nameLen strings := by
        rw [List.length_append, List.length_take, Nat.min_eq_left nameLen_le]
      have hrest := @ih (strings.drop (nameLen strings)) (front ++ strings.take (nameLen strings))
      rw [hfront, List.append_assoc, ← List.append_assoc (strings.take _), List.take_append_drop] at hrest
      -- the rest of the loop ends behind this name
      obtain ⟨k, hk⟩ : ∃ k, stringsEnd raw (front.length + nameLen strings)
          (strings.drop (nameLen strings)) = front.length + (nameLen strings + k) := by
        obtain ⟨k, hk⟩ := Nat.exists_eq_add_of_le (@le_stringsEnd (front.length + nameLen strings)
          (strings.drop (nameLen strings)) raw)
        exact ⟨k, by omega⟩
      have hname : (((front ++ (strings ++ [0#8])).set (front.length + (nameLen strings + k)) 0#8).drop
          front.length).takeWhile (· ≠ 0#8) = strings.takeWhile (· ≠ 0#8) := by
        rw [List.set_append_right _ _ (by omega), Nat.add_sub_cancel_left, List.drop_left]
        exact takeWhile_set _ (Nat.le_add_right _ _)
      have hstep : buildSymdefs (offset :: raw) front.length strings = ⟨some front.length, offset⟩ ::
          buildSymdefs raw (front.length + nameLen strings) (strings.drop (nameLen strings)) := by
        rw [hstrings, buildSymdefs]
      have hend : stringsEnd (offset :: raw) front.length strings =
          stringsEnd raw (front.length + nameLen strings) (strings.drop (nameLen strings)) := by
        rw [hstrings, stringsEnd]
      have hcar : buildCarsyms (offset :: raw) strings = ⟨some (strings.takeWhile (· ≠ 0#8)), offset⟩ ::
          buildCarsyms raw (strings.drop (nameLen strings)) := by
        rw [← drop_takeWhile, hstrings, buildCarsyms]
      rw [hend, hstep, hcar, List.map_cons, hrest, Option.map_some, hk, hname]

/-- The reader of the index in terms of its strings is the one in terms of memory. -/
theorem slurpCoffArmap_eq (i960Coff : Bool) (file : List BfdByte) (pos : Nat) :
    slurpCoffArmap i960Coff file pos =
      (doSlurpCoffArmap i960Coff file pos).map fun s => ⟨s.carsyms, s.firstFileFilepos⟩ := by
  rw [slurpCoffArmap, doSlurpCoffArmap, loadCoff]
  cases readArHdr file pos with
  | none => rfl
  | some mapdata =>
    simp only [Option.bind_eq_bind, Option.bind_some, apply_ite (Option.map _), Option.map_none,
      Option.map_some]
    refine if_congr .rfl rfl (if_congr .rfl rfl (if_congr .rfl rfl ?_))
    rw [← buildCarsyms_eq []]
    simp only [slurpCoff, evenPos, Slurped.carsyms]
    generalize readArHdr file _ = second
    cases second <;> rfl

/-! All three readers. -/

/-- Whatever the reader accepts is valid. -/
def Safe (r : Option Slurped) : Prop := ∀ s ∈ r, s.Valid

theorem safe_map_iff {α : Type} {x : Option α} {f : α → Slurped} {p : α → Prop}
    (h : ∀ m, (f m).Valid ↔ p m) : Safe (x.map f) ↔ ∀ m ∈ x, p m := by
  cases x with
  | none => simp [Safe]
  | some m => simpa [Safe] using h m

theorem noMap_valid : noMap.Valid where
  room := Nat.le_refl 0
  names e he := by cases he

theorem slurped_valid_iff (big i960Coff : Bool) (file : List BfdByte) (pos : Nat) :
    (Safe (doSlurpBsdArmap big file pos) ↔ ∀ m ∈ loadBsd big file pos, BsdNamed big m.raw) ∧
    (Safe (doSlurpCoffArmap i960Coff file pos) ↔
      ∀ m ∈ loadCoff i960Coff file pos, m.nsymz ≤ stringCount m.strings) ∧
    (Safe (bfdSlurpBsdArmapF2 big file pos) ↔
      if isSymdefName ((file.drop pos).take 16) then
        ∀ m ∈ loadBsd big file pos, BsdNamed big m.raw
      else if (file.drop pos).take 16 = field 16 [slash] then
        ∀ m ∈ loadF2 big file pos, f2Count big m.raw = 0
      else True) := by
  refine ⟨safe_map_iff fun m => slurpBsd_valid_iff m, safe_map_iff (slurpCoff_valid_iff file), ?_⟩
  have hno : Safe (some noMap) := by
    intro s hs
    obtain rfl := Option.some.inj hs
    exact noMap_valid
  rw [bfdSlurpBsdArmapF2]
  generalize (file.drop pos).take 16 = nextname
  by_cases hnil : nextname = []
  · have hsymdef : isSymdefName [] = false := by decide
    have hslash : ([] : List BfdByte) ≠ field 16 [slash] := by decide
    simp [hnil, hsymdef, hslash, hno]
  by_cases hlen : nextname.length = 16
  · rw [if_neg hnil, if_neg (not_not.mpr hlen)]
    by_cases hsymdef : isSymdefName nextname = true
    · rw [if_pos hsymdef, if_pos hsymdef]
      exact safe_map_iff fun m => slurpBsd_valid_iff m
    · rw [if_neg hsymdef, if_neg hsymdef]
      by_cases hslash : nextname = field 16 [slash]
      · rw [if_neg (not_not.mpr hslash), if_pos hslash]
        exact safe_map_iff fun m => slurpF2_valid_iff m
      · rw [if_pos hslash, if_neg hslash]
        exact iff_true_intro hno
  · have hfield (bs : List BfdByte) (h : (field 16 bs).length = 16) : nextname ≠ field 16 bs := by
      rintro rfl
      exact hlen h
    have hsymdef : isSymdefName nextname = false := by
      rw [isSymdefName, Bool.or_eq_false_iff, decide_eq_false_iff_not, decide_eq_false_iff_not]
      exact ⟨hfield _ (by decide), hfield _ (by decide)⟩
    rw [if_neg hnil, if_pos hlen, hsymdef, if_neg Bool.false_ne_true,
      if_neg (hfield [slash] (by decide))]
    simp [Safe]

/-- An index of one symbol, whose name lies 100 characters behind the end of the map. -/
def strayName : List BfdByte :=
  (ArHdr.mk symdef (Decimal.text 0) (Decimal.text 0) (Decimal.text 0) (Decimal.text 0)
    (Decimal.text 12) arfmag).bytes ++ [8, 0, 0, 0, 100, 0, 0, 0, 68, 0, 0, 0]

theorem strayName_not_safe : ¬ Safe (doSlurpBsdArmap false strayName 0) := by
  intro h
  have hread : doSlurpBsdArmap false strayName 0 =
      some ⟨16, [8, 0, 0, 0, 100, 0, 0, 0, 68, 0, 0, 0], [⟨some 116, 68⟩], 72⟩ := by decide
  obtain ⟨o, ho, hnul⟩ := (h _ hread).names _ List.mem_cons_self
  obtain rfl := Option.some.inj ho
  simp at hnul

end FusionBinutils.Bfd.Armap
