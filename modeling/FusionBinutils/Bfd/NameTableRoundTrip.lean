import FusionBinutils.Bfd.ArmapRoundTrip
import FusionBinutils.Bfd.NameTable

/-! Names of archive members read back. -/
namespace FusionBinutils.Bfd.NameTable

open Armap (space slash newline arfmag maxname hdrSize lbasename isSpace scanSize)

variable {ar : Ar} {m : Member} {ms : List Member} {h : Header} {n : Nat} {rest name : Text}

/-! Numbers. -/

theorem not_isSpace_of_digit {b : BfdByte} (h : Decimal.isDigit b = true) : isSpace b = false := by
  simp only [Decimal.isDigit, Bool.and_eq_true, decide_eq_true_eq] at h
  have hne : b ≠ 32#8 := by
    rintro rfl
    revert h
    decide
  simp only [isSpace, hne, decide_false, Bool.false_or, Bool.and_eq_false_iff,
    decide_eq_false_iff_not]
  omega

theorem takeWhile_text (hrest : ∀ b, rest.head? = some b → Decimal.isDigit b = false) :
    (Decimal.text n ++ rest).takeWhile Decimal.isDigit = Decimal.text n := by
  rw [List.takeWhile_append_of_pos fun b hb => Decimal.isDigit_text hb]
  cases rest with
  | nil => simp
  | cons b rest => rw [List.takeWhile_cons_of_neg (by simp [hrest b rfl]), List.append_nil]

/-- A number is read up to what is no digit. -/
theorem strtol_decimal (v : Int) (hv : -2 ^ 63 ≤ v ∧ v < 2 ^ 63)
    (hrest : ∀ b, rest.head? = some b → Decimal.isDigit b = false) :
    strtol (decimal v ++ rest) = some (v, rest) := by
  obtain ⟨d, ds, htext⟩ := List.exists_cons_of_ne_nil (Decimal.text_ne_nil v.natAbs)
  have hd : Decimal.isDigit d = true := Decimal.isDigit_text (htext ▸ List.mem_cons_self)
  have hsign : d ≠ 43#8 ∧ d ≠ 45#8 := by
    refine ⟨?_, ?_⟩
    all_goals
      rintro rfl
      revert hd
      decide
  have htake := takeWhile_text (n := v.natAbs) hrest
  have hdrop : (Decimal.text v.natAbs ++ rest).drop (Decimal.text v.natAbs).length = rest :=
    List.drop_left
  have hvalue := Decimal.value_text v.natAbs
  by_cases hneg : v < 0
  · have hspace : isSpace 45#8 = false := by decide
    have habs : -(v.natAbs : Int) = v := by omega
    rw [decimal, if_pos hneg, List.cons_append, strtol]
    simp only [List.dropWhile_cons, hspace, Bool.false_eq_true, if_false, List.head?_cons, true_or,
      if_true, List.drop_one, List.tail_cons, htake, hdrop, hvalue, Decimal.text_ne_nil, habs]
    rw [if_neg (by omega)]
  · have habs : (v.natAbs : Int) = v := by omega
    rw [decimal, if_neg hneg, strtol]
    rw [htext] at htake hdrop hvalue ⊢
    simp only [List.cons_append] at htake hdrop ⊢
    simp only [List.dropWhile_cons, not_isSpace_of_digit hd, Bool.false_eq_true, if_false,
      List.head?_cons, Option.some.injEq, hsign, or_self, htake, hdrop, hvalue, habs,
      List.cons_ne_nil]
    rw [if_neg (by omega)]

/-- An offset with so few digits is in the range of a `long`. -/
theorem range_of_length {v : Int} (h : (decimal v).length ≤ 15) : -2 ^ 63 ≤ v ∧ v < 2 ^ 63 := by
  have hlength : (Decimal.text v.natAbs).length ≤ 15 := by
    rw [decimal] at h
    split at h
    next =>
      rw [List.length_cons] at h
      omega
    next => exact h
  have hlt : v.natAbs < 10 ^ 15 :=
    (Decimal.lt_pow_length_text _).trans_le (Nat.pow_le_pow_right (by decide) hlength)
  omega

theorem spacepad_eq {k : Nat} {v : Int} (hk : k ≤ 14) (h : (decimal v).length ≤ k) :
    spacepad k v = decimal v ++ List.replicate (k - (decimal v).length) space := by
  have htake : (decimal v).take 19 = decimal v := List.take_of_length_le (by omega)
  simp only [spacepad, htake]
  split
  · rfl
  · have hlength : (decimal v).length = k := by omega
    rw [hlength, Nat.sub_self, List.replicate_zero, List.append_nil, ← hlength, List.take_length]

theorem length_spacepad {k : Nat} {v : Int} (hk : k ≤ 14) (h : (decimal v).length ≤ k) :
    (spacepad k v).length = k := by
  rw [spacepad_eq hk h, List.length_append, List.length_replicate]
  omega

/-! Headers. -/

/-- What `write` does to a name that is cut at the bytes that it replaces. -/
theorem Header.write_eq (a b c bs : Text) (hname : h.name = a ++ b ++ c)
    (hlength : b.length = bs.length) :
    ∃ h', h.write a.length bs = some h' ∧ h'.name = a ++ bs ++ c ∧ h'.rest = h.rest := by
  have htake : (a ++ b ++ c).take a.length = a := by rw [List.append_assoc, List.take_left]
  have hdrop : (a ++ b ++ c).drop (a.length + bs.length) = c := by
    rw [← hlength, ← List.length_append, List.drop_left]
  have hstore : store h.name a.length bs = some (a ++ bs ++ c) := by
    rw [hname, store, if_pos (by simp only [List.length_append]; omega), htake, hdrop]
  rw [Header.write]
  split
  next name hs =>
    obtain rfl := Option.some.inj (hs.symm.trans hstore)
    exact ⟨_, rfl, rfl, rfl⟩
  next hs =>
    rw [hstore] at hs
    cases hs

/-- The header that a name was read from is cut like this. -/
theorem Header.cut (h : Header) : ∃ (x y : BfdByte) (b : Text),
    h.name = [x] ++ b ++ [y] ∧ b.length = 14 ∧ h.name[15]? = some y := by
  obtain ⟨x, name, hname⟩ := List.exists_cons_of_length_eq_add_one (n := 15) h.nameLength
  have hlength : name.length = 15 := by
    have hlength := h.nameLength
    rw [hname, List.length_cons] at hlength
    omega
  have hne : name ≠ [] := by
    rintro rfl
    cases hlength
  refine ⟨x, name.getLast hne, name.dropLast, ?_, ?_, ?_⟩
  · rw [hname, List.append_assoc, List.dropLast_append_getLast]
    rfl
  · rw [List.length_dropLast, hlength]
  · rw [hname, List.getElem?_cons_succ, List.getLast_eq_getElem, List.getElem?_eq_getElem (by omega)]
    simp only [hlength]

/-- The numbers in the name of a member whose entry is at `stroff`. -/
def numbers (ar : Ar) (m : Member) (stroff : Nat) : Text :=
  if ar.thin ∧ 0 < m.origin then decimal stroff ++ colon :: decimal (m.origin - hdrSize)
  else decimal stroff

/-- The numbers have room in the name, and when they take all of it, the byte behind them does not go
on with them. -/
structure Room (ar : Ar) (m : Member) (stroff : Nat) : Prop where
  length : (numbers ar m stroff).length ≤ 14
  full : (numbers ar m stroff).length = 14 → ∀ b, m.hdr.name[15]? = some b →
    Decimal.isDigit b = false ∧ (ar.thin = true → m.origin ≤ 0 → b ≠ colon)

theorem decimal_ne_nil (v : Int) : decimal v ≠ [] := by
  rw [decimal]
  split
  · exact List.cons_ne_nil _ _
  · exact Decimal.text_ne_nil _

theorem extendedName_eq {stroff : Nat} (hroom : Room ar m stroff) :
    ∃ h' y, extendedName ar m stroff = some h' ∧ h'.rest = m.hdr.rest ∧
      h'.name = slash :: numbers ar m stroff ++
        List.replicate (14 - (numbers ar m stroff).length) space ++ [y] ∧
      m.hdr.name[15]? = some y := by
  obtain ⟨x, y, b, hname, hlength, hy⟩ := m.hdr.cut
  obtain ⟨h1, hw1, hn1, hr1⟩ := Header.write_eq [] [x] (b ++ [y]) [slash] (by rw [hname]; simp) rfl
  have hlen := hroom.length
  by_cases horigin : ar.thin = true ∧ 0 < m.origin
  · rw [numbers, if_pos horigin] at hlen ⊢
    have hne := List.length_pos_iff.mpr (decimal_ne_nil (m.origin - hdrSize))
    rw [List.length_append, List.length_cons] at hlen
    -- the offset, whose NUL is then overwritten, and the origin behind it
    generalize htext : decimal stroff ++ [colon] = text
    have htextlen : text.length = (decimal stroff).length + 1 := by
      rw [← htext, List.length_append, List.length_singleton]
    have hpad := spacepad_eq (k := 14 - text.length) (v := m.origin - hdrSize) (by omega) (by omega)
    have hpadlen := length_spacepad (k := 14 - text.length) (v := m.origin - hdrSize) (by omega)
      (by omega)
    have htake : text.take (maxname - 2) = text :=
      List.take_of_length_le (by simp only [maxname]; omega)
    obtain ⟨h2, hw2, hn2, hr2⟩ := Header.write_eq [slash] (b.take (text.length + 1))
      (b.drop (text.length + 1) ++ [y]) (text ++ [nul]) (h := h1)
      (by rw [hn1]; simp only [List.nil_append, List.append_assoc, ← List.append_assoc (List.take _ _),
        List.take_append_drop])
      (by rw [List.length_take, List.length_append, List.length_singleton]; omega)
    obtain ⟨h3, hw3, hn3, hr3⟩ := Header.write_eq ([slash] ++ text) (nul :: b.drop (text.length + 1)) [y]
      (spacepad (14 - text.length) (m.origin - hdrSize)) (h := h2)
      (by rw [hn2]; simp)
      (by rw [hpadlen, List.length_cons, List.length_drop]; omega)
    refine ⟨h3, y, ?_, hr3.trans (hr2.trans hr1), ?_, hy⟩
    · have hw1' : m.hdr.write 0 [slash] = some h1 := hw1
      have hw2' : h1.write 1 (text.take (maxname - 2) ++ [nul]) = some h2 := by
        rw [htake]
        exact hw2
      have hw3' : h2.write (1 + text.length) (spacepad (maxname - 1 - text.length)
          (m.origin - hdrSize)) = some h3 := by
        rw [List.length_append] at hw3
        exact hw3
      have hfits : ¬ maxname - 1 < text.length := by
        simp only [maxname]
        omega
      simp only [extendedName, hw1', if_pos horigin, htext, hw2', if_neg hfits, hw3',
        Option.bind_eq_bind, Option.bind_some]
    · rw [hn3, hpad, ← htext]
      simp only [List.length_append, List.length_cons, List.length_nil, List.append_assoc,
        List.cons_append, List.nil_append, Nat.sub_sub]
      congr 6
      omega
  · rw [numbers, if_neg horigin] at hlen ⊢
    have hpad := spacepad_eq (Nat.le_refl 14) hlen
    have hpadlen := length_spacepad (Nat.le_refl 14) hlen
    obtain ⟨h2, hw2, hn2, hr2⟩ := Header.write_eq [slash] b [y] (spacepad 14 stroff)
      (by rw [hn1]; simp) (by rw [hpadlen, hlength])
    refine ⟨h2, y, ?_, hr2.trans hr1, ?_, hy⟩
    · have hw1' : m.hdr.write 0 [slash] = some h1 := hw1
      have hw2' : h1.write 1 (spacepad (maxname - 1) stroff) = some h2 := hw2
      simp only [extendedName, hw1', if_neg horigin, hw2', Option.bind_eq_bind, Option.bind_some]
    · rw [hn2, hpad]
      simp

/-! Reading a header. -/

theorem length_bytes (h : Header) : h.bytes.length = hdrSize := by
  rw [Header.bytes, List.length_append, h.nameLength, h.restLength]
  rfl

/-- The size of a header can be read, and its name is the rest of the work. -/
theorem readArHdrMag_bytes (h : Header) : ∃ size, ∀ thin names mag after,
    readArHdrMag thin names mag (h.bytes ++ after) = readFilename thin names size h.bytes after := by
  obtain ⟨size, hsize⟩ := Option.isSome_iff_exists.mp h.size
  refine ⟨size, ?_⟩
  intro thin names mag after
  have htake : (h.bytes ++ after).take hdrSize = h.bytes := List.take_left' (length_bytes h)
  have hdrop : (h.bytes ++ after).drop hdrSize = after := List.drop_left' (length_bytes h)
  have hfmag : (h.bytes.drop 58).take 2 = arfmag := by
    have hrest : h.bytes.drop 58 = h.rest.drop 42 := by
      rw [Header.bytes, List.drop_append, h.nameLength,
        List.drop_eq_nil_of_le (by rw [h.nameLength]; decide), List.nil_append]
    rw [hrest, h.fmag]
    rfl
  have hscan : (h.bytes.drop 48).take 10 = (h.rest.drop 32).take 10 := by
    rw [Header.bytes, List.drop_append, h.nameLength,
      List.drop_eq_nil_of_le (by rw [h.nameLength]; decide), List.nil_append]
  rw [readArHdrMag]
  simp only [htake, hdrop, hfmag, hscan, hsize, length_bytes, ne_eq, not_true, false_and, if_false,
    Option.bind_eq_bind, Option.bind_some]

/-- The origin that is stored of a member. -/
def storedOrigin (ar : Ar) (m : Member) : Int :=
  if ar.thin ∧ 0 < m.origin then m.origin - hdrSize else 0

/-- The numbers of an extended name are read as they were written. -/
theorem getExtendedAreltFilename_eq {stroff : Nat} {names : Text} (behind : Text)
    (hroom : Room ar m stroff) {y : BfdByte} (hy : m.hdr.name[15]? = some y) (hlt : stroff < names.length) :
    getExtendedAreltFilename ar.thin names (slash :: numbers ar m stroff ++
        List.replicate (14 - (numbers ar m stroff).length) space ++ [y] ++ behind) =
      some ((names.drop stroff).takeWhile (· ≠ nul), storedOrigin ar m) := by
  -- what stands behind the numbers
  obtain ⟨tail, htail⟩ : ∃ tail, tail =
      List.replicate (14 - (numbers ar m stroff).length) space ++ ([y] ++ behind) := ⟨_, rfl⟩
  have hhead : ∀ b, tail.head? = some b →
      Decimal.isDigit b = false ∧ (ar.thin = true → m.origin ≤ 0 → b ≠ colon) := by
    intro b hb
    cases hk : 14 - (numbers ar m stroff).length with
    | zero =>
      rw [htail, hk] at hb
      obtain rfl : y = b := Option.some.inj hb
      have hlen := hroom.length
      exact hroom.full (by omega) y hy
    | succ k =>
      rw [htail, hk] at hb
      obtain rfl : space = b := Option.some.inj hb
      exact ⟨by decide, fun _ _ => by decide⟩
  have hdrop : (slash :: numbers ar m stroff ++
      List.replicate (14 - (numbers ar m stroff).length) space ++ [y] ++ behind).drop 1 =
        numbers ar m stroff ++ tail := by
    rw [htail]
    simp
  have hlen := hroom.length
  have hindex : ¬ ((stroff : Int) < 0 ∨ (names.length : Int) ≤ stroff) := by omega
  rw [getExtendedAreltFilename, hdrop]
  by_cases horigin : ar.thin = true ∧ 0 < m.origin
  · rw [numbers, if_pos horigin] at hlen ⊢
    rw [List.length_append, List.length_cons] at hlen
    have hfirst : strtol (decimal stroff ++ (colon :: decimal (m.origin - hdrSize) ++ tail)) =
        some ((stroff : Int), colon :: decimal (m.origin - hdrSize) ++ tail) := by
      apply strtol_decimal _ (range_of_length (by omega))
      intro b hb
      obtain rfl : colon = b := Option.some.inj hb
      decide
    have hsecond : strtol (decimal (m.origin - hdrSize) ++ tail) =
        some (m.origin - hdrSize, tail) :=
      strtol_decimal _ (range_of_length (by omega)) fun b hb => (hhead b hb).1
    rw [List.append_assoc, hfirst]
    simp only [Option.bind_eq_bind, Option.bind_some, if_neg hindex, horigin.1, List.cons_append,
      List.head?_cons, and_self, if_true, List.tail_cons, hsecond, Option.map_some, Int.toNat_natCast,
      storedOrigin, horigin]
    rfl
  · rw [numbers, if_neg horigin] at hlen ⊢
    have hfirst : strtol (decimal stroff ++ tail) = some ((stroff : Int), tail) :=
      strtol_decimal _ (range_of_length (by omega)) fun b hb => (hhead b hb).1
    have hcolon : ¬ (ar.thin = true ∧ tail.head? = some colon) := by
      rintro ⟨hthin, hb⟩
      have hle : m.origin ≤ 0 := by
        by_contra hpos
        exact horigin ⟨hthin, by omega⟩
      exact (hhead colon hb).2 hthin hle rfl
    rw [hfirst]
    simp only [Option.bind_eq_bind, Option.bind_some, if_neg hindex, if_neg hcolon,
      Int.toNat_natCast, storedOrigin, if_neg horigin]
    rfl

/-- A header with an extended name. -/
theorem readFilename_extended {stroff size : Nat} {names after : Text} (hroom : Room ar m stroff)
    {y : BfdByte} (hy : m.hdr.name[15]? = some y) (hlt : stroff < names.length)
    (hname : h.name = slash :: numbers ar m stroff ++
      List.replicate (14 - (numbers ar m stroff).length) space ++ [y]) :
    readFilename ar.thin (some names) size h.bytes after =
      some ⟨h.bytes, size, (names.drop stroff).takeWhile (· ≠ nul), 0, storedOrigin ar m⟩ := by
  have hbytes : h.bytes = slash :: numbers ar m stroff ++
      List.replicate (14 - (numbers ar m stroff).length) space ++ [y] ++ h.rest := by
    rw [Header.bytes, hname]
  have hget := getExtendedAreltFilename_eq h.rest hroom hy hlt
  rw [← hbytes] at hget
  have hhead : h.bytes.head? = some slash := by
    rw [hbytes]
    rfl
  simp only [readFilename, hhead, decide_true, Bool.true_or, if_true, hget, Option.map_some]

theorem memchr_of_mem {b : BfdByte} {t : Text} (h : b ∈ t) :
    memchr b t = some (t.takeWhile (· ≠ b)).length :=
  if_pos (List.contains_iff_mem.mpr h)

theorem memchr_none {b : BfdByte} {t : Text} (h : b ∉ t) : memchr b t = none :=
  if_neg (mt List.contains_iff_mem.mp h)

theorem memchr_append {b : BfdByte} {t : Text} (h : b ∉ t) :
    memchr b (t ++ b :: rest) = some t.length := by
  have htake : (t ++ b :: rest).takeWhile (· ≠ b) = t := by
    rw [List.takeWhile_append_of_pos, List.takeWhile_cons_of_neg (by simp), List.append_nil]
    intro c hc
    rw [decide_eq_true_eq]
    rintro rfl
    exact h hc
  rw [memchr_of_mem (by simp), htake]

/-- A name that ends in its own field, with what the field holds behind it. -/
structure Ends (n tail : Text) : Prop where
  nonempty : n ≠ []
  slashes : slash ∉ n
  nuls : nul ∉ n
  length : n.length ≤ maxname
  stale : nul ∉ tail.take (maxname - 1 - n.length)
  blanks : n.length = maxname → space ∉ n
  bsd : n = [35#8, 49#8] → ∀ b, tail.head? = some b → Decimal.isDigit b = false

theorem not_bsd {n tail behind : Text} (hbytes : name = n ++ slash :: (tail ++ behind))
    (htail : n.length = 2 → tail ≠ []) (hends : Ends n tail) : isBsd44ExtendedName name = false := by
  by_contra hbsd
  rw [Bool.not_eq_false, isBsd44ExtendedName, Bool.and_eq_true, decide_eq_true_eq, hbytes] at hbsd
  obtain ⟨hthree, hdigit⟩ := hbsd
  rcases n with _ | ⟨b, _ | ⟨c, _ | ⟨d, n⟩⟩⟩
  · exact hends.nonempty rfl
  · obtain ⟨-, h49, -⟩ : b = 35#8 ∧ slash = 49#8 ∧ _ := by simpa using hthree
    exact absurd h49 (by decide)
  · obtain ⟨rfl, rfl⟩ : b = 35#8 ∧ c = 49#8 := by simpa using hthree
    obtain ⟨t, tail, rfl⟩ := List.exists_cons_of_ne_nil (htail rfl)
    have hfalse := hends.bsd rfl t rfl
    simp [hfalse] at hdigit
  · obtain ⟨-, -, rfl⟩ : b = 35#8 ∧ c = 49#8 ∧ d = slash := by simpa using hthree
    exact hends.slashes (by simp)

theorem take_maxname {n tail : Text} (hname : h.name = n ++ slash :: tail) (hlength : n.length ≤ maxname) :
    h.bytes.take maxname = n ++ (slash :: tail).take (maxname - n.length) := by
  have hall := h.nameLength
  rw [hname, List.length_append, List.length_cons] at hall
  rw [Header.bytes, hname, List.take_append_of_le_length (by
    rw [List.length_append, List.length_cons]
    simp only [maxname]
    omega), List.take_append, List.take_of_length_le hlength]

/-- A header with a name of the usual form. -/
theorem readFilename_short {n tail after : Text} {size : Nat} {thin : Bool} {names : Option Text}
    (hname : h.name = n ++ slash :: tail) (hends : Ends n tail) :
    readFilename thin names size h.bytes after = some ⟨h.bytes, size, n, 0, 0⟩ := by
  have hbytes : h.bytes = n ++ slash :: (tail ++ h.rest) := by
    rw [Header.bytes, hname, List.append_assoc, List.cons_append]
  have hlength : n.length + 1 + tail.length = 16 := by
    have hlength := h.nameLength
    rw [hname, List.length_append, List.length_cons] at hlength
    omega
  have htake := take_maxname hname hends.length
  have htail (htwo : n.length = 2) : tail ≠ [] := by
    rintro rfl
    rw [htwo] at hlength
    cases hlength
  obtain ⟨c, n', rfl⟩ := List.exists_cons_of_ne_nil hends.nonempty
  have hc : c ≠ slash := by
    rintro rfl
    exact hends.slashes List.mem_cons_self
  have hnul : nul ∉ h.bytes.take maxname := by
    rw [htake, List.mem_append, not_or]
    refine ⟨hends.nuls, ?_⟩
    cases hk : maxname - (c :: n').length with
    | zero => exact List.not_mem_nil
    | succ k =>
      rw [List.take_succ_cons, List.mem_cons, not_or]
      refine ⟨by decide, ?_⟩
      have hstale := hends.stale
      rwa [Nat.sub_right_comm, hk, Nat.add_sub_cancel] at hstale
  -- where the name ends
  have hslash : (c :: n').length < maxname → memchr slash (h.bytes.take maxname) =
      some (c :: n').length := by
    intro hlt
    obtain ⟨k, hk⟩ : ∃ k, maxname - (c :: n').length = k + 1 := ⟨maxname - (c :: n').length - 1, by omega⟩
    rw [htake, hk, List.take_succ_cons]
    exact memchr_append hends.slashes
  have hfull : (c :: n').length = maxname → h.bytes.take maxname = c :: n' := by
    intro heq
    rw [htake, heq, Nat.sub_self, List.take_zero, List.append_nil]
  have hlen : namelen h.bytes = (c :: n').length := by
    rcases Nat.lt_or_eq_of_le hends.length with hlt | heq
    · simp only [namelen, memchr_none hnul, hslash hlt, Option.none_or, Option.some_or,
        Option.getD_some]
    · have hblank : space ∉ h.bytes.take maxname := by
        rw [hfull heq]
        exact hends.blanks heq
      have hnone : slash ∉ h.bytes.take maxname := by
        rw [hfull heq]
        exact hends.slashes
      simp only [namelen, memchr_none hnul, memchr_none hnone, memchr_none hblank, Option.none_or,
        Option.getD_none, heq]
  have hextended : (h.bytes.head? = some slash ||
      h.bytes.head? = some space && (memchr slash (h.bytes.take maxname)).isNone) = false := by
    have hhead : h.bytes.head? = some c := by
      rw [hbytes]
      rfl
    rw [hhead, Bool.or_eq_false_iff, decide_eq_false_iff_not, Bool.and_eq_false_iff]
    refine ⟨fun heq => hc (Option.some.inj heq), ?_⟩
    rcases Nat.lt_or_eq_of_le hends.length with hlt | heq
    · right
      rw [hslash hlt]
      rfl
    · left
      rw [decide_eq_false_iff_not]
      intro hblank
      exact hends.blanks heq (by rw [Option.some.inj hblank]; exact List.mem_cons_self)
  have hbsd : isBsd44ExtendedName h.bytes = false := not_bsd hbytes htail hends
  have hfilename : (h.bytes.take (c :: n').length).takeWhile (· ≠ nul) = c :: n' := by
    rw [hbytes, List.take_left, List.takeWhile_eq_self_iff]
    intro b hb
    rw [decide_eq_true_eq]
    rintro rfl
    exact hends.nuls hb
  simp only [readFilename, hextended, Bool.false_eq_true, if_false, hbsd, hlen, hfilename]

/-- A name that comes back out of its own field, whatever stands behind the header, ends there. -/
theorem ends_of_readFilename {n tail : Text} {size : Nat} {thin : Bool}
    (hname : h.name = n ++ slash :: tail) (hne : n ≠ []) (hslash : slash ∉ n) (hnul : nul ∉ n)
    (hlength : n.length ≤ maxname)
    (hread : ∀ after, ∃ r, readFilename thin none size h.bytes after = some r ∧ r.filename = n) :
    Ends n tail := by
  have hbytes : h.bytes = n ++ slash :: (tail ++ h.rest) := by
    rw [Header.bytes, hname, List.append_assoc, List.cons_append]
  have hbsd : isBsd44ExtendedName h.bytes = false := by
    by_contra hbsd
    rw [Bool.not_eq_false] at hbsd
    obtain ⟨r, hr, hfilename⟩ := hread []
    simp only [readFilename, ite_self, hbsd, if_true, List.take_nil, List.takeWhile_nil] at hr
    split at hr
    next => cases hr
    next =>
      obtain rfl := Option.some.inj hr
      exact hne hfilename.symm
  obtain ⟨r, hr, hfilename⟩ := hread []
  simp only [readFilename, ite_self, hbsd, Bool.false_eq_true, if_false] at hr
  obtain rfl := Option.some.inj hr
  have hfield := take_maxname hname hlength
  refine ⟨hne, hslash, hnul, hlength, ?_, ?_, ?_⟩
  · -- a NUL that is left behind the slash would end the name there
    intro hstale
    obtain ⟨k, hk⟩ : ∃ k, maxname - n.length = k + 1 := by
      refine ⟨maxname - n.length - 1, ?_⟩
      by_contra hzero
      have hnone : maxname - 1 - n.length = 0 := by omega
      rw [hnone, List.take_zero] at hstale
      cases hstale
    rw [Nat.sub_right_comm, hk, Nat.add_sub_cancel] at hstale
    rw [hk, List.take_succ_cons] at hfield
    have htake : (n ++ slash :: tail.take k).takeWhile (· ≠ nul) =
        n ++ slash :: (tail.take k).takeWhile (· ≠ nul) := by
      rw [List.takeWhile_append_of_pos, List.takeWhile_cons_of_pos (by decide)]
      intro b hb
      rw [decide_eq_true_eq]
      rintro rfl
      exact hnul hb
    have hlen : namelen h.bytes = n.length + 1 + ((tail.take k).takeWhile (· ≠ nul)).length := by
      have hmem : nul ∈ n ++ slash :: tail.take k :=
        List.mem_append_right _ (List.mem_cons_of_mem _ hstale)
      simp only [namelen, hfield, memchr_of_mem hmem, htake, Option.some_or, Option.getD_some,
        List.length_append, List.length_cons]
      omega
    have hlonger : (h.bytes.take (namelen h.bytes)).takeWhile (· ≠ nul) ≠ n := by
      rw [hlen, hbytes, Nat.add_assoc, List.take_length_add_append, Nat.add_comm 1,
        List.take_succ_cons, List.takeWhile_append_of_pos, List.takeWhile_cons_of_pos (by decide)]
      · intro heq
        have heq' := congrArg List.length heq
        rw [List.length_append, List.length_cons] at heq'
        omega
      · intro b hb
        rw [decide_eq_true_eq]
        rintro rfl
        exact hnul hb
    exact hlonger hfilename
  · -- without a slash in the field, a blank would end the name
    intro hfull hblank
    rw [hfull, Nat.sub_self, List.take_zero, List.append_nil] at hfield
    have hlt : (n.takeWhile (· ≠ space)).length < n.length := by
      apply Nat.lt_of_le_of_ne (List.takeWhile_sublist _).length_le
      intro heq
      have hsame := (List.takeWhile_prefix (fun b => decide (b ≠ space))).eq_of_length heq
      rw [← hsame] at hblank
      simpa using List.mem_takeWhile_imp hblank
    have hfound : memchr space n = some (n.takeWhile (· ≠ space)).length :=
      memchr_of_mem hblank
    have hlen : namelen h.bytes = (n.takeWhile (· ≠ space)).length := by
      simp only [namelen, hfield, memchr_none hnul, memchr_none hslash, hfound, Option.none_or,
        Option.getD_some]
    have hle := (List.takeWhile_sublist (fun b => decide (b ≠ nul))
      (l := h.bytes.take (namelen h.bytes))).length_le
    have hname' : (h.bytes.take (namelen h.bytes)).takeWhile (· ≠ nul) = n := hfilename
    rw [hname', List.length_take, hlen] at hle
    omega
  · intro hone b hb
    by_contra hdigit
    rw [Bool.not_eq_false] at hdigit
    have htrue : isBsd44ExtendedName h.bytes = true := by
      have hget : h.bytes[3]? = some b := by
        rw [hbytes, hone]
        cases tail with
        | nil => cases hb
        | cons t tail => exact hb
      rw [isBsd44ExtendedName, hget, hbytes, hone]
      simpa using hdigit
    rw [hbsd] at htrue
    cases htrue

/-! The table. -/

def Ar.entry (ar : Ar) (n : Text) : Text := n ++ ar.ending

/-- The table with some entries. -/
def tableOf (ar : Ar) (l : List Text) : Text := l.flatMap ar.entry

/-- A name that the table can hold: a string without a newline or a backslash, that does not end in a
slash where its entry does not either. -/
structure Plain (ar : Ar) (n : Text) : Prop where
  nuls : nul ∉ n
  newlines : newline ∉ n
  backslashes : backslash ∉ n
  ending : ar.trailingSlash = true ∨ n.getLast? ≠ some slash

variable {n : Text} {l l₁ l₂ : List Text} {prev : Option BfdByte}

theorem ending_length (ar : Ar) : 0 < ar.ending.length := by
  rw [Ar.ending]
  split <;> decide

theorem tableOf_cons : tableOf ar (n :: l) = n ++ ar.ending ++ tableOf ar l := rfl

theorem tableOf_append : tableOf ar (l₁ ++ l₂) = tableOf ar l₁ ++ tableOf ar l₂ :=
  List.flatMap_append

theorem fixNames_cons (prev : Option BfdByte) (c : BfdByte) (cs : Text) :
    fixNames prev (c :: cs) =
      if c = newline then
        if prev = some slash then nul :: fixNames (some newline) cs
        else prev.toList ++ fixNames (some nul) cs
      else prev.toList ++ fixNames (some (if c = backslash then slash else c)) cs :=
  rfl

theorem length_fixNames (prev : Option BfdByte) (t : Text) :
    (fixNames prev t).length = prev.toList.length + t.length := by
  induction t generalizing prev with
  | nil => rfl
  | cons c t ih =>
    rw [fixNames_cons]
    split
    next =>
      split
      next hprev =>
        rw [hprev, List.length_cons, ih]
        simp only [Option.toList_some, List.length_cons, List.length_nil]
        omega
      next =>
        rw [List.length_append, ih]
        simp only [Option.toList_some, List.length_cons, List.length_nil]
        omega
    next =>
      rw [List.length_append, ih]
      simp only [Option.toList_some, List.length_cons, List.length_nil]
      omega

theorem fixNames_other {c : BfdByte} (hnewline : c ≠ newline) (hback : c ≠ backslash) :
    fixNames prev (c :: rest) = prev.toList ++ fixNames (some c) rest := by
  rw [fixNames_cons, if_neg hnewline, if_neg hback]

theorem fixNames_newline (hprev : prev ≠ some slash) :
    fixNames prev (newline :: rest) = prev.toList ++ fixNames (some nul) rest := by
  rw [fixNames_cons, if_pos rfl, if_neg hprev]

theorem fixNames_slash :
    fixNames (some slash) (newline :: rest) = nul :: fixNames (some newline) rest := by
  rw [fixNames_cons, if_pos rfl, if_pos rfl]

/-- A byte that no newline takes away stays. -/
theorem fixNames_some {b : BfdByte} (hb : b ≠ slash) (rest : Text) :
    ∃ t, fixNames (some b) rest = b :: t := by
  cases rest with
  | nil => exact ⟨[], rfl⟩
  | cons c rest =>
    by_cases hc : c = newline
    · subst hc
      exact ⟨_, fixNames_newline fun h => hb (Option.some.inj h)⟩
    · rw [fixNames_cons, if_neg hc]
      exact ⟨_, rfl⟩

/-- The bytes of a name stay, and the last one of them may still change. -/
theorem fixNames_name (prev : Option BfdByte) (rest : Text) (hnewline : newline ∉ n)
    (hback : backslash ∉ n) :
    ∃ front last, fixNames prev (n ++ rest) = front ++ fixNames last rest ∧
      front ++ last.toList = prev.toList ++ n ∧ last = n.getLast?.or prev := by
  induction n generalizing prev with
  | nil => exact ⟨[], prev, rfl, (List.append_nil _).symm, rfl⟩
  | cons c n ih =>
    rw [List.mem_cons, not_or] at hnewline hback
    obtain ⟨front, last, heq, hbytes, hlast⟩ := ih (some c) hnewline.2 hback.2
    refine ⟨prev.toList ++ front, last, ?_, ?_, ?_⟩
    · rw [List.cons_append, fixNames_other (Ne.symm hnewline.1) (Ne.symm hback.1), heq,
        List.append_assoc]
    · rw [List.append_assoc, hbytes]
      rfl
    · rw [hlast, List.getLast?_cons]
      cases n.getLast? <;> rfl

/-- An entry becomes a string: its name, and a NUL in place of its ending. -/
theorem fixNames_entry (rest : Text) (hn : Plain ar n) (hprev : prev ≠ some slash) :
    ∃ front b, fixNames prev (n ++ ar.ending ++ rest) =
        prev.toList ++ n ++ front ++ fixNames (some b) rest ∧
      b ≠ slash ∧ (front ++ [b]).head? = some nul ∧ front.length + 1 = ar.ending.length := by
  obtain ⟨front, last, heq, hbytes, hlast⟩ :=
    fixNames_name prev (ar.ending ++ rest) hn.newlines hn.backslashes
  rw [List.append_assoc, heq]
  by_cases htrailing : ar.trailingSlash = true
  · refine ⟨[nul], newline, ?_, by decide, rfl, ?_⟩
    · rw [Ar.ending, if_pos htrailing, List.cons_append, List.cons_append, List.nil_append,
        fixNames_other (by decide) (by decide), fixNames_slash, ← List.append_assoc, hbytes]
      simp
    · rw [Ar.ending, if_pos htrailing]
      rfl
  · have hend : last ≠ some slash := by
      rw [hlast]
      cases hget : n.getLast? with
      | none => exact hprev
      | some b =>
        rw [← hget]
        exact fun h => hn.ending.elim htrailing fun hne => hne (by simpa [hget] using h)
    refine ⟨[], nul, ?_, by decide, rfl, ?_⟩
    · rw [Ar.ending, if_neg htrailing, List.cons_append, List.nil_append, fixNames_newline hend,
        ← List.append_assoc, hbytes, List.append_nil]
    · rw [Ar.ending, if_neg htrailing]
      rfl

theorem fixNames_tableOf (rest : Text) (hl : ∀ n ∈ l, Plain ar n) (hprev : prev ≠ some slash) :
    ∃ front last, fixNames prev (tableOf ar l ++ rest) = front ++ fixNames last rest ∧
      front.length + last.toList.length = prev.toList.length + (tableOf ar l).length ∧
      last ≠ some slash := by
  induction l generalizing prev with
  | nil => exact ⟨[], prev, rfl, by simp [tableOf], hprev⟩
  | cons n l ih =>
    obtain ⟨front, b, heq, hb, -, hlength⟩ := fixNames_entry (tableOf ar l ++ rest)
      (hl n List.mem_cons_self) hprev
    have hb' : some b ≠ some slash := fun h => hb (Option.some.inj h)
    obtain ⟨front', last, heq', hlength', hlast⟩ :=
      ih (fun n hn => hl n (List.mem_cons_of_mem _ hn)) hb'
    refine ⟨prev.toList ++ n ++ front ++ front', last, ?_, ?_, hlast⟩
    · rw [tableOf_cons, List.append_assoc, heq, heq']
      simp only [List.append_assoc]
    · simp only [tableOf_cons, List.length_append, Option.toList_some, List.length_cons,
        List.length_nil] at hlength hlength' ⊢
      omega

/-- The string at the place of an entry is its name. -/
theorem fixNames_at (hl : ∀ n ∈ l₁, Plain ar n) (hn : Plain ar n) (pad : Text) :
    ((fixNames none (tableOf ar (l₁ ++ n :: l₂) ++ pad)).drop (tableOf ar l₁).length).takeWhile
      (· ≠ nul) = n := by
  obtain ⟨front, last, heq, hlength, hlast⟩ := fixNames_tableOf
    (tableOf ar (n :: l₂) ++ pad) hl (Option.some_ne_none slash).symm
  obtain ⟨front', b, heq', hb, hhead, -⟩ := fixNames_entry
    (tableOf ar l₂ ++ pad) hn hlast
  obtain ⟨t, ht⟩ := fixNames_some hb (tableOf ar l₂ ++ pad)
  have hsplit : fixNames none (tableOf ar (l₁ ++ n :: l₂) ++ pad) =
      (front ++ last.toList) ++ (n ++ ((front' ++ [b]) ++ t)) := by
    rw [tableOf_append, List.append_assoc, heq, tableOf_cons, List.append_assoc, heq', ht]
    simp
  have hfront : (front ++ last.toList).length = (tableOf ar l₁).length := by
    rw [List.length_append, hlength]
    simp
  obtain ⟨tail, htail⟩ : ∃ tail, front' ++ [b] = nul :: tail := by
    cases hcons : front' ++ [b] with
    | nil => simp at hcons
    | cons c tail =>
      rw [hcons] at hhead
      obtain rfl : c = nul := Option.some.inj hhead
      exact ⟨tail, rfl⟩
  rw [hsplit, List.drop_left' hfront, htail, List.takeWhile_append_of_pos, List.cons_append,
    List.takeWhile_cons_of_neg (by simp), List.append_nil]
  intro c hc
  rw [decide_eq_true_eq]
  rintro rfl
  exact hn.nuls hc

end FusionBinutils.Bfd.NameTable
