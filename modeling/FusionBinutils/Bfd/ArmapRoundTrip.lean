import FusionBinutils.Bfd.Armap

/-! The index of an archive points at the headers of the members. -/
namespace FusionBinutils.Bfd.Armap
variable {thin : Bool} {m : Member} {ms : List Member} {n pos ptr size : Nat}
  {file front rest : List BfdByte} {h : ArHdr} {env : Env} {a : Archive}

/-! Headers. -/

@[simp]
theorem length_field (n : Nat) (bs : List BfdByte) : (field n bs).length = n := by
  simp [field]

@[simp]
theorem ArHdr.length_bytes (h : ArHdr) : h.bytes.length = 60 := by
  simp [ArHdr.bytes]

theorem arSizepad_eq (hsize : size < 10 ^ 10) :
    arSizepad 10 size = some (field 10 (Decimal.text size)) := by
  have hlen := Decimal.length_text (by decide) hsize
  have hmax : max 10 (Decimal.text size).length = 10 := by omega
  have hfield : field 10 (field 10 (Decimal.text size)) = field 10 (Decimal.text size) :=
    List.take_left' (length_field 10 _)
  rw [arSizepad]
  simp only [hmax, length_field, hfield, Nat.lt_irrefl, if_false]

/-- The size of a header is read as it was written. -/
theorem scanSize_text (hsize : size < 10 ^ 10) :
    scanSize (field 10 (Decimal.text size)) = some size := by
  have hlen := Decimal.length_text (by decide) hsize
  have hfield : field 10 (Decimal.text size) =
      Decimal.text size ++ List.replicate (10 - (Decimal.text size).length) space := by
    rw [field, List.take_append, List.take_of_length_le hlen, List.take_replicate,
      Nat.min_eq_left (by omega)]
  have hdigits : ∀ b ∈ Decimal.text size, Decimal.isDigit b = true :=
    fun b hb => Decimal.isDigit_text hb
  have hvalue := Decimal.value_text size
  have hne := Decimal.text_ne_nil size
  generalize Decimal.text size = ds at *
  cases ds with
  | nil => exact absurd rfl hne
  | cons d ds =>
    have hd := hdigits d (by simp)
    simp only [Decimal.isDigit, Bool.and_eq_true, decide_eq_true_eq] at hd
    have hspace : isSpace d = false := by
      have h32 : d ≠ 32#8 := by
        rintro rfl
        simp at hd
      simp only [isSpace, h32, decide_false, Bool.false_or, Bool.and_eq_false_iff,
        decide_eq_false_iff_not]
      omega
    have hplus : d ≠ 43#8 := by
      rintro rfl
      simp at hd
    have hminus : d ≠ 45#8 := by
      rintro rfl
      simp at hd
    have htake : ((d :: ds) ++ List.replicate (10 - (d :: ds).length) space).takeWhile
        Decimal.isDigit = d :: ds := by
      rw [List.takeWhile_append_of_pos hdigits]
      cases 10 - (d :: ds).length with
      | zero => simp
      | succ k =>
        rw [List.replicate_succ, List.takeWhile_cons_of_neg (by decide), List.append_nil]
    rw [scanSize, hfield, List.cons_append, List.dropWhile_cons_of_neg (by simp [hspace])]
    simp only [List.head?_cons, Option.some.injEq, hplus, hminus, decide_false, Bool.or_self,
      Bool.false_eq_true, if_false]
    rw [← List.cons_append, htake, hvalue, if_neg (by simp), Nat.min_eq_left (by omega)]

/-- A header that is read is what stands there. -/
theorem archHeader_eq {t : AreltData} (h : readArHdr file pos = some t) :
    t.archHeader = (file.drop pos).take 60 := by
  rw [readArHdr] at h
  dsimp only at h
  split at h
  · cases h
  · split at h
    · cases h
    · simp only [Option.bind_eq_bind, Option.bind_eq_some_iff] at h
      obtain ⟨size, -, h⟩ := h
      split at h
      · split at h
        · cases h
        · cases h
          rfl
      · cases h
        rfl

/-- A header whose name is no BSD one is read as it was written. -/
theorem readArHdr_named (front date uid gid mode rest : List BfdByte) {name : List BfdByte}
    (hsize : size < 10 ^ 10) (hname : (field 16 name).head? ≠ some 35#8) :
    ∃ hdr, readArHdr (front ++ (ArHdr.bytes ⟨name, date, uid, gid, mode,
      field 10 (Decimal.text size), arfmag⟩ ++ rest)) front.length =
        some ⟨hdr, size, front.length + 60⟩ := by
  generalize hh : (⟨name, date, uid, gid, mode, field 10 (Decimal.text size), arfmag⟩ : ArHdr) = h
  have htake : (h.bytes ++ rest).take hdrSize = h.bytes := List.take_left' h.length_bytes
  have hfield : field 10 h.size = field 10 (Decimal.text size) := by
    rw [← hh]
    exact List.take_left' (length_field 10 _)
  have hsz : (h.bytes.drop 48).take 10 = field 10 (Decimal.text size) := by
    rw [← hfield, ArHdr.bytes, List.append_assoc, List.drop_left' (by simp),
      List.take_left' (by simp)]
  have hmag : (h.bytes.drop 58).take 2 = arfmag := by
    rw [ArHdr.bytes, List.drop_left' (by simp), ← hh]
    rfl
  have hname : h.bytes.take 3 ≠ [35#8, 49#8, 47#8] := by
    intro heq
    have hhead : h.bytes.head? = some 35#8 := by
      have hthree := congrArg List.head? heq
      rwa [List.head?_take, if_neg (by decide)] at hthree
    rw [ArHdr.bytes, List.append_assoc, List.append_assoc, List.append_assoc, List.append_assoc,
      List.append_assoc, List.head?_append_of_ne_nil _ (by
        rw [← List.length_pos_iff, length_field]
        decide), ← hh] at hhead
    exact hname hhead
  refine ⟨h.bytes, ?_⟩
  rw [readArHdr, List.drop_left' rfl, htake]
  simp only [h.length_bytes, hdrSize, ne_eq, not_true_eq_false, if_false, hmag, hsz,
    scanSize_text hsize, Option.bind_eq_bind, Option.bind_some]
  rw [if_neg fun hbsd => hname hbsd.1]

/-- The header of the index is read as it was written. -/
theorem readArHdr_index (front date uid gid mode rest : List BfdByte) (hsize : size < 10 ^ 10) :
    ∃ hdr, readArHdr (front ++ (ArHdr.bytes ⟨[slash], date, uid, gid, mode,
      field 10 (Decimal.text size), arfmag⟩ ++ rest)) front.length =
        some ⟨hdr, size, front.length + 60⟩ :=
  readArHdr_named front date uid gid mode rest hsize (by decide)

/-! The loops over the members. -/

/-- The names of the index with the expected position of their member. -/
def entries (thin : Bool) : Nat → List Member → List (List BfdByte × Nat)
  | _, [] => []
  | ptr, m :: ms => m.names.map (·, ptr) ++ entries thin (nextFilePtr thin ptr m) ms

theorem orl_names (thin : Bool) (i ptr : Nat) (ms : List Member) :
    (orl i ms).map Prod.snd = (entries thin ptr ms).map Prod.fst := by
  induction ms generalizing i ptr with
  | nil => rfl
  | cons m ms ih =>
    rw [orl, entries, List.map_append, List.map_append, ih (i + 1) (nextFilePtr thin ptr m)]
    simp [Function.comp_def]

theorem orl_ge {i : Nat} {e : Nat × List BfdByte} (h : e ∈ orl i ms) : i ≤ e.1 := by
  induction ms generalizing i with
  | nil => simp [orl] at h
  | cons m ms ih =>
    rw [orl] at h
    rcases List.mem_append.mp h with h | h
    · obtain ⟨name, -, rfl⟩ := List.mem_map.mp h
      exact le_rfl
    · have := ih h
      omega

/-- The walk that predicts the offsets. -/
theorem symbolOffsets_orl (i ptr : Nat) (ms : List Member)
    (h : ∀ e ∈ entries thin ptr ms, e.2 < 2 ^ 32) :
    symbolOffsets thin i ptr ms (orl i ms) = some ((entries thin ptr ms).map Prod.snd) := by
  induction ms generalizing i ptr with
  | nil => rfl
  | cons m ms ih =>
    have hnext := ih (i + 1) (nextFilePtr thin ptr m) fun e he => h e (by
      rw [entries]
      exact List.mem_append_right _ he)
    have hpos : ∀ e ∈ m.names.map (i, ·), decide (e.1 = i) = true := by
      intro e he
      obtain ⟨name, -, rfl⟩ := List.mem_map.mp he
      exact decide_eq_true rfl
    have hneg : ∀ e ∈ orl (i + 1) ms, ¬ decide (e.1 = i) = true := by
      intro e he
      have := orl_ge he
      simp only [decide_eq_true_eq]
      omega
    have hused : (orl i (m :: ms)).takeWhile (fun e => e.1 = i) = m.names.map (i, ·) := by
      rw [orl, List.takeWhile_append_of_pos hpos]
      cases hrest : orl (i + 1) ms with
      | nil => simp
      | cons e es =>
        rw [List.takeWhile_cons_of_neg (p := fun e : Nat × List BfdByte => decide (e.1 = i))
          (hneg e (by simp [hrest])), List.append_nil]
    have hleft : (orl i (m :: ms)).dropWhile (fun e => e.1 = i) = orl (i + 1) ms := by
      rw [orl, List.dropWhile_append_of_pos hpos]
      cases hrest : orl (i + 1) ms with
      | nil => simp
      | cons e es =>
        rw [List.dropWhile_cons_of_neg (p := fun e : Nat × List BfdByte => decide (e.1 = i))
          (hneg e (by simp [hrest]))]
    cases hmap : orl i (m :: ms) with
    | nil =>
      -- no symbol is left
      have hnames := orl_names thin i ptr (m :: ms)
      rw [hmap, List.map_nil, eq_comm, List.map_eq_nil_iff] at hnames
      rw [symbolOffsets, hnames, List.map_nil]
    | cons e es =>
      rw [symbolOffsets, ← hmap, hused, hleft, hnext]
      rw [if_neg]
      · simp [entries, Function.comp_def]
      · rintro ⟨hne, hlarge⟩
        obtain ⟨name, names, hcons⟩ := List.exists_cons_of_ne_nil (l := m.names) (by
          rintro hnil
          simp [hnil] at hne)
        have hlt := h (name, ptr) (by simp [entries, hcons])
        exact hlarge (Nat.mod_eq_of_lt hlt)

/-- The headers are written where they were expected. -/
theorem writeMembers_positions (hpos : pos % 2 = 0) (ms : List Member) :
    ((ms.zip (writeMembers thin pos ms).2).flatMap fun x => x.1.names.map (·, x.2)) =
      entries thin pos ms := by
  induction ms generalizing pos with
  | nil => rfl
  | cons m ms ih =>
    have hnext : nextFilePtr thin pos m = pos + (m.text thin).length := by
      cases thin
      · simp only [nextFilePtr, Member.text, padding, Bool.false_eq_true, if_false,
          List.length_append, ArHdr.length_bytes, hdrSize]
        split
        · simp only [List.length_singleton]
          omega
        · simp only [List.length_nil]
          omega
      · simp [nextFilePtr, Member.text, hdrSize]
    have heven : (pos + (m.text thin).length) % 2 = 0 := by
      rw [← hnext, nextFilePtr]
      dsimp only
      split
      · simp only [hdrSize]
        omega
      · omega
    rw [entries, hnext, ← ih heven, writeMembers]
    rfl

/-- The header of a member is at the position that was noted for it. -/
theorem writeMembers_header (thin : Bool) (front : List BfdByte) {i p : Nat} (hm : ms[i]? = some m)
    (hp : (writeMembers thin front.length ms).2[i]? = some p) :
    ((front ++ (writeMembers thin front.length ms).1).drop p).take 60 = m.hdr.bytes := by
  induction ms generalizing front i with
  | nil => simp at hm
  | cons x ms ih =>
    rw [writeMembers] at hp ⊢
    dsimp only at hp ⊢
    cases i with
    | zero =>
      obtain rfl : x = m := by simpa using hm
      obtain rfl : front.length = p := by simpa using hp
      rw [List.drop_left' rfl, Member.text, List.append_assoc,
        List.take_left' x.hdr.length_bytes]
    | succ i =>
      have hrest := @ih (front ++ x.text thin) i (by simpa using hm) (by
        rw [List.length_append]
        simpa using hp)
      rw [List.length_append] at hrest
      rwa [← List.append_assoc]

/-! The index in the file. -/

theorem words_put (l : List Nat) (h : ∀ v ∈ l, v < 2 ^ 32) :
    words (Endian.get true) l.length (l.flatMap (Endian.put true 4)) = l := by
  induction l with
  | nil => rfl
  | cons v l ih =>
    have hv : Endian.get true (Endian.put true 4 v) = v := by
      rw [Endian.get_put]
      exact Nat.mod_eq_of_lt (h v (by simp))
    rw [List.flatMap_cons, List.length_cons, words, List.take_left' (by simp),
      List.drop_left' (by simp), hv, ih fun x hx => h x (by simp [hx])]

theorem length_flatMap_put (l : List Nat) : (l.flatMap (Endian.put true 4)).length = 4 * l.length := by
  induction l with
  | nil => rfl
  | cons v l ih =>
    simp only [List.flatMap_cons, List.length_append, Endian.length_put, ih, List.length_cons]
    omega

/-- The names come back one by one, whatever is behind them. -/
theorem buildCarsyms_entries (l : List (List BfdByte × Nat)) (h : ∀ e ∈ l, ∀ b ∈ e.1, b ≠ 0#8)
    (pad : List BfdByte) :
    buildCarsyms (l.map Prod.snd) ((l.map Prod.fst).flatMap (fun name => name ++ [0#8]) ++ pad) =
      l.map fun e => ⟨some e.1, e.2⟩ := by
  induction l with
  | nil => rfl
  | cons e l ih =>
    have hname : ∀ b ∈ e.1, decide (b ≠ 0#8) = true := by
      intro b hb
      exact decide_eq_true (h e (by simp) b hb)
    generalize htail : (l.map Prod.fst).flatMap (fun name => name ++ [0#8]) ++ pad = tail at *
    have hstrings : ((e :: l).map Prod.fst).flatMap (fun name => name ++ [0#8]) ++ pad =
        e.1 ++ 0#8 :: tail := by
      rw [← htail]
      simp
    have htake : (e.1 ++ 0#8 :: tail).takeWhile (· ≠ 0#8) = e.1 := by
      rw [List.takeWhile_append_of_pos hname, List.takeWhile_cons_of_neg (by simp), List.append_nil]
    have hdrop : (e.1 ++ 0#8 :: tail).drop (e.1.length + 1) = tail := by
      rw [← List.drop_drop, List.drop_left' rfl]
      rfl
    rw [hstrings, List.map_cons]
    cases hcons : e.1 ++ 0#8 :: tail with
    | nil => simp at hcons
    | cons b bs =>
      rw [buildCarsyms, ← hcons, htake, hdrop, ih fun x hx => h x (by simp [hx])]
      rfl

theorem names_noNul {name : List BfdByte} (h : name ∈ m.names) {b : BfdByte} (hb : b ∈ name) :
    b ≠ 0#8 := by
  rw [Member.names] at h
  split at h
  · obtain ⟨s, -, rfl⟩ := List.mem_map.mp h
    exact s.noNul b hb
  · simp at h

theorem entries_noNul {e : List BfdByte × Nat} (h : e ∈ entries thin ptr ms) {b : BfdByte}
    (hb : b ∈ e.1) : b ≠ 0#8 := by
  induction ms generalizing ptr with
  | nil => simp [entries] at h
  | cons m ms ih =>
    rw [entries] at h
    rcases List.mem_append.mp h with h | h
    · obtain ⟨name, hname, rfl⟩ := List.mem_map.mp h
      exact names_noNul hname hb
    · exact ih h

/-- What the index takes in the file behind its header. -/
def mapSize (names : List (List BfdByte)) : Nat :=
  let size := 4 * names.length + 4 + (names.map fun name => name.length + 1).sum
  size + size % 2

/-- The index with its header. -/
def indexText (env : Env) (l : List (List BfdByte × Nat)) : List BfdByte :=
  ArHdr.bytes ⟨[slash], Decimal.text env.time, Decimal.text 0, Decimal.text 0, Decimal.text 0,
    field 10 (Decimal.text (mapSize (l.map Prod.fst))), arfmag⟩ ++
    (Endian.put true 4 l.length ++ ((l.map Prod.snd).flatMap (Endian.put true 4) ++
      ((l.map Prod.fst).flatMap (fun name => name ++ [0#8]) ++ List.replicate
        ((4 * l.length + 4 + ((l.map Prod.fst).map fun name => name.length + 1).sum) % 2) 0#8)))

theorem length_strings (names : List (List BfdByte)) :
    (names.flatMap fun name => name ++ [0#8]).length =
      (names.map fun name => name.length + 1).sum := by
  induction names with
  | nil => rfl
  | cons name names ih =>
    simp only [List.flatMap_cons, List.length_append, ih, List.map_cons, List.sum_cons,
      List.length_singleton]

theorem length_indexText (env : Env) (l : List (List BfdByte × Nat)) :
    (indexText env l).length = 60 + mapSize (l.map Prod.fst) := by
  simp only [indexText, mapSize, List.length_append, ArHdr.length_bytes, Endian.length_put,
    length_flatMap_put, length_strings, List.length_replicate, List.length_map]
  omega

/-- What the reader makes of a header that may be a second index. -/
def secondIndex (file : List BfdByte) (first : Nat) : Nat :=
  match readArHdr file first with
  | some tmp =>
    if tmp.archHeader.take 2 = [slash, space] then (tmp.parsedSize + hdrSize + 1) &&& 0xfffffffe
    else 0
  | none => 0

/-- The index is read as it was written. -/
theorem slurpCoffArmap_index (env : Env) (front rest : List BfdByte)
    {l : List (List BfdByte × Nat)} (hoff : ∀ e ∈ l, e.2 < 2 ^ 32)
    (hnul : ∀ e ∈ l, ∀ b ∈ e.1, b ≠ 0#8) (hsize : mapSize (l.map Prod.fst) < 2 ^ 32)
    (hfront : front.length % 2 = 0) :
    slurpCoffArmap false (front ++ (indexText env l ++ rest)) front.length =
      some ⟨l.map fun e => ⟨some e.1, e.2⟩, (front ++ indexText env l).length +
        secondIndex (front ++ (indexText env l ++ rest)) (front ++ indexText env l).length⟩ := by
  have hlenText := length_indexText env l
  have hcount : l.length < 2 ^ 32 := by
    simp only [mapSize, List.length_map] at hsize
    omega
  -- the parts of the index
  generalize hnames : (l.map Prod.fst).flatMap (fun name => name ++ [0#8]) ++ List.replicate
    ((4 * l.length + 4 + ((l.map Prod.fst).map fun name => name.length + 1).sum) % 2) 0#8 = strings
  have hstrings : strings.length = mapSize (l.map Prod.fst) - 4 * l.length - 4 := by
    rw [← hnames, List.length_append, length_strings, List.length_replicate, mapSize,
      List.length_map]
    omega
  have hlarge : 4 * l.length + 4 ≤ mapSize (l.map Prod.fst) := by
    rw [mapSize, List.length_map]
    omega
  generalize hraw : (l.map Prod.snd).flatMap (Endian.put true 4) = raw
  have hrawlen : raw.length = 4 * l.length := by
    rw [← hraw, length_flatMap_put, List.length_map]
  obtain ⟨hdr, hread⟩ := readArHdr_index front (Decimal.text env.time)
    (Decimal.text 0) (Decimal.text 0) (Decimal.text 0)
    (Endian.put true 4 l.length ++ (raw ++ (strings ++ rest)))
    (show mapSize (l.map Prod.fst) < 10 ^ 10 by omega)
  have htext : indexText env l ++ rest = ArHdr.bytes ⟨[slash], Decimal.text env.time,
      Decimal.text 0, Decimal.text 0, Decimal.text 0,
      field 10 (Decimal.text (mapSize (l.map Prod.fst))), arfmag⟩ ++
      (Endian.put true 4 l.length ++ (raw ++ (strings ++ rest))) := by
    rw [indexText, hnames, hraw]
    simp only [List.append_assoc]
  have hpos : (front ++ indexText env l).length =
      front.length + 60 + 4 + 4 * l.length + strings.length := by
    rw [List.length_append, hlenText, hstrings]
    omega
  have hdrop : (front ++ (indexText env l ++ rest)).drop (front.length + 60) =
      Endian.put true 4 l.length ++ (raw ++ (strings ++ rest)) := by
    rw [htext, ← List.drop_drop, List.drop_left' rfl, List.drop_left' (ArHdr.length_bytes _)]
  have hdrop4 : (front ++ (indexText env l ++ rest)).drop (front.length + 60 + 4) =
      raw ++ (strings ++ rest) := by
    rw [← List.drop_drop, hdrop, List.drop_left' (by simp)]
  have hdropRaw : (front ++ (indexText env l ++ rest)).drop
      (front.length + 60 + 4 + 4 * l.length) = strings ++ rest := by
    rw [← List.drop_drop, hdrop4, List.drop_left' hrawlen]
  rw [← htext] at hread
  have hget : Endian.get true (Endian.put true 4 l.length) = l.length := by
    rw [Endian.get_put]
    exact Nat.mod_eq_of_lt hcount
  have hsz : (mapSize (l.map Prod.fst) + 2 ^ 64 + 2 ^ 64 - 4 * l.length - 4) % 2 ^ 64 =
      strings.length := by
    omega
  have heven : front.length + 60 + 4 + 4 * l.length + strings.length +
      (front.length + 60 + 4 + 4 * l.length + strings.length) % 2 =
      (front ++ indexText env l).length := by
    have hmod : mapSize (l.map Prod.fst) % 2 = 0 := by
      rw [mapSize]
      omega
    omega
  have hwords := words_put (l.map Prod.snd) (by
    intro v hv
    obtain ⟨e, he, rfl⟩ := List.mem_map.mp hv
    exact hoff e he)
  rw [hraw, List.length_map] at hwords
  have hbuild := buildCarsyms_entries l hnul (List.replicate
    ((4 * l.length + 4 + ((l.map Prod.fst).map fun name => name.length + 1).sum) % 2) 0#8)
  rw [hnames] at hbuild
  rw [slurpCoffArmap, hread]
  simp only [Option.bind_eq_bind, Option.bind_some, hdrop, Bool.false_and, Bool.false_eq_true,
    if_false, Bool.not_false]
  rw [List.take_left' (by simp), if_neg (by simp), hget, hsz, if_neg (by omega), hdrop4, hdropRaw,
    List.take_left' hrawlen, List.take_left' rfl, if_neg (by simp [hrawlen]), heven, hwords, hbuild]
  rfl

/-! The index that is written. -/

/-- What the name table takes in the file. -/
def tableSize (elength : Nat) : Nat := if elength = 0 then 0 else hdrSize + (elength + elength % 2)

theorem entries_names (thin : Bool) (ptr : Nat) (ms : List Member) :
    (entries thin ptr ms).map Prod.fst = ms.flatMap Member.names := by
  induction ms generalizing ptr with
  | nil => rfl
  | cons m ms ih => simp [entries, ih, Function.comp_def]

theorem computeAndWriteArmap_eq (env : Env) {elength first : Nat}
    (hfirst : first = sarmag + hdrSize + mapSize (ms.flatMap Member.names) + tableSize elength)
    (hsize : first < 2 ^ 32) (hoff : ∀ e ∈ entries thin first ms, e.2 < 2 ^ 32) :
    computeAndWriteArmap env thin ms (elength % 2 ^ 32) =
      some (indexText env (entries thin first ms)) := by
  have hnames := entries_names thin first ms
  have horl := (orl_names thin 0 first ms).trans hnames
  have hlength : (orl 0 ms).length = (ms.flatMap Member.names).length := by
    rw [← horl, List.length_map]
  have hcount : (entries thin first ms).length = (ms.flatMap Member.names).length := by
    rw [← hnames, List.length_map]
  have hsum : ((orl 0 ms).map fun e => e.2.length + 1).sum =
      ((ms.flatMap Member.names).map fun name => name.length + 1).sum := by
    rw [← horl, List.map_map]
    rfl
  have hstrings : (orl 0 ms).flatMap (fun e => e.2 ++ [0#8]) =
      (ms.flatMap Member.names).flatMap fun name => name ++ [0#8] := by
    rw [← horl, List.flatMap_map]
  have hmapSize : mapSize (ms.flatMap Member.names) =
      4 * (ms.flatMap Member.names).length + 4 +
        ((ms.flatMap Member.names).map fun name => name.length + 1).sum +
        (4 * (ms.flatMap Member.names).length + 4 +
          ((ms.flatMap Member.names).map fun name => name.length + 1).sum) % 2 := rfl
  have htext : indexText env (entries thin first ms) = ArHdr.bytes ⟨[slash],
      Decimal.text env.time, Decimal.text 0, Decimal.text 0, Decimal.text 0,
      field 10 (Decimal.text (mapSize (ms.flatMap Member.names))), arfmag⟩ ++
      (Endian.put true 4 (ms.flatMap Member.names).length ++
      (((entries thin first ms).map Prod.snd).flatMap (Endian.put true 4) ++
      ((ms.flatMap Member.names).flatMap (fun name => name ++ [0#8]) ++ List.replicate
        ((4 * (ms.flatMap Member.names).length + 4 +
          ((ms.flatMap Member.names).map fun name => name.length + 1).sum) % 2) 0#8))) := by
    rw [indexText, hnames, hcount]
  rw [htext]
  generalize (ms.flatMap Member.names).length = count at *
  generalize ((ms.flatMap Member.names).map fun name => name.length + 1).sum = strings at *
  generalize mapSize (ms.flatMap Member.names) = size at *
  -- no `unsigned int` overflows
  have helength : (if elength % 2 ^ 32 ≠ 0 then (elength % 2 ^ 32 + hdrSize) % 2 ^ 32
      else elength % 2 ^ 32) + (if elength % 2 ^ 32 ≠ 0 then (elength % 2 ^ 32 + hdrSize) % 2 ^ 32
      else elength % 2 ^ 32) % 2 = tableSize elength := by
    simp only [tableSize, hdrSize, sarmag] at hfirst ⊢
    split at hfirst <;> split <;> omega
  have hpad : (strings % 2 ^ 32 + (count * 4 + 4) % 2 ^ 32) % 2 ^ 32 = 4 * count + 4 + strings := by
    simp only [sarmag, hdrSize] at hfirst
    omega
  have hmap : (4 * count + 4 + strings + (4 * count + 4 + strings) % 2) % 2 ^ 32 = size := by
    simp only [sarmag, hdrSize] at hfirst
    omega
  have hptr : (size + tableSize elength % 2 ^ 32) % 2 ^ 32 + hdrSize + sarmag = first := by
    simp only [sarmag, hdrSize] at hfirst ⊢
    omega
  rw [computeAndWriteArmap]
  simp only [helength, hsum, coffWriteArmap, hlength, hpad, hmap, hptr]
  rw [symbolOffsets_orl 0 first ms hoff, arSizepad_eq (by omega), hstrings]
  simp only [Option.bind_eq_bind, Option.bind_some, List.append_assoc]

/-! The name table. -/

theorem length_fillTable (env : Env) (a : Archive) (last : Option (List BfdByte × Nat)) (strptr : Nat) (ms : List Member) :
    (fillTable env a last strptr ms).1.length = totalNamelen env a (last.map Prod.fst) ms := by
  induction ms generalizing last strptr with
  | nil => rfl
  | cons m ms ih =>
    rw [fillTable, totalNamelen]
    cases hthin : a.thin
    · simp only [Bool.false_eq_true, false_and, if_false, or_false]
      by_cases hlong : maxname < (lbasename m.filename).length
      · rw [if_pos hlong, if_pos hlong]
        simp only [List.length_append, ih, Option.map_some, List.length_cons, List.length_nil]
        -- outside a thin archive the path before does not matter
        have hlast : ∀ x y, totalNamelen env a x ms = totalNamelen env a y ms := by
          intro x y
          clear ih
          induction ms generalizing x y with
          | nil => rfl
          | cons m' ms ih =>
            simp only [totalNamelen, hthin, Bool.false_eq_true, if_false]
            rw [ih x y]
        rw [hlast (some m.path) (last.map Prod.fst)]
      · rw [if_neg hlong, if_neg hlong]
        simp only [ih, Nat.zero_add]
    · simp only [true_and, if_true, or_true]
      by_cases hsame : last.map Prod.fst = some m.path
      · rw [if_pos hsame, if_pos hsame]
        exact ih last strptr
      · rw [if_neg hsame, if_neg hsame]
        simp only [List.length_append, ih, Option.map_some, List.length_cons, List.length_nil]

/-- The name table changes nothing of a member but the name in its header. -/
structure Named (m m' : Member) : Prop where
  filename : m'.filename = m.filename
  names : m'.names = m.names
  contents : m'.contents = m.contents

theorem named_shortName (m : Member) : Named m (shortName m) := by
  rw [shortName]
  dsimp only
  split <;> exact ⟨rfl, rfl, rfl⟩

theorem fillTable_named (env : Env) (a : Archive) (last : Option (List BfdByte × Nat)) (strptr : Nat) (ms : List Member) :
    List.Forall₂ Named ms (fillTable env a last strptr ms).2 := by
  induction ms generalizing last strptr with
  | nil => exact .nil
  | cons m ms ih =>
    rw [fillTable]
    dsimp only
    generalize (if a.thin = true then thinName env a m.path else lbasename m.filename) = normal
    split
    · exact .cons ⟨rfl, rfl, rfl⟩ (ih _ _)
    · split
      · exact .cons ⟨rfl, rfl, rfl⟩ (ih _ _)
      · exact .cons (named_shortName m) (ih _ _)

theorem dropSymdef_named {ms' : List Member} (h : List.Forall₂ Named ms ms') :
    List.Forall₂ Named (dropSymdef ms) (dropSymdef ms') := by
  induction h with
  | nil => exact .nil
  | @cons m m' ms ms' hm hms ih =>
    simp only [dropSymdef, List.dropWhile_cons, hm.filename]
    split
    · exact ih
    · exact .cons hm hms

/-- Without a name table every name is a short one. -/
theorem fillTable_short (hthin : a.thin = false) (last : Option (List BfdByte × Nat)) (strptr : Nat)
    (h : totalNamelen env a (last.map Prod.fst) ms = 0) :
    (fillTable env a last strptr ms).2 = ms.map shortName := by
  induction ms generalizing last strptr with
  | nil => rfl
  | cons m ms ih =>
    rw [totalNamelen, hthin] at h
    simp only [Bool.false_eq_true, if_false] at h
    have hshort : ¬ maxname < (lbasename m.filename).length := by
      intro hlong
      rw [if_pos hlong] at h
      omega
    rw [if_neg hshort, Nat.zero_add] at h
    rw [fillTable, hthin]
    simp only [Bool.false_eq_true, false_and, if_false, or_false, if_neg hshort]
    rw [ih last strptr h, List.map_cons]

/-- A short name in a header does not start with a slash. -/
theorem shortName_head (hne : lbasename m.filename ≠ []) :
    (shortName m).hdr.bytes.head? ≠ some slash := by
  obtain ⟨b, bs, hbase⟩ := List.exists_cons_of_ne_nil hne
  have hb : b ≠ slash := by
    have hmem : b ∈ lbasename m.filename := by simp [hbase]
    rw [lbasename, List.mem_reverse] at hmem
    simpa using List.mem_takeWhile_imp hmem
  have hname : ∃ tl, field 16 (shortName m).hdr.name = b :: tl := by
    rw [shortName]
    dsimp only
    split
    · refine ⟨(field 16 (memcpy (memcpy (field 16 m.hdr.name) 0 (lbasename m.filename))
        (lbasename m.filename).length [slash])).tail, ?_⟩
      rw [hbase]
      rfl
    · next hkeep =>
      simp only [not_or, not_not] at hkeep
      rw [hbase] at hkeep
      cases hcons : field 16 m.hdr.name with
      | nil => simp [hcons] at hkeep
      | cons c cs =>
        rw [hcons, List.length_cons, List.take_succ_cons, List.cons.injEq] at hkeep
        exact ⟨cs, by rw [hkeep.1.1]⟩
  obtain ⟨tl, htl⟩ := hname
  rw [ArHdr.bytes, htl]
  simpa using hb

theorem secondIndex_zero (front : List BfdByte) (h : rest.take 2 ≠ [slash, space]) :
    secondIndex (front ++ rest) front.length = 0 := by
  rw [secondIndex]
  split
  · next tmp hread =>
    have hhdr := archHeader_eq hread
    rw [List.drop_left' rfl] at hhdr
    rw [hhdr, List.take_take, if_neg (by simpa using h)]
  · rfl

/-! The whole archive. -/

/-- The members that are written. -/
def writtenMembers (env : Env) (a : Archive) : List Member :=
  dropSymdef (fillTable env a none 0 a.members).2

/-- The size of an archive with an index. -/
def totalSize (env : Env) (a : Archive) : Nat :=
  sarmag + hdrSize + mapSize ((writtenMembers env a).flatMap Member.names) +
    tableSize (totalNamelen env a none a.members) +
    ((writtenMembers env a).map fun m => (m.text a.thin).length).sum

theorem length_writeMembers (pos : Nat) (ms : List Member) :
    (writeMembers thin pos ms).1.length = (ms.map fun m => (m.text thin).length).sum ∧
      (writeMembers thin pos ms).2.length = ms.length := by
  induction ms generalizing pos with
  | nil => exact ⟨rfl, rfl⟩
  | cons m ms ih =>
    obtain ⟨htext, hpos⟩ := ih (pos + (m.text thin).length)
    simp [writeMembers, htext, hpos]

/-- A header is expected inside the file. -/
theorem entries_lt {e : List BfdByte × Nat} (hpos : pos % 2 = 0) (h : e ∈ entries thin pos ms) :
    e.2 < pos + (ms.map fun m => (m.text thin).length).sum := by
  rw [← writeMembers_positions hpos, List.mem_flatMap] at h
  obtain ⟨x, hx, he⟩ := h
  obtain ⟨name, -, rfl⟩ := List.mem_map.mp he
  clear he hpos
  induction ms generalizing pos with
  | nil => simp at hx
  | cons m ms ih =>
    have hhdr : 60 ≤ (m.text thin).length := by simp [Member.text]
    rw [writeMembers, List.zip_cons_cons] at hx
    rw [List.map_cons, List.sum_cons]
    rcases List.mem_cons.mp hx with rfl | hx
    · dsimp only
      omega
    · have := ih hx
      omega

theorem writeTable_eq {elength : Nat} {etable : List BfdByte} (hlen : etable.length = elength)
    (hsize : tableSize elength < 2 ^ 32) :
    ∃ text, writeTable elength etable = some text ∧ text.length = tableSize elength ∧
      (elength ≠ 0 → text.take 2 = [slash, slash]) := by
  rw [writeTable, tableSize]
  by_cases h0 : elength = 0
  · rw [if_pos h0, if_pos h0]
    exact ⟨[], rfl, rfl, fun h => absurd h0 h⟩
  · rw [tableSize, if_neg h0] at hsize
    rw [if_neg h0, if_neg h0, arSizepad_eq (by simp only [hdrSize] at hsize; omega)]
    refine ⟨_, rfl, ?_, fun _ => rfl⟩
    rw [List.take_of_length_le hlen.le, List.length_append, List.length_append,
      ArHdr.length_bytes, hlen, hdrSize, padding]
    split
    · simp only [List.length_singleton]
      omega
    · simp only [List.length_nil]
      omega

/-- What stands behind the index is no second index. -/
theorem behind_index (text : List BfdByte) (pos : Nat)
    (htext : totalNamelen env a none a.members ≠ 0 → text.take 2 = [slash, slash])
    (hnil : totalNamelen env a none a.members = 0 → text = [])
    (hnamed : a.thin = true ∨ ∀ m ∈ (writtenMembers env a).head?, lbasename m.filename ≠ []) :
    (text ++ (writeMembers a.thin pos (writtenMembers env a)).1).take 2 ≠ [slash, space] := by
  by_cases h0 : totalNamelen env a none a.members = 0
  · rw [hnil h0, List.nil_append]
    cases hms : writtenMembers env a with
    | nil => simp [writeMembers]
    | cons m ms =>
      have hmem : m ∈ (fillTable env a none 0 a.members).2 := by
        have hm : m ∈ writtenMembers env a := by simp [hms]
        exact (List.dropWhile_sublist _).mem hm
      -- there is no name table in an archive with a member that is thin
      have hthin : a.thin = false := by
        cases hthin : a.thin
        · rfl
        · cases hmembers : a.members with
          | nil => simp [hmembers, fillTable] at hmem
          | cons x xs =>
            rw [hmembers, totalNamelen, hthin] at h0
            simp at h0
      rw [fillTable_short hthin none 0 h0] at hmem
      obtain ⟨x, -, rfl⟩ := List.mem_map.mp hmem
      have hne : lbasename x.filename ≠ [] := by
        rcases hnamed with hnamed | hnamed
        · rw [hthin] at hnamed
          cases hnamed
        · rw [← (named_shortName x).filename]
          exact hnamed _ (by simp [hms])
      have hhead := shortName_head hne
      intro htake
      have := congrArg List.head? htake
      rw [List.head?_take, if_neg (by decide), writeMembers, Member.text, List.append_assoc,
        List.head?_append_of_ne_nil _ (by
          rw [← List.length_pos_iff, ArHdr.length_bytes]
          decide)] at this
      exact hhead this
  · have htwo := htext h0
    have hlen : 2 ≤ text.length := by
      have := congrArg List.length htwo
      rw [List.length_take] at this
      simp only [List.length_cons, List.length_nil] at this
      omega
    rw [List.take_append_of_le_length hlen, htwo]
    decide

/-- The index of an archive is read with the names of all symbols in their order and the position of
the header of the member of each; the first header behind the index is found unless it is the one of
a member without a name. -/
theorem armap_reads_back (hmap : a.hasMap = true) (hobj : ∃ m ∈ a.members, m.isObject = true)
    (hsize : totalSize env a < 2 ^ 32) :
    ∃ (w : Written) (map : Map), writeArchiveContents env a = some w ∧
      slurpCoffArmap false w.file sarmag = some map ∧
      map.symdefs = ((w.members.zip w.positions).flatMap fun x =>
        x.1.names.map fun name => ⟨some name, x.2⟩) ∧
      List.Forall₂ Named (dropSymdef a.members) w.members ∧
      w.positions.length = w.members.length ∧
      (∀ (i p : Nat) (m : Member), w.members[i]? = some m → w.positions[i]? = some p →
        (w.file.drop p).take hdrSize = m.hdr.bytes) ∧
      ((a.thin = true ∨ ∀ m ∈ w.members.head?, lbasename m.filename ≠ []) →
        map.firstFileFilepos = w.indexEnd) := by
  have hany : a.members.any (·.isObject) = true := by
    obtain ⟨m, hm, hobj⟩ := hobj
    exact List.any_eq_true.mpr ⟨m, hm, hobj⟩
  have hnamed := dropSymdef_named (fillTable_named env a none 0 a.members)
  have htlen := length_fillTable env a none 0 a.members
  have hbehind := @behind_index env a
  rw [← writtenMembers] at hnamed
  rw [totalSize] at hsize
  generalize hms : writtenMembers env a = ms at *
  obtain ⟨text, htable, htextlen, hslashes⟩ := writeTable_eq htlen (by
    rw [Option.map_none]
    omega)
  rw [Option.map_none] at htable htextlen hslashes
  -- where the first member goes
  have hfirst : (sarmag + hdrSize + mapSize (ms.flatMap Member.names) +
      tableSize (totalNamelen env a none a.members)) % 2 = 0 := by
    rw [mapSize, tableSize]
    simp only [sarmag, hdrSize]
    split <;> omega
  generalize hf : sarmag + hdrSize + mapSize (ms.flatMap Member.names) +
    tableSize (totalNamelen env a none a.members) = first at *
  have hoff : ∀ e ∈ entries a.thin first ms, e.2 < 2 ^ 32 := fun e he =>
    (entries_lt hfirst he).trans hsize
  have harmap := computeAndWriteArmap_eq env hf.symm (by omega) hoff
  have hmag : (armag a.thin).length = sarmag := by
    cases a.thin <;> rfl
  have hindex := length_indexText env (entries a.thin first ms)
  rw [entries_names] at hindex
  have hfront : (armag a.thin ++ indexText env (entries a.thin first ms) ++ text).length = first := by
    rw [List.length_append, List.length_append, hmag, hindex, htextlen, ← hf, hdrSize]
    omega
  have hslurp := slurpCoffArmap_index env (armag a.thin)
    (text ++ (writeMembers a.thin first ms).1) hoff
    (fun e he b hb => entries_noNul he hb) (by
      rw [entries_names]
      omega) (by rw [hmag]; rfl)
  rw [hmag] at hslurp
  have hwrite : writeArchiveContents env a = some ⟨armag a.thin ++
      (indexText env (entries a.thin first ms) ++ (text ++ (writeMembers a.thin first ms).1)),
      (armag a.thin ++ indexText env (entries a.thin first ms)).length, ms,
      (writeMembers a.thin first ms).2⟩ := by
    rw [writtenMembers] at hms
    simp only [writeArchiveContents, hmap, hany, Bool.and_self, if_true, hms, harmap, htable,
      Option.bind_eq_bind, Option.bind_some, hfront]
    simp only [List.append_assoc]
  refine ⟨_, _, hwrite, hslurp, ?_, hnamed, (length_writeMembers first ms).2, ?_, ?_⟩
  · rw [← writeMembers_positions hfirst, List.map_flatMap]
    simp [Function.comp_def]
  · intro i p m hm hp
    have hheader := writeMembers_header a.thin
      (armag a.thin ++ indexText env (entries a.thin first ms) ++ text) hm (p := p)
    rw [hfront] at hheader
    simpa only [List.append_assoc, hdrSize] using hheader hp
  · intro hcond
    have hzero := secondIndex_zero (armag a.thin ++ indexText env (entries a.thin first ms))
      (hbehind text first hslashes (fun h0 => by
        rw [h0] at htextlen
        exact List.length_eq_zero_iff.mp htextlen) hcond)
    rw [List.append_assoc] at hzero
    dsimp only
    rw [hzero, Nat.add_zero]

/-- A header with nothing in its fields but the size. -/
def plainHdr (size : Nat) : ArHdr := ⟨[], [], [], [], [], Decimal.text size, arfmag⟩

/-- An archive of two objects with a symbol each, the second one with a name that is too long for
its header. -/
def twoObjects (thin : Bool) : Archive :=
  ⟨ascii ['l', '.', 'a'], thin, true,
    [⟨ascii ['a', '.', 'o'], plainHdr 1, [1#8], true, true,
      [⟨true, .other, ascii ['f'], by decide⟩], none, 0⟩,
    ⟨List.replicate 20 97#8, plainHdr 1, [2#8], true, true,
      [⟨true, .other, ascii ['g'], by decide⟩], none, 0⟩]⟩

theorem armap_reads_back_twoObjects :
    ∃ (w : Written) (map : Map), writeArchiveContents ⟨0, fun p _ => p⟩ (twoObjects false) = some w ∧
      slurpCoffArmap false w.file sarmag = some map ∧
      map.symdefs = ((w.members.zip w.positions).flatMap fun x =>
        x.1.names.map fun name => ⟨some name, x.2⟩) := by
  obtain ⟨w, map, hw, hmap, hsymdefs, -⟩ :=
    @armap_reads_back ⟨0, fun p _ => p⟩ (twoObjects false) rfl
      ⟨_, List.mem_cons_self, rfl⟩ (by decide +kernel)
  exact ⟨w, map, hw, hmap, hsymdefs⟩

/-- An archive whose only member has no name. -/
def noName : Archive := ⟨[], false, true, [⟨[], plainHdr 0, [], true, true, [], none, 0⟩]⟩

/-- The header of a member without a name is taken for a second index. -/
theorem nameless_member_skipped :
    noName.hasMap = true ∧ (∃ m ∈ noName.members, m.isObject = true) ∧
      totalSize ⟨0, fun p _ => p⟩ noName < 2 ^ 32 ∧
      ¬ ∃ (w : Written) (map : Map), writeArchiveContents ⟨0, fun p _ => p⟩ noName = some w ∧
        slurpCoffArmap false w.file sarmag = some map ∧ map.firstFileFilepos = w.indexEnd := by
  have hskip : (writeArchiveContents ⟨0, fun p _ => p⟩ noName).bind (fun w =>
      (slurpCoffArmap false w.file sarmag).map fun map =>
        (map.firstFileFilepos, w.indexEnd)) = some (132, 72) := by
    decide +kernel
  refine ⟨rfl, ⟨_, List.mem_cons_self, rfl⟩, by decide +kernel, ?_⟩
  rintro ⟨w, map, hw, hmap, heq⟩
  rw [hw, Option.bind_some, hmap, Option.map_some, heq, Option.some.injEq, Prod.mk.injEq] at hskip
  omega

end FusionBinutils.Bfd.Armap
