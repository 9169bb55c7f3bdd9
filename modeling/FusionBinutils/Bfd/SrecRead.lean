import FusionBinutils.Bfd.Srec

/-! How the S-record reader takes a file of records. -/
namespace FusionBinutils.Bfd.Srec
open HexFile
open Memory (Block Same Holds)
variable {r : Record} {st st' : ScanState} {p : List Char} {n size pos type address : Nat}
  {blk : Block BfdByte} {l mid post : List (Block BfdByte)} {sec : Sec}

theorem rawValues_text (bs : List BfdByte) : rawValues (Hex.text bs) = bs.map BitVec.toNat := by
  induction bs with
  | nil => rfl
  | cons b bs ih =>
    have hlt := b.isLt
    have hsum : b.toNat / 16 % 16 * 16 + b.toNat % 16 = b.toNat := by omega
    rw [Hex.text, List.flatMap_cons, ← Hex.text]
    simp [Hex.two, rawValues, hexValue, Hex.value_digit, ih, hsum]

/-! Addresses. -/

theorem foldl_address (bs : List BfdByte) (a : Nat) :
    (bs.map BitVec.toNat).foldl (fun address v => address <<< 8 ||| v) a =
      bs.foldl (fun address b => address * 256 + b.toNat) a := by
  induction bs generalizing a with
  | nil => rfl
  | cons b bs ih =>
    have hor : a <<< 8 ||| b.toNat = a * 256 + b.toNat := by
      rw [← Nat.shiftLeft_add_eq_or_of_lt b.isLt, Nat.shiftLeft_eq]
    rw [List.map_cons, List.foldl_cons, List.foldl_cons, hor, ih]

/-- A record of a type that has addresses. -/
def Record.Known (r : Record) : Prop := r.type ∈ [0, 1, 2, 3, 7, 8, 9]

theorem Record.Known.length_addrBytes (h : r.Known) :
    (addrBytes r.type r.address).length = addressBytes (Char.ofNat (48 + r.type)) := by
  simp only [Record.Known, List.mem_cons, List.not_mem_nil, or_false] at h
  rcases h with h | h | h | h | h | h | h <;> rw [h] <;> rfl

/-- The reader finds as much of the address as the record has bytes for. -/
theorem Record.Known.addressOf (h : r.Known) :
    addressOf ((addrBytes r.type r.address).map BitVec.toNat) =
      r.address % 256 ^ addressBytes (Char.ofNat (48 + r.type)) := by
  have hbytes : (addrBytes r.type r.address).foldl (fun address b => address * 256 + b.toNat) 0 =
      r.address % 256 ^ (addrBytes r.type r.address).length := by
    simp only [Record.Known, List.mem_cons, List.not_mem_nil, or_false] at h
    rcases h with h | h | h | h | h | h | h
    all_goals
      simp only [h, addrBytes, List.foldl_cons, List.foldl_nil, BitVec.toNat_ofNat,
        Nat.shiftRight_eq_div_pow, List.length_cons, List.length_nil]
      omega
  rw [Srec.addressOf, foldl_address, hbytes, h.length_addrBytes]

/-! One record. -/

/-- The bytes behind the length of a record, as the reader has them. -/
def Record.vals (r : Record) : List Nat := r.fields.map BitVec.toNat ++ [r.checksum]

@[simp]
theorem Record.length_vals (r : Record) : r.vals.length = r.count := by
  simp [Record.vals, Record.count]

theorem Record.text_eq (r : Record) (p : List Char) :
    r.text ++ p = 'S' :: Char.ofNat (48 + r.type) :: Hex.digit ((BitVec.ofNat 8 r.count).toNat / 16) ::
      Hex.digit (BitVec.ofNat 8 r.count).toNat ::
      (Hex.text (r.fields ++ [.ofNat 8 r.checksum]) ++ '\r' :: '\n' :: p) := by
  simp [Record.text, Hex.text, Hex.two]

theorem Record.length_text (r : Record) : r.text.length = 6 + r.count * 2 := by
  have h := congrArg List.length (Record.text_eq r [])
  simp only [List.append_nil, List.length_cons, List.length_append, Hex.length_text,
    List.length_nil] at h
  rw [h, Record.count]
  omega

theorem Record.rawValues_fields (r : Record) :
    rawValues (Hex.text (r.fields ++ [.ofNat 8 r.checksum])) = r.vals := by
  have hck : (BitVec.ofNat 8 r.checksum).toNat = r.checksum := by
    simp only [Record.checksum, BitVec.toNat_ofNat]
    omega
  rw [rawValues_text, Record.vals, List.map_append, List.map_singleton, hck]

theorem Record.length_fields_text (r : Record) :
    (Hex.text (r.fields ++ [.ofNat 8 r.checksum])).length = r.count * 2 := by
  simp [Record.count]

theorem count_digits (hcount : r.count < 256) :
    hexValue (Hex.digit ((BitVec.ofNat 8 r.count).toNat / 16)) * 16 +
      hexValue (Hex.digit (BitVec.ofNat 8 r.count).toNat) = r.count := by
  simp only [hexValue, Hex.value_digit, Option.getD_some, BitVec.toNat_ofNat]
  omega

/-- A record is read as it was written. -/
theorem readRecord_text (h : r.Known) (hcount : r.count < 256) (p : List Char) :
    readRecord (r.text ++ p).tail = some (Char.ofNat (48 + r.type), r.vals, '\r' :: '\n' :: p) := by
  have hlong : ¬ r.count < addressBytes (Char.ofNat (48 + r.type)) + 1 := by
    rw [← h.length_addrBytes, Record.count, Record.fields, List.length_append]
    omega
  rw [Record.text_eq, List.tail_cons, readRecord, count_digits hcount]
  simp only [Hex.value_digit, Option.isNone_some, Bool.false_eq_true, or_self, if_false]
  rw [if_neg hlong, if_neg (by rw [List.length_append, r.length_fields_text]; omega),
    List.take_left' r.length_fields_text, List.drop_left' r.length_fields_text,
    r.rawValues_fields]

theorem checksumOk_vals (r : Record) : checksumOk r.vals r.fields.length = true := by
  have htake : r.vals.take r.fields.length = r.fields.map BitVec.toNat := by
    rw [Record.vals, List.take_left' (by simp)]
  have hget : r.vals.getD r.fields.length 0 = r.checksum := by
    simp [Record.vals]
  rw [checksumOk, htake, hget, r.length_vals, Record.checksum, Nat.add_comm r.count]
  exact decide_eq_true rfl

/-! Scanning. -/

/-- The scan of a record: one turn for it and one for each character of its line end. -/
theorem scanLoop_record (size pos : Nat) (h : r.Known) (hcount : r.count < 256)
    (hpos : pos + (r.text ++ p).length = size) :
    scanLoop size (n + 3) (r.text ++ p) st =
      match scanRecord st pos (Char.ofNat (48 + r.type)) r.vals with
      | none => none
      | some (.ended st) => some st
      | some (.more st) => scanLoop size n p st := by
  have hread := readRecord_text h hcount p
  rw [Record.text_eq, List.tail_cons] at hread
  have hp : size - (((r.text ++ p).tail).length + 1) = pos := by
    have h6 := r.length_text
    rw [List.length_tail]
    rw [List.length_append] at hpos ⊢
    omega
  rw [Record.text_eq, List.tail_cons] at hp
  rw [Record.text_eq, scanLoop, if_neg (by decide), if_neg (by decide), if_neg (by decide),
    if_pos rfl, hread, hp]
  simp only [Option.bind_eq_bind, Option.bind_some]
  cases scanRecord st pos (Char.ofNat (48 + r.type)) r.vals with
  | none => rfl
  | some next =>
    cases next with
    | ended st => rfl
    | more st =>
      simp only [Option.bind_some]
      rw [scanLoop, if_pos (by decide), scanLoop, if_pos (by decide)]

theorem Record.take_address (h : r.Known) :
    r.vals.take (addressBytes (Char.ofNat (48 + r.type))) =
      (addrBytes r.type r.address).map BitVec.toNat := by
  rw [Record.vals, Record.fields, List.map_append, List.append_assoc,
    List.take_left' (by rw [List.length_map, h.length_addrBytes])]

/-- The types of the data records. -/
def DataType (type : Nat) : Prop := type = 1 ∨ type = 2 ∨ type = 3

theorem DataType.known (h : DataType type) (address : Nat) (data : List BfdByte) :
    Record.Known ⟨type, address, data⟩ := by
  rcases h with rfl | rfl | rfl <;> simp [Record.Known]

theorem DataType.addressBytes (h : DataType type) :
    addressBytes (Char.ofNat (48 + type)) = type + 1 := by
  rcases h with rfl | rfl | rfl <;> rfl

/-- The switch at a data record. -/
theorem DataType.scanRecord (h : DataType type) (vals : List Nat) :
    scanRecord st pos (Char.ofNat (48 + type)) vals =
      if checksumOk vals (vals.length - 1) then
        some (.more (dataRecord st pos (addressOf (vals.take (type + 1)))
          (vals.length - 1 - (type + 1))))
      else none := by
  rcases h with rfl | rfl | rfl <;> rfl

/-- The switch at a termination record. -/
theorem DataType.scanRecord_terminator (h : DataType type) (vals : List Nat) :
    Srec.scanRecord st pos (Char.ofNat (48 + (10 - type))) vals =
      if checksumOk vals (type + 1) then
        some (.ended { st with start := addressOf (vals.take (type + 1)) })
      else none := by
  rcases h with rfl | rfl | rfl <;> rfl

theorem scanRecord_data (h : DataType type) (data : List BfdByte) :
    scanRecord st pos (Char.ofNat (48 + type)) (Record.vals ⟨type, address, data⟩) =
      some (.more (dataRecord st pos (address % 256 ^ (type + 1)) data.length)) := by
  have hk := h.known address data
  have haddr := hk.addressOf
  have htake := Record.take_address hk
  have hck := checksumOk_vals ⟨type, address, data⟩
  have hlen : (addrBytes type address).length = type + 1 := hk.length_addrBytes.trans h.addressBytes
  simp only [h.addressBytes] at haddr htake
  have hcount : (Record.vals ⟨type, address, data⟩).length - 1 =
      (Record.fields ⟨type, address, data⟩).length := by
    simp [Record.count]
  have hdata : (Record.fields ⟨type, address, data⟩).length - (type + 1) = data.length := by
    simp [Record.fields, hlen]
  rw [h.scanRecord, hcount, if_pos hck, htake, haddr, hdata]

theorem scanRecord_terminator (h : DataType type) :
    scanRecord st pos (Char.ofNat (48 + (10 - type))) (Record.vals (terminator type address)) =
      some (.ended { st with start := address % 256 ^ (type + 1) }) := by
  have hk : (terminator type address).Known := by
    rcases h with rfl | rfl | rfl <;> simp [Record.Known, terminator]
  have hbytes : addressBytes (Char.ofNat (48 + (10 - type))) = type + 1 := by
    rcases h with rfl | rfl | rfl <;> rfl
  have haddr := hk.addressOf
  have htake := Record.take_address hk
  have hck := checksumOk_vals (terminator type address)
  have hlen : (Record.fields (terminator type address)).length = type + 1 := by
    simpa [Record.fields, terminator] using hk.length_addrBytes.trans hbytes
  simp only [terminator, hbytes] at haddr htake
  rw [h.scanRecord_terminator, ← hlen, if_pos hck, hlen]
  simp only [terminator, htake, haddr]

/-! Reading a section. -/

/-- A record of the data of a block that is long enough for its address. -/
structure Fits (type : Nat) (blk : Block BfdByte) : Prop where
  start : blk.start < 256 ^ (type + 1)
  length : blk.cells.length ≤ 253 - type

theorem DataType.count (h : DataType type) (address : Nat) (data : List BfdByte) :
    Record.count ⟨type, address, data⟩ = type + 2 + data.length := by
  have hlen : (addrBytes type address).length = type + 1 :=
    (h.known address data).length_addrBytes.trans h.addressBytes
  simp only [Record.count, Record.fields, List.length_append, hlen]
  omega

/-- The end of a line is skipped. -/
theorem readLoop_eol {next : Nat} : readLoop (n + 2) ('\r' :: '\n' :: p) next = readLoop n p next := by
  conv_lhs => unfold readLoop
  rw [if_pos (.inl rfl)]
  conv_lhs => unfold readLoop
  rw [if_pos (.inr rfl)]

/-- A data record gives its bytes to the section, unless it is somewhere else. -/
theorem readLoop_record {data : List BfdByte} {next : Nat} (h : DataType type)
    (hlen : data.length ≤ 253 - type) :
    readLoop (n + 3) (Record.text ⟨type, address, data⟩ ++ p) next =
      if address % 256 ^ (type + 1) = next then
        (readLoop n p (next + data.length)).map (data ++ ·)
      else some [] := by
  have hk := h.known address data
  have haddr := hk.addressOf
  have htake := Record.take_address hk
  have hcount := h.count address data
  have hbytes : Record.count ⟨type, address, data⟩ < 256 := by
    rcases h with rfl | rfl | rfl <;> omega
  have hkind : Char.ofNat (48 + type) = '1' ∨ Char.ofNat (48 + type) = '2' ∨
      Char.ofNat (48 + type) = '3' := by
    rcases h with rfl | rfl | rfl <;> decide
  have hdata : (((Record.vals ⟨type, address, data⟩).drop (type + 1)).take
      (Record.count ⟨type, address, data⟩ - (type + 1) - 1)).map (BitVec.ofNat 8) = data := by
    have hlen' : (addrBytes type address).length = type + 1 :=
      hk.length_addrBytes.trans h.addressBytes
    have hsub : type + 2 + data.length - (type + 1) - 1 = data.length := by omega
    rw [Record.vals, Record.fields, List.map_append, List.append_assoc,
      List.drop_left' (by rw [List.length_map, hlen']), hcount, hsub, List.take_left' (by simp),
      List.map_map]
    simp [Function.comp_def]
  simp only [h.addressBytes] at haddr htake
  rw [Record.text_eq, readLoop, if_neg (by decide)]
  dsimp only
  rw [count_digits hbytes, if_neg (by rw [List.length_append, Record.length_fields_text]; omega),
    if_pos hkind, List.take_left' (Record.length_fields_text _), Record.rawValues_fields,
    h.addressBytes, htake, haddr]
  by_cases heq : address % 256 ^ (type + 1) = next
  · rw [if_neg (not_not.mpr heq), if_pos heq, if_neg (by omega), hdata,
      List.drop_left' (Record.length_fields_text _), readLoop_eol]
  · rw [if_pos heq, if_neg heq]

/-- A termination record ends the section. -/
theorem readLoop_terminator (address next : Nat) (h : DataType type) :
    readLoop (n + 1) ((terminator type address).text ++ p) next = some [] := by
  have hcount : (terminator type address).count < 256 := by
    rcases h with rfl | rfl | rfl <;> simp [terminator, Record.count, Record.fields, addrBytes]
  have hkind : ¬ (Char.ofNat (48 + (10 - type)) = '1' ∨ Char.ofNat (48 + (10 - type)) = '2' ∨
      Char.ofNat (48 + (10 - type)) = '3') := by
    rcases h with rfl | rfl | rfl <;> decide
  rw [Record.text_eq, readLoop, if_neg (by decide)]
  dsimp only
  rw [count_digits hcount, if_neg (by rw [List.length_append, Record.length_fields_text]; omega)]
  exact if_neg hkind

theorem dataText_append (l l' : List (Block BfdByte)) :
    dataText type (l ++ l') = dataText type l ++ dataText type l' :=
  List.flatMap_append

theorem dataText_cons (blk : Block BfdByte) (l : List (Block BfdByte)) :
    dataText type (blk :: l) =
      Record.text ⟨type, blk.start % 2 ^ 64, blk.cells⟩ ++ dataText type l :=
  List.flatMap_cons

theorem Fits.address_mod (h : DataType type) (hblk : Fits type blk) :
    blk.start % 2 ^ 64 % 256 ^ (type + 1) = blk.start := by
  have hstart := hblk.start
  rcases h with rfl | rfl | rfl <;> omega

/-- The records of a section give its bytes, up to a record that is somewhere else. -/
theorem readLoop_data {start next : Nat} (h : DataType type) (hmid : ∀ blk ∈ mid, Fits type blk)
    (hpost : ∀ blk ∈ post, Fits type blk) (hchain : Memory.Chain next mid)
    (hstops : ∀ blk ∈ post.head?, blk.start ≠ next + (Memory.cellsOf mid).length)
    (hn : (dataText type (mid ++ post)).length < n) :
    readLoop n (dataText type (mid ++ post) ++ (terminator type start).text) next =
      some (Memory.cellsOf mid) := by
  induction mid generalizing n next with
  | nil =>
    cases post with
    | nil =>
      obtain ⟨n, rfl⟩ : ∃ k, n = k + 1 := ⟨n - 1, by omega⟩
      have hterm := readLoop_terminator (n := n) (p := []) start next h
      rwa [List.append_nil] at hterm
    | cons blk post =>
      have hfit := hpost blk (by simp)
      have hne := hstops blk (by simp)
      rw [List.nil_append, dataText_cons, List.length_append, Record.length_text] at hn
      obtain ⟨n, rfl⟩ : ∃ k, n = k + 3 := ⟨n - 3, by omega⟩
      rw [List.nil_append, dataText_cons, List.append_assoc, readLoop_record h hfit.length,
        hfit.address_mod h, if_neg (by simpa [Memory.cellsOf] using hne)]
      rfl
  | cons blk mid ih =>
    have hfit := hmid blk (by simp)
    obtain ⟨hstart, hrest⟩ := hchain
    have hcells : Memory.cellsOf (blk :: mid) = blk.cells ++ Memory.cellsOf mid := rfl
    rw [List.cons_append, dataText_cons, List.length_append, Record.length_text] at hn
    obtain ⟨n, rfl⟩ : ∃ k, n = k + 3 := ⟨n - 3, by omega⟩
    rw [List.cons_append, dataText_cons, List.append_assoc, readLoop_record h hfit.length,
      hfit.address_mod h, if_pos hstart]
    rw [Block.stop, hstart] at hrest
    rw [ih (fun x hx => hmid x (by simp [hx])) hrest ?_ (by omega), hcells]
    · rfl
    · intro x hx
      rw [Nat.add_assoc, ← List.length_append, ← hcells]
      exact hstops x hx

end FusionBinutils.Bfd.Srec
