import FusionBinutils.Bfd.Ihex

/-! How the Intel Hex reader takes a file of records. -/
namespace FusionBinutils.Bfd.Ihex
open HexFile
open Memory (Block)
variable {r : Record} {rs pre mid post : List Record} {st : ScanState} {p : List Char}
  {n size pos : Nat} {sec : Sec}

/-- A record whose numbers fit their fields. -/
structure Record.Valid (r : Record) : Prop where
  length : r.data.length < 256
  addr : r.addr < 65536
  type : r.type < 256

/-- Records without their checksum. -/
def Record.header (r : Record) : List BfdByte :=
  [.ofNat 8 r.data.length, .ofNat 8 (r.addr / 256), .ofNat 8 r.addr, .ofNat 8 r.type]

/-- The bytes behind the header. -/
def Record.tail (r : Record) : List BfdByte :=
  r.data ++ [.ofNat 8 (checksum r.data.length r.addr r.type r.data)]

theorem Record.text_eq (r : Record) :
    r.text = ':' :: (Hex.text r.header ++ (Hex.text r.tail ++ ['\r', '\n'])) := by
  rw [Record.text, ← List.append_assoc, ← Hex.text_append]
  rfl

theorem checksum_lt (len addr type : Nat) (data : List BfdByte) :
    checksum len addr type data < 256 := Nat.mod_lt _ (by decide)

theorem readBody_text (h : r.Valid) (p : List Char) :
    readBody (.ofNat 8 r.data.length) (.ofNat 8 (r.addr / 256)) (.ofNat 8 r.addr)
      (.ofNat 8 r.type) (Hex.text r.tail ++ p) = some (r, p) := by
  obtain ⟨hlen, haddr, htype⟩ := h
  have hck := checksum_lt r.data.length r.addr r.type r.data
  have htail : (Hex.text r.tail).length = r.data.length * 2 + 2 := by
    simp [Record.tail]
    omega
  have hbyte (v : Nat) (hv : v < 256) : (BitVec.ofNat 8 v).toNat = v := by simp; omega
  have hlo : r.addr / 256 * 256 + (BitVec.ofNat 8 r.addr).toNat = r.addr := by simp; omega
  have hdata : r.tail.take r.data.length = r.data := List.take_left' rfl
  have hfound : r.tail[r.data.length]? =
      some (.ofNat 8 (checksum r.data.length r.addr r.type r.data)) := by
    simp [Record.tail]
  rw [readBody, hbyte _ hlen, hbyte _ (by omega), hbyte _ htype, hlo,
    if_neg (by rw [List.length_append, htail]; omega), List.take_left' htail, Hex.bytes_text,
    List.drop_left' htail]
  simp only [Option.bind_eq_bind, Option.bind_some, hfound, hdata, hbyte _ hck, ne_eq,
    not_true_eq_false, if_false]

/-- A record is read as it was written. -/
theorem readRecord_text (h : r.Valid) (p : List Char) :
    readRecord (Hex.text r.header ++ (Hex.text r.tail ++ p)) = some (r, p) := by
  have hhdr : (Hex.text r.header).length = 8 := by simp [Record.header]
  rw [readRecord, if_neg (by rw [List.length_append, hhdr]; omega), List.take_left' hhdr,
    Hex.bytes_text, List.drop_left' hhdr]
  exact readBody_text h p

theorem length_text_pos (r : Record) : 3 ≤ r.text.length := by simp [Record.text_eq]; omega

/-! Scanning. -/

/-- The scan on the records of a file, from the position of the first one. -/
def scanRecords : Nat → ScanState → List Record → Option ScanState
  | _, st, [] => some st
  | pos, st, r :: rs =>
    match scanRecord st pos r with
    | none => none
    | some (.ended st) => some st
    | some (.more st) => scanRecords (pos + r.text.length) st rs

/-- The scan of the text of records is the scan of the records. -/
theorem scanLoop_text (hrs : ∀ r ∈ rs, r.Valid) (hn : (fileText rs).length < n)
    (hpos : pos + (fileText rs).length = size) :
    scanLoop size n (fileText rs) st = scanRecords pos st rs := by
  induction rs generalizing n pos st with
  | nil =>
    obtain ⟨n, rfl⟩ : ∃ k, n = k + 1 := ⟨n - 1, by omega⟩
    rfl
  | cons r rs ih =>
    have hlen : (fileText (r :: rs)).length = r.text.length + (fileText rs).length := by
      simp [fileText]
    have h3 := length_text_pos r
    obtain ⟨n, rfl⟩ : ∃ k, n = k + 3 := ⟨n - 3, by omega⟩
    have htext : fileText (r :: rs) =
        ':' :: (Hex.text r.header ++ (Hex.text r.tail ++ ('\r' :: '\n' :: fileText rs))) := by
      rw [fileText, List.flatMap_cons, ← fileText, Record.text_eq]
      simp
    have hp : size - ((Hex.text r.header ++
        (Hex.text r.tail ++ ('\r' :: '\n' :: fileText rs))).length + 1) = pos := by
      rw [htext, List.length_cons] at hpos
      omega
    rw [htext, scanLoop, if_neg (by decide), if_neg (by decide),
      readRecord_text (hrs r (by simp)), scanRecords, hp]
    simp only [Option.bind_eq_bind, Option.bind_some]
    cases scanRecord st pos r with
    | none => rfl
    | some next =>
      cases next with
      | ended st => rfl
      | more st =>
        simp only [Option.bind_some]
        rw [scanLoop, if_pos (by decide), scanLoop, if_pos (by decide)]
        exact ih (fun x hx => hrs x (by simp [hx])) (by omega) (by omega)

theorem scan_text (hrs : ∀ r ∈ rs, r.Valid) :
    scan (fileText rs) = scanRecords 0 ⟨⟨0, 0⟩, 0, [], false⟩ rs :=
  scanLoop_text hrs (by omega) (by omega)

/-! Reading a section. -/

/-- A data record with data. -/
structure Record.IsData (r : Record) : Prop where
  valid : r.Valid
  type : r.type = 0
  data : r.data ≠ []

/-- The bytes of some data records. -/
def recordBytes (rs : List Record) : List BfdByte := rs.flatMap (·.data)

/-- The first record of a section: it is the last one, or its checksum and line end are skipped. -/
theorem readLoop_text (h : r.IsData) (p : List Char) :
    readLoop (n + 3) (r.text ++ p) size =
      if size ≤ r.data.length then some r.data
      else (readLoop n p (size - r.data.length)).map (r.data ++ ·) := by
  obtain ⟨⟨hlen, haddr, htype⟩, h0, hne⟩ := h
  have hhdr : (Hex.text r.header).length = 8 := by simp [Record.header]
  have hbyte : (BitVec.ofNat 8 r.data.length).toNat = r.data.length := by simp; omega
  have hck : (Hex.text [BitVec.ofNat 8 (checksum r.data.length r.addr r.type r.data)]).length = 2 := by
    simp
  have hdata : (Hex.text r.data).length = r.data.length * 2 := Hex.length_text _
  have htext : r.text ++ p = ':' :: (Hex.text r.header ++ (Hex.text r.data ++
      (Hex.text [BitVec.ofNat 8 (checksum r.data.length r.addr r.type r.data)] ++
        '\r' :: '\n' :: p))) := by
    rw [Record.text_eq, Record.tail, Hex.text_append]
    simp
  have hraw0 : (r.header.getD 0 0#8).toNat = r.data.length := hbyte
  have hraw3 : (r.header.getD 3 0#8).toNat = 0 := by simp [Record.header, h0]
  rw [htext, readLoop, if_neg (by decide), if_neg (by rw [List.length_append, hhdr]; omega),
    List.take_left' hhdr, rawBytes_text]
  dsimp only
  rw [hraw0, hraw3, if_neg (by simp), List.drop_left' hhdr,
    if_neg (by rw [List.length_append, hdata]; omega), List.take_left' hdata, rawBytes_text]
  split
  · rfl
  · rw [← List.drop_drop, List.drop_left' hhdr, List.drop_left' hdata,
      if_neg (by rw [List.length_append, hck]; omega)]
    have hskip : (Hex.text r.header ++ (Hex.text r.data ++
        (Hex.text [BitVec.ofNat 8 (checksum r.data.length r.addr r.type r.data)] ++
          '\r' :: '\n' :: p))).drop (8 + r.data.length * 2 + 2) = '\r' :: '\n' :: p := by
      rw [← List.drop_drop, ← List.drop_drop, List.drop_left' hhdr, List.drop_left' hdata,
        List.drop_left' hck]
    rw [hskip, readLoop, if_pos (by decide), readLoop, if_pos (by decide)]

/-- The records of a section give its bytes. -/
theorem readLoop_records (hmid : ∀ r ∈ mid, r.IsData) (hne : mid ≠ [])
    (hn : (fileText mid).length < n) :
    readLoop n (fileText mid ++ p) (recordBytes mid).length = some (recordBytes mid) := by
  induction mid generalizing n with
  | nil => exact absurd rfl hne
  | cons r mid ih =>
    have hlen : (fileText (r :: mid)).length = r.text.length + (fileText mid).length := by
      simp [fileText]
    have h3 := length_text_pos r
    obtain ⟨n, rfl⟩ : ∃ k, n = k + 3 := ⟨n - 3, by omega⟩
    have hbytes : recordBytes (r :: mid) = r.data ++ recordBytes mid := by simp [recordBytes]
    have htext : fileText (r :: mid) ++ p = r.text ++ (fileText mid ++ p) := by simp [fileText]
    rw [htext, readLoop_text (hmid r (by simp)), hbytes, List.length_append]
    cases mid with
    | nil =>
      rw [if_pos (by simp [recordBytes])]
      simp [recordBytes]
    | cons r' mid =>
      have hpos : 0 < (recordBytes (r' :: mid)).length := by
        have := List.length_pos_iff.mpr (hmid r' (by simp)).data
        simp only [recordBytes, List.flatMap_cons, List.length_append]
        omega
      rw [if_neg (by omega), Nat.add_sub_cancel_left,
        ih (fun x hx => hmid x (by simp [hx])) (by simp) (by omega)]
      rfl

/-- The records `mid` of a file are those of a section, with `post` behind them. -/
structure SecOf (rs mid post : List Record) (sec : Sec) : Prop where
  split : ∃ pre, rs = pre ++ mid ++ post ∧ sec.filepos = (fileText pre).length
  data : ∀ r ∈ mid, r.IsData
  ne : mid ≠ []
  size : sec.size = (recordBytes mid).length

theorem SecOf.append (h : SecOf rs mid post sec) (rs' : List Record) :
    SecOf (rs ++ rs') mid (post ++ rs') sec := by
  obtain ⟨pre, rfl, hpos⟩ := h.split
  exact ⟨⟨pre, by simp, hpos⟩, h.data, h.ne, h.size⟩

theorem readSection_secOf (h : SecOf rs mid post sec) :
    readSection (fileText rs) sec = some (recordBytes mid) := by
  obtain ⟨pre, rfl, hpos⟩ := h.split
  have htext : fileText (pre ++ mid ++ post) = fileText pre ++ (fileText mid ++ fileText post) := by
    simp [fileText]
  rw [readSection, hpos, htext, List.drop_left' rfl, h.size]
  exact readLoop_records h.data h.ne (by simp only [List.length_append]; omega)

end FusionBinutils.Bfd.Ihex
