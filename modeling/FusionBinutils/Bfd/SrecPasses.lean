import FusionBinutils.Bfd.Srec

/-! The two passes over an S-record file: when `srec_read_section` reads what `srec_scan` has put
into the section. The reader is followed with its buffer, since it does not check the lines that the
scan takes for something else than records. -/
namespace FusionBinutils.Bfd.Srec
open HexFile
variable {file buf buf' p p' q : List Char} {c kind hi lo : Char} {n next : Nat}
  {st st' : ScanState} {d d' : List BfdByte} {sec : Sec} {f : Found} {found : List Found}
  {vals : List Nat}

/-- How the reader ends. -/
inductive Outcome
  /-- FALSE is returned -/
  | failed
  /-- something behind the buffer is read, or the count of the bytes left wraps around -/
  | wild
  /-- TRUE is returned, with these bytes stored -/
  | done (stored : List BfdByte)
  deriving DecidableEq, Repr

/-- Bytes stored before. -/
def Outcome.behind (d : List BfdByte) : Outcome → Outcome
  | .failed => .failed
  | .wild => .wild
  | .done stored => .done (d ++ stored)

/-- The types of records with data. -/
def isData (kind : Char) : Bool := kind = '1' || kind = '2' || kind = '3'

/-- The buffer with the characters of a line; what was in it before is left behind them. -/
def refill (buf chars : List Char) : List Char := chars ++ buf.drop chars.length

/-- The data of a record of `bytes` bytes, the checksum left out. -/
def dataOf (kind : Char) (bytes : Nat) (chars : List Char) : List BfdByte :=
  (((rawValues chars).drop (addressBytes kind)).take (bytes - addressBytes kind - 1)).map
    (BitVec.ofNat 8)

/-- The address of a record. -/
def addressIn (kind : Char) (chars : List Char) : Nat :=
  addressOf ((rawValues chars).take (addressBytes kind))

/-- The count of a line. -/
def countOf (hi lo : Char) : Nat := hexValue hi * 16 + hexValue lo

/-- The loop of `srec_read_section` with its buffer, from the address where the next record must
start. -/
def readStored : Nat → List Char → List Char → Nat → Outcome
  | 0, _, _, _ => .failed
  | _ + 1, _, [], _ => .done []
  | n + 1, buf, c :: p, next =>
    if c = '\r' ∨ c = '\n' then readStored n buf p next
    else
      match p with
      | kind :: hi :: lo :: p =>
        let bytes := countOf hi lo
        if p.length < bytes * 2 then .failed
        else
          let buf := refill buf (p.take (bytes * 2))
          if !isData kind then .done []
          else if buf.length < addressBytes kind * 2 then .wild
          else if addressIn kind buf ≠ next then .done []
          else if bytes < addressBytes kind + 1 then .wild
          else
            let data := dataOf kind bytes buf
            (readStored n buf (p.drop (bytes * 2)) (next + data.length)).behind data
      | _ => .failed

/-- How the reader ends for a section of a file. -/
def readSectionStored (file : List Char) (sec : Sec) : Outcome :=
  readStored (file.length + 1) [] (file.drop sec.filepos) sec.vma

/-! What the scan puts into the sections. -/

/-- A section while it is scanned. -/
structure Found where
  /-- the data of the records scanned into it -/
  data : List BfdByte
  /-- a record of a type that is not known was scanned -/
  passed : Bool
  /-- data were scanned behind such a record -/
  cut : Bool
  /-- the text from a line behind the section that is no record, with the characters of the last
  records before it -/
  line : Option (List Char × List Char)
  /-- the characters of the last records -/
  buf : List Char
  deriving DecidableEq, Repr

/-- The first record of a section. -/
def Found.fresh (data : List BfdByte) (chars : List Char) : Found :=
  ⟨data, false, false, none, refill [] chars⟩

/-- A record that goes on with the section. -/
def Found.add (data : List BfdByte) (chars : List Char) (f : Found) : Found :=
  { f with
    data := f.data ++ data
    cut := f.cut || (f.passed && !data.isEmpty)
    buf := refill f.buf chars }

def Found.pass (f : Found) : Found := { f with passed := true }

/-- The section ends in front of the text. -/
def Found.meet (text : List Char) (f : Found) : Found :=
  if f.passed then f else { f with line := some (f.buf, text) }

/-- The data go to the end of the section that is being built. -/
def joins (st : ScanState) (address : Nat) : Bool :=
  st.building && st.secs.head?.any fun sec => sec.vma + sec.size = address

/-- What a record does to the section that is being built; `chars` are its characters behind the
count. -/
def collect (st : ScanState) (kind : Char) (chars : List Char) (found : List Found) : List Found :=
  if isData kind then
    let data := dataOf kind (chars.length / 2) chars
    if joins st (addressIn kind chars) then found.modifyHead (Found.add data chars)
    else .fresh data chars :: found
  else if st.building && !(['0', '5', '7', '8', '9'].contains kind) then found.modifyHead Found.pass
  else found

/-- A line that is no record. -/
def stray (st : ScanState) (text : List Char) (found : List Found) : List Found :=
  if st.building then found.modifyHead (Found.meet text) else found

/-- The loop of `srec_scan` with what it puts into the sections. -/
def scanLoopData (size : Nat) : Nat → List Char → ScanState → List Found →
    Option (ScanState × List Found)
  | 0, _, _, _ => none
  | _ + 1, [], st, found => some (st, found)
  | n + 1, c :: p, st, found =>
    if c = '\n' ∨ c = '\r' then scanLoopData size n p st found
    else if c = '$' then
      match p.dropWhile (· ≠ '\n') with
      | [] => none
      | _ :: q => scanLoopData size n q { st with building := false } (stray st (c :: p) found)
    else if c = ' ' then do
      let symbols ← readSymbols (p.length + 1) p
      scanLoopData size n symbols.2 { st with building := false, symbols := st.symbols ++ symbols.1 }
        (stray st (c :: p) found)
    else if c = 'S' then do
      let r ← readRecord p
      match ← scanRecord st (size - (p.length + 1)) r.1 r.2.1 with
      | .ended st => some (st, found)
      | .more st' =>
        scanLoopData size n r.2.2 st' (collect st r.1 ((p.drop 3).take (r.2.1.length * 2)) found)
    else none

def scanData (file : List Char) : Option (ScanState × List Found) :=
  scanLoopData file.length (file.length + 1) file ⟨0, [], false, []⟩ []

/-! When the reader stops behind a section. -/

/-- The reader, come to the end of a section at `next` with this text in front of it, returns without
storing anything. -/
inductive Harmless : List Char → List Char → Nat → Prop
  | eof (buf : List Char) (next : Nat) : Harmless buf [] next
  | eol {buf p : List Char} {next : Nat} {c : Char} (hc : c = '\r' ∨ c = '\n') :
    Harmless buf p next → Harmless buf (c :: p) next
  /-- the line looks like a record of another type -/
  | other {buf p : List Char} {next : Nat} {c kind hi lo : Char} (hc : ¬ (c = '\r' ∨ c = '\n'))
    (hlen : countOf hi lo * 2 ≤ p.length) (hkind : isData kind = false) :
    Harmless buf (c :: kind :: hi :: lo :: p) next
  /-- the line looks like a record for another address -/
  | elsewhere {buf p : List Char} {next : Nat} {c kind hi lo : Char} (hc : ¬ (c = '\r' ∨ c = '\n'))
    (hlen : countOf hi lo * 2 ≤ p.length) (hkind : isData kind = true)
    (hbuf : addressBytes kind * 2 ≤ (refill buf (p.take (countOf hi lo * 2))).length)
    (haddr : addressIn kind (refill buf (p.take (countOf hi lo * 2))) ≠ next) :
    Harmless buf (c :: kind :: hi :: lo :: p) next
  /-- the line looks like a record without data -/
  | empty {buf p : List Char} {next : Nat} {c kind hi lo : Char} (hc : ¬ (c = '\r' ∨ c = '\n'))
    (hlen : countOf hi lo * 2 ≤ p.length) (hkind : isData kind = true)
    (haddr : addressIn kind (refill buf (p.take (countOf hi lo * 2))) = next)
    (hcount : countOf hi lo = addressBytes kind + 1) :
    Harmless (refill buf (p.take (countOf hi lo * 2))) (p.drop (countOf hi lo * 2)) next →
    Harmless buf (c :: kind :: hi :: lo :: p) next

/-- No data were scanned behind a record of a type that is not known, and a line behind the section
that is no record does no harm. -/
def Found.Fine (f : Found) (sec : Sec) : Prop :=
  f.cut = false ∧ ∀ l ∈ f.line, Harmless l.1 l.2 (sec.vma + sec.size)

/-! The reader, line by line. -/

theorem Outcome.behind_nil (o : Outcome) : o.behind [] = o := by
  cases o <;> rfl

theorem Outcome.behind_behind (d d' : List BfdByte) (o : Outcome) :
    (o.behind d').behind d = o.behind (d ++ d') := by
  cases o with
  | failed => rfl
  | wild => rfl
  | done stored => rw [behind, behind, behind, List.append_assoc]

theorem Outcome.behind_done {o : Outcome} (h : o.behind d = .done d') :
    ∃ stored, o = .done stored ∧ d' = d ++ stored := by
  cases o with
  | failed => cases h
  | wild => cases h
  | done stored => exact ⟨stored, rfl, (Outcome.done.inj h).symm⟩

theorem Outcome.behind_eq_done (o : Outcome) : o.behind d = .done (d ++ d') ↔ o = .done d' := by
  cases o <;> simp [behind]

theorem Outcome.behind_eq_nil (o : Outcome) : o.behind d = .done [] ↔ d = [] ∧ o = .done [] := by
  cases o <;> simp [behind]

theorem cons_of_three_le (h : 3 ≤ p.length) : ∃ kind hi lo p', p = kind :: hi :: lo :: p' := by
  rcases p with - | ⟨kind, - | ⟨hi, - | ⟨lo, p⟩⟩⟩
  · cases h
  · simp at h
  · simp at h
  · exact ⟨kind, hi, lo, p, rfl⟩

theorem readStored_eol (hc : c = '\r' ∨ c = '\n') :
    readStored (n + 1) buf (c :: p) next = readStored n buf p next :=
  if_pos hc

theorem readStored_short (hc : ¬ (c = '\r' ∨ c = '\n')) (h : p.length < 3) :
    readStored (n + 1) buf (c :: p) next = .failed := by
  refine (if_neg hc).trans ?_
  rcases p with - | ⟨kind, - | ⟨hi, - | ⟨lo, p⟩⟩⟩
  · rfl
  · rfl
  · rfl
  · simp only [List.length_cons] at h
    omega

theorem readStored_record (hc : ¬ (c = '\r' ∨ c = '\n')) :
    readStored (n + 1) buf (c :: kind :: hi :: lo :: p) next =
      if p.length < countOf hi lo * 2 then .failed
      else
        let full := refill buf (p.take (countOf hi lo * 2))
        if !isData kind then .done []
        else if full.length < addressBytes kind * 2 then .wild
        else if addressIn kind full ≠ next then .done []
        else if countOf hi lo < addressBytes kind + 1 then .wild
        else
          (readStored n full (p.drop (countOf hi lo * 2))
            (next + (dataOf kind (countOf hi lo) full).length)).behind
              (dataOf kind (countOf hi lo) full) :=
  if_neg hc

/-- Every turn of the loop takes a character, so that a number of turns above the length of the text
is as good as any other. -/
theorem readStored_turns (n m : Nat) (hn : p.length < n) (hm : p.length < m) :
    readStored n buf p next = readStored m buf p next := by
  induction n generalizing m buf p next with
  | zero => omega
  | succ n ih =>
    obtain ⟨m, rfl⟩ : ∃ k, m = k + 1 := ⟨m - 1, by omega⟩
    rcases p with - | ⟨c, p⟩
    · rfl
    rw [List.length_cons] at hn hm
    by_cases hc : c = '\r' ∨ c = '\n'
    · rw [readStored_eol hc, readStored_eol hc]
      exact ih m (by omega) (by omega)
    by_cases hshort : p.length < 3
    · rw [readStored_short hc hshort, readStored_short hc hshort]
    obtain ⟨kind, hi, lo, p, rfl⟩ := cons_of_three_le (Nat.le_of_not_lt hshort)
    simp only [List.length_cons] at hn hm
    have hlen : (p.drop (countOf hi lo * 2)).length ≤ p.length := by
      rw [List.length_drop]
      exact Nat.sub_le _ _
    rw [readStored_record hc, readStored_record hc]
    simp only
    rw [ih m (by omega) (by omega)]

/-- The reader at a line. -/
def readFrom (buf p : List Char) (next : Nat) : Outcome := readStored (p.length + 1) buf p next

theorem readStored_eq (h : p.length < n) : readStored n buf p next = readFrom buf p next :=
  readStored_turns n _ h (Nat.lt_succ_self _)

theorem readFrom_eol (hc : c = '\r' ∨ c = '\n') : readFrom buf (c :: p) next = readFrom buf p next :=
  readStored_eol hc

theorem readFrom_record (hc : ¬ (c = '\r' ∨ c = '\n')) (hlen : countOf hi lo * 2 ≤ p.length) :
    readFrom buf (c :: kind :: hi :: lo :: p) next =
      let full := refill buf (p.take (countOf hi lo * 2))
      if !isData kind then .done []
      else if full.length < addressBytes kind * 2 then .wild
      else if addressIn kind full ≠ next then .done []
      else if countOf hi lo < addressBytes kind + 1 then .wild
      else
        (readFrom full (p.drop (countOf hi lo * 2))
          (next + (dataOf kind (countOf hi lo) full).length)).behind
            (dataOf kind (countOf hi lo) full) := by
  have hdrop : (p.drop (countOf hi lo * 2)).length < (c :: kind :: hi :: lo :: p).length := by
    simp only [List.length_drop, List.length_cons]
    omega
  rw [readFrom, readStored_record hc]
  simp only
  rw [if_neg (by omega), readStored_eq hdrop]

theorem readSectionStored_eq : readSectionStored file sec = readFrom [] (file.drop sec.filepos) sec.vma := by
  refine readStored_eq ?_
  rw [List.length_drop]
  omega

theorem readFrom_short (hc : ¬ (c = '\r' ∨ c = '\n'))
    (h : ∀ kind hi lo p', p = kind :: hi :: lo :: p' → p'.length < countOf hi lo * 2) :
    readFrom buf (c :: p) next = .failed := by
  by_cases hshort : p.length < 3
  · exact readStored_short hc hshort
  · obtain ⟨kind, hi, lo, p, rfl⟩ := cons_of_three_le (Nat.le_of_not_lt hshort)
    rw [readFrom, readStored_record hc]
    exact if_pos (h kind hi lo p rfl)

/-! The characters of a record. -/

theorem rawValues_append (chars q : List Char) (b : Nat) (h : chars.length = b * 2) :
    rawValues (chars ++ q) = rawValues chars ++ rawValues q := by
  induction b generalizing chars with
  | zero =>
    obtain rfl := List.length_eq_zero_iff.mp h
    rfl
  | succ b ih =>
    rcases chars with - | ⟨x, - | ⟨y, chars⟩⟩
    · simp at h
    · simp only [List.length_cons, List.length_nil] at h
      omega
    · simp only [List.length_cons] at h
      rw [List.cons_append, List.cons_append, rawValues, rawValues, ih chars (by omega)]
      rfl

theorem length_rawValues (chars : List Char) : (rawValues chars).length = chars.length / 2 := by
  fun_induction rawValues chars with
  | case1 hi lo rest ih =>
    simp only [List.length_cons, ih]
    omega
  | case2 chars hp =>
    rcases chars with - | ⟨x, - | ⟨y, chars⟩⟩
    · rfl
    · simp
    · exact absurd rfl (hp x y chars)

theorem length_refill (buf chars : List Char) : chars.length ≤ (refill buf chars).length := by
  rw [refill, List.length_append]
  exact Nat.le_add_right _ _

theorem addressIn_refill {b : Nat} (h : p.length = b * 2) (hb : addressBytes kind ≤ b) :
    addressIn kind (refill buf p) = addressIn kind p := by
  rw [addressIn, refill, rawValues_append _ _ b h,
    List.take_append_of_le_length (by rw [length_rawValues]; omega), addressIn]

theorem dataOf_refill {b : Nat} (h : p.length = b * 2) (hb : addressBytes kind ≤ b) :
    dataOf kind b (refill buf p) = dataOf kind b p := by
  have hlen := length_rawValues p
  rw [dataOf, refill, rawValues_append _ _ b h, List.drop_append_of_le_length (by omega),
    List.take_append_of_le_length (by rw [List.length_drop]; omega), dataOf]

theorem length_dataOf {b : Nat} (h : b * 2 ≤ p.length) (kind : Char) :
    (dataOf kind b p).length = b - addressBytes kind - 1 := by
  rw [dataOf, List.length_map, List.length_take, List.length_drop, length_rawValues]
  omega

/-- The text `p` goes on with data records in the order of their addresses, from `next`, and line
ends until `p'`, and the records hold `d`; `buf'` is what they leave in the buffer. -/
inductive Walks : List Char → List Char → Nat → List BfdByte → List Char → List Char → Prop
  | done (buf p : List Char) (next : Nat) : Walks buf p next [] buf p
  | eol {buf p buf' p' : List Char} {next : Nat} {d : List BfdByte} {c : Char}
    (hc : c = '\r' ∨ c = '\n') :
    Walks buf p next d buf' p' → Walks buf (c :: p) next d buf' p'
  | record {buf p chars buf' p' : List Char} {next b : Nat} {d : List BfdByte} {kind hi lo : Char}
    (hkind : isData kind = true) (hb : b = countOf hi lo) (hcount : addressBytes kind < b)
    (hlen : b * 2 ≤ p.length) (hchars : chars = p.take (b * 2))
    (haddr : addressIn kind chars = next) :
    Walks (refill buf chars) (p.drop (b * 2)) (next + (dataOf kind b chars).length) d buf' p' →
    Walks buf ('S' :: kind :: hi :: lo :: p) next (dataOf kind b chars ++ d) buf' p'

theorem Walks.trans (h : Walks buf p next d buf' p') {buf₂ p₂ : List Char}
    (h' : Walks buf' p' (next + d.length) d' buf₂ p₂) : Walks buf p next (d ++ d') buf₂ p₂ := by
  induction h with
  | done => exact h'
  | eol hc _ ih => exact .eol hc (ih h')
  | record hkind hb hcount hlen hchars haddr _ ih =>
    rw [List.append_assoc]
    refine .record hkind hb hcount hlen hchars haddr (ih ?_)
    rwa [Nat.add_assoc, ← List.length_append]

theorem Walks.snoc_eol (h : Walks buf p next d buf' (c :: p')) (hc : c = '\r' ∨ c = '\n') :
    Walks buf p next d buf' p' := by
  have htrans := h.trans (.eol hc (.done buf' p' _))
  rwa [List.append_nil] at htrans

theorem not_eol : ¬ ('S' = '\r' ∨ 'S' = '\n') := by decide

/-- The data of the records are stored, and then the reader is at their end. -/
theorem readFrom_walks (h : Walks buf p next d buf' p') :
    readFrom buf p next = (readFrom buf' p' (next + d.length)).behind d := by
  induction h with
  | done buf p next => exact (Outcome.behind_nil _).symm
  | eol hc _ ih => rw [readFrom_eol hc, ih]
  | @record buf p chars buf' p' next b d kind hi lo hkind hb hcount hlen hchars haddr _ ih =>
    have hlength : chars.length = b * 2 := by
      rw [hchars, List.length_take, Nat.min_eq_left hlen]
    have hfull := length_refill buf chars
    subst hb
    rw [readFrom_record not_eol hlen]
    simp only [← hchars, hkind, Bool.not_true, Bool.false_eq_true, if_false]
    rw [if_neg (by omega), addressIn_refill hlength (by omega), if_neg (not_not.mpr haddr),
      if_neg (by omega), dataOf_refill hlength (by omega), ih, Outcome.behind_behind,
      List.length_append, Nat.add_assoc]

/-! When the reader stops. -/

theorem readFrom_of_harmless (h : Harmless buf p next) : readFrom buf p next = .done [] := by
  induction h with
  | eof => rfl
  | eol hc _ ih => rw [readFrom_eol hc, ih]
  | other hc hlen hkind =>
    rw [readFrom_record hc hlen, hkind]
    rfl
  | elsewhere hc hlen hkind hbuf haddr =>
    rw [readFrom_record hc hlen]
    simp only [hkind, Bool.not_true, Bool.false_eq_true, if_false]
    rw [if_neg (Nat.not_lt.mpr hbuf), if_pos haddr]
  | @empty buf p next c kind hi lo hc hlen hkind haddr hcount _ ih =>
    have hdata (chars : List Char) : dataOf kind (countOf hi lo) chars = [] := by
      rw [dataOf, hcount, Nat.add_sub_cancel_left, Nat.sub_self, List.take_zero, List.map_nil]
    have hfull := length_refill buf (p.take (countOf hi lo * 2))
    rw [List.length_take, Nat.min_eq_left hlen] at hfull
    rw [readFrom_record hc hlen]
    simp only [hkind, Bool.not_true, Bool.false_eq_true, if_false]
    rw [if_neg (by omega), if_neg (not_not.mpr haddr), if_neg (by omega), hdata]
    exact (Outcome.behind_nil _).trans ih

theorem harmless_of_readFrom (n : Nat) (hn : p.length < n) (h : readFrom buf p next = .done []) :
    Harmless buf p next := by
  induction n generalizing buf p with
  | zero => omega
  | succ n ih =>
    rcases p with - | ⟨c, p⟩
    · exact .eof buf next
    rw [List.length_cons] at hn
    by_cases hc : c = '\r' ∨ c = '\n'
    · rw [readFrom_eol hc] at h
      exact .eol hc (ih (by omega) h)
    by_cases hlong : ∃ kind hi lo p', p = kind :: hi :: lo :: p' ∧ countOf hi lo * 2 ≤ p'.length
    · obtain ⟨kind, hi, lo, p, rfl, hlen⟩ := hlong
      rw [readFrom_record hc hlen] at h
      simp only at h
      split_ifs at h with hkind hbuf haddr hcount
      · exact .other hc hlen (by simpa using hkind)
      · exact .elsewhere hc hlen (by simpa using hkind) (Nat.le_of_not_lt hbuf) haddr
      · obtain ⟨hdata, h⟩ := (Outcome.behind_eq_nil _).mp h
        have hfull := length_refill buf (p.take (countOf hi lo * 2))
        rw [List.length_take, Nat.min_eq_left hlen] at hfull
        have hnone := length_dataOf hfull kind
        rw [hdata] at h hnone
        refine .empty hc hlen (by simpa using hkind) (not_not.mp haddr) ?_ (ih ?_ h)
        · rw [List.length_nil] at hnone
          omega
        · simp only [List.length_cons] at hn
          rw [List.length_drop]
          omega
    · rw [readFrom_short hc] at h
      · cases h
      · intro kind hi lo p' hp
        by_contra hlen
        exact hlong ⟨kind, hi, lo, p', hp, Nat.le_of_not_lt hlen⟩

theorem readFrom_eq_done_nil : readFrom buf p next = .done [] ↔ Harmless buf p next :=
  ⟨harmless_of_readFrom _ (Nat.lt_succ_self _), readFrom_of_harmless⟩

/-! What the scan has seen of a record. -/

/-- The text of a record that the scan accepts. -/
structure Text (q : List Char) (kind hi lo : Char) (p : List Char) (vals : List Nat)
    (p' : List Char) : Prop where
  text : q = kind :: hi :: lo :: p
  count : addressBytes kind < countOf hi lo
  len : countOf hi lo * 2 ≤ p.length
  vals : vals = rawValues (p.take (countOf hi lo * 2))
  rest : p' = p.drop (countOf hi lo * 2)

theorem text_of_readRecord (h : readRecord q = some (kind, vals, p')) :
    ∃ hi lo p, Text q kind hi lo p vals p' := by
  rcases q with - | ⟨x, - | ⟨hi, - | ⟨lo, p⟩⟩⟩
  · cases h
  · cases h
  · cases h
  · rw [readRecord] at h
    split_ifs at h with hhex
    simp only at h
    split_ifs at h with hcount hlen
    obtain ⟨rfl, hrest⟩ := Prod.mk.inj (Option.some.inj h)
    obtain ⟨rfl, rfl⟩ := Prod.mk.inj hrest
    exact ⟨hi, lo, p, rfl, Nat.lt_of_succ_le (Nat.le_of_not_lt hcount), Nat.le_of_not_lt hlen, rfl, rfl⟩

theorem Text.length_chars (h : Text q kind hi lo p vals p') :
    (p.take (countOf hi lo * 2)).length = countOf hi lo * 2 := by
  rw [List.length_take, Nat.min_eq_left h.len]

theorem Text.length_vals (h : Text q kind hi lo p vals p') : vals.length = countOf hi lo := by
  rw [h.vals, length_rawValues, h.length_chars, Nat.mul_div_cancel _ Nat.zero_lt_two]

/-- The characters that the scan collects. -/
theorem Text.chars (h : Text q kind hi lo p vals p') :
    (q.drop 3).take (vals.length * 2) = p.take (countOf hi lo * 2) := by
  rw [h.text, h.length_vals]
  rfl

theorem Text.suffix (h : Text q kind hi lo p vals p') : p' <:+ 'S' :: q := by
  rw [h.rest, h.text]
  exact (List.drop_suffix _ p).trans ⟨['S', kind, hi, lo], rfl⟩

/-- The reader returns at a record that does not go on with its section. -/
theorem Text.harmless (h : Text q kind hi lo p vals p')
    (hstop : isData kind = true → addressIn kind (p.take (countOf hi lo * 2)) ≠ next) :
    Harmless buf ('S' :: q) next := by
  rw [h.text]
  by_cases hkind : isData kind = true
  · have hcount := h.count
    have hfull := length_refill buf (p.take (countOf hi lo * 2))
    rw [h.length_chars] at hfull
    refine .elsewhere not_eol h.len hkind (by omega) ?_
    rw [addressIn_refill h.length_chars (by omega)]
    exact hstop hkind
  · exact .other not_eol h.len (Bool.not_eq_true _ ▸ hkind)

/-! The scan. -/

/-- A section that is not built any more. -/
structure Settled (file : List Char) (sec : Sec) (f : Found) : Prop where
  size : f.data.length = sec.size
  read : readSectionStored file sec = .done f.data ↔ f.Fine sec

/-- The section that is being built, with the rest `p` of the file before the scan. -/
structure Open (file p : List Char) (sec : Sec) (f : Found) : Prop where
  size : f.data.length = sec.size
  line : f.line = none
  /-- the reader comes to the place of the scan -/
  walks : f.passed = false →
    f.cut = false ∧ Walks [] (file.drop sec.filepos) sec.vma f.data f.buf p
  /-- the reader has returned before -/
  cut : f.passed = true → ∃ d₁ d₂, readSectionStored file sec = .done d₁ ∧ f.data = d₁ ++ d₂ ∧
    (f.cut = false ↔ d₂ = [])

/-- The reader of a section without a record of an unknown type. -/
theorem Open.read (h : Open file p sec f) (hpassed : f.passed = false) :
    readSectionStored file sec = (readFrom f.buf p (sec.vma + sec.size)).behind f.data := by
  rw [readSectionStored_eq, readFrom_walks (h.walks hpassed).2, h.size]

theorem Open.read_iff (h : Open file p sec f) (hpassed : f.passed = false) :
    readSectionStored file sec = .done f.data ↔ Harmless f.buf p (sec.vma + sec.size) := by
  have hdone := @Outcome.behind_eq_done f.data [] (readFrom f.buf p (sec.vma + sec.size))
  rw [List.append_nil, readFrom_eq_done_nil] at hdone
  rw [h.read hpassed, hdone]

theorem Open.read_passed (h : Open file p sec f) (hpassed : f.passed = true) :
    readSectionStored file sec = .done f.data ↔ f.cut = false := by
  obtain ⟨d₁, d₂, hread, hdata, hcut⟩ := h.cut hpassed
  rw [hread, hdata, hcut, Outcome.done.injEq]
  exact List.self_eq_append_right

/-- The section ends where the reader returns. -/
theorem Open.settled (h : Open file p sec f)
    (hend : f.passed = false → Harmless f.buf p (sec.vma + sec.size)) : Settled file sec f := by
  refine ⟨h.size, ?_⟩
  rw [Found.Fine, h.line]
  cases hpassed : f.passed with
  | false =>
    have hcut := (h.walks hpassed).1
    simpa [hcut] using (h.read_iff hpassed).mpr (hend hpassed)
  | true => simpa using h.read_passed hpassed

/-- The section ends in front of a line that is no record. -/
theorem Open.meet (h : Open file p sec f) : Settled file sec (f.meet p) := by
  cases hpassed : f.passed with
  | false =>
    rw [Found.meet, hpassed]
    refine ⟨h.size, ?_⟩
    simpa [Found.Fine, (h.walks hpassed).1] using h.read_iff hpassed
  | true =>
    rw [Found.meet, hpassed]
    refine ⟨h.size, ?_⟩
    simpa [Found.Fine, h.line] using h.read_passed hpassed

theorem Open.eol (h : Open file (c :: p) sec f) (hc : c = '\r' ∨ c = '\n') : Open file p sec f := by
  refine ⟨h.size, h.line, fun hpassed => ?_, h.cut⟩
  obtain ⟨hcut, hwalks⟩ := h.walks hpassed
  exact ⟨hcut, hwalks.snoc_eol hc⟩

/-- A record of a type that is not known. -/
theorem Open.pass (h : Open file ('S' :: q) sec f) (htext : Text q kind hi lo p vals p')
    (hkind : isData kind = false) : Open file p' sec f.pass := by
  refine ⟨h.size, h.line, fun hpassed => (by cases hpassed), fun _ => ?_⟩
  cases hpassed : f.passed with
  | false =>
    have hstop : Harmless f.buf ('S' :: q) (sec.vma + sec.size) :=
      htext.harmless fun hdata => by rw [hkind] at hdata; cases hdata
    refine ⟨f.data, [], (h.read_iff hpassed).mpr hstop, (List.append_nil _).symm, ?_⟩
    exact iff_of_true (h.walks hpassed).1 rfl
  | true => exact h.cut hpassed

/-- A record that goes on with the section. -/
theorem Open.add (h : Open file ('S' :: q) sec f) (htext : Text q kind hi lo p vals p')
    (hkind : isData kind = true)
    (haddr : addressIn kind (p.take (countOf hi lo * 2)) = sec.vma + sec.size) (hd :
      d = dataOf kind (countOf hi lo) (p.take (countOf hi lo * 2))) :
    Open file p' { sec with size := sec.size + d.length }
      (f.add d (p.take (countOf hi lo * 2))) := by
  subst hd
  refine ⟨?_, h.line, fun hpassed => ?_, fun hpassed => ?_⟩
  · rw [Found.add, List.length_append, h.size]
  · obtain ⟨hcut, hwalks⟩ := h.walks hpassed
    refine ⟨?_, hwalks.trans ?_⟩
    · rw [Found.add, hcut, show f.passed = false from hpassed]
      rfl
    · rw [htext.text, h.size, ← haddr, htext.rest]
      have hone := @Walks.record f.buf _ _ _ _ _ _ _ _ _ _ hkind rfl htext.count htext.len rfl rfl
        (.done _ _ _)
      rwa [List.append_nil] at hone
  · obtain ⟨d₁, d₂, hread, hdata, hcut⟩ := h.cut hpassed
    refine ⟨d₁, d₂ ++ dataOf kind (countOf hi lo) (p.take (countOf hi lo * 2)), hread, ?_, ?_⟩
    · rw [Found.add, hdata, List.append_assoc]
    · rw [Found.add, show f.passed = true from hpassed, List.append_eq_nil_iff, ← hcut]
      simp

/-- What the scan keeps, with the rest `p` of the file before it. -/
structure Scanning (file p : List Char) (st : ScanState) (found : List Found) : Prop where
  suffix : p <:+ file
  /-- the sections -/
  secs : if st.building then ∃ sec secs f fs, st.secs = sec :: secs ∧ found = f :: fs ∧
      Open file p sec f ∧ List.Forall₂ (Settled file) secs fs
    else List.Forall₂ (Settled file) st.secs found

theorem Scanning.start (file : List Char) : Scanning file file ⟨0, [], false, []⟩ [] :=
  ⟨List.suffix_refl file, .nil⟩

/-- The section that is being built ends where the reader returns. -/
theorem Scanning.settled (h : Scanning file p st found)
    (hend : ∀ buf sec, st.building = true → st.secs.head? = some sec →
      Harmless buf p (sec.vma + sec.size)) :
    List.Forall₂ (Settled file) st.secs found := by
  have hsecs := h.secs
  split_ifs at hsecs with hb
  · obtain ⟨sec, secs, f, fs, hst, rfl, hopen, hall⟩ := hsecs
    rw [hst]
    refine .cons (hopen.settled fun _ => ?_) hall
    exact hend f.buf sec hb (by rw [hst]; rfl)
  · exact hsecs

theorem Scanning.eol (h : Scanning file (c :: p) st found) (hc : c = '\r' ∨ c = '\n') :
    Scanning file p st found := by
  refine ⟨(List.suffix_cons c p).trans h.suffix, ?_⟩
  have hsecs := h.secs
  split_ifs at hsecs ⊢ with hb
  · obtain ⟨sec, secs, f, fs, hst, hfound, hopen, hall⟩ := hsecs
    exact ⟨sec, secs, f, fs, hst, hfound, hopen.eol hc, hall⟩
  · exact hsecs

/-- A line that is no record. -/
theorem Scanning.stray (h : Scanning file p st found) (hp : p' <:+ p) (hsecs : st'.secs = st.secs)
    (hb : st'.building = false) : Scanning file p' st' (stray st p found) := by
  refine ⟨hp.trans h.suffix, ?_⟩
  have hall := h.secs
  rw [if_neg (by rw [hb]; exact Bool.false_ne_true), hsecs, Srec.stray]
  split_ifs at hall ⊢ with hbuild
  · obtain ⟨sec, secs, f, fs, hst, rfl, hopen, hall⟩ := hall
    rw [hst, List.modifyHead_cons]
    exact .cons hopen.meet hall
  · exact hall

/-- The three cases of a data record. -/
theorem dataRecord_eq (st : ScanState) (pos address len : Nat) : dataRecord st pos address len =
    if joins st address then
      { st with secs := st.secs.modifyHead fun sec => { sec with size := sec.size + len } }
    else { st with secs := ⟨address, len, pos⟩ :: st.secs, building := true } := by
  obtain ⟨start, secs, building, symbols⟩ := st
  cases building with
  | false => rfl
  | true =>
    cases secs with
    | nil => rfl
    | cons sec secs =>
      simp only [dataRecord, joins, Bool.true_and, List.head?_cons, Option.any_some,
        decide_eq_true_eq, List.modifyHead_cons]

theorem joins_cons {secs : List Sec} {address : Nat} (hb : st.building = true)
    (hsecs : st.secs = sec :: secs) : joins st address = true ↔ sec.vma + sec.size = address := by
  rw [joins, hb, hsecs]
  simp

/-- The position of the rest of a file. -/
theorem drop_of_suffix (h : p <:+ file) : file.drop (file.length - p.length) = p := by
  obtain ⟨front, rfl⟩ := h
  rw [List.length_append, Nat.add_sub_cancel, List.drop_left]

/-- A data record. -/
theorem Scanning.data (h : Scanning file ('S' :: q) st found) (htext : Text q kind hi lo p vals p')
    (hkind : isData kind = true) :
    Scanning file p'
      (dataRecord st (file.length - (q.length + 1)) (addressIn kind (p.take (countOf hi lo * 2)))
        (vals.length - 1 - addressBytes kind))
      (collect st kind (p.take (countOf hi lo * 2)) found) := by
  have hcount : (p.take (countOf hi lo * 2)).length / 2 = countOf hi lo := by
    rw [htext.length_chars, Nat.mul_div_cancel _ Nat.zero_lt_two]
  have hlen : vals.length - 1 - addressBytes kind =
      (dataOf kind (countOf hi lo) (p.take (countOf hi lo * 2))).length := by
    rw [length_dataOf (Nat.le_of_eq htext.length_chars.symm), htext.length_vals]
    omega
  rw [collect, if_pos hkind, hcount, dataRecord_eq, hlen]
  simp only
  refine ⟨htext.suffix.trans h.suffix, ?_⟩
  by_cases hjoins : joins st (addressIn kind (p.take (countOf hi lo * 2))) = true
  · -- the record goes on with the section
    have hb : st.building = true := (Bool.and_eq_true_iff.mp hjoins).1
    have hsecs := h.secs
    rw [if_pos hb] at hsecs
    obtain ⟨sec, secs, f, fs, hst, rfl, hopen, hall⟩ := hsecs
    rw [if_pos hjoins, if_pos hjoins, if_pos hb, hst]
    have haddr := (joins_cons hb hst).mp hjoins
    exact ⟨_, _, _, _, rfl, rfl, hopen.add htext hkind haddr.symm rfl, hall⟩
  · have hall : List.Forall₂ (Settled file) st.secs found := by
      refine h.settled fun buf sec hb hhead => htext.harmless fun _ haddr => hjoins ?_
      rw [joins, hb, hhead, haddr]
      simp
    rw [if_neg hjoins, if_neg hjoins, if_pos rfl]
    refine ⟨_, _, _, _, rfl, rfl, ⟨rfl, rfl, fun _ => ⟨rfl, ?_⟩, fun hpassed => by cases hpassed⟩, hall⟩
    have hdrop : file.drop (file.length - (q.length + 1)) = 'S' :: q := drop_of_suffix h.suffix
    simp only
    rw [hdrop, htext.text, htext.rest]
    have hone := @Walks.record [] _ _ _ _ _ _ _ _ _ _ hkind rfl htext.count htext.len rfl rfl
      (.done _ _ _)
    rwa [List.append_nil] at hone

/-- The three kinds of records that the scan goes on from. -/
theorem scanRecord_more {pos : Nat} (h : scanRecord st pos kind vals = some (.more st')) :
    (isData kind = true ∧ st' = dataRecord st pos (addressOf (vals.take (addressBytes kind)))
      (vals.length - 1 - addressBytes kind)) ∨
    (isData kind = false ∧ ['0', '5', '7', '8', '9'].contains kind = true ∧
      st' = { st with building := false }) ∨
    (isData kind = false ∧ ['0', '5', '7', '8', '9'].contains kind = false ∧ st' = st) := by
  unfold scanRecord at h
  split at h
  case h_1 | h_2 => exact .inr (.inl ⟨rfl, rfl, (Scanned.more.inj (Option.some.inj h)).symm⟩)
  case h_3 | h_4 | h_5 =>
    split_ifs at h
    exact .inl ⟨rfl, (Scanned.more.inj (Option.some.inj h)).symm⟩
  case h_6 | h_7 | h_8 => (split_ifs at h; cases h)
  case h_9 =>
    refine .inr (.inr ⟨?_, ?_, (Scanned.more.inj (Option.some.inj h)).symm⟩)
    · simp_all [isData]
    · simp_all

theorem scanRecord_ended {pos : Nat} (h : scanRecord st pos kind vals = some (.ended st')) :
    isData kind = false ∧ st'.secs = st.secs := by
  unfold scanRecord at h
  split at h
  case h_1 | h_2 | h_9 => cases h
  case h_3 | h_4 | h_5 => (split_ifs at h; cases h)
  case h_6 | h_7 | h_8 =>
    split_ifs at h
    obtain rfl := Scanned.ended.inj (Option.some.inj h)
    exact ⟨rfl, rfl⟩

theorem collect_other (hkind : isData kind = false) (chars : List Char) :
    collect st kind chars found =
      if st.building && !(['0', '5', '7', '8', '9'].contains kind) then found.modifyHead Found.pass
      else found :=
  if_neg (by rw [hkind]; exact Bool.false_ne_true)

/-- A record without data at which the section that is being built ends. -/
theorem Scanning.close (h : Scanning file ('S' :: q) st found) (htext : Text q kind hi lo p vals p')
    (hkind : isData kind = false) : List.Forall₂ (Settled file) st.secs found :=
  h.settled fun buf sec _ _ => htext.harmless fun hdata => by rw [hkind] at hdata; cases hdata

theorem Scanning.record {pos : Nat} (h : Scanning file ('S' :: q) st found)
    (htext : Text q kind hi lo p vals p') (hpos : pos = file.length - (q.length + 1))
    (hnext : scanRecord st pos kind vals = some (.more st')) :
    Scanning file p' st' (collect st kind ((q.drop 3).take (vals.length * 2)) found) := by
  rw [htext.chars]
  obtain ⟨hkind, rfl⟩ | ⟨hkind, hknown, rfl⟩ | ⟨hkind, hknown, rfl⟩ := scanRecord_more hnext
  · have haddr : addressOf (vals.take (addressBytes kind)) =
        addressIn kind (p.take (countOf hi lo * 2)) := by rw [htext.vals, addressIn]
    rw [haddr, hpos]
    exact h.data htext hkind
  · -- a header: the section that is being built ends
    refine ⟨htext.suffix.trans h.suffix, ?_⟩
    rw [collect_other hkind, hknown, Bool.not_true, Bool.and_false]
    exact h.close htext hkind
  · -- a type that is not known: the reader returns, and the section is still being built
    refine ⟨htext.suffix.trans h.suffix, ?_⟩
    have hsecs := h.secs
    rw [collect_other hkind, hknown, Bool.not_false, Bool.and_true]
    split_ifs at hsecs ⊢ with hb
    · obtain ⟨sec, secs, f, fs, hst, rfl, hopen, hall⟩ := hsecs
      exact ⟨sec, secs, f.pass, fs, hst, rfl, hopen.pass htext hkind, hall⟩
    · exact hsecs

theorem suffix_of_skipDollar (h : skipDollar p = some q) : q <:+ p := by
  cases p with
  | nil => cases h
  | cons c p =>
    rw [skipDollar] at h
    split_ifs at h
    · obtain rfl := Option.some.inj h
      exact List.suffix_cons _ _
    · obtain rfl := Option.some.inj h
      exact List.suffix_refl _

theorem suffix_of_dropWhile {P : Char → Bool} (h : p.dropWhile P = c :: q) : q <:+ p :=
  (List.suffix_cons c q).trans (h ▸ List.dropWhile_suffix P)

theorem suffix_of_readSymbols {symbols : List Symbol} (h : readSymbols n p = some (symbols, p')) :
    p' <:+ p := by
  induction n generalizing p symbols with
  | zero => cases h
  | succ n ih =>
    rw [readSymbols] at h
    cases hp : p.dropWhile blank with
    | nil =>
      simp only [hp] at h
      cases h
    | cons c q =>
      simp only [hp] at h
      have hq := suffix_of_dropWhile hp
      split_ifs at h with heol
      · obtain ⟨-, rfl⟩ := Prod.mk.inj (Option.some.inj h)
        exact hq
      cases hname : q.dropWhile fun c => !isSpace c with
      | nil =>
        simp only [hname] at h
        cases h
      | cons x r =>
        simp only [hname] at h
        have hr := (suffix_of_dropWhile hname).trans hq
        obtain ⟨s, hs, h⟩ := Option.bind_eq_some_iff.mp h
        have hs' := (suffix_of_skipDollar hs).trans ((List.dropWhile_suffix _).trans hr)
        cases hval : s.dropWhile isHex with
        | nil =>
          simp only [hval] at h
          cases h
        | cons y t =>
          simp only [hval] at h
          have ht := (suffix_of_dropWhile hval).trans hs'
          split_ifs at h with hblank hend
          · obtain ⟨⟨more, t'⟩, hmore, heq⟩ := Option.map_eq_some_iff.mp h
            obtain ⟨-, rfl⟩ := Prod.mk.inj heq
            exact (ih hmore).trans ht
          · obtain ⟨-, rfl⟩ := Prod.mk.inj (Option.some.inj h)
            exact ht

/-- The scan of a file with what it puts into the sections. -/
theorem scanLoopData_eq (h : scanLoop file.length n p st = some st')
    (hscan : Scanning file p st found) :
    ∃ found', scanLoopData file.length n p st found = some (st', found') ∧
      List.Forall₂ (Settled file) st'.secs found' := by
  induction n generalizing p st found with
  | zero => cases h
  | succ n ih =>
    cases p with
    | nil =>
      obtain rfl := Option.some.inj h
      exact ⟨found, rfl, hscan.settled fun buf sec _ _ => .eof _ _⟩
    | cons c p =>
      rw [scanLoop] at h
      rw [scanLoopData]
      by_cases heol : c = '\n' ∨ c = '\r'
      · rw [if_pos heol] at h ⊢
        exact ih h (hscan.eol heol.symm)
      rw [if_neg heol] at h ⊢
      by_cases hdollar : c = '$'
      · rw [if_pos hdollar] at h ⊢
        cases hq : p.dropWhile (· ≠ '\n') with
        | nil =>
          simp only [hq] at h
          cases h
        | cons x q =>
          simp only [hq] at h ⊢
          refine ih h (hscan.stray ?_ rfl rfl)
          exact (suffix_of_dropWhile hq).trans (List.suffix_cons c p)
      rw [if_neg hdollar] at h ⊢
      by_cases hblank : c = ' '
      · rw [if_pos hblank] at h ⊢
        obtain ⟨⟨symbols, q⟩, hsymbols, h⟩ := Option.bind_eq_some_iff.mp h
        rw [hsymbols]
        exact ih h (hscan.stray ((suffix_of_readSymbols hsymbols).trans (List.suffix_cons c p)) rfl rfl)
      rw [if_neg hblank] at h ⊢
      by_cases hrecord : c = 'S'
      · subst hrecord
        rw [if_pos rfl] at h ⊢
        obtain ⟨⟨kind, vals, p'⟩, hr, h⟩ := Option.bind_eq_some_iff.mp h
        obtain ⟨next, hnext, h⟩ := Option.bind_eq_some_iff.mp h
        obtain ⟨hi, lo, q, htext⟩ := text_of_readRecord hr
        rw [hr]
        simp only [Option.bind_eq_bind, Option.bind_some, hnext]
        cases next with
        | ended st =>
          obtain rfl := Option.some.inj h
          obtain ⟨hkind, hsecs⟩ := scanRecord_ended hnext
          refine ⟨found, rfl, ?_⟩
          rw [hsecs]
          exact hscan.close htext hkind
        | more st => exact ih h (hscan.record htext rfl hnext)
      · rw [if_neg hrecord] at h
        cases h

/-- The reader of a section of an accepted file fills it with the data that were scanned into it
exactly when no data were scanned behind a record of an unknown type and a line behind the section
that is no record does no harm. -/
theorem srec_passes_agree_iff (h : scan file = some st) :
    ∃ found, scanData file = some (st, found) ∧
      List.Forall₂ (fun sec f => f.data.length = sec.size ∧
        (readSectionStored file sec = .done f.data ↔ f.Fine sec)) st.secs found := by
  obtain ⟨found, hfound, hall⟩ := scanLoopData_eq h (Scanning.start file)
  exact ⟨found, hfound, hall.imp fun sec f hsettled => ⟨hsettled.size, hsettled.read⟩⟩

/-- A line that is no record, and two records that make one section. -/
def behindLine : List Char :=
  '$' :: '\n' :: Record.text ⟨1, 0, [0x41#8]⟩ ++ '\n' :: Record.text ⟨1, 1, [0x42#8]⟩

theorem srec_passes_agree_behindLine : ∃ found,
    scanData behindLine = some (⟨0, [⟨0, 2, 2⟩], true, []⟩, found) ∧
    List.Forall₂ (fun sec f => f.data.length = sec.size ∧
      (readSectionStored behindLine sec = .done f.data ↔ f.Fine sec)) [⟨0, 2, 2⟩] found :=
  @srec_passes_agree_iff behindLine ⟨0, [⟨0, 2, 2⟩], true, []⟩ (by decide)

/-- Two data records for addresses behind each other, with a record of an unknown type between
them. -/
def aroundUnknown : List Char :=
  Record.text ⟨1, 0, [0x41#8]⟩ ++ Record.text ⟨4, 0, [0#8, 0#8]⟩ ++ Record.text ⟨1, 1, [0x42#8]⟩

/-- The scan makes one section of them, and the reader stops at the unknown one. -/
theorem read_stops_at_unknown :
    (scanData aroundUnknown).map (fun s => (s.1.secs, s.2.map Found.data)) =
      some ([⟨0, 2, 0⟩], [[0x41#8, 0x42#8]]) ∧
    readSectionStored aroundUnknown ⟨0, 2, 0⟩ = .done [0x41#8] := by
  decide

end FusionBinutils.Bfd.Srec
