import FusionBinutils.Bfd.Ihex

/-! The two passes over an Intel Hex file: what `ihex_read_section` reads is what `ihex_scan` has
put into the section. -/
namespace FusionBinutils.Bfd.Ihex
open HexFile
variable {file p p' q q' : List Char} {r : Record} {st st' : ScanState} {n size pos : Nat}
  {d d' : List BfdByte} {found found' : List (List BfdByte)} {sec : Sec}

/-- The data go to the end of the section that is being built. -/
def joins (st : ScanState) (address : Nat) : Bool :=
  st.building && st.secs.head?.any fun sec => sec.vma + sec.size = address

/-- The data scanned into each section, behind a record. -/
def collect (st : ScanState) (r : Record) (found : List (List BfdByte)) : List (List BfdByte) :=
  if r.type ≠ 0 then found
  else if joins st (st.bases.extbase + st.bases.segbase + r.addr) then
    found.modifyHead (· ++ r.data)
  else if 0 < r.data.length then r.data :: found
  else found

/-- The loop of `ihex_scan` with the data that it scans into each section. -/
def scanLoopData (size : Nat) : Nat → List Char → ScanState → List (List BfdByte) →
    Option (ScanState × List (List BfdByte))
  | 0, _, _, _ => none
  | _ + 1, [], st, found => some (st, found)
  | n + 1, c :: p, st, found =>
    if c = '\r' ∨ c = '\n' then scanLoopData size n p st found
    else if c ≠ ':' then none
    else do
      let r ← readRecord p
      match ← scanRecord st (size - (p.length + 1)) r.1 with
      | .ended st => some (st, found)
      | .more st' => scanLoopData size n r.2 st' (collect st r.1 found)

def scanData (file : List Char) : Option (ScanState × List (List BfdByte)) :=
  scanLoopData file.length (file.length + 1) file ⟨⟨0, 0⟩, 0, [], false⟩ []

/-! The text of a section. -/

/-- The text `q` goes on with data records and line ends until `q'`, and the records hold `d`. -/
inductive Spells : List Char → List BfdByte → List Char → Prop
  | done (q : List Char) : Spells q [] q
  | eol {c : Char} {q : List Char} {d : List BfdByte} {q' : List Char} (hc : c = '\r' ∨ c = '\n') :
    Spells q d q' → Spells (c :: q) d q'
  | record {p p' : List Char} {r : Record} {d : List BfdByte} {q' : List Char}
    (hr : readRecord p = some (r, p')) (htype : r.type = 0) :
    Spells p' d q' → Spells (':' :: p) (r.data ++ d) q'

theorem Spells.trans (h : Spells q d p) (h' : Spells p d' q') : Spells q (d ++ d') q' := by
  induction h with
  | done => exact h'
  | eol hc _ ih => exact .eol hc (ih h')
  | record hr htype _ ih =>
    rw [List.append_assoc]
    exact .record hr htype (ih h')

theorem Spells.snoc_eol {c : Char} (h : Spells q d (c :: p)) (hc : c = '\r' ∨ c = '\n') :
    Spells q d p := by
  have htrans := h.trans (.eol hc (.done p))
  rwa [List.append_nil] at htrans

theorem Spells.snoc_record (h : Spells q d (':' :: p)) (hr : readRecord p = some (r, p'))
    (htype : r.type = 0) : Spells q (d ++ r.data) p' := by
  have htrans := h.trans (.record hr htype (.done p'))
  rwa [List.append_nil] at htrans

/-! A record is read alike by both passes. -/

theorem rawBytes_of_bytes {p : List Char} {bs : List BfdByte} (h : Hex.bytes p = some bs) :
    rawBytes p = bs := by
  fun_induction Hex.bytes p generalizing bs with
  | case1 hi lo rest ih =>
    simp only [Hex.byte, Option.bind_eq_bind, Option.bind_eq_some_iff, Option.some.injEq] at h
    obtain ⟨b, ⟨x, hx, y, hy, rfl⟩, bs', hbs, rfl⟩ := h
    rw [rawBytes, hexValue, hexValue, hx, hy, ih hbs]
    rfl
  | case2 p hp =>
    obtain rfl := Option.some.inj h
    rw [rawBytes]
    exact hp

/-- What the scan has seen of a record that it accepts. -/
structure Text (p : List Char) (r : Record) (p' : List Char) : Prop where
  header : 8 ≤ p.length
  len : ((rawBytes (p.take 8)).getD 0 0#8).toNat = r.data.length
  type : ((rawBytes (p.take 8)).getD 3 0#8).toNat = r.type
  body : r.data.length * 2 + 2 ≤ (p.drop 8).length
  data : rawBytes ((p.drop 8).take (r.data.length * 2)) = r.data
  rest : p' = p.drop (8 + r.data.length * 2 + 2)

theorem rawBytes_take (p : List Char) (k : Nat) :
    rawBytes (p.take (k * 2)) = (rawBytes p).take k := by
  fun_induction rawBytes p generalizing k with
  | case1 hi lo rest ih =>
    cases k with
    | zero => rfl
    | succ k =>
      rw [Nat.succ_mul, List.take_succ_cons, List.take_succ_cons, rawBytes, ih, List.take_succ_cons]
  | case2 p hp =>
    have hlen : p.length < 2 := by
      rcases p with - | ⟨x, - | ⟨y, p⟩⟩
      · exact Nat.zero_lt_two
      · exact Nat.one_lt_two
      · exact absurd rfl (hp x y p)
    rw [List.take_nil]
    cases k with
    | zero => rfl
    | succ k =>
      rw [List.take_of_length_le (by omega), rawBytes]
      exact hp

theorem text_of_readRecord (h : readRecord p = some (r, p')) : Text p r p' := by
  rw [readRecord] at h
  split_ifs at h with hshort
  simp only [Option.bind_eq_bind, Option.bind_eq_some_iff] at h
  obtain ⟨hdr, hhdr, h⟩ := h
  rcases hdr with - | ⟨len, - | ⟨hi, - | ⟨lo, - | ⟨type, - | ⟨x, hdr⟩⟩⟩⟩⟩
  · cases h
  · cases h
  · cases h
  · cases h
  · have hraw := rawBytes_of_bytes hhdr
    simp only [readBody] at h
    split_ifs at h with hbody
    simp only [Option.bind_eq_bind, Option.bind_eq_some_iff] at h
    obtain ⟨buf, hbuf, found, hfound, h⟩ := h
    split_ifs at h with hsum
    obtain ⟨rfl, rfl⟩ := Prod.mk.inj (Option.some.inj h)
    have hlen : (buf.take len.toNat).length = len.toNat := by
      have hlt := (List.getElem?_eq_some_iff.mp hfound).1
      rw [List.length_take]
      omega
    have hdata : rawBytes ((p.drop 8).take (len.toNat * 2)) = buf.take len.toNat := by
      rw [← rawBytes_of_bytes hbuf, ← rawBytes_take, List.take_take, Nat.min_eq_left (by omega)]
    refine ⟨by omega, ?_, ?_, ?_, ?_, ?_⟩
    · rw [hraw, hlen]
      rfl
    · rw [hraw]
      rfl
    · rw [hlen]
      omega
    · rw [hlen, hdata]
    · rw [hlen, List.drop_drop, Nat.add_assoc]
  · cases h

/-! The second pass. -/

/-- From the first record of a section, its bytes are read. -/
theorem readLoop_spells (h : Spells q d q') (hne : d ≠ []) (hn : q.length < n) :
    readLoop n q d.length = some d := by
  induction h generalizing n with
  | done => exact absurd rfl hne
  | @eol c q d q' hc hspells ih =>
    obtain ⟨n, rfl⟩ : ∃ k, n = k + 1 := ⟨n - 1, by omega⟩
    rw [List.length_cons] at hn
    rw [readLoop, if_pos hc, ih hne (by omega)]
  | @record p p' r d q' hr htype hspells ih =>
    obtain ⟨n, rfl⟩ : ∃ k, n = k + 1 := ⟨n - 1, by omega⟩
    rw [List.length_cons] at hn
    have htext := text_of_readRecord hr
    have hheader := htext.header
    have hbody := htext.body
    rw [readLoop, if_neg (by decide), if_neg (by omega)]
    simp only [htext.len, htext.type, htype, ne_eq, not_true_eq_false, if_false, htext.data]
    rw [if_neg (by omega), List.length_append]
    by_cases hlast : d = []
    · subst hlast
      rw [if_pos (by simp), List.append_nil]
    · have hpos := List.length_pos_iff.mpr hlast
      rw [if_neg (by omega), ← List.drop_drop, if_neg (by rw [List.length_drop]; omega),
        Nat.add_sub_cancel_left, ← htext.rest, ih hlast]
      · rfl
      · rw [htext.rest, List.length_drop]
        omega

theorem readSection_spells (h : Spells (file.drop sec.filepos) d q') (hne : d ≠ [])
    (hsize : sec.size = d.length) : readSection file sec = some d := by
  rw [readSection, hsize]
  refine readLoop_spells h hne ?_
  rw [List.length_drop]
  omega

/-! The first pass. -/

/-- A section with the data that were scanned into it. -/
structure Holds (file : List Char) (sec : Sec) (d : List BfdByte) : Prop where
  size : sec.size = d.length
  ne : d ≠ []
  text : ∃ q', Spells (file.drop sec.filepos) d q'

/-- What the scan keeps, with the rest `p` of the file before it. -/
structure Scanning (file p : List Char) (st : ScanState) (found : List (List BfdByte)) : Prop where
  suffix : p <:+ file
  secs : List.Forall₂ (Holds file) st.secs found
  building : st.building = true → ∃ sec secs d ds, st.secs = sec :: secs ∧ found = d :: ds ∧
    Spells (file.drop sec.filepos) d p

theorem Scanning.start (file : List Char) : Scanning file file ⟨⟨0, 0⟩, 0, [], false⟩ [] :=
  ⟨List.suffix_refl file, .nil, fun h => by cases h⟩

theorem Scanning.eol {c : Char} (h : Scanning file (c :: p) st found) (hc : c = '\r' ∨ c = '\n') :
    Scanning file p st found := by
  refine ⟨(List.suffix_cons c p).trans h.suffix, h.secs, fun hb => ?_⟩
  obtain ⟨sec, secs, d, ds, hsecs, hfound, hspells⟩ := h.building hb
  exact ⟨sec, secs, d, ds, hsecs, hfound, hspells.snoc_eol hc⟩

/-- A record without data for a section stops the section. -/
theorem Scanning.stop (h : Scanning file p st found) (hp : p' <:+ p) (hsecs : st'.secs = st.secs)
    (hb : st'.building = false) : Scanning file p' st' found := by
  refine ⟨hp.trans h.suffix, hsecs ▸ h.secs, fun hbuild => ?_⟩
  rw [hb] at hbuild
  cases hbuild

theorem suffix_of_text (h : Text p r p') : p' <:+ ':' :: p := by
  rw [h.rest]
  exact (List.drop_suffix _ p).trans (List.suffix_cons _ p)

/-- The position of the rest of a file. -/
theorem drop_of_suffix (h : p <:+ file) : file.drop (file.length - p.length) = p := by
  obtain ⟨front, rfl⟩ := h
  rw [List.length_append, Nat.add_sub_cancel, List.drop_left]

/-- The three cases of a data record. -/
theorem dataRecord_eq (st : ScanState) (pos addr len : Nat) : dataRecord st pos addr len =
    if joins st (st.bases.extbase + st.bases.segbase + addr) then
      { st with secs := st.secs.modifyHead fun sec => { sec with size := sec.size + len } }
    else if 0 < len then
      { st with
        secs := ⟨st.bases.extbase + st.bases.segbase + addr, len, pos⟩ :: st.secs, building := true }
    else st := by
  obtain ⟨bases, start, secs, building⟩ := st
  cases building with
  | false => rfl
  | true =>
    cases secs with
    | nil => rfl
    | cons sec secs =>
      simp only [dataRecord, joins, Bool.true_and, List.head?_cons, Option.any_some,
        decide_eq_true_eq, List.modifyHead_cons]

theorem Scanning.data (h : Scanning file (':' :: p) st found) (hr : readRecord p = some (r, p'))
    (htype : r.type = 0) : Scanning file p'
      (dataRecord st (file.length - (p.length + 1)) r.addr r.data.length) (collect st r found) := by
  have hsuffix := (suffix_of_text (text_of_readRecord hr)).trans h.suffix
  rw [collect, if_neg (not_not.mpr htype), dataRecord_eq]
  split_ifs with hjoins hlen
  · -- the record goes on with the section
    have hb : st.building = true := (Bool.and_eq_true_iff.mp hjoins).1
    obtain ⟨sec, secs, d, ds, hsecs, hfound, hspells⟩ := h.building hb
    have hspells' := hspells.snoc_record hr htype
    have hall := h.secs
    rw [hsecs, hfound] at hall
    obtain ⟨hhead, htail⟩ := List.forall₂_cons.mp hall
    refine ⟨hsuffix, ?_, fun _ => ⟨{ sec with size := sec.size + r.data.length }, secs, d ++ r.data,
      ds, ?_, ?_, hspells'⟩⟩
    · rw [hsecs, hfound]
      refine .cons ⟨?_, ?_, p', hspells'⟩ htail
      · rw [List.length_append, ← hhead.size]
      · exact List.append_ne_nil_of_left_ne_nil hhead.ne _
    · rw [hsecs]
      rfl
    · rw [hfound]
      rfl
  · have hdrop : file.drop (file.length - (p.length + 1)) = ':' :: p := drop_of_suffix h.suffix
    have hspells : Spells (file.drop (file.length - (p.length + 1))) r.data p' := by
      rw [hdrop]
      have hone := Spells.record hr htype (.done p')
      rwa [List.append_nil] at hone
    refine ⟨hsuffix, .cons ⟨rfl, List.length_pos_iff.mp hlen, p', hspells⟩ h.secs, fun _ => ?_⟩
    exact ⟨_, _, _, _, rfl, rfl, hspells⟩
  · refine ⟨hsuffix, h.secs, fun hb => ?_⟩
    obtain ⟨sec, secs, d, ds, hsecs, hfound, hspells⟩ := h.building hb
    have hnil : r.data = [] := List.length_eq_zero_iff.mp (by omega)
    have hspells' := hspells.snoc_record hr htype
    rw [hnil, List.append_nil] at hspells'
    exact ⟨sec, secs, d, ds, hsecs, hfound, hspells'⟩

/-- The other records that the scan goes on from stop the section that is being built. -/
theorem scanRecord_other (h : scanRecord st pos r = some (.more st')) (htype : r.type ≠ 0) :
    st'.secs = st.secs ∧ st'.building = false := by
  unfold scanRecord at h
  split at h
  case h_1 => contradiction
  case h_2 | h_7 => cases h
  all_goals
    split_ifs at h <;>
      (obtain rfl := Scanned.more.inj (Option.some.inj h); exact ⟨rfl, rfl⟩)

theorem scanRecord_ended (h : scanRecord st pos r = some (.ended st')) : st'.secs = st.secs := by
  unfold scanRecord at h
  split at h
  case h_2 =>
    obtain rfl := Scanned.ended.inj (Option.some.inj h)
    rfl
  case h_1 | h_7 => cases h
  all_goals
    split_ifs at h <;> cases h


theorem Scanning.record (h : Scanning file (':' :: p) st found) (hr : readRecord p = some (r, p'))
    (hnext : scanRecord st (file.length - (p.length + 1)) r = some (.more st')) :
    Scanning file p' st' (collect st r found) := by
  have hsuffix := suffix_of_text (text_of_readRecord hr)
  by_cases htype : r.type = 0
  · have hdata := h.data hr htype
    simp only [scanRecord, htype] at hnext
    obtain rfl := Scanned.more.inj (Option.some.inj hnext)
    exact hdata
  · obtain ⟨hsecs, hbuilding⟩ := scanRecord_other hnext htype
    rw [collect, if_pos htype]
    exact h.stop hsuffix hsecs hbuilding

/-- The scan of a file with what it puts into the sections. -/
theorem scanLoopData_eq (h : scanLoop file.length n p st = some st') (hscan : Scanning file p st found) :
    ∃ found', scanLoopData file.length n p st found = some (st', found') ∧
      List.Forall₂ (Holds file) st'.secs found' := by
  induction n generalizing p st found with
  | zero => cases h
  | succ n ih =>
    cases p with
    | nil =>
      obtain rfl := Option.some.inj h
      exact ⟨found, rfl, hscan.secs⟩
    | cons c p =>
      rw [scanLoop] at h
      rw [scanLoopData]
      by_cases heol : c = '\r' ∨ c = '\n'
      · rw [if_pos heol] at h ⊢
        exact ih h (hscan.eol heol)
      rw [if_neg heol] at h ⊢
      by_cases hcolon : c = ':'
      · subst hcolon
        rw [if_neg (by decide)] at h ⊢
        obtain ⟨⟨r, p'⟩, hr, h⟩ := Option.bind_eq_some_iff.mp h
        obtain ⟨next, hnext, h⟩ := Option.bind_eq_some_iff.mp h
        rw [hr]
        simp only [Option.bind_eq_bind, Option.bind_some, hnext]
        cases next with
        | ended st =>
          obtain rfl := Option.some.inj h
          refine ⟨found, rfl, ?_⟩
          rw [scanRecord_ended hnext]
          exact hscan.secs
        | more st =>
          exact ih h (hscan.record hr hnext)
      · rw [if_pos hcolon] at h
        cases h

/-- Every section of an accepted file is read, and its contents are the data of the records that
were scanned into it. -/
theorem passes_agree (h : scan file = some st) : ∃ found, scanData file = some (st, found) ∧
    List.Forall₂ (fun sec d => readSection file sec = some d ∧ d.length = sec.size) st.secs found := by
  obtain ⟨found, hfound, hall⟩ := scanLoopData_eq h (Scanning.start file)
  refine ⟨found, hfound, hall.imp fun sec d hholds => ?_⟩
  obtain ⟨q', hspells⟩ := hholds.text
  exact ⟨readSection_spells hspells hholds.ne hholds.size, hholds.size.symm⟩

/-- Two records of one byte each, which make one section, and the record of the end. -/
def twoRecords : List Char :=
  Record.text ⟨0, 0, [0x41#8]⟩ ++ '\n' :: Record.text ⟨1, 0, [0x42#8]⟩ ++ Record.text ⟨0, 1, []⟩

theorem passes_agree_twoRecords : ∃ found,
    scanData twoRecords = some (⟨⟨0, 0⟩, 0, [⟨0, 2, 0⟩], true⟩, found) ∧
    List.Forall₂ (fun sec d => readSection twoRecords sec = some d ∧ d.length = sec.size)
      [⟨0, 2, 0⟩] found :=
  @passes_agree twoRecords ⟨⟨0, 0⟩, 0, [⟨0, 2, 0⟩], true⟩ (by decide)

end FusionBinutils.Bfd.Ihex
