import FusionBinutils.Gas.LineSkips
import Mathlib.Data.List.Chain

/-! The line-number program decodes to the entries it was made from. -/
namespace FusionBinutils.Gas.LineProgram
open Bfd.LineMachine
open Bfd.LineTable (LineInfo)
variable {tgt : Target} {m : Machine} {rest bs : List BfdByte} {s : Locals} {e : LineEntry}
  {loc : DwarfLineInfo} {table : LineInfoTable} {fragAddress : Nat → Nat} {rs : List LineInfo}

/-- The line entries of one section, in the order of their addresses, with the addresses that the
fragments get and the end of the last one. -/
structure LineSeg (tgt : Target) where
  fragAddress : Nat → Nat
  head : LineEntry
  rest : List LineEntry
  finish : Label
  sorted : (((head :: rest).map (·.label)) ++ [finish]).IsChain
    fun a b => a.address fragAddress ≤ b.address fragAddress
  fits : finish.address fragAddress < 2 ^ (8 * tgt.addrSize.bytes)

/-- The body of `.debug_line` for the section. -/
def LineSeg.body (seg : LineSeg tgt) : Option (List BfdByte) :=
  (processEntries tgt seg.finish seg.head seg.rest).bind (contents tgt seg.fragAddress)

/-- The row of an entry. -/
def LineEntry.row (fragAddress : Nat → Nat) (table : LineInfoTable) (e : LineEntry) : LineInfo :=
  ⟨e.label.address fragAddress, 0, some (concatFilename table e.loc.filenum.toNat),
    e.loc.line.toNat, e.loc.column.toNat, e.loc.discriminator.toNat, false⟩

/-- The row that ends the sequence, with the registers of the last entry. -/
def endRow (fragAddress : Nat → Nat) (table : LineInfoTable) (finish : Label) (e : LineEntry) :
    LineInfo :=
  { e.row fragAddress table with
    address := finish.address fragAddress, discriminator := 0, endSequence := true }

/-- What a chain of entries should decode to. -/
def entryRows (fragAddress : Nat → Nat) (table : LineInfoTable) (finish : Label) (e : LineEntry)
    (es : List LineEntry) : List LineInfo :=
  (e :: es).map (·.row fragAddress table) ++
    [endRow fragAddress table finish (es.getLastD e)]

/-- What the section's program should decode to: a row for each entry and one for the end. -/
def LineSeg.rows (seg : LineSeg tgt) (table : LineInfoTable) : List LineInfo :=
  entryRows seg.fragAddress table seg.finish seg.head seg.rest

/-- No line of a chain of entries, behind the line `line`, is `INT_MAX` lines down. -/
def LinesClose (line : BitVec 32) (es : List LineEntry) : Prop :=
  (line :: es.map (·.loc.line)).IsChain fun a b => b - a ≠ intMax

/-- No label of a chain is so far behind the one before that the distance would be negative. -/
def LabelsClose (fragAddress : Nat → Nat) (labels : List Label) : Prop :=
  labels.IsChain fun a b => b.address fragAddress - a.address fragAddress < 2 ^ 63

/-- The decoder in front of the program: it reads the header's parameters as `out_debug_line` writes
them, before the bytes of the directory and file tables. -/
def decodeProgram (u : CompUnit) (table : LineInfoTable) (tables program : List BfdByte) :
    Option (List LineInfo) := do
  let (lh, _) ← readLineHead (lineParameters ++ tables)
  decodeLineInfo u lh table program

/-! The opcodes in front of a row. -/

/-- The registers of the state machine are those the assembler thinks of. -/
structure Agrees (fragAddress : Nat → Nat) (table : LineInfoTable) (s : Locals)
    (rs : List LineInfo) (m : Machine) : Prop where
  inTable : m.table = { table with rows := rs }
  address : m.address = (s.last.map (·.address fragAddress)).getD 0
  opIndex : m.opIndex = 0
  filename : m.filename = some (concatFilename table s.filenum.toNat)
  line : m.line = s.line.toNat
  column : m.column = s.column.toNat
  discriminator : m.discriminator = 0
  endSequence : m.endSequence = false

variable {u : CompUnit} {b : BfdByte} {P : Prop} [Decidable P]

theorem decode_file_if {f : BitVec 32} (he : m.endSequence = false)
    (hm : m.filename = some (concatFilename m.table f.toNat))
    (hp : m.linePtr = (if f = loc.filenum then [] else 4#8 :: outputUleb128 loc.filenum.toNat) ++
      rest) :
    decodeLines u gasHead m = decodeLines u gasHead { m with
      linePtr := rest, filename := some (concatFilename m.table loc.filenum.toNat) } := by
  by_cases h : f = loc.filenum
  · rw [if_pos h, List.nil_append] at hp
    rw [← hp, ← h, ← hm]
  · rw [if_neg h, List.cons_append] at hp
    exact decode_set_file he hp

theorem decode_column_if {c : BitVec 32} (he : m.endSequence = false) (hm : m.column = c.toNat)
    (hp : m.linePtr = (if c = loc.column then [] else 5#8 :: outputUleb128 loc.column.toNat) ++
      rest) :
    decodeLines u gasHead m = decodeLines u gasHead { m with
      linePtr := rest, column := loc.column.toNat } := by
  by_cases h : c = loc.column
  · rw [if_pos h, List.nil_append] at hp
    rw [← hp, ← h, ← hm]
  · rw [if_neg h, List.cons_append] at hp
    exact decode_set_column he hp

theorem decode_discriminator_if (he : m.endSequence = false) (hm : m.discriminator = 0)
    (hp : m.linePtr = (if loc.discriminator = 0#32 then []
      else 0#8 :: outputSleb128 (1 + sizeofUleb128 loc.discriminator.toNat) ++
        4#8 :: outputUleb128 loc.discriminator.toNat) ++ rest) :
    decodeLines u gasHead m = decodeLines u gasHead { m with
      linePtr := rest, discriminator := loc.discriminator.toNat } := by
  by_cases h : loc.discriminator = 0#32
  · rw [if_pos h, List.nil_append] at hp
    have hzero : loc.discriminator.toNat = m.discriminator := by rw [h, hm]; rfl
    rw [← hp, hzero]
  · simp only [if_neg h, List.cons_append, List.append_assoc] at hp
    exact decode_set_discriminator he hp

theorem decode_isa_if {i : BitVec 32} (he : m.endSequence = false)
    (hp : m.linePtr = (if i = loc.isa then [] else 12#8 :: outputUleb128 loc.isa.toNat) ++ rest) :
    decodeLines u gasHead m = decodeLines u gasHead { m with linePtr := rest } := by
  by_cases h : i = loc.isa
  · rw [if_pos h, List.nil_append] at hp
    rw [← hp]
  · rw [if_neg h, List.cons_append] at hp
    exact decode_set_isa he hp

theorem decode_stmt_if (he : m.endSequence = false)
    (hp : m.linePtr = (if P then [] else [6#8]) ++ rest) :
    decodeLines u gasHead m = decodeLines u gasHead { m with
      linePtr := rest, isStmt := if P then m.isStmt else !m.isStmt } := by
  by_cases h : P
  · rw [if_pos h, List.nil_append] at hp
    rw [if_pos h, ← hp]
  · rw [if_neg h] at hp
    rw [if_neg h]
    exact decode_negate_stmt he hp

theorem decode_flag_if (he : m.endSequence = false) (hb : b = 7#8 ∨ b = 10#8 ∨ b = 11#8)
    (hp : m.linePtr = (if P then [] else [b]) ++ rest) :
    decodeLines u gasHead m = decodeLines u gasHead { m with linePtr := rest } := by
  by_cases h : P
  · rw [if_pos h, List.nil_append] at hp
    rw [← hp]
  · rw [if_neg h] at hp
    exact decode_flag he hb hp

/-- The file, the column, the discriminator, the instruction set and the flags. -/
theorem decode_settings (h : Agrees fragAddress table s rs m)
    (hp : m.linePtr = settings s loc ++ rest) :
    ∃ isStmt, decodeLines u gasHead m = decodeLines u gasHead { m with
      linePtr := rest, filename := some (concatFilename table loc.filenum.toNat)
      column := loc.column.toNat, discriminator := loc.discriminator.toNat, isStmt := isStmt } := by
  simp only [settings, List.append_assoc] at hp
  have hfile : m.filename = some (concatFilename m.table s.filenum.toNat) := by
    rw [h.filename, h.inTable]
    rfl
  have htable (n : Nat) : concatFilename m.table n = concatFilename table n := by
    rw [h.inTable]
    rfl
  have h1 := decode_file_if (u := u) h.endSequence hfile hp
  rw [htable] at h1
  have h2 := h1.trans (decode_column_if h.endSequence h.column rfl)
  have h3 := h2.trans (decode_discriminator_if h.endSequence h.discriminator rfl)
  have h4 := h3.trans (decode_isa_if h.endSequence rfl)
  have h5 := h4.trans (decode_stmt_if h.endSequence rfl)
  have h6 := h5.trans (decode_flag_if h.endSequence (by decide) rfl)
  have h7 := h6.trans (decode_flag_if h.endSequence (by decide) rfl)
  exact ⟨_, h7.trans (decode_flag_if h.endSequence (by decide) rfl)⟩

/-! A whole program. -/

/-- One entry: where the line goes on by `INT_MAX` its row ends the sequence, else the row is the
entry's and the registers agree again. -/
theorem decode_entry (rest) (h : Agrees fragAddress table s rs m)
    (hskips : Skips tgt bs (e.loc.line - s.line) ((s.last.map (·.address fragAddress)).getD 0)
      (e.label.address fragAddress))
    (hp : m.linePtr = settings s e.loc ++ (bs ++ rest)) :
    ∃ m', decodeLines tgt.unit gasHead m = decodeLines tgt.unit gasHead m' ∧ m'.linePtr = rest ∧
      if e.loc.line - s.line = intMax then
        ∃ row : LineInfo, row.endSequence = true ∧ m'.table.rows = rs ++ [row]
      else Agrees fragAddress table (s.next e) (rs ++ [e.row fragAddress table]) m' := by
  obtain ⟨isStmt, hset⟩ := decode_settings (u := tgt.unit) h hp
  have hline : m.line < 2 ^ 32 := by rw [h.line]; exact s.line.isLt
  refine ⟨_, hset.trans (hskips _ rest h.endSequence hline h.address h.opIndex rfl), ?_, ?_⟩
  · rw [skipped]
    split <;> rfl
  · rw [skipped]
    by_cases hend : e.loc.line - s.line = intMax
    · rw [if_pos hend, if_pos hend]
      refine ⟨⟨e.label.address fragAddress, m.opIndex,
        some (concatFilename table e.loc.filenum.toNat), m.line, e.loc.column.toNat,
        e.loc.discriminator.toNat, true⟩, rfl, ?_⟩
      simp only [Machine.addLineInfo, h.inTable]
    · rw [if_neg hend, if_neg hend]
      have hnext : (m.line + (e.loc.line - s.line).toNat) % 2 ^ 32 = e.loc.line.toNat := by
        rw [h.line]
        have h1 := s.line.isLt
        have h2 := e.loc.line.isLt
        rw [BitVec.toNat_sub]
        omega
      exact {
        inTable := by simp only [Machine.addLineInfo, h.inTable, LineEntry.row, hnext, h.opIndex]
        address := rfl
        opIndex := h.opIndex
        filename := rfl
        line := hnext
        column := rfl
        discriminator := rfl
        endSequence := rfl }

variable {finish : Label} {es : List LineEntry}

/-- The bytes of an entry, and when they are written. -/
theorem outEntry_contents (s : Locals)
    (hle : ∀ l ∈ s.last, l.address fragAddress ≤ e.label.address fragAddress)
    (hfit : e.label.address fragAddress < 2 ^ (8 * tgt.addrSize.bytes)) :
    ∃ bs, Skips tgt bs (e.loc.line - s.line) ((s.last.map (·.address fragAddress)).getD 0)
        (e.label.address fragAddress) ∧
      (outEntry tgt s e).bind (contents tgt fragAddress) =
        if ∀ l ∈ s.last, e.label.address fragAddress - l.address fragAddress < 2 ^ 63 then
          some (settings s e.loc ++ bs)
        else none := by
  have hlt : e.label.address fragAddress < 2 ^ 64 :=
    hfit.trans_le (by cases tgt.addrSize <;> decide)
  obtain ⟨bs, hskips, hbs⟩ := outRow_contents (e.loc.line - s.line) s.last hle hlt hfit
  refine ⟨bs, hskips, ?_⟩
  have hcons (ps : List Piece) : contents tgt fragAddress (.bytes (settings s e.loc) :: ps) =
      (contents tgt fragAddress ps).map (settings s e.loc ++ ·) := by
    rw [← List.singleton_append, contents_append, contents_bytes, Option.bind_some]
  have hentry : (outEntry tgt s e).bind (contents tgt fragAddress) =
      ((outRow tgt (e.loc.line - s.line) s.last e.label).bind (contents tgt fragAddress)).map
        (settings s e.loc ++ ·) := by
    rw [outEntry]
    cases outRow tgt (e.loc.line - s.line) s.last e.label with
    | none => rfl
    | some ps => exact hcons ps
  rw [hentry, hbs]
  split <;> rfl

/-- The bytes that the loop of `process_entries` and its end leave. -/
def loopBytes (tgt : Target) (fragAddress : Nat → Nat) (finish : Label) (s : Locals)
    (e : LineEntry) (es : List LineEntry) : Option (List BfdByte) :=
  (processLoop tgt finish s e es).bind (contents tgt fragAddress)

theorem bind_contents_append (x y : Option (List Piece)) :
    (do
      let ps ← x
      let qs ← y
      some (ps ++ qs)).bind (contents tgt fragAddress) =
      (x.bind (contents tgt fragAddress)).bind fun a =>
        (y.bind (contents tgt fragAddress)).map (a ++ ·) := by
  cases x with
  | none => rfl
  | some ps =>
    cases y with
    | none => simp
    | some qs => exact contents_append ps qs

/-- A row that ends a sequence cannot stand where an entry's row should. -/
theorem rows_ne_of_end {row : LineInfo} {xs ys : List LineInfo} (hrow : row.endSequence = true)
    (hpre : rs ++ [row] <+: ys) (hys : ys = rs ++ e.row fragAddress table :: xs) : False := by
  rw [hys, List.prefix_append_right_inj] at hpre
  obtain ⟨hhead, -⟩ := List.cons_prefix_cons.mp hpre
  rw [hhead] at hrow
  cases hrow

/-- The end of the sequence behind the last entry. -/
theorem decode_finish (h : Agrees fragAddress table (s.next e) rs m)
    (hskips : Skips tgt bs intMax (e.label.address fragAddress) (finish.address fragAddress))
    (hm : m.linePtr = bs) :
    (decodeLines tgt.unit gasHead m).map (·.table.rows) =
      some (rs ++ [endRow fragAddress table finish e]) := by
  have hline : m.line < 2 ^ 32 := by rw [h.line]; exact e.loc.line.isLt
  rw [hskips m [] h.endSequence hline h.address h.opIndex (by rw [hm, List.append_nil]),
    skipped, if_pos rfl, decodeLines_done rfl rfl, Option.map_some]
  simp only [Machine.addLineInfo, h.inTable, h.opIndex, h.filename, h.line, h.column,
    h.discriminator, endRow, LineEntry.row, Locals.next]

/-- An entry in front of bytes `tail` that decode to the rows `xs` just where `G` holds. -/
theorem decode_entry_iff {tail : Option (List BfdByte)} {xs : List LineInfo} {G : Prop}
    (h : Agrees fragAddress table s rs m)
    (hle : ∀ l ∈ s.last, l.address fragAddress ≤ e.label.address fragAddress)
    (hfit : e.label.address fragAddress < 2 ^ (8 * tgt.addrSize.bytes))
    (htail : ∀ m', Agrees fragAddress table (s.next e) (rs ++ [e.row fragAddress table]) m' →
      ((∃ b, tail = some b ∧
        (decodeLines tgt.unit gasHead { m' with linePtr := b }).map (·.table.rows) =
          some (rs ++ e.row fragAddress table :: xs)) ↔ G)) :
    (∃ body, (((outEntry tgt s e).bind (contents tgt fragAddress)).bind fun a =>
        tail.map (a ++ ·)) = some body ∧
      (decodeLines tgt.unit gasHead { m with linePtr := body }).map (·.table.rows) =
        some (rs ++ e.row fragAddress table :: xs)) ↔
      e.loc.line - s.line ≠ intMax ∧
        (∀ l ∈ s.last, e.label.address fragAddress - l.address fragAddress < 2 ^ 63) ∧ G := by
  obtain ⟨bs, hskips, hbs⟩ := outEntry_contents s hle hfit
  have hagrees (b : List BfdByte) : Agrees fragAddress table s rs { m with linePtr := b } :=
    { h with }
  rw [hbs]
  constructor
  · rintro ⟨body, hbody, hrows⟩
    obtain ⟨a, ha, hbody⟩ := Option.bind_eq_some_iff.mp hbody
    obtain ⟨b, htb, rfl⟩ := Option.map_eq_some_iff.mp hbody
    split at ha
    · next hclose =>
      cases ha
      obtain ⟨m', hm', hptr, hif⟩ := decode_entry b (hagrees _) hskips
        (List.append_assoc _ _ _)
      rw [hm'] at hrows
      by_cases hend : e.loc.line - s.line = intMax
      · -- the entry ends the sequence
        rw [if_pos hend] at hif
        obtain ⟨row, hrow, hrs⟩ := hif
        obtain ⟨m₁, hm₁, hys⟩ := Option.map_eq_some_iff.mp hrows
        have hpre := decodeLines_rows hm₁
        rw [hrs] at hpre
        exact (rows_ne_of_end hrow hpre hys).elim
      · rw [if_neg hend] at hif
        refine ⟨hend, hclose, (htail m' hif).mp ⟨b, htb, ?_⟩⟩
        rw [← hptr]
        exact hrows
    · cases ha
  · rintro ⟨hend, hclose, hG⟩
    obtain ⟨m₀, -, -, hif⟩ := decode_entry [] (hagrees _) hskips rfl
    rw [if_neg hend] at hif
    obtain ⟨b, htb, -⟩ := (htail m₀ hif).mpr hG
    obtain ⟨m', hm', hptr, hif⟩ := decode_entry b (hagrees _) hskips rfl
    rw [if_neg hend] at hif
    obtain ⟨b', htb', hrows⟩ := (htail m' hif).mpr hG
    rw [htb] at htb'
    cases htb'
    refine ⟨settings s e.loc ++ bs ++ b, by rw [if_pos hclose, htb]; rfl, ?_⟩
    rw [List.append_assoc, hm', ← hrows, ← hptr]

theorem entryRows_cons (e' : LineEntry) : entryRows fragAddress table finish e (e' :: es) =
    e.row fragAddress table :: entryRows fragAddress table finish e' es := by
  rw [entryRows, entryRows, List.map_cons, List.getLastD_cons]
  rfl

theorem address_le_finish {l : Label} {ls : List Label} (h : (l :: (ls ++ [finish])).IsChain
    fun a b => a.address fragAddress ≤ b.address fragAddress) :
    l.address fragAddress ≤ finish.address fragAddress := by
  induction ls generalizing l with
  | nil => exact (List.isChain_cons_cons.mp h).1
  | cons l' ls ih =>
    obtain ⟨hle, htail⟩ := List.isChain_cons_cons.mp h
    exact hle.trans (ih htail)

/-- The program of a chain of entries decodes to their rows just where no line and no address is too
far from the one before. -/
theorem decode_loop_iff (h : Agrees fragAddress table s rs m)
    (hle : ∀ l ∈ s.last, l.address fragAddress ≤ e.label.address fragAddress)
    (hsorted : ((e :: es).map (·.label) ++ [finish]).IsChain
      fun a b => a.address fragAddress ≤ b.address fragAddress)
    (hfit : finish.address fragAddress < 2 ^ (8 * tgt.addrSize.bytes)) :
    (∃ body, loopBytes tgt fragAddress finish s e es = some body ∧
      (decodeLines tgt.unit gasHead { m with linePtr := body }).map (·.table.rows) =
        some (rs ++ entryRows fragAddress table finish e es)) ↔
      LinesClose s.line (e :: es) ∧
        LabelsClose fragAddress (s.last.toList ++ ((e :: es).map (·.label) ++ [finish])) := by
  induction es generalizing s e rs m with
  | nil =>
    simp only [List.map_cons, List.map_nil, List.cons_append, List.nil_append,
      List.isChain_cons_cons, List.isChain_singleton, and_true] at hsorted
    obtain ⟨bs, hskips, hbs⟩ := outSkip_contents tgt intMax hsorted
      (hfit.trans_le (by cases tgt.addrSize <;> decide)) hfit
    have htail : ∀ m', Agrees fragAddress table (s.next e) (rs ++ [e.row fragAddress table]) m' →
        ((∃ b, (outSkip tgt intMax e.label finish).bind (contents tgt fragAddress) = some b ∧
          (decodeLines tgt.unit gasHead { m' with linePtr := b }).map (·.table.rows) =
            some (rs ++ e.row fragAddress table :: [endRow fragAddress table finish e])) ↔
          finish.address fragAddress - e.label.address fragAddress < 2 ^ 63) := by
      intro m' hm'
      rw [hbs]
      constructor
      · rintro ⟨b, hb, -⟩
        by_contra hfar
        rw [if_neg hfar] at hb
        cases hb
      · intro hclose
        refine ⟨bs, if_pos hclose, ?_⟩
        rw [decode_finish (m := { m' with linePtr := bs }) { hm' with } hskips rfl]
        simp
    have hiff := decode_entry_iff h hle (hsorted.trans_lt hfit) htail
    rw [← bind_contents_append] at hiff
    refine hiff.trans ?_
    cases hl : s.last with
    | none => simp [LinesClose, LabelsClose]
    | some l => simp [LinesClose, LabelsClose]
  | cons e' es ih =>
    simp only [List.map_cons, List.cons_append, List.isChain_cons_cons] at hsorted
    have hfit' : e.label.address fragAddress < 2 ^ (8 * tgt.addrSize.bytes) :=
      (hsorted.1.trans (address_le_finish hsorted.2)).trans_lt hfit
    have htail : ∀ m', Agrees fragAddress table (s.next e) (rs ++ [e.row fragAddress table]) m' →
        ((∃ b, loopBytes tgt fragAddress finish (s.next e) e' es = some b ∧
          (decodeLines tgt.unit gasHead { m' with linePtr := b }).map (·.table.rows) =
            some (rs ++ e.row fragAddress table :: entryRows fragAddress table finish e' es)) ↔
          LinesClose e.loc.line (e' :: es) ∧
            LabelsClose fragAddress (e.label :: ((e' :: es).map (·.label) ++ [finish]))) := by
      intro m' hm'
      have hih := ih hm' (by simpa [Locals.next] using hsorted.1) hsorted.2
      rwa [List.append_assoc] at hih
    have hiff := decode_entry_iff h hle hfit' htail
    rw [loopBytes, ← bind_contents_append] at hiff
    rw [entryRows_cons]
    refine hiff.trans ?_
    cases hl : s.last with
    | none =>
      simp [LinesClose, LabelsClose]
      tauto
    | some l =>
      simp [LinesClose, LabelsClose]
      tauto

/-- The machine at the start of the only sequence. -/
def start (table : LineInfoTable) (program : List BfdByte) : Machine :=
  ⟨program, { table with rows := [] }, 0, 0, some (concatFilename table 1), 1, 0, 0, true, false⟩

theorem start_agrees (table : LineInfoTable) (program : List BfdByte) :
    Agrees fragAddress table .init [] (start table program) :=
  ⟨rfl, rfl, rfl, rfl, rfl, rfl, rfl, rfl⟩

/-- The decoder goes to the start of a sequence, if there is one. -/
theorem decodeLineInfo_eq_iff (hfiles : table.files ≠ []) {row : LineInfo} {xs : List LineInfo} :
    decodeLineInfo u gasHead table bs = some (row :: xs) ↔
      (decodeLines u gasHead (start table bs)).map (·.table.rows) = some (row :: xs) := by
  rw [decodeLineInfo]
  cases bs with
  | nil =>
    have hnone : decodeLines u gasHead (start table []) = none := by
      rw [decodeLines, decodeLoop, if_neg (by simp [start]), step_nil (by decide) rfl]
      rfl
    rw [hnone, decodeLines_done rfl rfl]
    simp
  | cons b bs =>
    have hempty : table.files.isEmpty = false := by simpa using hfiles
    rw [decodeLines_restart (by decide) rfl (by simp)]
    simp only [Machine.restart, hempty]
    rfl

theorem decodeProgram_eq_iff {tables : List BfdByte} (hfiles : table.files ≠ [])
    (htables : tables ≠ []) (seg : LineSeg tgt) :
    decodeProgram u table tables bs = some (seg.rows table) ↔
      (decodeLines u gasHead (start table bs)).map (·.table.rows) = some (seg.rows table) := by
  rw [decodeProgram, readLineHead_lineParameters htables]
  exact decodeLineInfo_eq_iff hfiles

/-- The line-number program of a section decodes to its entries and its end if and only if no line
is `INT_MAX` lines behind the one before, which would be taken for the end, and no distance between
two addresses is negative as an `offsetT`. -/
theorem line_program_decodes_iff (seg : LineSeg tgt) (table : LineInfoTable)
    (tables : List BfdByte) (hfiles : table.files ≠ []) (htables : tables ≠ []) :
    (∃ body, seg.body = some body ∧
      decodeProgram tgt.unit table tables body = some (seg.rows table)) ↔
      LinesClose 1#32 (seg.head :: seg.rest) ∧
        LabelsClose seg.fragAddress ((seg.head :: seg.rest).map (·.label) ++ [seg.finish]) := by
  simp only [decodeProgram_eq_iff hfiles htables]
  exact decode_loop_iff (start_agrees table []) (by simp [Locals.init]) seg.sorted seg.fits

/-- The port's own target. -/
def fusionTarget : Target := ⟨true, .four, true⟩

/-- A section of four bytes with one entry, for the given line. -/
def oneEntry (line : BitVec 32) : LineSeg fusionTarget where
  fragAddress := fun _ => 0
  head := ⟨⟨0, 0⟩, ⟨1#32, line, 0#32, 0#32, 1#32, 0#32⟩⟩
  rest := []
  finish := ⟨0, 4⟩
  sorted := by simp [Label.address]
  fits := by decide

def oneFile : LineInfoTable := ⟨none, [], [⟨"a.c", 0, 0, 0⟩], []⟩

theorem line_program_decodes_oneEntry :
    oneFile.files ≠ [] ∧ [0#8, 0#8] ≠ [] ∧
      ∃ body, (oneEntry 7#32).body = some body ∧
        decodeProgram fusionTarget.unit oneFile [0#8, 0#8] body =
          some ((oneEntry 7#32).rows oneFile) :=
  ⟨by simp [oneFile], by simp, (line_program_decodes_iff (oneEntry 7#32) oneFile [0#8, 0#8]
    (by simp [oneFile]) (by simp)).mpr
    ⟨by simp [LinesClose, oneEntry, intMax], by simp [LabelsClose, oneEntry, Label.address]⟩⟩

/-- A first line of `2 ^ 31` is written as the end of the sequence. -/
theorem intMax_line_not_decoded :
    ¬ ∃ body, (oneEntry 0x80000000#32).body = some body ∧
      decodeProgram fusionTarget.unit oneFile [0#8, 0#8] body =
        some ((oneEntry 0x80000000#32).rows oneFile) := by
  simp only [decodeProgram_eq_iff (show oneFile.files ≠ [] by simp [oneFile])
    (show [0#8, 0#8] ≠ [] by simp)]
  intro h
  obtain ⟨hlines, -⟩ := (decode_loop_iff (start_agrees oneFile []) (by simp [Locals.init])
    (oneEntry 0x80000000#32).sorted (oneEntry 0x80000000#32).fits).mp h
  simp [LinesClose, oneEntry, intMax, Locals.init] at hlines

end FusionBinutils.Gas.LineProgram
