import FusionBinutils.Lib.Bisect

/-! The line table of a compilation unit (bfd/dwarf2.c): how rows are added, how the sequences are
sorted, and how an address is looked up. -/
namespace FusionBinutils.Bfd.LineTable

/-- `struct line_info` without its link. -/
structure LineInfo where
  address : Nat
  opIndex : Nat
  filename : Option String
  line : Nat
  column : Nat
  discriminator : Nat
  endSequence : Bool
  deriving DecidableEq, Repr

/-- `new_line_sorts_after`. -/
def newLineSortsAfter (new line : LineInfo) : Bool :=
  line.address < new.address ||
    (new.address == line.address &&
      (line.opIndex < new.opIndex ||
        (new.opIndex == line.opIndex && !new.endSequence && line.endSequence)))

/-- `struct line_sequence`: the lines from `last_line` down along `prev_line`, with a cut behind the
line that `lcl_head` points at while the sequence is the current one. -/
structure LineSequence where
  lowPc : Nat
  lastLine : LineInfo
  /-- the lines behind `last_line`, up to `lcl_head` -/
  upper : List LineInfo
  /-- the lines behind `lcl_head` -/
  lower : List LineInfo
  deriving DecidableEq, Repr

def LineSequence.lines (seq : LineSequence) : List LineInfo := seq.lastLine :: seq.upper ++ seq.lower

def LineSequence.lclHead (seq : LineSequence) : LineInfo := seq.upper.getLastD seq.lastLine

/-- The loop of the hard case: the lines down to the one that becomes `lcl_head`, and the rest. -/
def hardSplit (info : LineInfo) : LineInfo → List LineInfo → List LineInfo × List LineInfo
  | _, [] => ([], [])
  | li2, li1 :: rest =>
    if !newLineSortsAfter info li2 && newLineSortsAfter info li1 then ([], li1 :: rest)
    else
      let r := hardSplit info li1 rest
      (li1 :: r.1, r.2)

/-- A new sequence. -/
def LineSequence.start (info : LineInfo) : LineSequence := ⟨info.address, info, [], []⟩

/-- A row goes into the current sequence. -/
def LineSequence.insert (seq : LineSequence) (info : LineInfo) : LineSequence :=
  if newLineSortsAfter info seq.lastLine then
    -- "normal case"
    { seq with lastLine := info, upper := seq.lastLine :: seq.upper }
  else if !newLineSortsAfter info seq.lclHead &&
      (seq.lower.head?.map (newLineSortsAfter info)).getD true then
    -- "abnormal but easy: lcl_head is the head of info"
    { seq with lower := info :: seq.lower }
  else
    -- "abnormal and hard"
    let r := hardSplit info seq.lastLine (seq.upper ++ seq.lower)
    { seq with
      upper := r.1, lower := info :: r.2,
      lowPc := if info.address < seq.lowPc then info.address else seq.lowPc }

/-- "We only keep the last entry with the same address and end sequence." -/
def sameLine (line info : LineInfo) : Bool :=
  line.address == info.address && line.opIndex == info.opIndex &&
    line.endSequence == info.endSequence

/-- `add_line_info`; the sequences are in the order of `prev_sequence`. -/
def addLineInfo : List LineSequence → LineInfo → List LineSequence
  | [], info => [.start info]
  | seq :: rest, info =>
    if sameLine seq.lastLine info then { seq with lastLine := info } :: rest
    else if seq.lastLine.endSequence then .start info :: seq :: rest
    else seq.insert info :: rest

/-! Sorting. -/

/-- `compare_sequences`. -/
def compareSequences (seq1 seq2 : LineSequence) : Int :=
  if seq1.lowPc < seq2.lowPc then -1
  else if seq2.lowPc < seq1.lowPc then 1
  else if seq1.lastLine.address < seq2.lastLine.address then 1
  else if seq2.lastLine.address < seq1.lastLine.address then -1
  else if seq1.lastLine.opIndex < seq2.lastLine.opIndex then 1
  else if seq2.lastLine.opIndex < seq1.lastLine.opIndex then -1
  else 0

/-- "Make the list binary-searchable by trimming overlapping entries and removing nested
entries." -/
def trim (lastHighPc : Nat) : List LineSequence → List LineSequence
  | [] => []
  | seq :: rest =>
    if seq.lowPc < lastHighPc then
      if seq.lastLine.address ≤ lastHighPc then trim lastHighPc rest
      else { seq with lowPc := lastHighPc } :: trim seq.lastLine.address rest
    else seq :: trim seq.lastLine.address rest

/-- `sort_line_sequences`. -/
def sortLineSequences (seqs : List LineSequence) : List LineSequence :=
  match seqs.mergeSort fun a b => compareSequences a b ≤ 0 with
  | [] => []
  | seq :: rest => seq :: trim seq.lastLine.address rest

/-! Looking up. -/

/-- The comparison of the search for the sequence. -/
def cmpSequence (seqs : List LineSequence) (addr mid : Nat) : Option Ordering := do
  let seq ← seqs[mid]?
  some (if addr < seq.lowPc then .lt else if seq.lastLine.address ≤ addr then .gt else .eq)

/-- The comparison of the search for the line; `lines` is `line_info_lookup`. -/
def cmpLine (lines : List LineInfo) (addr mid : Nat) : Option Ordering := do
  let info ← lines[mid]?
  if addr < info.address then some .lt
  else
    let next ← lines[mid + 1]?
    some (if next.address ≤ addr then .gt else .eq)

/-- The second half of `lookup_address_in_line_info_table`: the line of a sequence, or nothing; a
read behind the end of the table is left out. -/
def lookupLine (seq : LineSequence) (addr : Nat) : Option (Option LineInfo) := do
  let lines := seq.lines.reverse
  let r ← Bisect.search (cmpLine lines addr) lines.length 0 lines.length none
  match r with
  | none => some none
  | some mid => do
    let info ← lines[mid]?
    if info.address ≤ addr then
      let next ← lines[mid + 1]?
      some (if addr < next.address && !(info.endSequence || mid + 1 == lines.length) then some info
        else none)
    else some none

/-- `lookup_address_in_line_info_table`: the line and the length of the range of its sequence. -/
def lookupAddressInLineInfoTable (seqs : List LineSequence) (addr : Nat) :
    Option (Option (LineInfo × Nat)) := do
  let r ← Bisect.search (cmpSequence seqs addr) seqs.length 0 seqs.length none
  match r with
  | none => some none
  | some mid => do
    let seq ← seqs[mid]?
    if addr < seq.lowPc || seq.lastLine.address ≤ addr then some none
    else
      let info ← lookupLine seq addr
      some (info.map fun info => (info, seq.lastLine.address - seq.lowPc))

end FusionBinutils.Bfd.LineTable
