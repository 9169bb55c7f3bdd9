import FusionBinutils.Bfd.LineReads

/-! When `decode_line_info` (bfd/dwarf2.c) comes to an end inside its buffer: each reader, each
opcode, and the whole run. -/
namespace FusionBinutils.Bfd.LineReads
open LineMachine (LineHead isAbsolutePath)
open Outcome

/-- The run has an answer, and `Q` holds of its value. -/
abbrev Safe {α : Type} (Q : α → Prop) (x : Decode α) : Prop := Meets (· = .failed) Q x

/-- The run has an answer of the source: a table, or the null pointer. -/
def Survives {α : Type} (x : Decode α) : Prop := Safe (fun _ => True) x

variable {u : CompUnit} {b : Buf} {lh : LineHead} {s : State} {n p : Nat}

/-! The readers. -/

theorem readBytes_safe (hb : b.lineEnd ≤ b.bytes.length) :
    Safe (fun _ => True) (readBytes u b n p) := by
  rw [readBytes]
  split_ifs with hend hout
  · trivial
  · omega
  · trivial

theorem read1SignedByte_safe (hb : b.lineEnd ≤ b.bytes.length) :
    Safe (fun _ => True) (read1SignedByte u b p) :=
  Meets.bind (readBytes_safe hb) fun _ _ => trivial

theorem length_ahead (hb : b.lineEnd ≤ b.bytes.length) : (b.ahead p).length = b.lineEnd - p := by
  simp only [Buf.ahead, List.length_take, List.length_drop]
  omega

theorem readLeb128_safe (hb : b.lineEnd ≤ b.bytes.length) (sign : Bool) :
    Safe (fun r => p ≤ r.2) (readLeb128 b sign p) := by
  have hlen := length_ahead (p := p) hb
  simp only [readLeb128]
  split_ifs with hout
  · omega
  · simp

/-- No string of the section, with its zero, takes a multiple of 2³² bytes, the numbers that
`bytes_read` holds as zero. -/
def NoHugeString (bytes : List BfdByte) : Prop :=
  ∀ p, (((bytes.drop p).takeWhile (· ≠ 0#8)).length + 1) % 2 ^ 32 ≠ 0

/-- A string that ends in the first bytes is the same in all. -/
theorem takeWhile_take {α : Type} {q : α → Bool} {l : List α} {k : Nat}
    (h : ((l.take k).takeWhile q).length < (l.take k).length) :
    (l.take k).takeWhile q = l.takeWhile q := by
  conv_rhs => rw [← List.take_append_drop k l, List.takeWhile_append]
  rw [if_neg (by omega)]

/-- Each case of `read_string`; a string that is there leaves fewer bytes. -/
theorem readString_safe (hb : b.lineEnd ≤ b.bytes.length) :
    Safe (fun r => p ≤ r.2 ∧ (NoHugeString b.bytes → r.1 ≠ none → p < r.2 ∧ p < b.lineEnd))
      (readString b p) := by
  have hlen := length_ahead (p := p) hb
  by_cases hend : b.lineEnd ≤ p
  · simp [readString, hend]
  have hp : b.bytes[p]? = some b.bytes[p] := List.getElem?_eq_getElem (by omega)
  simp only [readString, if_neg hend, hp]
  split_ifs with hzero hterm hout
  · simp
  · refine ⟨by simp, fun hhuge _ => ?_⟩
    have hne := hhuge p
    rw [← takeWhile_take hterm] at hne
    simp only [Buf.ahead] at hne ⊢
    omega
  · omega
  · simp

/-! The tables of version 5: a fixed count of entries, each along a fixed count of formats. -/

theorem skipFormats_safe (hb : b.lineEnd ≤ b.bytes.length) :
    Safe (fun _ => True) (skipFormats b n p) := by
  induction n generalizing p with
  | zero => trivial
  | succ n ih =>
    refine (readLeb128_safe hb false).bind fun r _ => ?_
    refine (readLeb128_safe hb false).bind fun r _ => ?_
    exact ih

theorem readIndirectLineString_safe (hb : b.lineEnd ≤ b.bytes.length) :
    Safe (fun _ => True) (readIndirectLineString u b p) := by
  refine meets_ite (fun _ => trivial) fun _ => ?_
  refine Meets.bind (P := fun _ => True) ?_ fun _ _ => trivial
  exact meets_ite (fun _ => readBytes_safe hb) fun _ => readBytes_safe hb

theorem readField_safe (hb : b.lineEnd ≤ b.bytes.length) (format : Nat) (fe : FileInfo) :
    Safe (fun _ => True) (readField u b format p fe) := by
  refine (readLeb128_safe hb false).bind fun ⟨contentType, format⟩ _ => ?_
  dsimp only
  split
  · exact meets_error.mpr rfl
  · refine (readLeb128_safe hb false).bind fun ⟨form, format⟩ _ => ?_
    dsimp only
    split
    · exact (readString_safe hb).bind fun _ _ => trivial
    · exact (readIndirectLineString_safe hb).bind fun _ _ => trivial
    · exact Meets.bind (readBytes_safe hb) fun _ _ => trivial
    · exact Meets.bind (readBytes_safe hb) fun _ _ => trivial
    · exact Meets.bind (readBytes_safe hb) fun _ _ => trivial
    · exact Meets.bind (readBytes_safe hb) fun _ _ => trivial
    · exact (readLeb128_safe hb false).bind fun _ _ => trivial
    · trivial

theorem readFields_safe (hb : b.lineEnd ≤ b.bytes.length) (format : Nat) (fe : FileInfo) :
    Safe (fun _ => True) (readFields u b n format p fe) := by
  induction n generalizing format p fe with
  | zero => trivial
  | succ n ih => exact (readField_safe hb format fe).bind fun ⟨format, _, fe⟩ _ => ih format fe

theorem readEntries_safe (hb : b.lineEnd ≤ b.bytes.length) (callback : Table → FileInfo → Table)
    (formatCount format : Nat) (table : Table) :
    Safe (fun _ => True) (readEntries u b callback formatCount format n p table) := by
  induction n generalizing p table with
  | zero => trivial
  | succ n ih => exact (readFields_safe hb format _).bind fun ⟨_, fe⟩ _ => ih (callback table fe)

theorem readFormattedEntries_safe (hb : b.lineEnd ≤ b.bytes.length)
    (callback : Table → FileInfo → Table) (table : Table) :
    Safe (fun _ => True) (readFormattedEntries u b callback p table) := by
  refine Meets.bind (readBytes_safe hb) fun formatCount _ => ?_
  refine (skipFormats_safe hb).bind fun q _ => ?_
  refine (readLeb128_safe hb false).bind fun ⟨dataCount, q⟩ _ => ?_
  exact readEntries_safe hb callback formatCount (p + 1) table

/-! The tables of the versions before: up to an empty name. -/

theorem readDir_round (hb : b.lineEnd ≤ b.bytes.length) (hhuge : NoHugeString b.bytes)
    (s : Nat × Table) :
    Safe (Round (fun _ => True) (fun s => b.lineEnd - s.1) (fun _ => True) s) (readDir b s) := by
  refine (readString_safe hb).bind fun ⟨curDir, q⟩ hq => ?_
  cases curDir with
  | none => trivial
  | some dir =>
    have hlt := hq.2 hhuge (Option.some_ne_none dir)
    exact ⟨trivial, by simp only at hlt ⊢; omega⟩

theorem readFile_round (hb : b.lineEnd ≤ b.bytes.length) (hhuge : NoHugeString b.bytes)
    (s : Nat × Table) :
    Safe (Round (fun _ => True) (fun s => b.lineEnd - s.1) (fun _ => True) s) (readFile b s) := by
  refine (readString_safe hb).bind fun ⟨curFile, q⟩ hq => ?_
  cases curFile with
  | none => trivial
  | some name =>
    have hlt := hq.2 hhuge (Option.some_ne_none name)
    refine (readLeb128_safe hb false).bind fun dir hdir => ?_
    refine (readLeb128_safe hb false).bind fun xtime hxtime => ?_
    refine (readLeb128_safe hb false).bind fun size hsize => ?_
    exact ⟨trivial, by simp only at hlt hdir ⊢; omega⟩

theorem readTables_safe (hb : b.lineEnd ≤ b.bytes.length) (hhuge : NoHugeString b.bytes)
    (hn : b.lineEnd < n) (version : Nat) :
    Safe (fun _ => True) (readTables u b n version p) := by
  rw [readTables]
  split
  · refine (readFormattedEntries_safe hb addIncludeDirStub _).bind fun ⟨_, table⟩ _ => ?_
    exact readFormattedEntries_safe hb addFileName table
  · refine (iterate_meets (fun s _ _ => readDir_round hb hhuge s) .start trivial ?_).bind
      fun r _ => ?_
    · simp only
      omega
    · refine iterate_meets (fun s _ _ => readFile_round hb hhuge s) .start trivial ?_
      omega

/-! The opcodes. -/

/-- The file number stands for no file, or for one whose name is a string, and so is the directory
it is looked up in unless there is none. -/
def Named (table : Table) (file : Nat) : Prop :=
  ∀ info, file ≠ 0 → table.files[file - 1]? = some info →
    ∃ name, info.name = .text name ∧ (isAbsolutePath name = false → info.dir ≠ 0 →
      table.dirs[info.dir - 1]? ≠ some .unset)

theorem subdirName_safe {table : Table} {info : FileInfo}
    (h : info.dir ≠ 0 → table.dirs[info.dir - 1]? ≠ some .unset) :
    Safe (fun _ => True) (subdirName table info) := by
  rw [subdirName]
  by_cases hdir : info.dir = 0
  · simp [hdir]
  have hset := h hdir
  rw [if_neg hdir]
  cases hd : table.dirs[info.dir - 1]? with
  | none => trivial
  | some dir =>
    cases dir with
    | null => trivial
    | text name => trivial
    | unset => exact absurd hd hset

theorem concatFilename_safe {table : Table} {file : Nat} (h : Named table file) :
    Safe (fun _ => True) (concatFilename u table file) := by
  rw [concatFilename]
  by_cases hfile : file = 0
  · simp [hfile]
  rw [if_neg hfile]
  cases hinfo : table.files[file - 1]? with
  | none => trivial
  | some info =>
    obtain ⟨name, hname, hdir⟩ := h info hfile hinfo
    simp only [hname, NamePtr.deref]
    refine Meets.bind (P := (· = name)) rfl ?_
    rintro _ rfl
    split
    case isTrue => trivial
    case isFalse hrel =>
      have hsubdir := subdirName_safe (hdir (by simpa using hrel))
      refine hsubdir.bind fun subdir _ => ?_
      split <;> trivial

theorem skipOperands_safe (hb : b.lineEnd ≤ b.bytes.length) :
    Safe (fun q => p ≤ q) (skipOperands b n p) := by
  induction n generalizing p with
  | zero => exact le_refl p
  | succ n ih =>
    refine (readLeb128_safe hb false).bind fun ⟨_, q⟩ hq => ?_
    exact ih.mono fun r hr => le_trans hq hr

theorem defineFile_safe (hb : b.lineEnd ≤ b.bytes.length) :
    Safe (fun s' => s.linePtr ≤ s'.linePtr) (defineFile b s) := by
  refine (readString_safe hb).bind fun ⟨curFile, p⟩ hp => ?_
  refine (readLeb128_safe hb false).bind fun dir hdir => ?_
  refine (readLeb128_safe hb false).bind fun time htime => ?_
  refine (readLeb128_safe hb false).bind fun size hsize => ?_
  refine meets_ok.mpr ?_
  simp only at hp hdir ⊢
  omega

theorem extended_safe (hb : b.lineEnd ≤ b.bytes.length) :
    Safe (fun s' => s.linePtr ≤ s'.linePtr) (extended u b s) := by
  refine (readLeb128_safe hb false).bind fun ⟨exopLen, p⟩ hp => ?_
  refine Meets.bind (readBytes_safe hb) fun extendedOp _ => ?_
  simp only at hp
  dsimp only
  split
  · refine meets_ok.mpr ?_
    simp only [State.addLineInfo]
    omega
  · refine Meets.bind (readBytes_safe hb) fun address _ => meets_ok.mpr ?_
    simp only
    omega
  · refine (defineFile_safe hb).mono fun s' hs' => ?_
    simp only at hs'
    omega
  · refine (readLeb128_safe hb false).bind fun ⟨discriminator, q⟩ hq => meets_ok.mpr ?_
    simp only at hq ⊢
    omega
  · refine meets_ok.mpr ?_
    simp only
    omega
  · exact meets_error.mpr rfl

/-- Behind the end an extended opcode is an unknown one. -/
theorem extended_at_end (h : b.lineEnd ≤ s.linePtr) : extended u b s = .error .failed := by
  have hahead : b.ahead s.linePtr = [] := by simp [Buf.ahead, Nat.sub_eq_zero_of_le h]
  have hleb : readLeb128 b false s.linePtr = .ok (0, s.linePtr) := by
    have hend : ¬ s.linePtr < b.lineEnd := by omega
    simp [readLeb128, hahead, hend, Leb128.read, Leb128.readBits, Leb128.Bits.value]
  have hop : read1Byte u b s.linePtr = .ok 0 := by
    rw [read1Byte, readBytes, if_pos (by omega)]
  simp only [extended, hleb, hop, bind, Except.bind]

/-- What the header promises about the opcodes. -/
structure Tabulated (lh : LineHead) : Prop where
  base : 1 ≤ lh.opcodeBase
  lengths : lh.standardOpcodeLengths.length = lh.opcodeBase

/-- The opcode at hand can be executed: it divides by `line_range` only if that is not zero, and
names only files that have a name. -/
structure Executable (u : CompUnit) (b : Buf) (lh : LineHead) (s : State) : Prop where
  constAddPc : read1Byte u b s.linePtr = .ok 8 → 8 < lh.opcodeBase → lh.lineRange ≠ 0
  setFile : read1Byte u b s.linePtr = .ok 4 → 4 < lh.opcodeBase → ∀ file p,
    readLeb128 b false (s.linePtr + 1) = .ok (file, p) → Named s.table (file % 2 ^ 32)

theorem standardOp_safe {opCode : Nat} (hb : b.lineEnd ≤ b.bytes.length) (hlh : Tabulated lh)
    (hop : opCode < lh.opcodeBase) (hconst : opCode = 8 → lh.lineRange ≠ 0)
    (hset : opCode = 4 → ∀ file p, readLeb128 b false s.linePtr = .ok (file, p) →
      Named s.table (file % 2 ^ 32)) :
    Safe (fun s' => s.linePtr ≤ s'.linePtr) (standardOp u b lh s opCode) := by
  unfold standardOp
  split
  · exact extended_safe hb
  · exact le_refl s.linePtr
  · exact (readLeb128_safe hb false).bind fun ⟨_, p⟩ hp => hp
  · exact (readLeb128_safe hb true).bind fun ⟨_, p⟩ hp => hp
  · refine (readLeb128_safe hb false).bind_eq fun ⟨file, p⟩ hres hp => ?_
    exact (concatFilename_safe (hset rfl file p hres)).bind fun _ _ => hp
  · exact (readLeb128_safe hb false).bind fun ⟨_, p⟩ hp => hp
  · exact le_refl s.linePtr
  · exact le_refl s.linePtr
  · rw [if_neg (hconst rfl)]
    exact le_refl s.linePtr
  · refine Meets.bind (readBytes_safe hb) fun adjust _ => ?_
    exact Nat.le_add_right s.linePtr 2
  · rw [List.getElem?_eq_getElem (by rw [hlh.lengths]; exact hop)]
    exact (skipOperands_safe hb).bind fun p hp => hp

theorem special_linePtr (adjOpcode : Nat) :
    Safe (fun s' => s'.linePtr = s.linePtr) (special lh s adjOpcode) := by
  rw [special]
  split
  · exact meets_error.mpr rfl
  · exact meets_ok.mpr rfl

/-- An opcode takes at least its own byte, and there is one only before the end. -/
theorem step_safe (hb : b.lineEnd ≤ b.bytes.length) (hlh : Tabulated lh)
    (hs : Executable u b lh s) :
    Safe (fun s' => s.linePtr < s'.linePtr ∧ s.linePtr < b.lineEnd) (step u b lh s) := by
  have hbase := hlh.base
  by_cases hend : b.lineEnd ≤ s.linePtr
  · -- behind the end every byte reads as zero
    have hop : read1Byte u b s.linePtr = .ok 0 := by
      rw [read1Byte, readBytes, if_pos (by omega)]
    have hext : extended u b { s with linePtr := s.linePtr + 1 } = .error .failed :=
      extended_at_end (by simp only; omega)
    have hstep : step u b lh s = .error .failed := by
      have hnot : ¬ lh.opcodeBase ≤ 0 := by omega
      simp only [step, hop, bind, Except.bind, if_neg hnot, standardOp, hext]
    rw [hstep]
    exact meets_error.mpr rfl
  · refine Meets.bind_eq (readBytes_safe hb) fun opCode hop _ => ?_
    refine meets_ite (fun _ => ?_) fun hlt => ?_
    · refine (special_linePtr _).mono fun s' hs' => ?_
      simp only at hs'
      omega
    · refine (standardOp_safe hb hlh (by omega) ?_ ?_).mono fun s' hs' => ?_
      · rintro rfl
        exact hs.constAddPc hop (by omega)
      · rintro rfl
        exact hs.setFile hop (by omega)
      · simp only at hs'
        omega

/-! The whole run. -/

/-- What a round needs: an opcode that can be executed, or a first file with a name where a sequence
starts with one. -/
def RoundOk (u : CompUnit) (b : Buf) (lh : LineHead) (s : State) : Prop :=
  if s.regs.endSequence then s.linePtr < b.lineEnd → s.table.files ≠ [] → Named s.table 1
  else Executable u b lh s

/-- What is left to do: two for each byte before the end, one more between two sequences. -/
def remaining (b : Buf) (s : State) : Nat :=
  2 * (b.lineEnd - s.linePtr) + if s.regs.endSequence then 1 else 0

theorem restart_safe (h : s.table.files ≠ [] → Named s.table 1) :
    Safe (fun s' => s'.linePtr = s.linePtr ∧ s'.regs.endSequence = false) (restart u lh s) := by
  refine Meets.bind (P := fun _ => True) ?_ fun filename _ => ⟨rfl, rfl⟩
  refine meets_ite (fun _ => trivial) fun hfiles => ?_
  have hne : s.table.files ≠ [] := by simpa using hfiles
  exact (concatFilename_safe (h hne)).bind fun _ _ => trivial

theorem round_safe (hb : b.lineEnd ≤ b.bytes.length) (hlh : Tabulated lh)
    (hs : RoundOk u b lh s) :
    Safe (Round (fun _ => True) (remaining b) (fun _ => True) s) (round u b lh s) := by
  unfold round
  unfold RoundOk at hs
  cases hseq : s.regs.endSequence with
  | true =>
    simp only [hseq, if_true] at hs ⊢
    split
    case isTrue => trivial
    case isFalse hlt =>
      refine (restart_safe (hs (by omega))).bind fun s' hs' => ⟨trivial, ?_⟩
      simp only [remaining, hs', hseq]
      simp
  | false =>
    simp only [hseq, Bool.false_eq_true, if_false] at hs ⊢
    refine (step_safe hb hlh hs).bind fun s' hs' => ⟨trivial, ?_⟩
    simp only [remaining, hseq]
    split <;> simp <;> omega

theorem readLengths_safe (hb : b.lineEnd ≤ b.bytes.length) :
    Safe (fun r => r.1.length = n) (readLengths u b n p) := by
  induction n generalizing p with
  | zero => rfl
  | succ n ih =>
    refine Meets.bind (readBytes_safe hb) fun v _ => ?_
    refine ih.bind fun ⟨rest, q⟩ hrest => ?_
    simpa using hrest

theorem readOpcodeLengths_safe {h : Head} (hb : h.buf.lineEnd ≤ h.buf.bytes.length)
    (hbase : h.opcodeBase ≠ 0) :
    Safe (fun r => Tabulated (h.lineHead r.1)) (readOpcodeLengths u h) := by
  rw [readOpcodeLengths, if_neg hbase]
  split
  · exact meets_error.mpr rfl
  · refine (readLengths_safe hb).bind fun ⟨lengths, q⟩ hlen => ?_
    simp only at hlen
    refine ⟨Nat.one_le_iff_ne_zero.mpr hbase, ?_⟩
    simp only [Head.lineHead, List.length_cons, hlen]
    omega

theorem readTotalLength_safe (bytes : List BfdByte) :
    Safe (fun _ => True) (readTotalLength u bytes) := by
  have hread : ∀ k q, Safe (fun _ => True) (readBytes u ⟨bytes, bytes.length⟩ k q) :=
    fun k q => readBytes_safe (le_refl _)
  refine Meets.bind (hread _ _) fun totalLength _ => ?_
  split
  · exact Meets.bind (hread _ _) fun _ _ => trivial
  · split
    · exact Meets.bind (hread _ _) fun _ _ => trivial
    · trivial

theorem skipSizes_safe (hb : b.lineEnd ≤ b.bytes.length) (version : Nat) :
    Safe (fun _ => True) (skipSizes u b version p) := by
  rw [skipSizes]
  split
  · refine Meets.bind (readBytes_safe hb) fun _ _ => ?_
    refine Meets.bind (readBytes_safe hb) fun size _ => ?_
    split
    · exact meets_error.mpr rfl
    · trivial
  · trivial

theorem readFixedFields_safe (hb : b.lineEnd ≤ b.bytes.length) (version offsetSize : Nat) :
    Safe (fun h => h.buf = b) (readFixedFields u b version offsetSize p) := by
  unfold readFixedFields
  refine Meets.bind (P := fun _ => True) ?_ fun _ _ => ?_
  · exact meets_ite (fun _ => readBytes_safe hb) fun _ => readBytes_safe hb
  refine Meets.bind (readBytes_safe hb) fun min _ => ?_
  refine Meets.bind (P := fun _ => True) ?_ fun ops _ => ?_
  · exact meets_ite (fun _ => readBytes_safe hb) fun _ => trivial
  refine meets_ite (fun _ => meets_error.mpr rfl) fun _ => ?_
  refine Meets.bind (readBytes_safe hb) fun _ _ => ?_
  refine Meets.bind (read1SignedByte_safe hb) fun _ _ => ?_
  refine Meets.bind (readBytes_safe hb) fun _ _ => ?_
  exact Meets.bind (readBytes_safe hb) fun _ _ => rfl

/-- Where the length of the program fits behind its own field, the program ends in the buffer. -/
def EndsInside (u : CompUnit) (bytes : List BfdByte) : Prop :=
  ∀ totalLength p offsetSize, readTotalLength u bytes = .ok (totalLength, p, offsetSize) →
    (u.lineOffset + totalLength) % 2 ^ 64 ≤ bytes.length →
    (p + totalLength) % 2 ^ 64 ≤ bytes.length

theorem readHead_safe {bytes : List BfdByte} (hend : EndsInside u bytes) :
    Safe (fun h => h.buf.bytes = bytes ∧ h.buf.lineEnd ≤ bytes.length) (readHead u bytes) := by
  unfold readHead
  split
  · exact meets_error.mpr rfl
  split
  · exact meets_error.mpr rfl
  refine (readTotalLength_safe bytes).bind_eq fun ⟨totalLength, q, offsetSize⟩ hres _ => ?_
  refine meets_ite (fun _ => meets_error.mpr rfl) fun hfits => ?_
  have hb := hend _ _ _ hres (by omega)
  refine Meets.bind (readBytes_safe hb) fun version _ => ?_
  refine meets_ite (fun _ => meets_error.mpr rfl) fun _ => ?_
  refine meets_ite (fun _ => meets_error.mpr rfl) fun _ => ?_
  refine Meets.bind (skipSizes_safe hb version) fun q _ => ?_
  refine (readFixedFields_safe hb version offsetSize).mono fun h hh => ?_
  rw [hh]
  exact ⟨rfl, hb⟩

/-- What the decoder takes for granted: there are standard opcodes, and every round of the run is one
that can be made. -/
structure Executes (u : CompUnit) (bytes : List BfdByte) : Prop where
  opcodeBase : ∀ h, readHead u bytes = .ok h → h.opcodeBase ≠ 0
  rounds : ∀ n b lh s, readPrologue u n bytes = .ok (b, lh, s) →
    ∀ s', Reached (round u b lh) s s' → RoundOk u b lh s'

theorem readPrologue_safe {bytes : List BfdByte} (hend : EndsInside u bytes)
    (hstrings : NoHugeString bytes) (h : Executes u bytes) (hn : bytes.length < n) :
    Safe (fun r => r.1.lineEnd ≤ r.1.bytes.length ∧ r.1.bytes = bytes ∧ Tabulated r.2.1)
      (readPrologue u n bytes) := by
  refine (readHead_safe hend).bind_eq fun head hres ⟨hbytes, hend⟩ => ?_
  rw [← hbytes] at hend
  refine (readOpcodeLengths_safe hend (h.opcodeBase head hres)).bind fun ⟨lengths, q⟩ hlh => ?_
  refine (readTables_safe hend (hbytes ▸ hstrings) ?_ head.version).bind fun ⟨q, table⟩ _ => ?_
  · rw [hbytes] at hend
    omega
  · exact ⟨hend, hbytes, hlh⟩

/-- A run of good rounds ends after at most two of them for each byte of the section. -/
theorem decodeLineInfo_safe {bytes : List BfdByte} (hend : EndsInside u bytes)
    (hstrings : NoHugeString bytes) (h : Executes u bytes) :
    Survives (decodeLineInfo u (2 * bytes.length + 2) bytes) := by
  refine (readPrologue_safe hend hstrings h (by omega)).bind_eq
    fun ⟨b, lh, s⟩ hres ⟨hb, hbytes, hlh⟩ => ?_
  refine Meets.bind (P := fun _ => True) ?_ fun _ _ => trivial
  refine iterate_meets (fun s' hs' _ => round_safe hb hlh (h.rounds _ _ _ _ hres s' hs'))
    .start trivial ?_
  rw [← hbytes]
  simp only [remaining] at hb ⊢
  split <;> omega

/-! And what happens where a round is not good. -/

theorem readFixedFields_linePtr (version offsetSize : Nat) :
    Meets (fun _ => True) (fun h : Head => h.buf = b ∧
      h.linePtr = p + offsetSize + (if 4 ≤ version then 6 else 5))
      (readFixedFields u b version offsetSize p) := by
  refine (meets_any _).bind fun _ _ => ?_
  refine (meets_any _).bind fun min _ => ?_
  refine (meets_any _).bind fun ops _ => ?_
  refine meets_ite (fun _ => trivial) fun _ => ?_
  refine (meets_any _).bind fun _ _ => ?_
  refine (meets_any _).bind fun _ _ => ?_
  refine (meets_any _).bind fun _ _ => ?_
  refine (meets_any _).bind fun _ _ => meets_ok.mpr ⟨rfl, ?_⟩
  simp only
  split <;> omega

/-- The header is read only where there is room for it. -/
theorem readHead_room (bytes : List BfdByte) :
    Meets (fun _ => True) (fun h => h.linePtr < h.buf.lineEnd) (readHead u bytes) := by
  refine meets_ite (fun _ => trivial) fun _ => ?_
  refine meets_ite (fun _ => trivial) fun _ => ?_
  refine (meets_any _).bind fun ⟨totalLength, q, offsetSize⟩ _ => ?_
  refine meets_ite (fun _ => trivial) fun _ => ?_
  refine (meets_any _).bind fun version _ => ?_
  refine meets_ite (fun _ => trivial) fun _ => ?_
  refine meets_ite (fun _ => trivial) fun hroom => ?_
  have hskip : Meets (fun _ => True) (fun q' => q' = q + 2 + if 5 ≤ version then 2 else 0)
      (skipSizes u ⟨bytes, (q + totalLength) % 2 ^ 64⟩ version (q + 2)) := by
    rw [skipSizes]
    split
    · refine (meets_any _).bind fun _ _ => ?_
      refine (meets_any _).bind fun _ _ => ?_
      exact meets_ite (fun _ => trivial) fun _ => rfl
    · rfl
  refine hskip.bind fun q' hq' => ?_
  refine (readFixedFields_linePtr version offsetSize).mono fun h ⟨hbuf, hptr⟩ => ?_
  rw [hbuf, hptr, hq']
  simp only at hroom ⊢
  split_ifs at hroom ⊢ <;> omega

theorem concatFilename_unnamed {table : Table} {file : Nat} (h : ¬ Named table file) :
    concatFilename u table file = .error .name := by
  simp only [Named, not_forall] at h
  obtain ⟨info, hfile, hinfo, hname⟩ := h
  rw [concatFilename, if_neg hfile, hinfo]
  cases hptr : info.name with
  | null => simp only [hptr, NamePtr.deref]; rfl
  | unset => simp only [hptr, NamePtr.deref]; rfl
  | text name =>
    simp only [hptr, NamePtr.text.injEq, exists_eq_left', Classical.not_imp, not_not] at hname
    obtain ⟨hrel, hdir, hunset⟩ := hname
    have hsubdir : subdirName table info = .error .name := by
      rw [subdirName, if_neg hdir, hunset]
      rfl
    simp only [hptr, NamePtr.deref, bind, Except.bind, hrel, hsubdir]
    rfl

theorem standardOp_constAddPc (h : lh.lineRange = 0) :
    standardOp u b lh s 8 = .error .division := by
  simp [standardOp, h]

theorem standardOp_setFile {file q : Nat} (hleb : readLeb128 b false s.linePtr = .ok (file, q))
    (h : ¬ Named s.table (file % 2 ^ 32)) : standardOp u b lh s 4 = .error .name := by
  simp only [standardOp, hleb, concatFilename_unnamed h, bind, Except.bind]

/-- A round that is not good stops the run. -/
theorem round_stops (h : ¬ RoundOk u b lh s) :
    ∃ e, round u b lh s = .error e ∧ e ≠ .failed := by
  unfold RoundOk at h
  unfold round
  cases hseq : s.regs.endSequence with
  | true =>
    simp only [hseq, if_true, Classical.not_imp] at h ⊢
    obtain ⟨hlt, hfiles, hname⟩ := h
    have hrestart : restart u lh s = .error .name := by
      have hempty : ¬ s.table.files.isEmpty = true := by simpa using hfiles
      simp only [restart, if_neg hempty, concatFilename_unnamed hname]
      rfl
    rw [if_neg (by omega), hrestart]
    exact ⟨.name, rfl, by decide⟩
  | false =>
    simp only [hseq, Bool.false_eq_true, if_false] at h ⊢
    have hstep : ∃ e, step u b lh s = .error e ∧ e ≠ .failed := by
      by_cases hconst : read1Byte u b s.linePtr = .ok 8 → 8 < lh.opcodeBase → lh.lineRange ≠ 0
      · have hset : ¬ (read1Byte u b s.linePtr = .ok 4 → 4 < lh.opcodeBase → ∀ file p,
            readLeb128 b false (s.linePtr + 1) = .ok (file, p) →
              Named s.table (file % 2 ^ 32)) := fun hset => h ⟨hconst, hset⟩
        simp only [Classical.not_imp, not_forall] at hset
        obtain ⟨hop, hlt, file, q, hleb, hname⟩ := hset
        refine ⟨.name, ?_, by decide⟩
        simp only [step, hop, bind, Except.bind]
        rw [if_neg (by omega)]
        exact standardOp_setFile hleb hname
      · simp only [Classical.not_imp, not_not] at hconst
        obtain ⟨hop, hlt, hrange⟩ := hconst
        refine ⟨.division, ?_, by decide⟩
        simp only [step, hop, bind, Except.bind]
        rw [if_neg (by omega)]
        exact standardOp_constAddPc hrange
    obtain ⟨e, he, hne⟩ := hstep
    exact ⟨e, by rw [he]; rfl, hne⟩

/-- The tables are the same with other fuel. -/
theorem readTables_ok {version k : Nat} {r : Nat × Table} (h : readTables u b n version p = .ok r) :
    readTables u b k version p = .ok r ∨ readTables u b k version p = .error .fuel := by
  rw [readTables] at h ⊢
  split
  case isTrue hv =>
    rw [if_pos hv] at h
    exact .inl h
  case isFalse hv =>
    rw [if_neg hv] at h
    cases hdirs : iterate (readDir b) .fuel n (p, ⟨[], [], []⟩) with
    | error e =>
      rw [hdirs] at h
      cases h
    | ok s =>
      rw [hdirs] at h
      rcases iterate_ok hdirs k with hk | hk
      · rw [hk]
        exact iterate_ok h k
      · rw [hk]
        exact .inr rfl

theorem readPrologue_ok {bytes : List BfdByte} {k : Nat} {r : Buf × LineHead × State}
    (h : readPrologue u n bytes = .ok r) :
    readPrologue u k bytes = .ok r ∨ readPrologue u k bytes = .error .fuel := by
  unfold readPrologue at h ⊢
  cases hhead : readHead u bytes with
  | error e =>
    rw [hhead] at h
    cases h
  | ok head =>
    rw [hhead] at h
    cases hlen : readOpcodeLengths u head with
    | error e =>
      simp only [bind, Except.bind, hlen] at h
      cases h
    | ok lengths =>
      simp only [bind, Except.bind, hlen] at h ⊢
      cases htab : readTables u head.buf n head.version lengths.2 with
      | error e =>
        rw [htab] at h
        cases h
      | ok tables =>
        rw [htab] at h
        rcases readTables_ok htab with hk | hk
        · rw [hk]
          exact .inl h
        · rw [hk]
          exact .inr rfl

/-- A run that has an answer has made good rounds only. -/
theorem executes_of_survives {bytes : List BfdByte} (h : Survives (decodeLineInfo u n bytes)) :
    Executes u bytes where
  opcodeBase := by
    intro head hhead hzero
    have hroom := readHead_room (u := u) bytes
    rw [hhead] at hroom
    have hindex : readOpcodeLengths u head = .error .index := by
      have hroom' : head.linePtr < head.buf.lineEnd := hroom
      rw [readOpcodeLengths, if_neg (by omega), if_pos hzero]
    have hrun : decodeLineInfo u n bytes = .error .index := by
      simp only [decodeLineInfo, readPrologue, bind, Except.bind, hhead, hindex]
    rw [hrun] at h
    cases h
  rounds := by
    intro k b lh s hprologue s' hs'
    by_contra hbad
    obtain ⟨e, he, hne⟩ := round_stops hbad
    rcases readPrologue_ok hprologue with hn | hn
    · have hrun : decodeLineInfo u n bytes =
          (iterate (round u b lh) .fuel n s).bind fun s => .ok s.table := by
        rw [decodeLineInfo, hn]
        rfl
      rcases iterate_error hs' he n with hloop | hloop
      · rw [hrun, hloop] at h
        cases h
      · rw [hrun, hloop] at h
        exact hne h
    · have hrun : decodeLineInfo u n bytes = .error .fuel := by
        rw [decodeLineInfo, hn]
        rfl
      rw [hrun] at h
      cases h

/-- A unit of a little-endian file with addresses of four bytes. -/
def littleUnit : CompUnit := ⟨.four, false, 0, false, none, fun _ => none, 0⟩

/-- The header with this `total_length` and no standard opcodes, and then the program. -/
def smallSection (totalLength : BfdByte) (program : List BfdByte) : List BfdByte :=
  [totalLength, 0, 0, 0, 2, 0, 9, 0, 0, 0, 1, 1, 0xfb, 0x0e, 1, 0, 0] ++ program

def endedSection : List BfdByte := smallSection 16 [0, 1, 1]

theorem noHugeString_of_length {bytes : List BfdByte} (h : bytes.length + 1 < 2 ^ 32) :
    NoHugeString bytes := by
  intro p
  have hle : ((bytes.drop p).takeWhile (· ≠ 0#8)).length ≤ (bytes.drop p).length :=
    (List.takeWhile_prefix _).length_le
  rw [List.length_drop] at hle
  omega

theorem endedSection_endsInside : EndsInside littleUnit endedSection := by
  intro totalLength p offsetSize h _
  have hres : readTotalLength littleUnit endedSection = .ok (16, 4, 4) := by decide
  rw [hres] at h
  cases h
  decide

def endedBuf : Buf := ⟨endedSection, 20⟩

def endedHead : LineHead := ⟨1, 1, 1, -5, 14, 1, [1]⟩

/-- The state between sequences, with `line_ptr` and the rows so far. -/
def betweenSequences (p : Nat) (rows : List LineTable.LineInfo) : State :=
  ⟨p, ⟨[], [], rows⟩, ⟨0, 0, none, 1, 0, 0, !rows.isEmpty, true⟩⟩

theorem endedSection_prologue {r : Buf × LineHead × State}
    (h : readPrologue littleUnit n endedSection = .ok r) :
    r = (endedBuf, endedHead, betweenSequences 17 []) := by
  cases n with
  | zero => cases h
  | succ n =>
    have hres : readPrologue littleUnit (n + 1) endedSection =
        .ok (endedBuf, endedHead, betweenSequences 17 []) := rfl
    rw [hres] at h
    exact (Except.ok.inj h).symm

/-- One sequence of one opcode. -/
theorem endedSection_reached
    (h : Reached (round littleUnit endedBuf endedHead) (betweenSequences 17 []) s) :
    s = betweenSequences 17 [] ∨
      s = ⟨17, ⟨[], [], []⟩, ⟨0, 0, none, 1, 0, 0, true, false⟩⟩ ∨
      s = betweenSequences 20 [⟨0, 0, none, 1, 0, 0, true⟩] := by
  induction h with
  | start => exact .inl rfl
  | next _ hround ih =>
    rcases ih with rfl | rfl | rfl
    · exact .inr (.inl (Sum.inl.inj (Except.ok.inj hround)).symm)
    · exact .inr (.inr (Sum.inl.inj (Except.ok.inj hround)).symm)
    · cases Except.ok.inj hround

theorem endedSection_executes : Executes littleUnit endedSection where
  opcodeBase := by
    intro h hh hzero
    have hres : ∃ head, readHead littleUnit endedSection = .ok head ∧ head.opcodeBase = 1 :=
      ⟨_, rfl, rfl⟩
    obtain ⟨head, hhead, hone⟩ := hres
    rw [hh] at hhead
    cases hhead
    omega
  rounds := by
    intro n b lh s hprologue s' hs'
    obtain ⟨rfl, rfl, rfl⟩ : b = endedBuf ∧ lh = endedHead ∧ s = betweenSequences 17 [] := by
      simpa using endedSection_prologue hprologue
    rcases endedSection_reached hs' with rfl | rfl | rfl
    · exact fun _ hfiles => absurd rfl hfiles
    · refine (⟨?_, ?_⟩ : Executable _ _ _ _)
      · intro hop
        cases hop
      · intro hop
        cases hop
    · exact fun _ hfiles => absurd rfl hfiles

end FusionBinutils.Bfd.LineReads
