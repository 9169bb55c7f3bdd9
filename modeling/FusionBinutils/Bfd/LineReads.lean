import FusionBinutils.Bfd.LineMachine
import FusionBinutils.Lib.Outcome

/-! `decode_line_info` (bfd/dwarf2.c) with its pointers: places in the buffer of the section and the
end that every read is checked against. What C leaves undefined stops the run. -/
namespace FusionBinutils.Bfd.LineReads
open LineTable (LineInfo)
open LineMachine (AddrSize LineHead isAbsolutePath)
open Outcome (iterate)

/-- How a run stops before its end. Only `failed` is an answer of the source, its `return NULL`. -/
inductive Stop
  | failed
  /-- a read outside the buffer -/
  | outside
  | division
  /-- `standard_opcode_lengths` at or above `opcode_base` -/
  | index
  /-- a string function on a null or uninitialized pointer -/
  | name
  /-- the loop goes on -/
  | fuel
  deriving DecidableEq, Repr

abbrev Decode := Except Stop

/-- `struct comp_unit`, as far as the decoder reads it. -/
structure CompUnit where
  addrSize : AddrSize
  bigEndian : Bool
  lineOffset : Nat
  /-- `offset_size` is 8 and not 4 -/
  offset64 : Bool
  compDir : Option String
  /-- the string at an offset of `.debug_line_str`, if it is there and not empty -/
  lineStr : Nat → Option String
  /-- what the stack holds where a number of `struct fileinfo` is not initialized -/
  stack : Nat

/-- The buffer of the section and `line_end`. -/
structure Buf where
  bytes : List BfdByte
  lineEnd : Nat

variable (u : CompUnit) (b : Buf)

/-- The bytes from `p` on that are before `line_end` and in the buffer. -/
def Buf.ahead (p : Nat) : List BfdByte := (b.bytes.drop p).take (b.lineEnd - p)

/-- `read_1_byte` and its siblings for more bytes. -/
def readBytes (n : Nat) (p : Nat) : Decode Nat :=
  if b.lineEnd < p + n then .ok 0
  else if b.bytes.length < p + n then .error .outside
  else .ok (Endian.get u.bigEndian ((b.bytes.drop p).take n))

def read1Byte : Nat → Decode Nat := readBytes u b 1

def read2Bytes : Nat → Decode Nat := readBytes u b 2

def read4Bytes : Nat → Decode Nat := readBytes u b 4

def read8Bytes : Nat → Decode Nat := readBytes u b 8

def read1SignedByte (p : Nat) : Decode Int := do
  let v ← read1Byte u b p
  .ok (if v < 128 then v else v - 256)

def readAddress : Nat → Decode Nat := readBytes u b u.addrSize.bytes

/-- `_bfd_safe_read_leb128`: the number, and the pointer behind the `bytes_read`. -/
def readLeb128 (sign : Bool) (p : Nat) : Decode (Nat × Nat) :=
  let data := b.ahead p
  if p + data.length < b.lineEnd ∧ data.all (128 ≤ ·.toNat) then .error .outside
  else
    let r := Leb128.read 64 sign data
    .ok (r.1, p + (data.length - r.2.length) % 2 ^ 32)

/-- `read_string`: the string, if there is one, and the pointer behind the `bytes_read`. -/
def readString (p : Nat) : Decode (Option String × Nat) :=
  if b.lineEnd ≤ p then .ok (none, p)
  else
    match b.bytes[p]? with
    | none => .error .outside
    | some c =>
      if c = 0#8 then .ok (none, p + 1)
      else
        let data := b.ahead p
        let str := data.takeWhile (· ≠ 0#8)
        if str.length < data.length then
          .ok (some (String.ofList (str.map fun c => Char.ofNat c.toNat)),
            p + (str.length + 1) % 2 ^ 32)
        else if p + data.length < b.lineEnd then .error .outside
        else .ok (none, p + data.length % 2 ^ 32)

/-- A `char *` of the tables. -/
inductive NamePtr
  | text (s : String)
  | null
  | unset
  deriving DecidableEq, Repr

def NamePtr.ofOption : Option String → NamePtr
  | some s => .text s
  | none => .null

/-- The string that a string function finds. -/
def NamePtr.deref : NamePtr → Decode String
  | .text s => .ok s
  | .null | .unset => .error .name

/-- `struct fileinfo`. -/
structure FileInfo where
  name : NamePtr
  dir : Nat
  time : Nat
  size : Nat
  deriving DecidableEq, Repr

/-- `struct line_info_table`, with the rows in the order of the calls of `add_line_info`. -/
structure Table where
  dirs : List NamePtr
  files : List FileInfo
  rows : List LineInfo
  deriving DecidableEq, Repr

/-- The directory of a file, if there is one. -/
def subdirName (table : Table) (info : FileInfo) : Decode (Option String) :=
  match if info.dir = 0 then none else table.dirs[info.dir - 1]? with
  | none | some .null => .ok none
  | some dir => do .ok (some (← dir.deref))

/-- `concat_filename`. -/
def concatFilename (table : Table) (file : Nat) : Decode String :=
  match if file = 0 then none else table.files[file - 1]? with
  | none => .ok "<unknown>"
  | some info => do
    let filename ← info.name.deref
    if isAbsolutePath filename then .ok filename
    else
      let subdir ← subdirName table info
      let dirName := if subdir.any isAbsolutePath then none else u.compDir
      match dirName, subdir with
      | none, none => .ok filename
      | none, some dir => .ok (dir ++ "/" ++ filename)
      | some dir, none => .ok (dir ++ "/" ++ filename)
      | some dir, some subdir => .ok (dir ++ "/" ++ subdir ++ "/" ++ filename)

/-! The tables of version 5. -/

/-- The formats are skipped. -/
def skipFormats : Nat → Nat → Decode Nat
  | 0, p => .ok p
  | n + 1, p => do
    let (_, p) ← readLeb128 b false p
    let (_, p) ← readLeb128 b false p
    skipFormats n p

/-- A string of an entry; only that of `DW_LNCT_path` is kept. -/
def FileInfo.setString (fe : FileInfo) (contentType : Nat) (s : Option String) : FileInfo :=
  if contentType = 1 then { fe with name := .ofOption s } else fe

/-- A number of an entry, for `DW_LNCT_directory_index`, `DW_LNCT_timestamp` and `DW_LNCT_size`. -/
def FileInfo.setNumber (fe : FileInfo) (contentType v : Nat) : FileInfo :=
  match contentType with
  | 2 => { fe with dir := v % 2 ^ 32 }
  | 3 => { fe with time := v % 2 ^ 32 }
  | 4 => { fe with size := v % 2 ^ 32 }
  | _ => fe

/-- `read_indirect_line_string`. -/
def readIndirectLineString (p : Nat) : Decode (Option String × Nat) :=
  let offsetSize := if u.offset64 then 8 else 4
  if b.lineEnd < p + offsetSize then .ok (none, p)
  else do
    let offset ← (if u.offset64 then read8Bytes u b p else read4Bytes u b p)
    .ok (u.lineStr offset, p + offsetSize)

/-- One field of an entry: the pointer into the formats, the one into the data, and the entry. -/
def readField (format p : Nat) (fe : FileInfo) : Decode (Nat × Nat × FileInfo) := do
  let (contentType, format) ← readLeb128 b false format
  if contentType = 0 ∨ 5 < contentType then .error .failed
  else
    let (form, format) ← readLeb128 b false format
    match form with
    | 0x08 => do
      let (s, p) ← readString b p
      .ok (format, p, fe.setString contentType s)
    | 0x1f => do
      let (s, p) ← readIndirectLineString u b p
      .ok (format, p, fe.setString contentType s)
    | 0x0b => do
      let v ← read1Byte u b p
      .ok (format, p + 1, fe.setNumber contentType v)
    | 0x05 => do
      let v ← read2Bytes u b p
      .ok (format, p + 2, fe.setNumber contentType v)
    | 0x06 => do
      let v ← read4Bytes u b p
      .ok (format, p + 4, fe.setNumber contentType v)
    | 0x07 => do
      let v ← read8Bytes u b p
      .ok (format, p + 8, fe.setNumber contentType v)
    | 0x0f => do
      let (v, p) ← readLeb128 b false p
      .ok (format, p, fe.setNumber contentType v)
    | _ => .ok (format, p, fe)

def readFields : Nat → Nat → Nat → FileInfo → Decode (Nat × FileInfo)
  | 0, _, p, fe => .ok (p, fe)
  | n + 1, format, p, fe => do
    let (format, p, fe) ← readField u b format p fe
    readFields n format p fe

/-- The entries, each read along the formats from `format` on and given to `callback`. -/
def readEntries (callback : Table → FileInfo → Table) (formatCount format : Nat) :
    Nat → Nat → Table → Decode (Nat × Table)
  | 0, p, table => .ok (p, table)
  | n + 1, p, table => do
    let (p, fe) ← readFields u b formatCount format p ⟨.unset, u.stack, u.stack, u.stack⟩
    readEntries callback formatCount format n p (callback table fe)

/-- `read_formatted_entries`. -/
def readFormattedEntries (callback : Table → FileInfo → Table) (p : Nat) (table : Table) :
    Decode (Nat × Table) := do
  let formatCount ← read1Byte u b p
  let p := p + 1
  let format := p
  let p ← skipFormats b formatCount p
  let (dataCount, p) ← readLeb128 b false p
  readEntries u b callback formatCount format dataCount p table

/-- `line_info_add_include_dir_stub`. -/
def addIncludeDirStub (table : Table) (fe : FileInfo) : Table :=
  { table with dirs := table.dirs ++ [fe.name] }

/-- `line_info_add_file_name`. -/
def addFileName (table : Table) (fe : FileInfo) : Table :=
  { table with files := table.files ++ [fe] }

/-! The tables of the versions before. -/

/-- One directory, up to the empty name. -/
def readDir (s : Nat × Table) : Decode ((Nat × Table) ⊕ (Nat × Table)) := do
  let (curDir, p) ← readString b s.1
  match curDir with
  | none => .ok (.inr (p, s.2))
  | some dir => .ok (.inl (p, { s.2 with dirs := s.2.dirs ++ [.text dir] }))

/-- One file, up to the empty name. -/
def readFile (s : Nat × Table) : Decode ((Nat × Table) ⊕ (Nat × Table)) := do
  let (curFile, p) ← readString b s.1
  match curFile with
  | none => .ok (.inr (p, s.2))
  | some name =>
    let (dir, p) ← readLeb128 b false p
    let (xtime, p) ← readLeb128 b false p
    let (size, p) ← readLeb128 b false p
    .ok (.inl (p, addFileName s.2
      ⟨.text name, dir % 2 ^ 32, xtime % 2 ^ 32, size % 2 ^ 32⟩))

/-! The header. -/

/-- `total_length`, the pointer behind it, and `offset_size`. -/
def readTotalLength (bytes : List BfdByte) : Decode (Nat × Nat × Nat) := do
  let b : Buf := ⟨bytes, bytes.length⟩
  let p := u.lineOffset
  let totalLength ← read4Bytes u b p
  if totalLength = 0xffffffff then
    let totalLength ← read8Bytes u b (p + 4)
    .ok (totalLength, p + 12, 8)
  else if totalLength = 0 ∧ u.addrSize = .eight then
    let totalLength ← read4Bytes u b (p + 4)
    .ok (totalLength, p + 8, 8)
  else .ok (totalLength, p + 4, 4)

/-- `struct line_head` up to `opcode_base`, the buffer with its end, and the pointer. -/
structure Head where
  version : Nat
  minimumInstructionLength : Nat
  maximumOpsPerInsn : Nat
  defaultIsStmt : Nat
  lineBase : Int
  lineRange : Nat
  opcodeBase : Nat
  buf : Buf
  linePtr : Nat

/-- The address size and the segment selector size of version 5. -/
def skipSizes (version p : Nat) : Decode Nat :=
  if 5 ≤ version then do
    let _ ← read1Byte u b p
    let segmentSelectorSize ← read1Byte u b (p + 1)
    if segmentSelectorSize ≠ 0 then .error .failed else .ok (p + 2)
  else .ok p

/-- The fields from `prologue_length` to `opcode_base`. -/
def readFixedFields (version offsetSize p : Nat) : Decode Head := do
  let _ ← (if offsetSize = 4 then read4Bytes u b p else read8Bytes u b p)
  let p := p + offsetSize
  let minimumInstructionLength ← read1Byte u b p
  let p := p + 1
  let maximumOpsPerInsn ← (if 4 ≤ version then read1Byte u b p else .ok 1)
  let p := if 4 ≤ version then p + 1 else p
  if maximumOpsPerInsn = 0 then .error .failed
  else
    let defaultIsStmt ← read1Byte u b p
    let lineBase ← read1SignedByte u b (p + 1)
    let lineRange ← read1Byte u b (p + 2)
    let opcodeBase ← read1Byte u b (p + 3)
    .ok ⟨version, minimumInstructionLength, maximumOpsPerInsn, defaultIsStmt, lineBase, lineRange,
      opcodeBase, b, p + 4⟩

/-- The part of the prologue that is at fixed places. -/
def readHead (bytes : List BfdByte) : Decode Head :=
  if u.lineOffset ≠ 0 ∧ bytes.length ≤ u.lineOffset then .error .failed
  else if bytes.length < 16 then .error .failed
  else do
    let (totalLength, p, offsetSize) ← readTotalLength u bytes
    if bytes.length < (u.lineOffset + totalLength) % 2 ^ 64 then .error .failed
    else
      let b : Buf := ⟨bytes, (p + totalLength) % 2 ^ 64⟩
      let version ← read2Bytes u b p
      let p := p + 2
      let room := if 5 ≤ version then 8 else if 4 ≤ version then 6 else 5
      if version < 2 ∨ 5 < version then .error .failed
      else if b.lineEnd ≤ p + offsetSize + room then .error .failed
      else
        let p ← skipSizes u b version p
        readFixedFields u b version offsetSize p

/-- Some of the `standard_opcode_lengths`. -/
def readLengths : Nat → Nat → Decode (List Nat × Nat)
  | 0, p => .ok ([], p)
  | n + 1, p => do
    let v ← read1Byte u b p
    let (rest, p) ← readLengths n (p + 1)
    .ok (v :: rest, p)

/-- The array `standard_opcode_lengths`. The entry at zero is set whatever the size. -/
def readOpcodeLengths (h : Head) : Decode (List Nat × Nat) :=
  if h.buf.lineEnd ≤ h.linePtr + h.opcodeBase - 1 then .error .failed
  else if h.opcodeBase = 0 then .error .index
  else do
    let (lengths, p) ← readLengths u h.buf (h.opcodeBase - 1) h.linePtr
    .ok (1 :: lengths, p)

/-- The directories and files, in the form of the version. -/
def readTables (n version p : Nat) : Decode (Nat × Table) :=
  if 5 ≤ version then do
    let (p, table) ← readFormattedEntries u b addIncludeDirStub p ⟨[], [], []⟩
    readFormattedEntries u b addFileName p table
  else do
    let s ← iterate (readDir b) .fuel n (p, ⟨[], [], []⟩)
    iterate (readFile b) .fuel n s

/-! The state machine. -/

/-- The registers of a sequence. -/
structure Registers where
  address : Nat
  opIndex : Nat
  filename : Option String
  line : Nat
  column : Nat
  discriminator : Nat
  isStmt : Bool
  endSequence : Bool
  deriving DecidableEq, Repr

structure State where
  linePtr : Nat
  table : Table
  regs : Registers
  deriving DecidableEq, Repr

variable (lh : LineHead) (s : State)

/-- `add_line_info`, after which the discriminator is zero again. -/
def State.addLineInfo (endSequence : Bool) : State :=
  let r := s.regs
  { s with
    table := { s.table with
      rows := s.table.rows ++ [⟨r.address, r.opIndex, r.filename, r.line, r.column,
        r.discriminator, endSequence⟩] }
    regs := { r with discriminator := 0, endSequence := endSequence } }

/-- The address and `op_index` go on by some operations. -/
def Registers.addOps (r : Registers) (adjust : Nat) : Registers :=
  if lh.maximumOpsPerInsn = 1 then
    { r with address := (r.address + adjust * lh.minimumInstructionLength) % 2 ^ 64 }
  else
    { r with
      address := (r.address + (r.opIndex + adjust) % 2 ^ 64 / lh.maximumOpsPerInsn *
        lh.minimumInstructionLength) % 2 ^ 64
      opIndex := (r.opIndex + adjust) % 2 ^ 64 % lh.maximumOpsPerInsn }

/-- A special opcode. -/
def special (adjOpcode : Nat) : Decode State :=
  if lh.lineRange = 0 then .error .failed
  else
    let r := s.regs.addOps lh (adjOpcode / lh.lineRange)
    let line := ((r.line : Int) + lh.lineBase + (adjOpcode % lh.lineRange : Nat)) % 2 ^ 32
    .ok (State.addLineInfo { s with regs := { r with line := line.toNat } } false)

/-- `DW_LNE_define_file`. -/
def defineFile : Decode State := do
  let (curFile, p) ← readString b s.linePtr
  let (dir, p) ← readLeb128 b false p
  let (time, p) ← readLeb128 b false p
  let (size, p) ← readLeb128 b false p
  .ok { s with
    linePtr := p
    table := addFileName s.table
      ⟨.ofOption curFile, dir % 2 ^ 32, time % 2 ^ 32, size % 2 ^ 32⟩ }

/-- `DW_LNS_extended_op`. -/
def extended : Decode State := do
  let (exopLen, p) ← readLeb128 b false s.linePtr
  let extendedOp ← read1Byte u b p
  let s := { s with linePtr := p + 1 }
  match extendedOp with
  | 1 => .ok (s.addLineInfo true)
  | 2 => do
    let address ← readAddress u b s.linePtr
    .ok { s with
      linePtr := s.linePtr + u.addrSize.bytes
      regs := { s.regs with address := address, opIndex := 0 } }
  | 3 => defineFile b s
  | 4 => do
    let (discriminator, p) ← readLeb128 b false s.linePtr
    .ok { s with linePtr := p, regs := { s.regs with discriminator := discriminator % 2 ^ 32 } }
  | 0x80 => .ok { s with linePtr := s.linePtr + (exopLen + 2 ^ 32 - 1) % 2 ^ 32 }
  | _ => .error .failed

/-- The operands of an opcode without a case of its own. -/
def skipOperands : Nat → Nat → Decode Nat
  | 0, p => .ok p
  | n + 1, p => do
    let (_, p) ← readLeb128 b false p
    skipOperands n p

/-- The standard opcodes. -/
def standardOp (opCode : Nat) : Decode State :=
  match opCode with
  | 0 => extended u b s
  | 1 => .ok (s.addLineInfo false)
  | 2 => do
    let (adjust, p) ← readLeb128 b false s.linePtr
    -- with more than one operation an instruction the address is assigned
    let r := { s.regs with address := if lh.maximumOpsPerInsn = 1 then s.regs.address else 0 }
    .ok { s with linePtr := p, regs := r.addOps lh adjust }
  | 3 => do
    let (adjust, p) ← readLeb128 b true s.linePtr
    .ok { s with linePtr := p, regs := { s.regs with line := (s.regs.line + adjust) % 2 ^ 32 } }
  | 4 => do
    let (file, p) ← readLeb128 b false s.linePtr
    let filename ← concatFilename u s.table (file % 2 ^ 32)
    .ok { s with linePtr := p, regs := { s.regs with filename := some filename } }
  | 5 => do
    let (column, p) ← readLeb128 b false s.linePtr
    .ok { s with linePtr := p, regs := { s.regs with column := column % 2 ^ 32 } }
  | 6 => .ok { s with regs := { s.regs with isStmt := !s.regs.isStmt } }
  | 7 => .ok s
  | 8 =>
    if lh.lineRange = 0 then .error .division
    else .ok { s with regs := s.regs.addOps lh ((255 - lh.opcodeBase) / lh.lineRange) }
  | 9 => do
    let adjust ← read2Bytes u b s.linePtr
    .ok { s with
      linePtr := s.linePtr + 2
      regs := { s.regs with address := (s.regs.address + adjust) % 2 ^ 64, opIndex := 0 } }
  | _ =>
    match lh.standardOpcodeLengths[opCode]? with
    | none => .error .index
    | some n => do
      let p ← skipOperands b n s.linePtr
      .ok { s with linePtr := p }

/-- One opcode. -/
def step : Decode State := do
  let opCode ← read1Byte u b s.linePtr
  let s := { s with linePtr := s.linePtr + 1 }
  if lh.opcodeBase ≤ opCode then special lh s (opCode - lh.opcodeBase)
  else standardOp u b lh s opCode

/-- The registers at the start of a sequence. -/
def restart : Decode State := do
  let filename ←
    (if s.table.files.isEmpty then .ok none else do .ok (some (← concatFilename u s.table 1)))
  .ok { s with regs := ⟨0, 0, filename, 1, 0, 0, lh.defaultIsStmt != 0, false⟩ }

/-- A round of the two loops: a new sequence while there is something left, or an opcode. -/
def round : Decode (State ⊕ State) :=
  if s.regs.endSequence then
    if b.lineEnd ≤ s.linePtr then .ok (.inr s) else do .ok (.inl (← restart u lh s))
  else do .ok (.inl (← step u b lh s))

/-- `struct line_head`, once it is complete. -/
def Head.lineHead (h : Head) (lengths : List Nat) : LineHead where
  minimumInstructionLength := h.minimumInstructionLength
  maximumOpsPerInsn := h.maximumOpsPerInsn
  defaultIsStmt := h.defaultIsStmt
  lineBase := h.lineBase
  lineRange := h.lineRange
  opcodeBase := h.opcodeBase
  standardOpcodeLengths := lengths

/-- The machine before the first sequence. -/
def startState (p : Nat) (table : Table) : State :=
  ⟨p, table, ⟨0, 0, none, 1, 0, 0, false, true⟩⟩

/-- Everything in front of the first opcode. -/
def readPrologue (n : Nat) (bytes : List BfdByte) : Decode (Buf × LineHead × State) := do
  let h ← readHead u bytes
  let (lengths, p) ← readOpcodeLengths u h
  let (p, table) ← readTables u h.buf n h.version p
  .ok (h.buf, h.lineHead lengths, startState p table)

/-- `decode_line_info`, up to the sorting of the sequences. -/
def decodeLineInfo (n : Nat) (bytes : List BfdByte) : Decode Table := do
  let (b, lh, s) ← readPrologue u n bytes
  let s ← iterate (round u b lh) .fuel n s
  .ok s.table

end FusionBinutils.Bfd.LineReads
