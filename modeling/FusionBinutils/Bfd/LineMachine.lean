import FusionBinutils.Bfd.LineTable
import FusionBinutils.Lib.Endian
import FusionBinutils.Lib.Leb128
import FusionBinutils.Opcode.Encoding

/-! The state machine of `decode_line_info` (bfd/dwarf2.c). Pointers into the section are the bytes
from there to `line_end`. -/
namespace FusionBinutils.Bfd.LineMachine
open LineTable (LineInfo)

inductive AddrSize
  | two | four | eight
  deriving DecidableEq, Repr

def AddrSize.bytes : AddrSize → Nat
  | .two => 2
  | .four => 4
  | .eight => 8

/-- What a `struct comp_unit` says about numbers in its file. The backend leaves `sign_extend_vma`
at zero. -/
structure CompUnit where
  addrSize : AddrSize
  bigEndian : Bool

/-- `struct line_head`, as far as the state machine reads it. -/
structure LineHead where
  minimumInstructionLength : Nat
  maximumOpsPerInsn : Nat
  defaultIsStmt : Nat
  lineBase : Int
  lineRange : Nat
  opcodeBase : Nat
  standardOpcodeLengths : List Nat
  deriving DecidableEq, Repr

/-- `struct fileinfo`. -/
structure FileInfo where
  name : String
  dir : Nat
  time : Nat
  size : Nat
  deriving DecidableEq, Repr

/-- `struct line_info_table`, with the rows in the order of the calls of `add_line_info`. -/
structure LineInfoTable where
  compDir : Option String
  dirs : List String
  files : List FileInfo
  rows : List LineInfo
  deriving DecidableEq, Repr

def isAbsolutePath (name : String) : Bool := name.startsWith "/"

/-- `concat_filename`. -/
def concatFilename (table : LineInfoTable) (file : Nat) : String :=
  match if file = 0 then none else table.files[file - 1]? with
  | none => "<unknown>"
  | some info =>
    if isAbsolutePath info.name then info.name
    else
      let subdirName := if info.dir = 0 then none else table.dirs[info.dir - 1]?
      let dirName := if subdirName.any isAbsolutePath then none else table.compDir
      match dirName, subdirName with
      | none, none => info.name
      | none, some dir => dir ++ "/" ++ info.name
      | some dir, none => dir ++ "/" ++ info.name
      | some dir, some subdir => dir ++ "/" ++ subdir ++ "/" ++ info.name

/-- The registers of the machine, the table and `line_ptr`. -/
structure Machine where
  linePtr : List BfdByte
  table : LineInfoTable
  address : Nat
  opIndex : Nat
  filename : Option String
  line : Nat
  column : Nat
  discriminator : Nat
  isStmt : Bool
  endSequence : Bool
  deriving DecidableEq, Repr

variable (u : CompUnit) (lh : LineHead) (m : Machine)

def read1Byte : List BfdByte → Nat
  | [] => 0
  | b :: _ => b.toNat

def read2Bytes (buf : List BfdByte) : Nat :=
  if buf.length < 2 then 0 else Endian.get u.bigEndian (buf.take 2)

def readAddress (buf : List BfdByte) : Nat :=
  if buf.length < u.addrSize.bytes then 0 else Endian.get u.bigEndian (buf.take u.addrSize.bytes)

/-- `_bfd_safe_read_leb128`. -/
def readLeb128 (sign : Bool) (data : List BfdByte) : Nat × List BfdByte := Leb128.read 64 sign data

/-- `read_string`: the string, if there is one, and the bytes behind it. -/
def readString (buf : List BfdByte) : Option String × List BfdByte :=
  match buf with
  | [] => (none, [])
  | b :: _ =>
    if b = 0#8 then (none, buf.drop 1)
    else
      let str := buf.takeWhile (· ≠ 0#8)
      (some (String.ofList (str.map fun b => Char.ofNat b.toNat)), buf.drop (str.length + 1))

/-- "Append row to matrix using current values." -/
def Machine.addLineInfo (endSequence : Bool) : Machine :=
  { m with
    table := { m.table with
      rows := m.table.rows ++ [⟨m.address, m.opIndex, m.filename, m.line, m.column,
        m.discriminator, endSequence⟩] }
    discriminator := 0
    endSequence := endSequence }

/-- The address and `op_index` go on by some operations. -/
def Machine.addOps (adjust : Nat) : Machine :=
  if lh.maximumOpsPerInsn = 1 then
    { m with address := (m.address + adjust * lh.minimumInstructionLength) % 2 ^ 64 }
  else
    { m with
      address := (m.address + (m.opIndex + adjust) % 2 ^ 64 / lh.maximumOpsPerInsn *
        lh.minimumInstructionLength) % 2 ^ 64
      opIndex := (m.opIndex + adjust) % 2 ^ 64 % lh.maximumOpsPerInsn }

/-- A special opcode. -/
def special (adjOpcode : Nat) : Option Machine :=
  if lh.lineRange = 0 then none
  else
    let m := m.addOps lh (adjOpcode / lh.lineRange)
    let line := ((m.line : Int) + lh.lineBase + (adjOpcode % lh.lineRange : Nat)) % 2 ^ 32
    some (Machine.addLineInfo { m with line := line.toNat } false)

/-- `DW_LNE_define_file`; a null name is left out. -/
def defineFile : Option Machine := do
  let curFile := readString m.linePtr
  let name ← curFile.1
  let dir := readLeb128 false curFile.2
  let time := readLeb128 false dir.2
  let size := readLeb128 false time.2
  some { m with
    linePtr := size.2
    table := { m.table with
      files := m.table.files ++ [⟨name, dir.1 % 2 ^ 32, time.1 % 2 ^ 32, size.1 % 2 ^ 32⟩] } }

/-- The extended opcodes. -/
def extendedOp (exopLen op : Nat) : Option Machine :=
  match op with
  | 1 => some (m.addLineInfo true)
  | 2 => some { m with
      address := readAddress u m.linePtr, opIndex := 0, linePtr := m.linePtr.drop u.addrSize.bytes }
  | 3 => defineFile m
  | 4 => some { m with
      discriminator := (readLeb128 false m.linePtr).1 % 2 ^ 32
      linePtr := (readLeb128 false m.linePtr).2 }
  | 0x80 => some { m with linePtr := m.linePtr.drop ((exopLen + 2 ^ 32 - 1) % 2 ^ 32) }
  | _ => none

/-- `DW_LNS_extended_op`. -/
def extended : Option Machine :=
  let exopLen := readLeb128 false m.linePtr
  extendedOp u { m with linePtr := exopLen.2.drop 1 } exopLen.1 (read1Byte exopLen.2)

/-- `DW_LNS_advance_pc`; with more than one operation an instruction it assigns the address. -/
def advancePc : Machine :=
  let adjust := readLeb128 false m.linePtr
  Machine.addOps lh { m with
    linePtr := adjust.2, address := if lh.maximumOpsPerInsn = 1 then m.address else 0 } adjust.1

/-- An opcode without a case of its own is skipped with its operands. -/
def skipOperands : Nat → List BfdByte → List BfdByte
  | 0, p => p
  | n + 1, p => skipOperands n (readLeb128 false p).2

/-- The standard opcodes. -/
def standardOp (opCode : Nat) : Option Machine :=
  match opCode with
  | 0 => extended u m
  | 1 => some (m.addLineInfo false)
  | 2 => some (advancePc lh m)
  | 3 => some { m with
      line := (m.line + (readLeb128 true m.linePtr).1) % 2 ^ 32
      linePtr := (readLeb128 true m.linePtr).2 }
  | 4 => some { m with
      filename := some (concatFilename m.table ((readLeb128 false m.linePtr).1 % 2 ^ 32))
      linePtr := (readLeb128 false m.linePtr).2 }
  | 5 => some { m with
      column := (readLeb128 false m.linePtr).1 % 2 ^ 32
      linePtr := (readLeb128 false m.linePtr).2 }
  | 6 => some { m with isStmt := !m.isStmt }
  | 7 => some m
  | 8 => if lh.lineRange = 0 then none else some (m.addOps lh ((255 - lh.opcodeBase) / lh.lineRange))
  | 9 => some { m with
      address := (m.address + read2Bytes u m.linePtr) % 2 ^ 64, opIndex := 0
      linePtr := m.linePtr.drop 2 }
  | _ => some { m with
      linePtr := skipOperands (lh.standardOpcodeLengths.getD opCode 0) m.linePtr }

/-- One opcode. -/
def step : Option Machine :=
  let opCode := read1Byte m.linePtr
  if lh.opcodeBase ≤ opCode then
    special lh { m with linePtr := m.linePtr.drop 1 } (opCode - lh.opcodeBase)
  else standardOp u lh { m with linePtr := m.linePtr.drop 1 } opCode

/-- The registers at the start of a sequence. -/
def Machine.restart : Machine :=
  { m with
    address := 0, opIndex := 0
    filename := if m.table.files.isEmpty then none else some (concatFilename m.table 1)
    line := 1, column := 0, discriminator := 0
    isStmt := lh.defaultIsStmt != 0, endSequence := false }

/-- The two loops: over the sequences while there is something left, and over the opcodes of one up
to its end. -/
def decodeLoop : Nat → Machine → Option Machine
  | 0, _ => none
  | n + 1, m =>
    if m.endSequence then
      if m.linePtr.isEmpty then some m else decodeLoop n (m.restart lh)
    else (step u lh m).bind (decodeLoop n)

/-- The rest of a run; an opcode takes at least one byte, and so does a sequence. -/
def decodeLines : Option Machine := decodeLoop u lh (2 * m.linePtr.length + 2) m

/-- The parameters of the state machine in a header of version 2 or 3, and what follows them. -/
def readLineHead : List BfdByte → Option (LineHead × List BfdByte)
  | minInsn :: isStmt :: base :: range :: opcodeBase :: rest =>
    let n := opcodeBase.toNat - 1
    if (rest.length : Int) ≤ opcodeBase.toNat - 1 then none
    else
      some (⟨minInsn.toNat, 1, isStmt.toNat, base.toInt, range.toNat, opcodeBase.toNat,
        1 :: (rest.take n).map BitVec.toNat⟩, rest.drop n)
  | _ => none

/-- `decode_line_info` behind the file table: the rows of the program. -/
def decodeLineInfo (table : LineInfoTable) (program : List BfdByte) : Option (List LineInfo) :=
  (decodeLines u lh ⟨program, { table with rows := [] }, 0, 0, none, 1, 0, 0, false, true⟩).map
    (·.table.rows)

end FusionBinutils.Bfd.LineMachine
