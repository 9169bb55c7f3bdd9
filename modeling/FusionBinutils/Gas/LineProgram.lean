import FusionBinutils.Bfd.LineMachine

/-! The line-number program of a section (gas/dwarf2dbg.c). -/
namespace FusionBinutils.Gas.LineProgram
open Bfd.LineMachine (AddrSize)

/-- What the port and the object format fix. -/
structure Target where
  /-- `DWARF2_USE_FIXED_ADVANCE_PC` -/
  useFixedAdvancePc : Bool
  addrSize : AddrSize
  bigEndian : Bool

/-- A symbol of the section: its fragment and its value in it. -/
structure Label where
  frag : Nat
  value : Nat
  deriving DecidableEq, Repr

/-- `struct dwarf2_line_info`. -/
structure DwarfLineInfo where
  filenum : BitVec 32
  line : BitVec 32
  column : BitVec 32
  isa : BitVec 32
  flags : BitVec 32
  discriminator : BitVec 32
  deriving DecidableEq, Repr

/-- `struct line_entry`. -/
structure LineEntry where
  label : Label
  loc : DwarfLineInfo
  deriving DecidableEq, Repr

/-- A part of the body of `.debug_line` while the section's fragments can still move. -/
inductive Piece
  | bytes (bs : List BfdByte)
  /-- a fixup for `add - sub` -/
  | expr (add : Label) (sub : Option Label) (size : Nat)
  /-- an `rs_dwarf2dbg` fragment with room for `maxChars` -/
  | lineAddr (lineDelta : BitVec 32) (toSym fromSym : Label) (maxChars : Nat)
  deriving DecidableEq, Repr

/-! The macros of the port's configuration. -/

def lineOpcodeBase : Nat := 13
def lineBase : Int := -5
def lineRange : Nat := 14
def lineMinInsnLength : Nat := 1
def maxSpecialAddrDelta : Nat := (255 - lineOpcodeBase) / lineRange
def addrDeltaLimit : Nat := 50000
def intMax : BitVec 32 := 0x7fffffff#32
def flagIsStmt : BitVec 32 := 1#32
def flagBasicBlock : BitVec 32 := 2#32
def flagPrologueEnd : BitVec 32 := 4#32
def flagEpilogueBegin : BitVec 32 := 8#32

/-! `sizeof_leb128` and `output_leb128` (read.c). -/

def sizeofUleb128 (value : Nat) : Nat := Leb128.sizeUnsigned value
def sizeofSleb128 (value : Int) : Nat := Leb128.sizeSigned value
def outputUleb128 (value : Nat) : List BfdByte := Leb128.unsigned value
def outputSleb128 (value : Int) : List BfdByte := Leb128.signed value

def scaleAddrDelta (addrDelta : Nat) : Nat :=
  if 1 < lineMinInsnLength then addrDelta / lineMinInsnLength else addrDelta

/-- "Bias the line delta by the base." -/
def biasedLine (lineDelta : BitVec 32) : Nat := ((lineDelta.toInt - lineBase) % 2 ^ 32).toNat

/-- The special opcode of a biased line and an address skip, as an `unsigned int`. -/
def specialOpcode (tmp : Nat) (addrDelta : Int) : Nat :=
  ((tmp + addrDelta * lineRange) % 2 ^ 32).toNat

/-- "If the line increment is out of range of a special opcode, we must encode it with
DW_LNS_advance_line." -/
def needCopy (lineDelta : BitVec 32) : Bool := lineRange ≤ biasedLine lineDelta

/-- The line that is left for the special opcode, biased. -/
def opcodeLine (lineDelta : BitVec 32) : Nat :=
  (if needCopy lineDelta then (0 - lineBase).toNat else biasedLine lineDelta) + lineOpcodeBase

/-- How the address can be skipped. -/
inductive AddrSkip
  | special (opcode : Nat)
  | constAddPc (opcode : Nat)
  | advancePc

/-- The choice that sizer and emitter make. "Avoid overflow when addr_delta is large." -/
def addrSkip (tmp addrDelta : Nat) : AddrSkip :=
  let opcode := specialOpcode tmp addrDelta
  let opcode' := specialOpcode tmp (addrDelta - maxSpecialAddrDelta)
  if addrDelta < 256 + maxSpecialAddrDelta then
    if opcode ≤ 255 then .special opcode
    else if opcode' ≤ 255 then .constAddPc opcode'
    else .advancePc
  else .advancePc

/-- `size_inc_line_addr`. -/
def sizeIncLineAddr (lineDelta : BitVec 32) (addrDelta : Nat) : Nat :=
  let addrDelta := scaleAddrDelta addrDelta
  if lineDelta = intMax then
    (if addrDelta = maxSpecialAddrDelta then 1 else 1 + sizeofUleb128 addrDelta) + 3
  else
    let len := if needCopy lineDelta then 1 + sizeofSleb128 lineDelta.toInt else 0
    match addrSkip (opcodeLine lineDelta) addrDelta with
    | .special _ => len + 1
    | .constAddPc _ => len + 2
    | .advancePc => len + (1 + sizeofUleb128 addrDelta) + 1

/-- The bytes of an address skip with its row. -/
def emitAddr (lineDelta : BitVec 32) (addrDelta : Nat) : List BfdByte :=
  match addrSkip (opcodeLine lineDelta) addrDelta with
  | .special opcode => [.ofNat 8 opcode]
  | .constAddPc opcode => [8#8, .ofNat 8 opcode]
  | .advancePc => 2#8 :: (outputUleb128 addrDelta ++
      [if needCopy lineDelta then 1#8 else .ofNat 8 (opcodeLine lineDelta)])

/-- What `emit_inc_line_addr` stores. -/
def incLineAddr (lineDelta : BitVec 32) (addrDelta : Nat) : List BfdByte :=
  let addrDelta := scaleAddrDelta addrDelta
  if lineDelta = intMax then
    (if addrDelta = maxSpecialAddrDelta then [8#8] else 2#8 :: outputUleb128 addrDelta) ++
      [0#8, 1#8, 1#8]
  else
    (if needCopy lineDelta then 3#8 :: outputSleb128 lineDelta.toInt else []) ++
      -- "Prettier, I think, to use DW_LNS_copy instead of a line +0, addr +0 special opcode."
      if (needCopy lineDelta ∨ lineDelta = 0#32) ∧ addrDelta = 0 then [1#8]
      else emitAddr lineDelta addrDelta

/-- `emit_inc_line_addr` with its two assertions. -/
def emitIncLineAddr (lineDelta : BitVec 32) (addrDelta len : Nat) : Option (List Piece) :=
  if addrDelta < 2 ^ 63 ∧ (incLineAddr lineDelta addrDelta).length = len then
    some [.bytes (incLineAddr lineDelta addrDelta)]
  else none

/-- `out_inc_line_addr`. -/
def outIncLineAddr (lineDelta : BitVec 32) (addrDelta : Nat) : Option (List Piece) :=
  emitIncLineAddr lineDelta addrDelta (sizeIncLineAddr lineDelta addrDelta)

variable (tgt : Target)

/-- `size_fixed_inc_line_addr`. -/
def sizeFixedIncLineAddr (lineDelta : BitVec 32) (addrDelta : Nat) : Nat :=
  (if lineDelta = intMax then 0 else 1 + sizeofSleb128 lineDelta.toInt) +
    (if addrDeltaLimit < addrDelta then
      1 + sizeofUleb128 (tgt.addrSize.bytes + 1) + (1 + tgt.addrSize.bytes) else 3) +
    (if lineDelta = intMax then 3 else 1)

/-- What `emit_fixed_inc_line_addr` stores. -/
def fixedIncLineAddr (lineDelta : BitVec 32) (addrDelta : Nat) (toSym fromSym : Label) :
    List Piece :=
  (if lineDelta = intMax then [] else [.bytes (3#8 :: outputSleb128 lineDelta.toInt)]) ++
    (if addrDeltaLimit < addrDelta then
      [.bytes (0#8 :: outputUleb128 (tgt.addrSize.bytes + 1) ++ [2#8]),
        .expr toSym none tgt.addrSize.bytes]
      else [.bytes [9#8], .expr toSym (some fromSym) 2]) ++
    [.bytes (if lineDelta = intMax then [0#8, 1#8, 1#8] else [1#8])]

def Piece.length : Piece → Nat
  | .bytes bs => bs.length
  | .expr _ _ size => size
  | .lineAddr _ _ _ maxChars => maxChars

/-- `emit_fixed_inc_line_addr` with its three assertions. -/
def emitFixedIncLineAddr (lineDelta : BitVec 32) (addrDelta : Nat) (toSym fromSym : Label)
    (len : Nat) : Option (List Piece) :=
  let ps := fixedIncLineAddr tgt lineDelta addrDelta toSym fromSym
  if addrDelta < 2 ^ 63 ∧ len = sizeFixedIncLineAddr tgt lineDelta addrDelta ∧
      (ps.map Piece.length).sum = len then some ps
  else none

/-- The size for a line and an address skip, in the way the port wants them. -/
def estimateSize (lineDelta : BitVec 32) (addrDelta : Nat) : Nat :=
  if tgt.useFixedAdvancePc then sizeFixedIncLineAddr tgt lineDelta addrDelta
  else sizeIncLineAddr lineDelta addrDelta

/-- `relax_inc_line_addr`. -/
def relaxIncLineAddr (lineDelta : BitVec 32) (toSym fromSym : Label) : Piece :=
  .lineAddr lineDelta toSym fromSym (estimateSize tgt lineDelta (2 ^ 64 - lineMinInsnLength))

/-- The address of a symbol once the fragments have theirs. -/
def Label.address (fragAddress : Nat → Nat) (sym : Label) : Nat := fragAddress sym.frag + sym.value

/-- `resolve_symbol_value` of a difference. -/
def addrDiff (fragAddress : Nat → Nat) (toSym fromSym : Label) : Nat :=
  ((toSym.address fragAddress - fromSym.address fragAddress : Int) % 2 ^ 64).toNat

/-- `dwarf2dbg_convert_frag`, with `fr_subtype` as the last relaxation pass leaves it. -/
def convertFrag (fragAddress : Nat → Nat) : Piece → Option (List Piece)
  | .lineAddr lineDelta toSym fromSym maxChars =>
    let diff := addrDiff fragAddress toSym fromSym
    let subtype := estimateSize tgt lineDelta diff
    if maxChars < subtype then none
    else if tgt.useFixedAdvancePc then
      emitFixedIncLineAddr tgt lineDelta diff toSym fromSym subtype
    else emitIncLineAddr lineDelta diff subtype
  | piece => some [piece]

/-- The bytes of a piece whose fixup has been applied. -/
def Piece.contents (fragAddress : Nat → Nat) : Piece → List BfdByte
  | .bytes bs => bs
  | .expr add none size => Endian.put tgt.bigEndian size (add.address fragAddress)
  | .expr add (some sub) size => Endian.put tgt.bigEndian size (addrDiff fragAddress add sub)
  | .lineAddr _ _ _ _ => []

/-- The section's contents after relaxation, conversion and fixups. -/
def contents (fragAddress : Nat → Nat) (ps : List Piece) : Option (List BfdByte) :=
  (ps.mapM (convertFrag tgt fragAddress)).map
    fun pss => pss.flatten.flatMap (Piece.contents tgt fragAddress)

/-- `out_set_addr`. -/
def outSetAddr (sym : Label) : List Piece :=
  [.bytes (0#8 :: outputUleb128 (tgt.addrSize.bytes + 1) ++ [2#8]), .expr sym none tgt.addrSize.bytes]

/-- The locals of `process_entries`. -/
structure Locals where
  filenum : BitVec 32
  line : BitVec 32
  column : BitVec 32
  isa : BitVec 32
  flags : BitVec 32
  last : Option Label
  deriving DecidableEq, Repr

def Locals.init : Locals := ⟨1#32, 1#32, 0#32, 0#32, flagIsStmt, none⟩

/-- The opcodes that an entry needs in front of its row. -/
def settings (s : Locals) (loc : DwarfLineInfo) : List BfdByte :=
  (if s.filenum = loc.filenum then [] else 4#8 :: outputUleb128 loc.filenum.toNat) ++
  (if s.column = loc.column then [] else 5#8 :: outputUleb128 loc.column.toNat) ++
  (if loc.discriminator = 0#32 then []
    else 0#8 :: outputSleb128 (1 + sizeofUleb128 loc.discriminator.toNat) ++
      4#8 :: outputUleb128 loc.discriminator.toNat) ++
  (if s.isa = loc.isa then [] else 12#8 :: outputUleb128 loc.isa.toNat) ++
  (if (loc.flags ^^^ s.flags) &&& flagIsStmt = 0#32 then [] else [6#8]) ++
  (if loc.flags &&& flagBasicBlock = 0#32 then [] else [7#8]) ++
  (if loc.flags &&& flagPrologueEnd = 0#32 then [] else [10#8]) ++
  (if loc.flags &&& flagEpilogueBegin = 0#32 then [] else [11#8])

/-- The skip from the last label, where there is one. -/
def outSkip (lineDelta : BitVec 32) (last lab : Label) : Option (List Piece) :=
  if lab.frag = last.frag ∧ !tgt.useFixedAdvancePc then
    outIncLineAddr lineDelta (((lab.value - last.value : Int) % 2 ^ 64).toNat)
  else some [relaxIncLineAddr tgt lineDelta lab last]

/-- The row of an entry. -/
def outRow (lineDelta : BitVec 32) (last : Option Label) (lab : Label) : Option (List Piece) :=
  match last with
  | none => (outIncLineAddr lineDelta 0).map (outSetAddr tgt lab ++ ·)
  | some last => outSkip tgt lineDelta last lab

/-- The locals behind an entry. -/
def Locals.next (s : Locals) (e : LineEntry) : Locals :=
  { filenum := e.loc.filenum, line := e.loc.line, column := e.loc.column, isa := e.loc.isa
    flags := if (e.loc.flags ^^^ s.flags) &&& flagIsStmt = 0#32 then s.flags else e.loc.flags
    last := some e.label }

/-- One pass of the loop of `process_entries`. -/
def outEntry (s : Locals) (e : LineEntry) : Option (List Piece) :=
  (outRow tgt (e.loc.line - s.line) s.last e.label).map (.bytes (settings s e.loc) :: ·)

/-- The loop and, behind it, the end of the sequence at the last fragment's end. -/
def processLoop (finish : Label) : Locals → LineEntry → List LineEntry → Option (List Piece)
  | s, e, [] => do
    let ps ← outEntry tgt s e
    let qs ← outSkip tgt intMax e.label finish
    some (ps ++ qs)
  | s, e, e' :: es => do
    let ps ← outEntry tgt s e
    let qs ← processLoop finish (s.next e) e' es
    some (ps ++ qs)

/-- `process_entries` on a chain of at least one entry. -/
def processEntries (finish : Label) (e : LineEntry) (es : List LineEntry) : Option (List Piece) :=
  processLoop tgt finish .init e es

/-- "Parameters of the state machine" and the lengths of the standard opcodes, from
`out_debug_line`. -/
def lineParameters : List BfdByte :=
  [.ofNat 8 lineMinInsnLength, 1#8, .ofInt 8 lineBase, .ofNat 8 lineRange, .ofNat 8 lineOpcodeBase,
    0#8, 1#8, 1#8, 1#8, 1#8, 0#8, 0#8, 0#8, 1#8, 0#8, 0#8, 1#8]

end FusionBinutils.Gas.LineProgram
