import FusionBinutils.Bfd.HexFile

/-! Intel Hex files (bfd/ihex.c). -/
namespace FusionBinutils.Bfd.Ihex
open HexFile
open Memory (Block)

/-- A record, without its length and its checksum. -/
structure Record where
  addr : Nat
  type : Nat
  data : List BfdByte
  deriving DecidableEq, Repr

/-- `- chksum & 0xff` over the length, the address, the type and the data. -/
def checksum (len addr type : Nat) (data : List BfdByte) : Nat :=
  (256 - (len + addr + addr / 256 + type + (data.map BitVec.toNat).sum) % 256) % 256

/-- The bytes of a record. -/
def Record.bytes (r : Record) : List BfdByte :=
  [.ofNat 8 r.data.length, .ofNat 8 (r.addr / 256), .ofNat 8 r.addr, .ofNat 8 r.type] ++
    (r.data ++ [.ofNat 8 (checksum r.data.length r.addr r.type r.data)])

/-- What `ihex_write_record` writes. -/
def Record.text (r : Record) : List Char := ':' :: Hex.text r.bytes ++ ['\r', '\n']

/-! Writing. -/

/-- Why no file is written. -/
inductive WriteError
  /-- "address 0x%s out of range for Intel Hex file" -/
  | outOfRange (address : Nat)
  /-- the loop goes on writing records without data -/
  | spins
  deriving DecidableEq, Repr

/-- `segbase` and `extbase`, of the writer and of the reader. -/
structure Bases where
  segbase : Nat
  extbase : Nat
  deriving DecidableEq, Repr

/-- "We need a new base address": the records for it. -/
def newBase (b : Bases) (address : Nat) : Except WriteError (List Record × Bases) :=
  if b.segbase + b.extbase + 0xffff < address then
    if address ≤ 0xfffff then
      let segbase := address &&& 0xf0000
      .ok ([⟨0, 2, [.ofNat 8 (segbase >>> 12), .ofNat 8 (segbase >>> 4)]⟩], ⟨segbase, b.extbase⟩)
    else
      -- "if we've already written out an extended address record, zero it out to avoid confusion"
      let clear : List Record := if b.segbase ≠ 0 then [⟨0, 2, [0#8, 0#8]⟩] else []
      let extbase := address &&& 0xffff0000
      if extbase + 0xffff < address then .error (.outOfRange address)
      else
        .ok (clear ++ [⟨0, 4, [.ofNat 8 (extbase >>> 24), .ofNat 8 (extbase >>> 16)]⟩], ⟨0, extbase⟩)
  else .ok ([], b)

/-- The number of bytes of the next record: "Output records shouldn't cross 64K boundaries." -/
def nowBytes (recAddr count : Nat) : Nat :=
  let now := if 16 < count then 16 else count
  if 0xffff < recAddr + now then 0x10000 - recAddr else now

/-- The loop over the bytes of one element of the list. Every turn has at least one byte, so that
as many turns as bytes are enough. -/
def writeData : Nat → Bases → Nat → List BfdByte → Except WriteError (List Record × Bases)
  | _, b, _, [] => .ok ([], b)
  | 0, _, _, _ :: _ => .error .spins
  | n + 1, b, address, data@(_ :: _) => do
    let (rs, b) ← newBase b address
    let recAddr := address - (b.extbase + b.segbase)
    let now := nowBytes recAddr data.length
    let (rs', b) ← writeData n b (address + now) (data.drop now)
    .ok (rs ++ ⟨recAddr, 0, data.take now⟩ :: rs', b)

/-- The loop over the list. -/
def writeList : Bases → List (Block BfdByte) → Except WriteError (List Record)
  | _, [] => .ok []
  | b, l :: ls => do
    let (rs, b) ← writeData l.cells.length b l.start l.cells
    let rs' ← writeList b ls
    .ok (rs ++ rs')

/-- The record of the start address. -/
def startRecord (start : Nat) : List Record :=
  if start = 0 then []
  else if start ≤ 0xfffff then
    [⟨0, 3, [.ofNat 8 ((start &&& 0xf0000) >>> 12), 0#8, .ofNat 8 (start >>> 8), .ofNat 8 start]⟩]
  else
    [⟨0, 5, [.ofNat 8 (start >>> 24), .ofNat 8 (start >>> 16), .ofNat 8 (start >>> 8),
      .ofNat 8 start]⟩]

/-- `ihex_write_object_contents`, as the records that it writes. -/
def writeRecords (l : List (Block BfdByte)) (start : Nat) : Except WriteError (List Record) := do
  let rs ← writeList ⟨0, 0⟩ l
  .ok (rs ++ startRecord start ++ [⟨0, 1, []⟩])

/-- The text of some records. -/
def fileText (rs : List Record) : List Char := rs.flatMap Record.text

/-- The file that is written after some calls of `ihex_set_section_contents`. -/
def writeObjectContents (calls : List SetCall) (start : Nat) : Except WriteError (List Char) :=
  (writeRecords (dataList calls) start).map fileText

/-! Reading. -/

/-- The data bytes and the checksum behind the header bytes of a record, and what follows. -/
def readBody (len hi lo type : BfdByte) (p : List Char) : Option (Record × List Char) :=
  let chars := len.toNat * 2 + 2
  if p.length < chars then none
  else do
    let buf ← Hex.bytes (p.take chars)
    let found ← buf[len.toNat]?
    let r : Record := ⟨hi.toNat * 256 + lo.toNat, type.toNat, buf.take len.toNat⟩
    if checksum len.toNat r.addr r.type r.data ≠ found.toNat then none
    else some (r, p.drop chars)

/-- A record behind its colon, and what follows it. -/
def readRecord (p : List Char) : Option (Record × List Char) :=
  if p.length < 8 then none
  else do
    match ← Hex.bytes (p.take 8) with
    | [len, hi, lo, type] => readBody len hi lo type (p.drop 8)
    | _ => none

/-- The state of `ihex_scan`; the section that is being built, if there is one, is the first. -/
structure ScanState where
  bases : Bases
  start : Nat
  secs : List Sec
  building : Bool
  deriving DecidableEq, Repr

/-- A data record of type 0. -/
def dataRecord (st : ScanState) (pos addr len : Nat) : ScanState :=
  let address := st.bases.extbase + st.bases.segbase + addr
  let fresh : ScanState :=
    if 0 < len then { st with secs := ⟨address, len, pos⟩ :: st.secs, building := true } else st
  match st.building, st.secs with
  | true, sec :: secs =>
    if sec.vma + sec.size = address then { st with secs := { sec with size := sec.size + len } :: secs }
    else fresh
  | _, _ => fresh

/-- `HEX4` of the data. -/
def hex4 (data : List BfdByte) (i : Nat) : Nat :=
  (data.getD i 0#8).toNat * 256 + (data.getD (i + 1) 0#8).toNat

/-- The record ends the scan, or it goes on. -/
inductive Scanned
  | ended (st : ScanState)
  | more (st : ScanState)

/-- The switch over the type of a record. -/
def scanRecord (st : ScanState) (pos : Nat) (r : Record) : Option Scanned :=
  match r.type with
  | 0 => some (.more (dataRecord st pos r.addr r.data.length))
  | 1 => some (.ended { st with start := if st.start = 0 then r.addr else st.start })
  | 2 =>
    if r.data.length ≠ 2 then none
    else some (.more { st with
      bases := { st.bases with segbase := hex4 r.data 0 * 16 }, building := false })
  | 3 =>
    if r.data.length ≠ 4 then none
    else some (.more { st with
      start := (st.start + (hex4 r.data 0 * 16 + hex4 r.data 2)) % 2 ^ 64, building := false })
  | 4 =>
    if r.data.length ≠ 2 then none
    else some (.more { st with
      bases := { st.bases with extbase := hex4 r.data 0 * 2 ^ 16 }, building := false })
  | 5 =>
    if r.data.length = 2 then
      some (.more { st with
        start := (st.start + hex4 r.data 0 * 2 ^ 16) % 2 ^ 64, building := false })
    else if r.data.length = 4 then
      some (.more { st with
        start := hex4 r.data 0 * 2 ^ 16 + hex4 r.data 2, building := false })
    else none
  | _ => none

/-- The loop of `ihex_scan` over the rest of a file of `size` characters. -/
def scanLoop (size : Nat) : Nat → List Char → ScanState → Option ScanState
  | 0, _, _ => none
  | _ + 1, [], st => some st
  | n + 1, c :: p, st =>
    if c = '\r' ∨ c = '\n' then scanLoop size n p st
    else if c ≠ ':' then none
    else do
      let (r, p') ← readRecord p
      match ← scanRecord st (size - (p.length + 1)) r with
      | .ended st => some st
      | .more st => scanLoop size n p' st

/-- `ihex_scan`; every turn of the loop takes a character. -/
def scan (file : List Char) : Option ScanState :=
  scanLoop file.length (file.length + 1) file ⟨⟨0, 0⟩, 0, [], false⟩

/-- The loop of `ihex_read_section` with `size` bytes still to be read. -/
def readLoop : Nat → List Char → Nat → Option (List BfdByte)
  | 0, _, _ => none
  | _ + 1, [], size => if 0 < size then none else some []
  | n + 1, c :: p, size =>
    if c = '\r' ∨ c = '\n' then readLoop n p size
    else if p.length < 8 then none
    else
      let hdr := rawBytes (p.take 8)
      let len := (hdr.getD 0 0#8).toNat
      if (hdr.getD 3 0#8).toNat ≠ 0 then none
      else if (p.drop 8).length < len * 2 then none
      else
        let data := rawBytes ((p.drop 8).take (len * 2))
        if size ≤ len then some data
        else if (p.drop (8 + len * 2)).length < 2 then none
        else (readLoop n (p.drop (8 + len * 2 + 2)) (size - len)).map (data ++ ·)

/-- `ihex_read_section`. -/
def readSection (file : List Char) (sec : Sec) : Option (List BfdByte) :=
  readLoop (file.length + 1) (file.drop sec.filepos) sec.size

/-- Every section of a scanned file with its contents. -/
def readSections (file : List Char) (secs : List Sec) : Option (List (Block BfdByte)) :=
  secs.mapM fun sec => (readSection file sec).map (⟨sec.vma, ·⟩)

end FusionBinutils.Bfd.Ihex
