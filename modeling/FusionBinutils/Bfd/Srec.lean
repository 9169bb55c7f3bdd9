import FusionBinutils.Bfd.HexFile

/-! S-record files (bfd/srec.c). -/
namespace FusionBinutils.Bfd.Srec
open HexFile
open Memory (Block)

/-- A record, without its length and its checksum. -/
structure Record where
  type : Nat
  address : Nat
  data : List BfdByte
  deriving DecidableEq, Repr

/-- The bytes of the address, by the type of the record. -/
def addrBytes (type address : Nat) : List BfdByte :=
  match type with
  | 3 | 7 => [.ofNat 8 (address >>> 24), .ofNat 8 (address >>> 16), .ofNat 8 (address >>> 8),
      .ofNat 8 address]
  | 2 | 8 => [.ofNat 8 (address >>> 16), .ofNat 8 (address >>> 8), .ofNat 8 address]
  | 0 | 1 | 9 => [.ofNat 8 (address >>> 8), .ofNat 8 address]
  | _ => []

/-- The address and the data. -/
def Record.fields (r : Record) : List BfdByte := addrBytes r.type r.address ++ r.data

/-- The length that the record gives: it counts the checksum. -/
def Record.count (r : Record) : Nat := r.fields.length + 1

def Record.checksum (r : Record) : Nat := 255 - ((r.fields.map BitVec.toNat).sum + r.count) % 256

/-- What `srec_write_record` writes. -/
def Record.text (r : Record) : List Char :=
  'S' :: Char.ofNat (48 + r.type) :: Hex.text (.ofNat 8 r.count :: r.fields ++ [.ofNat 8 r.checksum]) ++
    ['\r', '\n']

/-! Writing. -/

/-- What the type of the records becomes with a call of `srec_set_section_contents`. -/
def setType (forceS3 : Bool) (type : Nat) (c : SetCall) : Nat :=
  if !c.loadable then type
  else if forceS3 then 3
  else
    let last := (c.lma + (c.offset + c.contents.length) + (2 ^ 64 - 1)) % 2 ^ 64
    if last ≤ 0xffff then type
    else if last ≤ 0xffffff ∧ type ≤ 2 then 2
    else 3

/-- The type of the records after some calls. -/
def recordType (forceS3 : Bool) (calls : List SetCall) : Nat := calls.foldl (setType forceS3) 1

/-- `_bfd_srec_len` as `srec_write_section` corrects it: "a zero data length will spin for a long
time", and the length of a record is one byte. -/
def recordLen (type len : Nat) : Nat :=
  if len = 0 then 1 else if 0xff - type - 2 < len then 0xff - type - 2 else len

theorem recordLen_le {type : Nat} (h : type = 1 ∨ type = 2 ∨ type = 3) (len : Nat) :
    recordLen type len ≤ 253 - type := by
  rw [recordLen]
  rcases h with rfl | rfl | rfl <;> split <;> first | omega | split <;> omega

/-- `octets_this_chunk`, which is an `unsigned int`. -/
def octetsThisChunk (len left : Nat) : Nat := if len < left % 2 ^ 32 then len else left % 2 ^ 32

/-- The loop of `srec_write_section`, as the data that goes into each record. A chunk of no octets
does not bring the loop any further, so that it does not end; otherwise as many turns as bytes are
enough. -/
def writeSection (len : Nat) : Nat → Nat → List BfdByte → Option (List (Block BfdByte))
  | _, _, [] => some []
  | 0, _, _ :: _ => none
  | n + 1, address, data@(_ :: _) =>
    let chunk := octetsThisChunk len data.length
    if chunk = 0 then none
    else (writeSection len n (address + chunk) (data.drop chunk)).map
      (⟨address, data.take chunk⟩ :: ·)

/-- The loop over the list. -/
def writeSections (len : Nat) : List (Block BfdByte) → Option (List (Block BfdByte))
  | [] => some []
  | l :: ls => do
    let rs ← writeSection len l.cells.length l.start l.cells
    let rs' ← writeSections len ls
    some (rs ++ rs')

/-- "I'll put an arbitrary 40 char limit on header size." -/
def headerRecord (filename : List BfdByte) : Record := ⟨0, 0, filename.take 40⟩

def dataText (type : Nat) (l : List (Block BfdByte)) : List Char :=
  l.flatMap fun blk => Record.text ⟨type, blk.start % 2 ^ 64, blk.cells⟩

/-- The record with the start address. -/
def terminator (type start : Nat) : Record := ⟨10 - type, start, []⟩

/-- The settings of the program that writes: `_bfd_srec_len`, `_bfd_srec_forceS3` and the name of
the file. -/
structure Options where
  len : Nat
  forceS3 : Bool
  filename : List BfdByte

/-- `srec_write_object_contents` after some calls of `srec_set_section_contents`. -/
def writeObjectContents (o : Options) (calls : List SetCall) (start : Nat) : Option (List Char) :=
  let type := recordType o.forceS3 calls
  (writeSections (recordLen type o.len) (dataList calls)).map fun l =>
    (headerRecord o.filename).text ++ dataText type l ++ (terminator type start).text

/-! Reading. -/

/-- `HEX` of pairs of characters. -/
def rawValues : List Char → List Nat
  | hi :: lo :: rest => (hexValue hi * 16 + hexValue lo) :: rawValues rest
  | _ => []

/-- The number of bytes of the address of a record. -/
def addressBytes : Char → Nat
  | '3' | '7' => 4
  | '2' | '8' => 3
  | _ => 2

/-- The address of a record from its bytes. -/
def addressOf (vals : List Nat) : Nat := vals.foldl (fun address v => address <<< 8 ||| v) 0

/-- A record behind its `S`: the character of the type, the bytes behind the length, and what
follows. -/
def readRecord : List Char → Option (Char × List Nat × List Char)
  | kind :: hi :: lo :: p =>
    if (Hex.value hi).isNone ∨ (Hex.value lo).isNone then none
    else
      let bytes := hexValue hi * 16 + hexValue lo
      if bytes < addressBytes kind + 1 then none
      else if p.length < bytes * 2 then none
      else some (kind, rawValues (p.take (bytes * 2)), p.drop (bytes * 2))
  | _ => none

/-- A symbol of a file. -/
structure Symbol where
  name : List Char
  val : Nat
  deriving DecidableEq, Repr

/-- The state of `srec_scan`; the section that is being built, if there is one, is the first. -/
structure ScanState where
  start : Nat
  secs : List Sec
  building : Bool
  symbols : List Symbol
  deriving DecidableEq, Repr

/-- A data record. -/
def dataRecord (st : ScanState) (pos address len : Nat) : ScanState :=
  let fresh : ScanState := { st with secs := ⟨address, len, pos⟩ :: st.secs, building := true }
  match st.building, st.secs with
  | true, sec :: secs =>
    if sec.vma + sec.size = address then { st with secs := { sec with size := sec.size + len } :: secs }
    else fresh
  | _, _ => fresh

/-- The record ends the scan, or it goes on. -/
inductive Scanned
  | ended (st : ScanState)
  | more (st : ScanState)

/-- The checksum over the length and the first `k` bytes behind it is the byte that follows them. -/
def checksumOk (vals : List Nat) (k : Nat) : Bool :=
  255 - (vals.length + (vals.take k).sum) % 256 = vals.getD k 0

/-- The switch over the type of a record. -/
def scanRecord (st : ScanState) (pos : Nat) (kind : Char) (vals : List Nat) : Option Scanned :=
  let address := addressOf (vals.take (addressBytes kind))
  match kind with
  | '0' | '5' => some (.more { st with building := false })
  | '1' | '2' | '3' =>
    if checksumOk vals (vals.length - 1) then
      some (.more (dataRecord st pos address (vals.length - 1 - addressBytes kind)))
    else none
  | '7' | '8' | '9' =>
    if checksumOk vals (addressBytes kind) then some (.ended { st with start := address }) else none
  | _ => some (.more st)

def blank (c : Char) : Bool := c = ' ' || c = '\t'

def isSpace (c : Char) : Bool :=
  c = ' ' || c = '\t' || c = '\n' || c = '\r' || c = '\x0b' || c = '\x0c'

def isHex (c : Char) : Bool := (Hex.value c).isSome

/-- "Skip a dollar sign before the hex value." -/
def skipDollar : List Char → Option (List Char)
  | [] => none
  | c :: p => if c = '$' then (if p = [] then none else some p) else some (c :: p)

/-- The symbol definitions of a line, and what follows it. -/
def readSymbols : Nat → List Char → Option (List Symbol × List Char)
  | 0, _ => none
  | n + 1, p =>
    match p.dropWhile blank with
    | [] => none
    | c :: p =>
      if c = '\n' ∨ c = '\r' then some ([], p)
      else
        match p.dropWhile fun c => !isSpace c with
        | [] => none
        | _ :: q => do
          let q ← skipDollar (q.dropWhile blank)
          let sym : Symbol := ⟨c :: p.takeWhile fun c => !isSpace c,
            ((q.takeWhile isHex).foldl (fun val c => val * 16 + hexValue c) 0) % 2 ^ 64⟩
          match q.dropWhile isHex with
          | [] => none
          | c :: q =>
            if blank c then (readSymbols n q).map fun s => (sym :: s.1, s.2)
            else if c = '\n' ∨ c = '\r' then some ([sym], q)
            else none

/-- The loop of `srec_scan` over the rest of a file of `size` characters. -/
def scanLoop (size : Nat) : Nat → List Char → ScanState → Option ScanState
  | 0, _, _ => none
  | _ + 1, [], st => some st
  | n + 1, c :: p, st =>
    if c = '\n' ∨ c = '\r' then scanLoop size n p st
    else if c = '$' then
      -- "Starting a module name, which we ignore."
      match p.dropWhile (· ≠ '\n') with
      | [] => none
      | _ :: p => scanLoop size n p { st with building := false }
    else if c = ' ' then do
      let found ← readSymbols (p.length + 1) p
      scanLoop size n found.2 { st with building := false, symbols := st.symbols ++ found.1 }
    else if c = 'S' then do
      let r ← readRecord p
      match ← scanRecord st (size - (p.length + 1)) r.1 r.2.1 with
      | .ended st => some st
      | .more st => scanLoop size n r.2.2 st
    else none

/-- `srec_scan`; every turn of the loop takes a character. -/
def scan (file : List Char) : Option ScanState :=
  scanLoop file.length (file.length + 1) file ⟨0, [], false, []⟩

/-- The loop of `srec_read_section`, from the address where the next record must start. -/
def readLoop : Nat → List Char → Nat → Option (List BfdByte)
  | 0, _, _ => none
  | _ + 1, [], _ => some []
  | n + 1, c :: p, next =>
    if c = '\r' ∨ c = '\n' then readLoop n p next
    else
      match p with
      | kind :: hi :: lo :: p =>
        let bytes := hexValue hi * 16 + hexValue lo
        if p.length < bytes * 2 then none
        else if kind = '1' ∨ kind = '2' ∨ kind = '3' then
          let vals := rawValues (p.take (bytes * 2))
          let k := addressBytes kind
          -- the address of the next record ends the section
          if addressOf (vals.take k) ≠ next then some []
          -- a record too short for its address, which the scan refuses
          else if bytes < k + 1 then none
          else
            let data := ((vals.drop k).take (bytes - k - 1)).map (BitVec.ofNat 8)
            (readLoop n (p.drop (bytes * 2)) (next + data.length)).map (data ++ ·)
        else some []
      | _ => none

/-- `srec_read_section`. -/
def readSection (file : List Char) (sec : Sec) : Option (List BfdByte) :=
  readLoop (file.length + 1) (file.drop sec.filepos) sec.vma

/-- Every section of a scanned file with its contents. -/
def readSections (file : List Char) (secs : List Sec) : Option (List (Block BfdByte)) :=
  secs.mapM fun sec => (readSection file sec).map (⟨sec.vma, ·⟩)

end FusionBinutils.Bfd.Srec
