import FusionBinutils.Lib.Decimal
import FusionBinutils.Lib.Endian
import FusionBinutils.Opcode.Encoding

/-! Archives and the index of their symbols (bfd/archive.c). -/
namespace FusionBinutils.Bfd.Armap

/-- `SARMAG` -/
def sarmag : Nat := 8

/-- `sizeof (struct ar_hdr)` -/
def hdrSize : Nat := 60

/-- The characters of a text. -/
def ascii (s : List Char) : List BfdByte := s.map fun c => .ofNat 8 c.toNat

def space : BfdByte := 32#8
def slash : BfdByte := 47#8
def newline : BfdByte := 10#8

/-- `ARFMAG` -/
def arfmag : List BfdByte := [0x60#8, newline]

/-- What stands in a field of `n` characters, filled up with spaces. -/
def field (n : Nat) (bs : List BfdByte) : List BfdByte := (bs ++ List.replicate n space).take n

/-- `struct ar_hdr` -/
structure ArHdr where
  name : List BfdByte
  date : List BfdByte
  uid : List BfdByte
  gid : List BfdByte
  mode : List BfdByte
  size : List BfdByte
  fmag : List BfdByte
  deriving DecidableEq, Repr

/-- The header in the file. -/
def ArHdr.bytes (h : ArHdr) : List BfdByte :=
  field 16 h.name ++ field 12 h.date ++ field 6 h.uid ++ field 6 h.gid ++ field 8 h.mode ++
    field 10 h.size ++ field 2 h.fmag

/-- `_bfd_ar_sizepad` -/
def arSizepad (n size : Nat) : Option (List BfdByte) :=
  let buf := field (max 10 (Decimal.text size).length) (Decimal.text size)
  if n < buf.length then none else some (field n buf)

/-! Members. -/

/-- What `_bfd_compute_and_write_armap` asks about the section of a symbol. -/
inductive SecKind
  | common
  | undefined
  | other
  deriving DecidableEq, Repr

/-- A symbol of a member. -/
structure Asymbol where
  /-- `BSF_GLOBAL`, `BSF_WEAK`, `BSF_INDIRECT` or `BSF_GNU_UNIQUE` is set -/
  exported : Bool
  section_ : SecKind
  /-- a C string -/
  name : List BfdByte
  noNul : ∀ b ∈ name, b ≠ 0#8

/-- The symbol goes into the index. -/
def Asymbol.indexed (s : Asymbol) : Bool :=
  (s.exported || s.section_ = .common) && !(s.section_ = .undefined)

/-- A member of the archive that is written. -/
structure Member where
  filename : List BfdByte
  /-- `arch_hdr` -/
  hdr : ArHdr
  /-- the `arelt_size` bytes of the file -/
  contents : List BfdByte
  /-- `bfd_check_format (current, bfd_object)` -/
  isObject : Bool
  /-- `HAS_SYMS` -/
  hasSyms : Bool
  symbols : List Asymbol
  /-- the name of `my_archive`, when it is not thin -/
  myArchive : Option (List BfdByte)
  origin : Nat

/-- The names that a member gives to the index. -/
def Member.names (m : Member) : List (List BfdByte) :=
  if m.isObject && m.hasSyms then (m.symbols.filter Asymbol.indexed).map (·.name) else []

structure Archive where
  filename : List BfdByte
  thin : Bool
  hasMap : Bool
  members : List Member

/-- What the writer takes from the system: the time for the index, and the path of a file from the
directory of the archive (`adjust_relative_path`). -/
structure Env where
  time : Nat
  adjustRelativePath : List BfdByte → List BfdByte → List BfdByte

/-! The extended name table. -/

/-- `lbasename` -/
def lbasename (path : List BfdByte) : List BfdByte :=
  (path.reverse.takeWhile (· ≠ slash)).reverse

/-- `ar_maxnamelen` -/
def maxname : Nat := 15

/-- "If the element being added is a member of another archive (i.e., we are flattening), use the
containing archive's name." -/
def Member.path (m : Member) : List BfdByte := m.myArchive.getD m.filename

/-- The name of a member of a thin archive in the table. -/
def thinName (env : Env) (a : Archive) (filename : List BfdByte) : List BfdByte :=
  if filename.head? ≠ some slash ∧ a.filename.head? ≠ some slash then
    env.adjustRelativePath filename a.filename
  else filename

/-- "Figure out how long the table should be." -/
def totalNamelen (env : Env) (a : Archive) : Option (List BfdByte) → List Member → Nat
  | _, [] => 0
  | last, m :: ms =>
    if a.thin then
      -- "If the path is the same as the previous path seen, reuse it."
      if last = some m.path then totalNamelen env a last ms
      else (thinName env a m.path).length + 1 + 1 + totalNamelen env a (some m.path) ms
    else
      let thislen := (lbasename m.filename).length
      (if maxname < thislen then thislen + 1 + 1 else 0) + totalNamelen env a last ms

/-- Characters copied into a field. -/
def memcpy (dst : List BfdByte) (n : Nat) (src : List BfdByte) : List BfdByte :=
  dst.take n ++ src ++ dst.drop (n + src.length)

/-- A short name: "Must have been using extended format even though it didn't need to. Fix it to
use normal format." -/
def shortName (m : Member) : Member :=
  let normal := lbasename m.filename
  let name := field 16 m.hdr.name
  if name.take normal.length ≠ normal ∨ name[normal.length]? ≠ some slash then
    { m with hdr := { m.hdr with name := memcpy (memcpy name 0 normal) normal.length [slash] } }
  else m

/-- A number as `_bfd_ar_spacepad` puts it into `n` characters. -/
def spacepad (n v : Nat) : List BfdByte := field n (Decimal.text v)

/-- The name of a member that is at `stroff` in the table. -/
def extendedName (a : Archive) (m : Member) (stroff : Nat) : Member :=
  let num :=
    if a.thin ∧ 0 < m.origin then
      let pre := Decimal.text stroff ++ [58#8]
      pre ++ spacepad (maxname - 1 - pre.length) (m.origin - hdrSize)
    else spacepad (maxname - 1) stroff
  { m with hdr := { m.hdr with name := memcpy (field 16 m.hdr.name) 0 (slash :: num) } }

/-- The table, and the members with their names in the headers. -/
def fillTable (env : Env) (a : Archive) :
    Option (List BfdByte × Nat) → Nat → List Member → List BfdByte × List Member
  | _, _, [] => ([], [])
  | last, strptr, m :: ms =>
    let normal := if a.thin then thinName env a m.path else lbasename m.filename
    if a.thin ∧ last.map Prod.fst = some m.path then
      let stroff := (last.map Prod.snd).getD 0
      let rest := fillTable env a last strptr ms
      (rest.1, extendedName a m stroff :: rest.2)
    else if maxname < normal.length ∨ a.thin then
      let rest := fillTable env a (some (m.path, strptr)) (strptr + normal.length + 1 + 1) ms
      (normal ++ [slash, newline] ++ rest.1, extendedName a m strptr :: rest.2)
    else
      let rest := fillTable env a last strptr ms
      (rest.1, shortName m :: rest.2)

/-! The index. -/

/-- The number of an element and the name of a symbol, for each symbol of the index. -/
def orl : Nat → List Member → List (Nat × List BfdByte)
  | _, [] => []
  | eltNo, m :: ms => m.names.map (eltNo, ·) ++ orl (eltNo + 1) ms

/-- Where the next header is expected behind the one of a member. -/
def nextFilePtr (thin : Bool) (ptr : Nat) (m : Member) : Nat :=
  let ptr := ptr + hdrSize
  if thin then ptr
  else
    let ptr := ptr + m.contents.length
    ptr + ptr % 2

/-- The offset for each symbol of the map. Nothing when one of them does not fit an `unsigned int`:
another kind of index is written then. -/
def symbolOffsets (thin : Bool) :
    Nat → Nat → List Member → List (Nat × List BfdByte) → Option (List Nat)
  | _, _, [], _ => some []
  | _, _, _ :: _, [] => some []
  | eltNo, ptr, m :: ms, map@(_ :: _) =>
    let used := map.takeWhile fun e => e.1 = eltNo
    if used ≠ [] ∧ ptr % 2 ^ 32 ≠ ptr then none
    else
      (symbolOffsets thin (eltNo + 1) (nextFilePtr thin ptr m) ms
        (map.dropWhile fun e => e.1 = eltNo)).map (used.map (fun _ => ptr) ++ ·)

/-- `_bfd_coff_write_armap`; `elength` is the length of the name table with its header. -/
def coffWriteArmap (env : Env) (thin : Bool) (members : List Member) (elength : Nat)
    (map : List (Nat × List BfdByte)) (stridx : Nat) : Option (List BfdByte) := do
  let ranlibsize := (map.length * 4 + 4) % 2 ^ 32
  let mapsize := (stridx + ranlibsize) % 2 ^ 32
  let padit := mapsize % 2
  let mapsize := (mapsize + padit) % 2 ^ 32
  let first := (mapsize + elength) % 2 ^ 32 + hdrSize + sarmag
  let offsets ← symbolOffsets thin 0 first members map
  let size ← arSizepad 10 mapsize
  let hdr : ArHdr := ⟨[slash], Decimal.text env.time, Decimal.text 0, Decimal.text 0,
    Decimal.text 0, size, arfmag⟩
  some (hdr.bytes ++ Endian.put true 4 map.length ++ offsets.flatMap (Endian.put true 4) ++
    map.flatMap (fun e => e.2 ++ [0#8]) ++ List.replicate padit 0#8)

/-- `__.SYMDEF` -/
def symdef : List BfdByte := ascii ['_', '_', '.', 'S', 'Y', 'M', 'D', 'E', 'F']

/-- "Drop all the files called __.SYMDEF, we're going to make our own." -/
def dropSymdef (members : List Member) : List Member :=
  members.dropWhile fun m => m.filename = symdef

/-- `_bfd_compute_and_write_armap` -/
def computeAndWriteArmap (env : Env) (thin : Bool) (members : List Member) (elength : Nat) :
    Option (List BfdByte) :=
  let elength := if elength ≠ 0 then (elength + hdrSize) % 2 ^ 32 else elength
  let elength := (elength + elength % 2) % 2 ^ 32
  let map := orl 0 members
  coffWriteArmap env thin members elength map ((map.map fun e => e.2.length + 1).sum % 2 ^ 32)

/-! The archive. -/

/-- `\n` behind an odd number of bytes. -/
def padding (n : Nat) : List BfdByte := if n % 2 = 1 then [newline] else []

/-- The header and the contents of a member. -/
def Member.text (thin : Bool) (m : Member) : List BfdByte :=
  m.hdr.bytes ++ if thin then [] else m.contents ++ padding m.contents.length

/-- The loop that writes the members, from a position of the file on: what it writes, and where it
writes each header. -/
def writeMembers (thin : Bool) : Nat → List Member → List BfdByte × List Nat
  | _, [] => ([], [])
  | pos, m :: ms =>
    let rest := writeMembers thin (pos + (m.text thin).length) ms
    (m.text thin ++ rest.1, pos :: rest.2)

/-- The name table in the file. -/
def writeTable (elength : Nat) (etable : List BfdByte) : Option (List BfdByte) :=
  if elength = 0 then some []
  else do
    let size ← arSizepad 10 ((elength + 1) / 2 * 2)
    let hdr : ArHdr := ⟨[slash, slash], [], [], [], [], size, arfmag⟩
    some (hdr.bytes ++ etable.take elength ++ padding elength)

/-- An archive that was written: its bytes, where the index ends, the members that were written and
where the header of each is. -/
structure Written where
  file : List BfdByte
  indexEnd : Nat
  members : List Member
  positions : List Nat

def armag (thin : Bool) : List BfdByte :=
  ascii (if thin then ['!', '<', 't', 'h', 'i', 'n', '>', '\n']
    else ['!', '<', 'a', 'r', 'c', 'h', '>', '\n'])

/-- `_bfd_write_archive_contents` -/
def writeArchiveContents (env : Env) (a : Archive) : Option Written := do
  let makemap := a.hasMap && a.members.any (·.isObject)
  let elength := totalNamelen env a none a.members
  let table := fillTable env a none 0 a.members
  let members := if makemap then dropSymdef table.2 else table.2
  let armap ← if makemap then computeAndWriteArmap env a.thin members (elength % 2 ^ 32) else some []
  let etable ← writeTable elength table.1
  let front := armag a.thin ++ armap
  let rest := writeMembers a.thin (front ++ etable).length members
  some ⟨front ++ etable ++ rest.1, front.length, members, rest.2⟩

/-! Reading the index. -/

/-- White space for `sscanf`. -/
def isSpace (b : BfdByte) : Bool := b = 32#8 || (9 ≤ b.toNat && b.toNat ≤ 13)

/-- `sscanf` with `%lu`. -/
def scanSize (bs : List BfdByte) : Option Nat :=
  let bs := bs.dropWhile isSpace
  let signed := bs.head? = some 43#8 || bs.head? = some 45#8
  let ds := (if signed then bs.drop 1 else bs).takeWhile Decimal.isDigit
  if ds = [] then none
  else if bs.head? = some 45#8 then some ((2 ^ 64 - Decimal.value ds % 2 ^ 64) % 2 ^ 64)
  else some (min (Decimal.value ds) (2 ^ 64 - 1))

/-- A header that was read: its bytes, `parsed_size`, and where its contents are. -/
structure AreltData where
  archHeader : List BfdByte
  parsedSize : Nat
  pos : Nat

/-- `_bfd_generic_read_ar_hdr` at a position of the file, when no name table was read before. -/
def readArHdr (file : List BfdByte) (pos : Nat) : Option AreltData := do
  let hdr := (file.drop pos).take hdrSize
  if hdr.length ≠ hdrSize then none
  else if (hdr.drop 58).take 2 ≠ arfmag then none
  else
    let size ← scanSize ((hdr.drop 48).take 10)
    if hdr.take 3 = [35#8, 49#8, 47#8] ∧ (hdr[3]?.map Decimal.isDigit) = some true then
      -- BSD 4.4 extended name
      let namelen := Decimal.value ((hdr.drop 3).takeWhile Decimal.isDigit)
      if (file.drop (pos + hdrSize)).length < namelen then none
      else some ⟨hdr, (size + 2 ^ 64 - namelen) % 2 ^ 64, pos + hdrSize + namelen⟩
    else some ⟨hdr, size, pos + hdrSize⟩

/-- An entry of the index; no name is a null pointer. -/
structure Carsym where
  name : Option (List BfdByte)
  fileOffset : Nat
  deriving DecidableEq, Repr

/-- "OK, build the carsyms." The loop stops when there are no characters left. -/
def buildCarsyms : List Nat → List BfdByte → List Carsym
  | [], _ => []
  | _ :: raw, [] => ⟨none, 0⟩ :: buildCarsyms raw []
  | offset :: raw, strings@(_ :: _) =>
    let name := strings.takeWhile (· ≠ 0#8)
    ⟨some name, offset⟩ :: buildCarsyms raw (strings.drop (name.length + 1))

/-- The index and `first_file_filepos`. -/
structure Map where
  symdefs : List Carsym
  firstFileFilepos : Nat
  deriving DecidableEq, Repr

/-- The numbers of four bytes each. -/
def words (swap : List BfdByte → Nat) : Nat → List BfdByte → List Nat
  | 0, _ => []
  | n + 1, bs => swap (bs.take 4) :: words swap n (bs.drop 4)

/-- `do_slurp_coff_armap` at a position of the file; `i960Coff` is its test of the architecture and
the flavour. -/
def slurpCoffArmap (i960Coff : Bool) (file : List BfdByte) (pos : Nat) : Option Map := do
  let mapdata ← readArHdr file pos
  let intBuf := (file.drop mapdata.pos).take 4
  if intBuf.length ≠ 4 then none
  else
    let nsymz := Endian.get true intBuf
    let stringsize := (mapdata.parsedSize + 2 ^ 64 + 2 ^ 64 - 4 * nsymz - 4) % 2 ^ 64
    -- "This looks dangerous, let's do it the other way around."
    let hack := i960Coff && 0xfffff < stringsize
    let nsymz := if hack then Endian.get false intBuf else nsymz
    let stringsize :=
      if hack then (mapdata.parsedSize + 2 ^ 64 + 2 ^ 64 - 4 * nsymz - 4) % 2 ^ 64 else stringsize
    let carsymSize := 16 * nsymz
    if (carsymSize + stringsize + 1) % 2 ^ 64 ≤ carsymSize then none
    else
      let raw := (file.drop (mapdata.pos + 4)).take (4 * nsymz)
      let strings := (file.drop (mapdata.pos + 4 + 4 * nsymz)).take stringsize
      if raw.length ≠ 4 * nsymz ∨ strings.length ≠ stringsize then none
      else
        let first := mapdata.pos + 4 + 4 * nsymz + stringsize
        let first := first + first % 2
        -- "Check for a second archive header (as used by PE)."
        let second :=
          match readArHdr file first with
          | some tmp =>
            if tmp.archHeader.take 2 = [slash, space] then
              (tmp.parsedSize + hdrSize + 1) &&& 0xfffffffe
            else 0
          | none => 0
        some ⟨buildCarsyms (words (Endian.get (!hack)) nsymz raw) strings, first + second⟩

end FusionBinutils.Bfd.Armap
