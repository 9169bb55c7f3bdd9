import FusionBinutils.Bfd.Armap

/-! The names of the members of an archive: in their headers, and in the extended name table
(bfd/archive.c). Only what the table is for is kept of a member. -/
namespace FusionBinutils.Bfd.NameTable

open Armap (space slash newline arfmag maxname hdrSize lbasename isSpace scanSize)

abbrev Text := List BfdByte

def nul : BfdByte := 0#8
def colon : BfdByte := 58#8
def backslash : BfdByte := 92#8

/-- `struct ar_hdr`: the field `ar_name`, and the others, of which `ar_size` can be read. -/
structure Header where
  name : Text
  rest : Text
  nameLength : name.length = 16
  restLength : rest.length = 44
  fmag : rest.drop 42 = arfmag
  size : (scanSize ((rest.drop 32).take 10)).isSome = true

def Header.bytes (h : Header) : Text := h.name ++ h.rest

/-- Bytes that are put over others; nothing when they would go beyond. -/
def store (dst : Text) (i : Nat) (bs : Text) : Option Text :=
  if i + bs.length ≤ dst.length then some (dst.take i ++ bs ++ dst.drop (i + bs.length)) else none

theorem length_store {dst dst' bs : Text} {i : Nat} (h : store dst i bs = some dst') :
    dst'.length = dst.length := by
  rw [store] at h
  split at h
  next hle =>
    obtain rfl := Option.some.inj h
    rw [List.length_append, List.length_append, List.length_take, List.length_drop]
    omega
  next => cases h

/-- Bytes that are put into `ar_name`. -/
def Header.write (h : Header) (i : Nat) (bs : Text) : Option Header :=
  match hs : store h.name i bs with
  | some name => some { h with name := name, nameLength := (length_store hs).trans h.nameLength }
  | none => none

/-- A member of the archive. -/
structure Member where
  filename : Text
  /-- the name of `my_archive`, when it is not thin -/
  myArchive : Option Text
  origin : Int
  hdr : Header

/-- What the table depends on: the archive and the format of its names, and the path of a file from
the directory of the archive (`adjust_relative_path`). -/
structure Ar where
  filename : Text
  thin : Bool
  trailingSlash : Bool
  traditionalFormat : Bool
  adjustRelativePath : Text → Text → Text

def isAbsolutePath (path : Text) : Bool := path.head? = some slash

/-- "If the element being added is a member of another archive (i.e., we are flattening), use the
containing archive's name." -/
def Member.path (m : Member) : Text := m.myArchive.getD m.filename

/-- The name that is stored of a member. -/
def Ar.normal (ar : Ar) (m : Member) : Text :=
  if ar.thin then
    if !isAbsolutePath m.path && !isAbsolutePath ar.filename then
      ar.adjustRelativePath m.path ar.filename
    else m.path
  else lbasename m.filename

/-- An `unsigned int`. -/
def thislen (normal : Text) : Nat := normal.length % 2 ^ 32

/-- The bytes that an entry of the table has behind its name. -/
def Ar.ending (ar : Ar) : Text := if ar.trailingSlash then [slash, newline] else [newline]

/-- "Must have been using extended format even though it didn't need to. Fix it to use normal
format." -/
def useNormalFormat (h : Header) (normal : Text) (len : Nat) : Option Header :=
  if h.name.take len ≠ normal.take len ∨ h.name[len]? ≠ some slash then do
    let h ← h.write 0 (normal.take len)
    h.write len [slash]
  else some h

/-- "Figure out how long the table should be." -/
def sizeTable (ar : Ar) : Option Text → List Member → Option (Nat × List Member)
  | _, [] => some (0, [])
  | last, m :: ms =>
    let normal := ar.normal m
    if ar.thin then
      -- "If the path is the same as the previous path seen, reuse it."
      if last = some m.path then do
        let (total, ms) ← sizeTable ar last ms
        return (total, m :: ms)
      else do
        let (total, ms) ← sizeTable ar (some m.path) ms
        return (normal.length + ar.ending.length + total, m :: ms)
    else if maxname < thislen normal ∧ ar.traditionalFormat = false then do
      let (total, ms) ← sizeTable ar last ms
      return (thislen normal + ar.ending.length + total, m :: ms)
    else do
      let hdr ← useNormalFormat m.hdr normal (min (thislen normal) maxname)
      let (total, ms) ← sizeTable ar last ms
      return (total, { m with hdr := hdr } :: ms)

/-- `%ld` -/
def decimal (v : Int) : Text :=
  if v < 0 then 45#8 :: Decimal.text v.natAbs else Decimal.text v.natAbs

/-- What `_bfd_ar_spacepad` puts into `n` characters, by way of a buffer of twenty. -/
def spacepad (n : Nat) (v : Int) : Text :=
  let buf := (decimal v).take 19
  if buf.length < n then buf ++ List.replicate (n - buf.length) space else buf.take n

/-- The name of a member whose entry is at `stroff`: the offset, and in a thin archive where the
member is in its own. The room behind the offset is a size, which never is negative. -/
def extendedName (ar : Ar) (m : Member) (stroff : Nat) : Option Header := do
  let hdr ← m.hdr.write 0 [slash]
  if ar.thin ∧ 0 < m.origin then
    let text := decimal stroff ++ [colon]
    let hdr ← hdr.write 1 (text.take (maxname - 2) ++ [nul])
    if maxname - 1 < text.length then none
    else hdr.write (1 + text.length) (spacepad (maxname - 1 - text.length) (m.origin - hdrSize))
  else hdr.write 1 (spacepad (maxname - 1) stroff)

/-- An entry of the table, which `strcpy` puts there with a NUL first. -/
def putEntry (ar : Ar) (table : Text) (strptr : Nat) (normal : Text) : Option Text := do
  let table ← store table strptr (normal ++ [nul])
  store table (strptr + thislen normal) ar.ending

/-- The loop that fills the table. -/
def fillTable (ar : Ar) : Option Text → Nat → Nat → Text → List Member → Option (Text × List Member)
  | _, _, _, table, [] => some (table, [])
  | last, lastStroff, strptr, table, m :: ms =>
    let normal := ar.normal m
    if ar.thin ∧ last = some m.path then do
      let hdr ← extendedName ar m lastStroff
      let (table, ms) ← fillTable ar last lastStroff strptr table ms
      return (table, { m with hdr := hdr } :: ms)
    else if maxname < thislen normal ∨ ar.thin then do
      let table ← putEntry ar table strptr normal
      let hdr ← extendedName ar m strptr
      let (table, ms) ← fillTable ar (some m.path) strptr
        (strptr + thislen normal + ar.ending.length) table ms
      return (table, { m with hdr := hdr } :: ms)
    else do
      let (table, ms) ← fillTable ar last lastStroff strptr table ms
      return (table, m :: ms)

/-- The table and its length, and the members with their names in the headers. -/
structure Constructed where
  tablen : Nat
  table : Text
  members : List Member

/-- `_bfd_construct_extended_name_table`. Nothing for what is written beyond the table or a name. -/
def constructExtendedNameTable (ar : Ar) (members : List Member) : Option Constructed := do
  let (total, members) ← sizeTable ar none members
  if total = 0 then return ⟨0, [], members⟩
  let (table, members) ← fillTable ar none 0 0 (List.replicate total nul) members
  return ⟨total, table, members⟩

def arfilenames : Text :=
  Armap.ascii ['A', 'R', 'F', 'I', 'L', 'E', 'N', 'A', 'M', 'E', 'S', '/']

def slashes : Text := [slash, slash]

/-- The name of the table in its header. -/
def Ar.ename (ar : Ar) : Text := if ar.trailingSlash then slashes else arfilenames

/-- The table as `_bfd_write_archive_contents` puts it into the file. -/
def writeTable (ar : Ar) (tablen : Nat) (table : Text) : Option Text :=
  if tablen = 0 then some []
  else do
    let size ← Armap.arSizepad 10 ((tablen + 1) / 2 * 2)
    let hdr : Armap.ArHdr := ⟨ar.ename, [], [], [], [], size, arfmag⟩
    some (hdr.bytes ++ table ++ Armap.padding tablen)

/-! Reading. -/

/-- "the entries in the list are newline-padded, not null padded. In SVR4-style archives, the names
also have a trailing '/'. DOS/NT created archive often have \ in them. We'll fix all problems here."
The byte before is the one that may still change. -/
def fixNames : Option BfdByte → Text → Text
  | prev, [] => prev.toList
  | prev, c :: cs =>
    if c = newline then
      if prev = some slash then nul :: fixNames (some newline) cs
      else prev.toList ++ fixNames (some nul) cs
    else prev.toList ++ fixNames (some (if c = backslash then slash else c)) cs

/-- The names and `first_file_filepos`. -/
structure Names where
  extendedNames : Option Text
  firstFileFilepos : Nat

/-- `_bfd_slurp_extended_name_table` at a position of the file. -/
def slurpExtendedNameTable (file : Text) (pos : Nat) : Option Names :=
  let nextname := (file.drop pos).take 16
  if nextname.length ≠ 16 then some ⟨none, pos⟩
  else if nextname ≠ Armap.field 16 arfilenames ∧ nextname ≠ Armap.field 16 slashes then
    some ⟨none, pos⟩
  else do
    let namedata ← Armap.readArHdr file pos
    let names := (file.drop namedata.pos).take namedata.parsedSize
    if names.length ≠ namedata.parsedSize then none
    else
      let stop := namedata.pos + namedata.parsedSize
      some ⟨some (fixNames none names), stop + stop % 2⟩

/-- `strtol` with base 10: the number and what stands behind it. Nothing when it is out of range. -/
def strtol (s : Text) : Option (Int × Text) :=
  let t := s.dropWhile isSpace
  let negative := t.head? = some 45#8
  let t := if negative ∨ t.head? = some 43#8 then t.drop 1 else t
  let digits := t.takeWhile Decimal.isDigit
  let v : Int := if negative then -Decimal.value digits else Decimal.value digits
  if digits = [] then some (0, s)
  else if v < -2 ^ 63 ∨ 2 ^ 63 ≤ v then none
  else some (v, t.drop digits.length)

/-- `get_extended_arelt_filename`: the name and the origin. -/
def getExtendedAreltFilename (thin : Bool) (names hdr : Text) : Option (Text × Int) := do
  let (index, endp) ← strtol (hdr.drop 1)
  if index < 0 ∨ (names.length : Int) ≤ index then none
  else do
    -- "a member of an archive-within-an-archive will have the offset in the inner archive encoded here"
    let origin ← if thin ∧ endp.head? = some colon then (strtol endp.tail).map Prod.fst else some 0
    return ((names.drop index.toNat).takeWhile (· ≠ nul), origin)

/-- `struct areltdata` -/
structure AreltData where
  archHeader : Text
  parsedSize : Nat
  filename : Text
  extraSize : Nat
  origin : Int

def memchr (b : BfdByte) (s : Text) : Option Nat :=
  if s.contains b then some (s.takeWhile (· ≠ b)).length else none

/-- "We judge the end of the name by looking for '/' or ' '. Note: The SYSV format (terminated by
'/') allows embedded spaces, so only look for ' ' if we don't find '/'." -/
def namelen (name : Text) : Nat :=
  let name := name.take maxname
  ((memchr nul name).or ((memchr slash name).or (memchr space name))).getD maxname

/-- `is_bsd44_extended_name` -/
def isBsd44ExtendedName (name : Text) : Bool :=
  name.take 3 = [35#8, 49#8, slash] && (name[3]?.map Decimal.isDigit) = some true

/-- "Extract the filename from the archive - there are two ways to specify an extended name table,
either the first char of the name is a space, or it's a slash." Behind the header, a BSD name. -/
def readFilename (thin : Bool) (extendedNames : Option Text) (parsedSize : Nat) (hdr after : Text) :
    Option AreltData :=
  let extended := hdr.head? = some slash ||
    hdr.head? = some space && (memchr slash (hdr.take maxname)).isNone
  match (if extended then extendedNames else none) with
  | some names => (getExtendedAreltFilename thin names hdr).map fun found =>
      ⟨hdr, parsedSize, found.1, 0, found.2⟩
  | none =>
    if isBsd44ExtendedName hdr then
      let len := Decimal.value ((hdr.drop 3).takeWhile Decimal.isDigit)
      let filename := after.take len
      if filename.length ≠ len then none
      else some ⟨hdr, (parsedSize + 2 ^ 64 - len) % 2 ^ 64, filename.takeWhile (· ≠ nul), len, 0⟩
    else some ⟨hdr, parsedSize, (hdr.take (namelen hdr)).takeWhile (· ≠ nul), 0, 0⟩

/-- `_bfd_generic_read_ar_hdr_mag` on what the file has from its position on. -/
def readArHdrMag (thin : Bool) (extendedNames mag : Option Text) (file : Text) :
    Option AreltData := do
  let hdr := file.take hdrSize
  let fmag := (hdr.drop 58).take 2
  if hdr.length ≠ hdrSize then none
  else if fmag ≠ arfmag ∧ mag ≠ some fmag then none
  else
    let parsedSize ← scanSize ((hdr.drop 48).take 10)
    readFilename thin extendedNames parsedSize hdr (file.drop hdrSize)

end FusionBinutils.Bfd.NameTable
