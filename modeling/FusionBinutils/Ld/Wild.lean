import Mathlib.Data.List.Perm.Basic

/-! The wild statements of the linker: the sections that a list of patterns takes from a file
(ld/ldlang.c), and the names of a file's sections (bfd/section.c). -/
namespace FusionBinutils.Ld

/-- A C string: no character of it is the terminator. -/
structure CString where
  chars : List Char
  noNul : '\x00' ∉ chars
  deriving DecidableEq

/-- The characters that memory holds from the start of a string. -/
def CString.withNul (s : CString) : List Char := s.chars ++ ['\x00']

/-- `s[i]`, for an index that is at most one past the terminator. -/
def charAt (s : List Char) (i : Nat) : Char := s.getD i '\x00'

/-! Sections of a file. -/

/-- `asection`: its place in the order in which sections were made stands for its address. -/
structure Section where
  index : Nat
  name : CString
  deriving DecidableEq

/-- The sections of a bfd in order, and for each name the chain of hash entries that have it. -/
structure Bfd where
  sections : List Section
  htab : List (CString × List Section)

def Bfd.empty : Bfd := ⟨[], []⟩

/-- `section_hash_lookup`, with the entries that follow in the chain and have the same name. -/
def Bfd.chain (abfd : Bfd) (name : CString) : List Section := (abfd.htab.lookup name).getD []

/-- A new entry of a chain is put behind the first one. -/
def insertSecond (s : Section) : List Section → List Section
  | [] => [s]
  | first :: rest => first :: s :: rest

/-- `bfd_make_section_anyway`. -/
def Bfd.makeSectionAnyway (abfd : Bfd) (name : CString) : Bfd where
  sections := abfd.sections ++ [⟨abfd.sections.length, name⟩]
  htab := (name, insertSecond ⟨abfd.sections.length, name⟩ (abfd.chain name)) :: abfd.htab

/-- The chains hold the sections of the file. -/
structure Bfd.Consistent (abfd : Bfd) : Prop where
  nodup : abfd.sections.Nodup
  chain : ∀ name, (abfd.chain name).Perm (abfd.sections.filter fun s => s.name = name)
  index : ∀ s ∈ abfd.sections, s.index < abfd.sections.length

/-- `lang_input_statement_type`: a file that was opened. -/
structure InputStatement where
  filename : CString
  /-- the name of the archive that the file is a member of -/
  myArchive : Option CString
  theBfd : Bfd
  consistent : theBfd.Consistent

/-! Names and patterns. -/

def isWild (c : Char) : Bool := c = '?' || c = '*' || c = '['

/-- `wildcardp`. -/
def wildcardp (pattern : CString) : Bool := pattern.chars.any isWild

/-- `strcspn (name, "*?[")`. -/
def strcspnWild (name : CString) : Nat := (name.chars.takeWhile fun c => !isWild c).length

/-- `struct wildcard_list`, with the members of its `spec` that the walkers read. -/
structure WildcardSpec where
  name : Option CString
  excludeNameList : List CString
  deriving DecidableEq

/-- The pattern, where the analysis has found that there is one. -/
def WildcardSpec.str (sec : WildcardSpec) : List Char := (sec.name.map CString.chars).getD []

/-- `fnmatch` with flags 0 (a match is `true`), and `link_info.path_separator`, 0 being `none`. -/
structure Env where
  fnmatch : List Char → List Char → Bool
  pathSeparator : Option Char

variable (env : Env)

/-- `name_match`; a match is `true`. -/
def nameMatch (pattern name : CString) : Bool :=
  if wildcardp pattern then env.fnmatch pattern.chars name.chars else pattern = name

/-- `archive_path`: the part before the separator and the part after it. -/
def archivePath (pattern : CString) : Option (CString × CString) :=
  match env.pathSeparator with
  | none => none
  | some sep =>
    if sep ∈ pattern.chars then
      some (⟨pattern.chars.takeWhile (· ≠ sep), fun h => pattern.noNul (List.takeWhile_subset _ h)⟩,
        ⟨(pattern.chars.dropWhile (· ≠ sep)).tail,
          fun h => pattern.noNul (List.dropWhile_subset _ (List.mem_of_mem_tail h))⟩)
    else none

/-- `input_statement_is_archive_path`, on the parts of a pattern. -/
def inputStatementIsArchivePath (archive file : CString) (f : InputStatement) : Bool :=
  (file.chars.isEmpty || nameMatch env file f.filename) &&
    (!archive.chars.isEmpty == f.myArchive.isSome) &&
    match f.myArchive with
    | some aname => nameMatch env archive aname
    | none => true

/-- `walk_wild_file_in_exclude_list`. -/
def walkWildFileInExcludeList (excludeList : List CString) (file : InputStatement) : Bool :=
  excludeList.any fun name =>
    match archivePath env name with
    | some (archive, member) => inputStatementIsArchivePath env archive member file
    | none =>
      nameMatch env name file.filename ||
        match file.myArchive with
        | some aname => nameMatch env name aname
        | none => false

/-! The walkers. They return the calls of the callback, in order. -/

/-- The arguments `sec` and `s` of a call of the callback. -/
abbrev Call := Option WildcardSpec × Section

/-- `walk_wild_consider_section`. -/
def walkWildConsiderSection (file : InputStatement) (s : Section) (sec : WildcardSpec) :
    List Call :=
  if walkWildFileInExcludeList env sec.excludeNameList file then [] else [(some sec, s)]

/-- One pattern of the general walker. -/
def considerPattern (file : InputStatement) (s : Section) (sec : WildcardSpec) : List Call :=
  match sec.name with
  | some name =>
    if nameMatch env name s.name then walkWildConsiderSection env file s sec else []
  | none => walkWildConsiderSection env file s sec

/-- `walk_wild_section_general`. -/
def walkWildSectionGeneral (sectionList : List WildcardSpec) (file : InputStatement) :
    List Call :=
  file.theBfd.sections.flatMap fun s =>
    if sectionList = [] then [(none, s)] else sectionList.flatMap (considerPattern env file s)

/-- `section_iterator_callback`, over the rest of a chain. -/
def sectionIterator : Option Section → List Section → Option Section × Bool
  | found, [] => (found, false)
  | none, s :: rest => sectionIterator (some s) rest
  | some s, _ :: _ => (some s, true)

/-- `find_section`: the section, and whether there are several. -/
def findSection (file : InputStatement) (sec : WildcardSpec) : Option Section × Bool :=
  match sec.name with
  | some name => sectionIterator none (file.theBfd.chain name)
  | none => (none, false)

/-- `is_simple_wild`. -/
def isSimpleWild (name : CString) : Bool :=
  4 ≤ strcspnWild name && charAt name.chars (strcspnWild name) = '*' &&
    charAt name.chars (strcspnWild name + 1) = '\x00'

/-- The loop of `match_simple_wild`. -/
def matchRest : List Char → List Char → Bool
  | [], _ => false
  | c :: pattern, name =>
    if c = '*' then true
    else
      match name with
      | [] => false
      | d :: name => d = c && matchRest pattern name

/-- `match_simple_wild`. -/
def matchSimpleWild (pattern name : List Char) : Bool :=
  charAt pattern 0 = charAt name 0 && charAt pattern 1 = charAt name 1 &&
    charAt pattern 2 = charAt name 2 && charAt pattern 3 = charAt name 3 &&
    matchRest (pattern.drop 4) (name.drop 4)

/-- `walk_wild_section_specs1_wild0`. -/
def walkWildSectionSpecs1Wild0 (sectionList : List WildcardSpec) (sec0 : WildcardSpec)
    (file : InputStatement) : List Call :=
  match findSection file sec0 with
  | (_, true) => walkWildSectionGeneral env sectionList file
  | (some s0, false) => walkWildConsiderSection env file s0 sec0
  | (none, false) => []

/-- `walk_wild_section_specs1_wild1`. -/
def walkWildSectionSpecs1Wild1 (wildsec0 : WildcardSpec) (file : InputStatement) : List Call :=
  file.theBfd.sections.flatMap fun s =>
    if matchSimpleWild wildsec0.str s.name.chars then walkWildConsiderSection env file s wildsec0
    else []

/-- `walk_wild_section_specs2_wild1`. -/
def walkWildSectionSpecs2Wild1 (sectionList : List WildcardSpec) (sec0 wildsec1 : WildcardSpec)
    (file : InputStatement) : List Call :=
  match findSection file sec0 with
  | (_, true) => walkWildSectionGeneral env sectionList file
  | (s0, false) =>
    file.theBfd.sections.flatMap fun s =>
      if some s = s0 then walkWildConsiderSection env file s sec0
      else if matchSimpleWild wildsec1.str s.name.chars then
        walkWildConsiderSection env file s wildsec1
      else []

/-- `walk_wild_section_specs3_wild2`. -/
def walkWildSectionSpecs3Wild2 (sectionList : List WildcardSpec)
    (sec0 wildsec1 wildsec2 : WildcardSpec) (file : InputStatement) : List Call :=
  match findSection file sec0 with
  | (_, true) => walkWildSectionGeneral env sectionList file
  | (s0, false) =>
    file.theBfd.sections.flatMap fun s =>
      if some s = s0 then walkWildConsiderSection env file s sec0
      else if matchSimpleWild wildsec1.str s.name.chars then
        walkWildConsiderSection env file s wildsec1
      else if matchSimpleWild wildsec2.str s.name.chars then
        walkWildConsiderSection env file s wildsec2
      else []

/-- `walk_wild_section_specs4_wild2`. -/
def walkWildSectionSpecs4Wild2 (sectionList : List WildcardSpec)
    (sec0 sec1 wildsec2 wildsec3 : WildcardSpec) (file : InputStatement) : List Call :=
  match findSection file sec0, findSection file sec1 with
  | (_, true), _ => walkWildSectionGeneral env sectionList file
  | _, (_, true) => walkWildSectionGeneral env sectionList file
  | (s0, false), (s1, false) =>
    file.theBfd.sections.flatMap fun s =>
      if some s = s0 then walkWildConsiderSection env file s sec0
      else if some s = s1 then walkWildConsiderSection env file s sec1
      else if matchSimpleWild wildsec2.str s.name.chars then
        walkWildConsiderSection env file s wildsec2
      else if matchSimpleWild wildsec3.str s.name.chars then
        walkWildConsiderSection env file s wildsec3
      else []

/-! The choice of a walker. -/

/-- The length of the part of a pattern before the first wildcard character, the terminator
counted if there is none. -/
def prefixLen (name : CString) : Nat :=
  if charAt name.chars (strcspnWild name) = '\x00' then strcspnWild name + 1
  else strcspnWild name

/-- `wild_spec_can_overlap`. -/
def wildSpecCanOverlap (name1 name2 : CString) : Bool :=
  name1.withNul.take (min (prefixLen name1) (prefixLen name2))
    = name2.withNul.take (min (prefixLen name1) (prefixLen name2))

/-- `walk_wild_section_handler` and `handler_data`. -/
inductive Handler where
  | general
  | specs1Wild0 (sec0 : WildcardSpec)
  | specs1Wild1 (wildsec0 : WildcardSpec)
  | specs2Wild1 (sec0 wildsec1 : WildcardSpec)
  | specs3Wild2 (sec0 wildsec1 wildsec2 : WildcardSpec)
  | specs4Wild2 (sec0 sec1 wildsec2 wildsec3 : WildcardSpec)
  deriving DecidableEq

/-- The pattern has a name, and its wildcard, if it has one, is a single `*` at the end. -/
def WildcardSpec.isPlain (sec : WildcardSpec) : Bool :=
  match sec.name with
  | none => false
  | some name => !wildcardp name || isSimpleWild name

/-- `wildcardp (sec->spec.name)`. -/
def WildcardSpec.isWildcard (sec : WildcardSpec) : Bool :=
  match sec.name with
  | none => false
  | some name => wildcardp name

/-- `wild_spec_can_overlap (sec->spec.name, sec2->spec.name)`. -/
def WildcardSpec.canOverlap (sec sec2 : WildcardSpec) : Bool :=
  match sec.name, sec2.name with
  | some name, some name2 => wildSpecCanOverlap name name2
  | _, _ => false

/-- Two patterns of the list can match the same section. -/
def anyOverlap : List WildcardSpec → Bool
  | [] => false
  | sec :: rest => rest.any sec.canOverlap || anyOverlap rest

/-- The specs with non-wildcard names first, then those with wildcard names. -/
def handlerData (sectionList : List WildcardSpec) : List WildcardSpec :=
  sectionList.filter (fun sec => !sec.isWildcard) ++ sectionList.filter WildcardSpec.isWildcard

/-- `analyze_walk_wild_section_handler`. -/
def analyzeWalkWildSectionHandler (sectionList : List WildcardSpec) : Handler :=
  let secCount := sectionList.length
  let wildNameCount := (sectionList.filter WildcardSpec.isWildcard).length
  if !sectionList.all WildcardSpec.isPlain then .general
  else if secCount = 0 ∨ 4 < secCount then .general
  else if anyOverlap sectionList then .general
  else
    match secCount <<< 8 + wildNameCount, handlerData sectionList with
    | 0x100, [sec0] => .specs1Wild0 sec0
    | 0x101, [wildsec0] => .specs1Wild1 wildsec0
    | 0x201, [sec0, wildsec1] => .specs2Wild1 sec0 wildsec1
    | 0x302, [sec0, wildsec1, wildsec2] => .specs3Wild2 sec0 wildsec1 wildsec2
    | 0x402, [sec0, sec1, wildsec2, wildsec3] => .specs4Wild2 sec0 sec1 wildsec2 wildsec3
    | _, _ => .general

/-- `walk_wild_section`, for a file that is not read for its symbols only. -/
def walkWildSection (sectionList : List WildcardSpec) (file : InputStatement) : List Call :=
  match analyzeWalkWildSectionHandler sectionList with
  | .general => walkWildSectionGeneral env sectionList file
  | .specs1Wild0 sec0 => walkWildSectionSpecs1Wild0 env sectionList sec0 file
  | .specs1Wild1 wildsec0 => walkWildSectionSpecs1Wild1 env wildsec0 file
  | .specs2Wild1 sec0 wildsec1 => walkWildSectionSpecs2Wild1 env sectionList sec0 wildsec1 file
  | .specs3Wild2 sec0 wildsec1 wildsec2 =>
    walkWildSectionSpecs3Wild2 env sectionList sec0 wildsec1 wildsec2 file
  | .specs4Wild2 sec0 sec1 wildsec2 wildsec3 =>
    walkWildSectionSpecs4Wild2 env sectionList sec0 sec1 wildsec2 wildsec3 file

end FusionBinutils.Ld
