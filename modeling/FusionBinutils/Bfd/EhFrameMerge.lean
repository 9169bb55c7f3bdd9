import FusionBinutils.Bfd.EhFrameParse

/-! CIEs that are merged with an equal one (`find_merged_cie`). -/
namespace FusionBinutils.Bfd.EhFrame

/-- `struct elf_link_hash_entry`; indirect symbols and warnings lead to another one. -/
inductive SymHash where
  | symbol (h : Nat)
  | indirect (link : SymHash)
  | warning (link : SymHash)

def SymHash.follow : SymHash → Nat
  | .symbol h => h
  | .indirect link => link.follow
  | .warning link => link.follow

/-- The section of a local symbol. Its place may have been taken by a `kept_section`. -/
structure SymSec where
  outputSection : Option Nat
  keptSection : Option (Option Nat)

def SymSec.output (s : SymSec) : Option Nat := s.keptSection.getD s.outputSection

/-- `Elf_Internal_Sym` -/
structure LocSym where
  /-- Whether `ELF_ST_BIND` is `STB_LOCAL`. -/
  bindLocal : Bool
  /-- `bfd_section_from_elf_index` of its `st_shndx` -/
  symSec : Option SymSec

/-- `struct elf_reloc_cookie` -/
structure Cookie where
  rels : Rels
  locsyms : List LocSym
  extsymoff : Nat
  symHashes : Nat → SymHash

/-- `personality`, once it has been resolved; with `sym` goes `local_personality`. -/
inductive Personality where
  | none
  | h (h : Nat)
  | sym (bfdId index : Nat)
  deriving DecidableEq

def Entry.full? (e : Entry) : Option Cie :=
  match e.kind with
  | .cie _ full => some full
  | .fde _ => none

/-- The CIE that is entry `n` of a section. -/
def cieAt (info : LinkInfo) (sec : EhSec) (rels : Rels) (rsec : Rela → Option Nat) (n : Nat) :
    Option Cie := do
  let entries ← parseEhFrame info sec rels rsec
  let e ← entries[n]?
  e.full?

/-- A CIE of a section that has been accepted. -/
structure Accepted (info : LinkInfo) where
  sec : EhSec
  cookie : Cookie
  rsec : Rela → Option Nat
  n : Nat
  accepted : (cieAt info sec cookie.rels rsec n).isSome

variable {info : LinkInfo}

namespace Accepted

def cie (c : Accepted info) : Cie := (cieAt info c.sec c.cookie.rels c.rsec c.n).get c.accepted

/-- The relocation of the personality routine. -/
def rel? (c : Accepted info) : Option Rela := c.cookie.rels[c.cie.personality]?

/-- `ELF64_R_SYM` or `ELF32_R_SYM` -/
def rSymndx (c : Accepted info) (r : Rela) : Nat :=
  if c.sec.elfclass64 then r.info / 2 ^ 32 else r.info / 2 ^ 8

/-- The symbol a relocation is against, if anything can be said about it. -/
def resolve (c : Accepted info) (r : Rela) : Option Personality :=
  let symbol := c.cookie.symHashes (c.rSymndx r - c.cookie.extsymoff)
  match c.cookie.locsyms[c.rSymndx r]? with
  | none => some (.h symbol.follow)
  | some sym =>
    if sym.bindLocal then do
      let symSec ← sym.symSec
      guard symSec.output.isSome
      some (.sym c.sec.abfd (c.rSymndx r))
    else some (.h symbol.follow)

def personality? (c : Accepted info) : Option Personality :=
  if c.cie.perEncoding = peOmit then some .none else c.rel?.bind c.resolve

/-- What is added to the symbol. Without room for it in the relocation it is in the contents. -/
def addend (c : Accepted info) (r : Rela) : Int :=
  if c.sec.useRela then r.addend
  else readRaw c.sec.bigEndian ⟨c.sec.contents, 0⟩ r.offset (peWidth c.cie.perEncoding c.sec.ptrSize)

def personalityAddend (c : Accepted info) : Option Int :=
  if c.cie.perEncoding = peOmit then none else c.rel?.map c.addend

end Accepted

/-- A CIE that has been resolved, to be looked up or in the table. -/
structure Resolved (info : LinkInfo) extends Accepted info where
  personality : Personality
  resolved : toAccepted.personality? = some personality

/-- What `cie_compute_hash` hashes. -/
structure HashKey where
  length : Nat
  version : BfdByte
  augmentation : List BfdByte
  codeAlign : BitVec 64
  dataAlign : BitVec 64
  raColumn : BitVec 64
  augmentationSize : BitVec 64
  personality : Personality
  outputSection : Option Nat
  perEncoding : BfdByte
  lsdaEncoding : BfdByte
  fdeEncoding : BfdByte
  initialInsnLength : BitVec 8
  initialInstructions : List BfdByte

namespace Resolved

def hashKey (k : Resolved info) : HashKey :=
  { length := k.cie.length
    version := k.cie.version
    augmentation := k.cie.augmentation
    codeAlign := k.cie.codeAlign
    dataAlign := k.cie.dataAlign
    raColumn := k.cie.raColumn
    augmentationSize := k.cie.augmentationSize
    personality := k.personality
    outputSection := k.sec.outputSection
    perEncoding := k.cie.perEncoding
    lsdaEncoding := k.cie.lsdaEncoding
    fdeEncoding := k.cie.fdeEncoding
    initialInsnLength := k.cie.initialInsnLength
    initialInstructions := k.cie.initialInstructions.take k.cie.initialInsnLength.toNat }

/-- The instructions `cie_eq` looks at. -/
def compared (k : Resolved info) : List BfdByte :=
  k.cie.initialInstructions.take k.cie.initialInsnLength.toNat

/-- What the routine named in the CIE is. -/
def target (k : Resolved info) : Personality × Option Int := (k.personality, k.personalityAddend)

end Resolved

/-- `cie_eq` -/
def CieEq (hash : HashKey → Nat) (k1 k2 : Resolved info) : Prop :=
  hash k1.hashKey = hash k2.hashKey ∧
  k1.cie.length = k2.cie.length ∧
  k1.cie.version = k2.cie.version ∧
  k1.cie.augmentation = k2.cie.augmentation ∧
  k1.cie.augmentation ≠ [letterE, letterH] ∧
  k1.cie.codeAlign = k2.cie.codeAlign ∧
  k1.cie.dataAlign = k2.cie.dataAlign ∧
  k1.cie.raColumn = k2.cie.raColumn ∧
  k1.cie.augmentationSize = k2.cie.augmentationSize ∧
  k1.personality = k2.personality ∧
  k1.sec.outputSection = k2.sec.outputSection ∧
  k1.cie.perEncoding = k2.cie.perEncoding ∧
  k1.cie.lsdaEncoding = k2.cie.lsdaEncoding ∧
  k1.cie.fdeEncoding = k2.cie.fdeEncoding ∧
  k1.cie.initialInsnLength = k2.cie.initialInsnLength ∧
  k1.cie.initialInsnLength.toNat ≤ 50 ∧
  k1.compared = k2.compared

instance (hash : HashKey → Nat) (k1 k2 : Resolved info) : Decidable (CieEq hash k1 k2) :=
  inferInstanceAs (Decidable (_ ∧ _))

/-- `find_merged_cie` for a CIE it has not seen: the table of kept ones behind it, and the pair of
the CIE and the one it is merged with. -/
def findMergedCie (hash : HashKey → Nat) (table : List (Resolved info)) (c : Accepted info) :
    List (Resolved info) × Option (Resolved info × Resolved info) :=
  if info.relocatable then (table, none)
  else match h : c.personality? with
    | none => (table, none)
    | some p =>
      let k : Resolved info := ⟨c, p, h⟩
      match table.find? fun new => CieEq hash new k with
      | some new => (table, some (k, new))
      | none => (table ++ [k], none)

/-- The merges of a run over CIEs in the order in which they are first used. -/
def merges (hash : HashKey → Nat) :
    List (Resolved info) → List (Accepted info) → List (Resolved info × Resolved info)
  | _, [] => []
  | table, c :: cs =>
    let (table, merged) := findMergedCie hash table c
    merged.toList ++ merges hash table cs

/-- Two CIEs that mean the same. -/
structure Same (k1 k2 : Resolved info) : Prop where
  version : k1.cie.version = k2.cie.version
  augmentation : k1.cie.augmentation = k2.cie.augmentation
  codeAlign : k1.cie.codeAlign = k2.cie.codeAlign
  dataAlign : k1.cie.dataAlign = k2.cie.dataAlign
  raColumn : k1.cie.raColumn = k2.cie.raColumn
  target : k1.target = k2.target
  perEncoding : k1.cie.perEncoding = k2.cie.perEncoding
  lsdaEncoding : k1.cie.lsdaEncoding = k2.cie.lsdaEncoding
  fdeEncoding : k1.cie.fdeEncoding = k2.cie.fdeEncoding
  insns : k1.cie.insns = k2.cie.insns

end FusionBinutils.Bfd.EhFrame
