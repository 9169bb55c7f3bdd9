import FusionBinutils.Bfd.Reloc

/-! The fusion-core ELF linker back end (elf32-fusion.c). -/
namespace FusionBinutils.Bfd

open Opcode

/-- `elf_fusion_reloc_type`, in numeric order. -/
inductive RFusion where
  | none | r32 | li | lui | liPcrel | luiPcrel | sys | i | relative | load | store | branch
  | jump | jumpO
  deriving DecidableEq, Repr

def RFusion.number : RFusion → Nat
  | .none => 0
  | .r32 => 1
  | .li => 2
  | .lui => 3
  | .liPcrel => 4
  | .luiPcrel => 5
  | .sys => 6
  | .i => 7
  | .relative => 8
  | .load => 9
  | .store => 10
  | .branch => 11
  | .jump => 12
  | .jumpO => 13

def RFusion.ofNumber? : Nat → Option RFusion
  | 0 => some .none
  | 1 => some .r32
  | 2 => some .li
  | 3 => some .lui
  | 4 => some .liPcrel
  | 5 => some .luiPcrel
  | 6 => some .sys
  | 7 => some .i
  | 8 => some .relative
  | 9 => some .load
  | 10 => some .store
  | 11 => some .branch
  | 12 => some .jump
  | 13 => some .jumpO
  | _ => Option.none

def maskAll : Vma := 0xffffffff#64

/-- One row of `fusion_elf_howto_table`. In every row the bit position is 0, overflow is
`complain_overflow_dont` and `partial_inplace` is false. -/
def howtoRow (t : RFusion) (rightshift : Nat) (size : Int) (bitsize : Nat) (pcRelative : Bool)
    (name : String) (srcMask dstMask : Vma) (pcrelOffset : Bool) : RelocHowto where
  type := t.number
  rightshift := rightshift
  size := size
  bitsize := bitsize
  pcRelative := pcRelative
  bitpos := 0
  complainOnOverflow := .dont
  name := name
  partialInplace := false
  srcMask := srcMask
  dstMask := dstMask
  pcrelOffset := pcrelOffset

def fusionElfHowtoTable : List RelocHowto :=
  [howtoRow .none 0 3 0 false "R_FUSION_NONE" 0 0 false,
   howtoRow .r32 0 2 32 false "R_FUSION_32" 0xffffffff 0xffffffff false,
   howtoRow .li 0 2 32 false "R_FUSION_LI" 0 0x0000ffff false,
   howtoRow .lui 16 2 32 false "R_FUSION_LUI" 0 0x0000ffff false,
   howtoRow .liPcrel 0 2 32 false "R_FUSION_LI_PCREL" 0 (genLiImm maskImmLi) true,
   howtoRow .luiPcrel 0 2 32 false "R_FUSION_LUI_PCREL" 0 (genLiImm maskImmLi) true,
   howtoRow .sys 0 2 32 false "R_FUSION_SYS" 0xffffffff (genSysImm maskAll) false,
   howtoRow .i 0 2 32 false "R_FUSION_I" 0xffffffff 0xffffffff false,
   howtoRow .relative 0 2 32 true "R_FUSION_RELATIVE" 0 0xffffffff false,
   howtoRow .load 0 2 14 true "R_FUSION_LOAD" 0 (genLImm maskAll) false,
   howtoRow .store 0 2 32 true "R_FUSION_STORE" 0 (genSImm maskAll) false,
   howtoRow .branch 0 2 32 true "R_FUSION_BRANCH" 0 (genBImm maskAll) true,
   howtoRow .jump 0 2 32 true "R_FUSION_JUMP" 0 (genJImm maskAll) true,
   howtoRow .jumpO 0 2 32 false "R_FUSION_JUMP_O" 0 (genJImm maskAll) false]

/-- `Elf_Internal_Rela`. -/
structure Rela where
  rOffset : Vma
  rInfo : Vma
  rAddend : Vma
  deriving DecidableEq, Repr

/-- `ELF32_R_TYPE (rel->r_info)`. -/
def Rela.rType (rel : Rela) : Nat := (rel.rInfo &&& 0xff#64).toNat

/-- `ELF32_R_SYM (rel->r_info)`. -/
def Rela.rSym (rel : Rela) : Nat := (rel.rInfo >>> 8).toNat

/-- Or a prepared immediate onto the word at the relocation, with no look at the offset. -/
def orIntoWord (relocation dstMask : Vma) (c : Contents) (hit : Vma) : Contents :=
  bfdPutb32 ((relocation &&& dstMask) ||| bfdGetb32 c hit) c hit

/-- `fusion_final_link_relocate`. The branch case is reached by no caller in this file: it
overwrites the displacement by `N_ONES (bitsize)` computed in `int`. -/
def fusionFinalLinkRelocate (howto : RelocHowto) (sec : Asection) (c : Contents) (rel : Rela)
    (relocation : Vma) : Option (RelocStatus × Contents) :=
  match RFusion.ofNumber? howto.type with
  | some .load => some (.ok, orIntoWord (genLImm relocation) howto.dstMask c rel.rOffset)
  | some .store => some (.ok, orIntoWord (genSImm relocation) howto.dstMask c rel.rOffset)
  | some .branch =>
    let ones : BitVec 32 := (((1#32 <<< (howto.bitsize - 1)) - 1) <<< 1) ||| 1
    some (.ok, orIntoWord (genBImm (ones.signExtend 64)) howto.dstMask c rel.rOffset)
  | _ => bfdFinalLinkRelocate howto sec c rel.rOffset relocation rel.rAddend

/-- `perform_relocation`. -/
def performRelocation (howto : RelocHowto) (rel : Rela) (value : Vma) (sec : Asection)
    (c : Contents) : Option (RelocStatus × Contents) :=
  let value := if howto.pcRelative then value - (sec.secAddr + rel.rOffset) else value
  let value := value + rel.rAddend
  let store (value : Vma) : Option (RelocStatus × Contents) :=
    let go (get : Contents → Vma → Vma) (put : Vma → Contents → Vma → Contents) :=
      let word := get c rel.rOffset
      some (RelocStatus.ok,
        put ((word &&& ~~~howto.dstMask) ||| (value &&& howto.dstMask)) c rel.rOffset)
    match howto.bitsize with
    | 8 => go bfdGet8 bfdPut8
    | 16 => go bfdGetb16 bfdPutb16
    | 32 => go bfdGetb32 bfdPutb32
    | 64 => go bfdGetb64 bfdPutb64
    | _ => Option.none
  match RFusion.ofNumber? rel.rType with
  | some .load => store (genLImm value)
  | some .store => store (genSImm value)
  | some .branch => store (genBImm value)
  | some .relative | Option.none => some (.notsupported, c)
  | some _ => store value

/-- What `fusion_elf_relocate_section` does with a relocation once its symbol is known. -/
inductive Dispatch where
  /-- the switch's `default`, which leaves the function with this value -/
  | returns (value : Int)
  | applied (status : RelocStatus) (contents : Contents)

/-- The switch over `r_type`. -/
def dispatch (sec : Asection) (c : Contents) (rel : Rela) (relocation : Vma) : Option Dispatch :=
  match RFusion.ofNumber? rel.rType with
  | some .branch => do
    let howto ← fusionElfHowtoTable[rel.rType]?
    let (r, c) ← performRelocation howto rel relocation sec c
    return .applied r c
  | some .relative | Option.none => some (.returns RelocStatus.notsupported.toInt)
  | some _ => do
    let howto ← fusionElfHowtoTable[rel.rType]?
    let (r, c) ← fusionFinalLinkRelocate howto sec c rel relocation
    return .applied r c

/-! The loop over the relocations of a section. -/

/-- A call through `info->callbacks`. -/
inductive Callback where
  | relocOverflow (name howtoName : String) (rOffset : Vma)
  | undefinedSymbol (name : String) (rOffset : Vma) (isFatal : Bool)
  | warning (msg name : String) (rOffset : Vma)
  deriving DecidableEq, Repr

/-- The callbacks made for a status other than `bfd_reloc_ok`. -/
def reportStatus (r : RelocStatus) (name howtoName : String) (rOffset : Vma) : Callback :=
  match r with
  | .overflow => .relocOverflow name howtoName rOffset
  | .undefined => .undefinedSymbol name rOffset true
  | .outofrange => .warning "internal error: relocation out of range" name rOffset
  | .notsupported => .warning "internal error: unsupported relocation" name rOffset
  | .dangerous => .warning "internal error: dangerous relocation" name rOffset
  | _ => .warning "internal error: who knows what the hell happened, I don't" name rOffset

/-- The entry `RELOC_FOR_GLOBAL_SYMBOL` finds; indirect and warning entries point to another. -/
inductive LinkHash where
  | defined (name : String) (value : Vma) (sec : Option Asection)
  | undefweak (name : String)
  | unresolved (name : String) (visibilityDefault : Bool)
  | indirect (link : LinkHash)

/-- `info->unresolved_syms_in_objects`. -/
inductive UnresolvedSyms where
  | ignore | generateWarning | generateError
  deriving DecidableEq, Repr

structure LinkInfo where
  relocatable : Bool
  unresolvedSymsInObjects : UnresolvedSyms
  /-- `unwrap_hash_lookup`, when there is a `--wrap` table -/
  unwrapHashLookup : Option (LinkHash → LinkHash)
  /-- `_bfd_merged_section_offset` -/
  mergedSectionOffset : Asection → Vma → Asection × Vma

/-- `Elf_Internal_Sym` of a local symbol, with its name looked up. -/
structure LocalSym where
  name : Option String
  stValue : Vma
  isSection : Bool

/-- The symbol tables of the input file. There are `sh_info` local symbols, each with its
section; `elf_sym_hashes` may be missing. -/
structure InputBfd where
  locals : List (LocalSym × Asection)
  symHashes : Option (Nat → LinkHash)

/-- The symbol of a relocation: its value, its section, and the relocation with the addend
that `_bfd_elf_rela_local_sym` may have rewritten. -/
structure Resolved where
  relocation : Vma
  sec : Option Asection
  rel : Rela
  name : String
  callbacks : List Callback

/-- `_bfd_elf_rela_local_sym`. -/
def bfdElfRelaLocalSym (info : LinkInfo) (sym : LocalSym) (sec : Asection) (rel : Rela) :
    Vma × Asection × Rela :=
  let relocation := sec.outputVma + sec.outputOffset + sym.stValue
  if sec.merge ∧ sym.isSection ∧ sec.secInfoType = .merge then
    let (sec, offset) := info.mergedSectionOffset sec (sym.stValue + rel.rAddend)
    (relocation, sec,
      { rel with rAddend := offset - relocation + (sec.outputVma + sec.outputOffset) })
  else (relocation, sec, rel)

/-- `RELOC_FOR_GLOBAL_SYMBOL` from the hash entry on. -/
def relocForGlobalSymbol (info : LinkInfo) (rel : Rela) : LinkHash → Resolved
  | .indirect link => relocForGlobalSymbol info rel link
  | .defined name value sec =>
    let relocation :=
      match sec with
      | some s => if s.outputSection.isNone then 0 else value + s.outputVma + s.outputOffset
      | none => 0
    ⟨relocation, sec, rel, name, []⟩
  | .undefweak name => ⟨0, none, rel, name, []⟩
  | .unresolved name visibilityDefault =>
    if info.unresolvedSymsInObjects = .ignore ∧ visibilityDefault then ⟨0, none, rel, name, []⟩
    else if info.relocatable then ⟨0, none, rel, name, []⟩
    else
      let err := info.unresolvedSymsInObjects = .generateError ∨ ¬ visibilityDefault
      ⟨0, none, rel, name, [.undefinedSymbol name rel.rOffset (decide err)]⟩

/-- Find the symbol of a relocation. `none` is the macro's `return FALSE`. -/
def resolve (info : LinkInfo) (ibfd : InputBfd) (sec : Asection) (rel : Rela) :
    Option Resolved :=
  match ibfd.locals[rel.rSym]? with
  | some (sym, symSec) =>
    let (relocation, symSec, rel) := bfdElfRelaLocalSym info sym symSec rel
    some ⟨relocation, some symSec, rel, sym.name.getD symSec.name, []⟩
  | none =>
    match ibfd.symHashes with
    | none => none
    | some hashes =>
      let h := hashes (rel.rSym - ibfd.locals.length)
      let h :=
        match info.unwrapHashLookup with
        | some unwrap => if sec.debugging then unwrap h else h
        | none => h
      some (relocForGlobalSymbol info rel h)

def Resolved.discarded (res : Resolved) : Bool := (res.sec.map Asection.discarded).getD false

/-- What became of one relocation. -/
inductive Outcome where
  | applied
  | reported (r : RelocStatus)
  /-- against a discarded section: the field was cleared instead -/
  | cleared
  /-- left alone by a relocatable link -/
  | kept
  deriving DecidableEq, Repr

/-- The sizes of the relocation headers that dropping a relocation shrinks. -/
structure RelHdrs where
  outSize : Vma
  inSize : Vma
  entsize : Vma

/-- The end of a run: the boolean returned, the section contents, the relocations left in the
array, and what happened to the relocations in order. -/
structure Run where
  ret : Int
  contents : Contents
  relocs : List Rela
  trace : List (Rela × Outcome)
  callbacks : List Callback

/-- Put one relocation's share in front of the rest of the run. -/
def Run.cons (left : List Rela) (rel : Rela) (o : Outcome) (cbs : List Callback) (run : Run) :
    Run :=
  { run with
    relocs := left ++ run.relocs
    trace := (rel, o) :: run.trace
    callbacks := cbs ++ run.callbacks }

/-- How one turn of the loop over the relocations ends. -/
inductive Turn where
  /-- the function returns, with the relocation as it stands -/
  | leaves (ret : Int) (rel : Rela) (callbacks : List Callback)
  /-- the loop goes on; `left` is what stays of the relocation in the array -/
  | goesOn (hdr : RelHdrs) (contents : Contents) (left : List Rela) (outcome : Outcome)
      (callbacks : List Callback)

/-- `RELOC_AGAINST_DISCARDED_SECTION`: clear the field and empty the relocation, or drop it. -/
def relocAgainstDiscardedSection (info : LinkInfo) (sec : Asection) (hdr : RelHdrs)
    (c : Contents) (rel : Rela) (res : Resolved) : Option Turn := do
  let howto ← fusionElfHowtoTable[rel.rType]?
  let c ← bfdClearContents howto sec c rel.rOffset
  if info.relocatable ∧ sec.debugging ∧ hdr.entsize < hdr.outSize then
    let hdr := { hdr with
      outSize := hdr.outSize - hdr.entsize, inSize := hdr.inSize - hdr.entsize }
    return .goesOn hdr c [] .cleared res.callbacks
  else
    return .goesOn hdr c [{ res.rel with rInfo := 0, rAddend := 0 }] .cleared res.callbacks

/-- The body of the loop. Reading a howto outside the table is `none`. -/
def relocateEntry (info : LinkInfo) (ibfd : InputBfd) (sec : Asection) (hdr : RelHdrs)
    (c : Contents) (rel : Rela) : Option Turn :=
  match resolve info ibfd sec rel with
  | none => some (.leaves 0 rel [])
  | some res =>
    if res.discarded then relocAgainstDiscardedSection info sec hdr c rel res
    else if info.relocatable then some (.goesOn hdr c [res.rel] .kept res.callbacks)
    else do
      match ← dispatch sec c res.rel res.relocation with
      | .returns value => return .leaves value res.rel res.callbacks
      | .applied r c =>
        let howto ← fusionElfHowtoTable[rel.rType]?
        let report := reportStatus r res.name howto.name rel.rOffset
        if r = .ok then return .goesOn hdr c [res.rel] .applied res.callbacks
        else return .goesOn hdr c [res.rel] (.reported r) (res.callbacks ++ [report])

/-- `fusion_elf_relocate_section`. -/
def fusionElfRelocateSection (info : LinkInfo) (ibfd : InputBfd) (sec : Asection) :
    RelHdrs → Contents → List Rela → Option Run
  | _, c, [] => some ⟨1, c, [], [], []⟩
  | hdr, c, rel :: rest => do
    match ← relocateEntry info ibfd sec hdr c rel with
    | .leaves ret rel cbs => return ⟨ret, c, rel :: rest, [], cbs⟩
    | .goesOn hdr c left o cbs =>
      let run ← fusionElfRelocateSection info ibfd sec hdr c rest
      return run.cons left rel o cbs

end FusionBinutils.Bfd
