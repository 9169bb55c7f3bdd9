import FusionBinutils.Lib.Endian
import FusionBinutils.Opcode.Encoding
import Mathlib.Data.Fin.VecNotation

/-! ELF headers and symbols between memory and the file (elfcode.h), and the numbers that do not
fit their sixteen bits. -/
namespace FusionBinutils.Bfd.Elfcode
open FusionBinutils.Bfd

/-- An array of `n` bytes in an external structure. -/
abbrev Field (n : Nat) := { bytes : List BfdByte // bytes.length = n }

/-- What the swapping routines and `elf_object_p` ask of the target vector. -/
structure Target where
  /-- `ARCH_SIZE` is 64 -/
  arch64 : Bool
  bfdHeaderBigEndian : Bool
  signExtendVma : Bool
  /-- `s->arch_size` -/
  archSize : Nat
  elfMachineCode : BitVec 32
  elfMachineAlt1 : BitVec 32
  elfMachineAlt2 : BitVec 32
  elfOsabi : BitVec 32
  /-- `bfd_default_set_arch_mach` knows the architecture -/
  archKnown : Bool

namespace Target

def wordBytes (t : Target) : Nat := if t.arch64 then 8 else 4

def elfclass (t : Target) : BfdByte := if t.arch64 then 2 else 1

theorem wordBytes_eq (t : Target) : t.wordBytes = 4 ∨ t.wordBytes = 8 := by
  rw [wordBytes]
  split
  · exact .inr rfl
  · exact .inl rfl

/-- `sizeof (Elf_External_Shdr)` -/
def sizeofShdr (t : Target) : BitVec 32 := if t.arch64 then 64 else 40

end Target

variable {n w : Nat}

/-- `H_PUT_8`, `H_PUT_16`, `H_PUT_32` and `H_PUT_64` -/
def hPut (t : Target) (n : Nat) (v : BitVec w) : Field n :=
  ⟨Endian.put t.bfdHeaderBigEndian n v.toNat, Endian.length_put _ _ _⟩

/-- The bits a field holds. -/
def bits (t : Target) (f : Field n) : BitVec (8 * n) :=
  .ofNat (8 * n) (Endian.get t.bfdHeaderBigEndian f.1)

/-- `H_GET_8`, `H_GET_16`, `H_GET_32` and `H_GET_64` -/
def hGet (t : Target) (f : Field n) : Vma := (bits t f).setWidth 64

/-- `H_GET_S32` and `H_GET_S64` -/
def hGetSigned (t : Target) (f : Field n) : Vma := (bits t f).signExtend 64

/-- An address, by the backend's `sign_extend_vma`. -/
def hGetVma (t : Target) (f : Field n) : Vma :=
  if t.signExtendVma then hGetSigned t f else hGet t f

@[simp]
theorem bits_hPut (t : Target) (v : BitVec w) : bits t (hPut t n v) = v.setWidth (8 * n) := by
  apply BitVec.eq_of_toNat_eq
  rw [bits, hPut, Endian.get_put, BitVec.toNat_ofNat, BitVec.toNat_setWidth, Nat.pow_mul]
  exact Nat.mod_mod _ _

theorem hGet_hPut (t : Target) (v : BitVec w) :
    hGet t (hPut t n v) = (v.setWidth (8 * n)).setWidth 64 := by rw [hGet, bits_hPut]

def shnUndef : BitVec 32 := 0
def shnLoreserve : BitVec 32 := -0x100
def shnXindex : BitVec 32 := -1
def pnXnum : BitVec 32 := 0xffff

theorem low_loreserve : shnLoreserve &&& 0xffff = 0xff00#32 := rfl

theorem low_xindex : shnXindex &&& 0xffff = 0xffff#32 := rfl

/-! Symbols -/

/-- `Elf_Internal_Sym` -/
structure InternalSym where
  stValue : Vma
  stSize : Vma
  stName : BitVec 64
  stInfo : BfdByte
  stOther : BfdByte
  stTargetInternal : BfdByte
  stShndx : BitVec 32

/-- `Elf32_External_Sym` and `Elf64_External_Sym`, with words of `word` bytes -/
structure ExternalSym (word : Nat) where
  stName : Field 4
  stValue : Field word
  stSize : Field word
  stInfo : Field 1
  stOther : Field 1
  stShndx : Field 2

/-- `elf_swap_symbol_in`; `none` is its failure. -/
def elfSwapSymbolIn (t : Target) (src : ExternalSym t.wordBytes) (pshn : Option (Field 4)) :
    Option InternalSym :=
  let dst : InternalSym := {
    stName := hGet t src.stName
    stValue := hGetVma t src.stValue
    stSize := hGet t src.stSize
    stInfo := (hGet t src.stInfo).setWidth 8
    stOther := (hGet t src.stOther).setWidth 8
    stShndx := (hGet t src.stShndx).setWidth 32
    stTargetInternal := 0 }
  if dst.stShndx = shnXindex &&& 0xffff then
    match pshn with
    | none => none
    | some shndx => some { dst with stShndx := (hGet t shndx).setWidth 32 }
  else if dst.stShndx ≥ shnLoreserve &&& 0xffff then
    some { dst with stShndx := dst.stShndx + (shnLoreserve - (shnLoreserve &&& 0xffff)) }
  else some dst

/-- `elf_swap_symbol_out`, with the index word it is handed; `none` is its `abort`. -/
def elfSwapSymbolOut (t : Target) (src : InternalSym) (shndx : Option (Field 4)) :
    Option (ExternalSym t.wordBytes × Option (Field 4)) :=
  let dst (tmp : BitVec 32) : ExternalSym t.wordBytes := {
    stName := hPut t 4 src.stName
    stValue := hPut t t.wordBytes src.stValue
    stSize := hPut t t.wordBytes src.stSize
    stInfo := hPut t 1 src.stInfo
    stOther := hPut t 1 src.stOther
    stShndx := hPut t 2 tmp }
  let tmp := src.stShndx
  if tmp ≥ shnLoreserve &&& 0xffff ∧ tmp < shnLoreserve then
    match shndx with
    | none => none
    | some _ => some (dst (shnXindex &&& 0xffff), some (hPut t 4 tmp))
  else some (dst tmp, shndx)

/-- A number as a word of the file keeps it. -/
def kept (t : Target) (v : Vma) : Vma := (v.setWidth (8 * t.wordBytes)).setWidth 64

/-- An address as a word of the file keeps it. -/
def keptVma (t : Target) (v : Vma) : Vma :=
  if t.signExtendVma then (v.setWidth (8 * t.wordBytes)).signExtend 64 else kept t v

@[simp]
theorem hGet_word (t : Target) (v : Vma) : hGet t (hPut t t.wordBytes v) = kept t v :=
  hGet_hPut t v

@[simp]
theorem hGetVma_word (t : Target) (v : Vma) : hGetVma t (hPut t t.wordBytes v) = keptVma t v := by
  rw [hGetVma, keptVma, hGetSigned, bits_hPut, hGet_word]

/-- Thirty-two bits survive a word of either size. -/
theorem kept_setWidth (t : Target) (v : BitVec 32) : kept t (v.setWidth 64) = v.setWidth 64 := by
  apply BitVec.eq_of_toNat_eq
  have h := v.isLt
  simp only [kept, BitVec.toNat_setWidth]
  rcases t.wordBytes_eq with hw | hw <;> rw [hw] <;> omega

@[simp]
theorem hGet_byte (t : Target) (v : BfdByte) : (hGet t (hPut t 1 v)).setWidth 8 = v := by
  rw [hGet_hPut]
  apply BitVec.eq_of_toNat_eq
  have h := v.isLt
  simp only [BitVec.toNat_setWidth]
  omega

/-- Sixteen bits survive a field of two bytes. -/
theorem hGet_two {t : Target} {v : BitVec 32} (h : v ≤ 0xffff) :
    (hGet t (hPut t 2 v)).setWidth 32 = v := by
  rw [hGet_hPut]
  apply BitVec.eq_of_toNat_eq
  have hle : v.toNat ≤ 65535 := h
  simp only [BitVec.toNat_setWidth]
  omega

@[simp]
theorem hGet_four (t : Target) (v : BitVec 32) : (hGet t (hPut t 4 v)).setWidth 32 = v := by
  rw [hGet_hPut]
  apply BitVec.eq_of_toNat_eq
  have h := v.isLt
  simp only [BitVec.toNat_setWidth]
  omega

/-- The symbol as far as the file keeps it. -/
def keptSym (t : Target) (src : InternalSym) : InternalSym :=
  { src with
    stValue := keptVma t src.stValue
    stSize := kept t src.stSize
    stName := (src.stName.setWidth 32).setWidth 64
    stTargetInternal := 0 }

/-- Below the escapes, both sides keep the index as it is. -/
theorem small_index {x : BitVec 32} (h : ¬ x ≥ shnLoreserve &&& 0xffff) :
    x ≤ 0xffff ∧ x ≠ shnXindex &&& 0xffff := by
  rw [low_loreserve] at h
  rw [low_xindex]
  constructor <;> bv_omega

/-- A reserved index comes down to sixteen bits and goes back up. -/
theorem reserved_index (t : Target) {x : BitVec 32} (h : x ≥ shnLoreserve) (hx : x ≠ shnXindex) :
    let y := (hGet t (hPut t 2 x)).setWidth 32
    y ≠ shnXindex &&& 0xffff ∧ y ≥ shnLoreserve &&& 0xffff ∧
      y + (shnLoreserve - (shnLoreserve &&& 0xffff)) = x := by
  intro y
  have hy : y.toNat = x.toNat % 65536 := by
    have hlt := x.isLt
    simp only [y, hGet_hPut, BitVec.toNat_setWidth]
    omega
  rw [low_loreserve, low_xindex]
  rw [shnLoreserve] at h ⊢
  rw [shnXindex] at hx
  refine ⟨?_, ?_, ?_⟩ <;> bv_omega

/-- `elf_swap_symbol_in` undoes `elf_swap_symbol_out`, with or without an index word. -/
theorem swap_symbol_in_out (t : Target) {src : InternalSym} {shndx o : Option (Field 4)}
    {x : ExternalSym t.wordBytes} (hx : src.stShndx ≠ shnXindex)
    (h : elfSwapSymbolOut t src shndx = some (x, o)) :
    elfSwapSymbolIn t x o = some (keptSym t src) := by
  simp only [elfSwapSymbolOut] at h
  by_cases hesc : src.stShndx ≥ shnLoreserve &&& 0xffff ∧ src.stShndx < shnLoreserve
  · rw [if_pos hesc] at h
    cases shndx with
    | none => cases h
    | some word =>
      cases h
      have hmark : (hGet t (hPut t 2 (shnXindex &&& 0xffff))).setWidth 32 = shnXindex &&& 0xffff :=
        hGet_two (by decide)
      simp only [elfSwapSymbolIn, if_pos hmark]
      simp [keptSym, hGet_hPut t src.stName]
  · rw [if_neg hesc] at h
    cases h
    by_cases hlow : src.stShndx ≥ shnLoreserve &&& 0xffff
    · obtain ⟨hne, hge, hadd⟩ := reserved_index t (BitVec.not_lt.mp fun hlt => hesc ⟨hlow, hlt⟩) hx
      simp only [elfSwapSymbolIn, if_neg hne, if_pos hge, hadd]
      simp [keptSym, hGet_hPut t src.stName]
    · obtain ⟨hle, hne⟩ := small_index hlow
      simp only [elfSwapSymbolIn, hGet_two hle, if_neg hne, if_neg hlow]
      simp [keptSym, hGet_hPut t src.stName]

/-- With an index word at hand a symbol is always written. -/
theorem swap_symbol_out_some (t : Target) (src : InternalSym) (word : Field 4) :
    ∃ x o, elfSwapSymbolOut t src (some word) = some (x, some o) := by
  rw [elfSwapSymbolOut]
  split
  · exact ⟨_, _, rfl⟩
  · exact ⟨_, _, rfl⟩

/-! Headers -/

/-- `Elf_Internal_Ehdr` -/
structure InternalEhdr where
  eIdent : Fin 16 → BfdByte
  eEntry : Vma
  ePhoff : Vma
  eShoff : Vma
  eVersion : BitVec 64
  eFlags : BitVec 64
  eType : BitVec 16
  eMachine : BitVec 16
  eEhsize : BitVec 32
  ePhentsize : BitVec 32
  ePhnum : BitVec 32
  eShentsize : BitVec 32
  eShnum : BitVec 32
  eShstrndx : BitVec 32

/-- `Elf32_External_Ehdr` and `Elf64_External_Ehdr` -/
structure ExternalEhdr (word : Nat) where
  eIdent : Fin 16 → BfdByte
  eType : Field 2
  eMachine : Field 2
  eVersion : Field 4
  eEntry : Field word
  ePhoff : Field word
  eShoff : Field word
  eFlags : Field 4
  eEhsize : Field 2
  ePhentsize : Field 2
  ePhnum : Field 2
  eShentsize : Field 2
  eShnum : Field 2
  eShstrndx : Field 2

/-- `elf_swap_ehdr_in` -/
def elfSwapEhdrIn (t : Target) (src : ExternalEhdr t.wordBytes) : InternalEhdr where
  eIdent := src.eIdent
  eType := (hGet t src.eType).setWidth 16
  eMachine := (hGet t src.eMachine).setWidth 16
  eVersion := hGet t src.eVersion
  eEntry := hGetVma t src.eEntry
  ePhoff := hGet t src.ePhoff
  eShoff := hGet t src.eShoff
  eFlags := hGet t src.eFlags
  eEhsize := (hGet t src.eEhsize).setWidth 32
  ePhentsize := (hGet t src.ePhentsize).setWidth 32
  ePhnum := (hGet t src.ePhnum).setWidth 32
  eShentsize := (hGet t src.eShentsize).setWidth 32
  eShnum := (hGet t src.eShnum).setWidth 32
  eShstrndx := (hGet t src.eShstrndx).setWidth 32

/-- `elf_swap_ehdr_out` -/
def elfSwapEhdrOut (t : Target) (src : InternalEhdr) : ExternalEhdr t.wordBytes where
  eIdent := src.eIdent
  eType := hPut t 2 src.eType
  eMachine := hPut t 2 src.eMachine
  eVersion := hPut t 4 src.eVersion
  eEntry := hPut t t.wordBytes src.eEntry
  ePhoff := hPut t t.wordBytes src.ePhoff
  eShoff := hPut t t.wordBytes src.eShoff
  eFlags := hPut t 4 src.eFlags
  eEhsize := hPut t 2 src.eEhsize
  ePhentsize := hPut t 2 src.ePhentsize
  ePhnum := hPut t 2 (if src.ePhnum > pnXnum then pnXnum else src.ePhnum)
  eShentsize := hPut t 2 src.eShentsize
  eShnum := hPut t 2 (if src.eShnum ≥ shnLoreserve &&& 0xffff then shnUndef else src.eShnum)
  eShstrndx :=
    hPut t 2
      (if src.eShstrndx ≥ shnLoreserve &&& 0xffff then shnXindex &&& 0xffff else src.eShstrndx)

/-- `Elf_Internal_Shdr`, without the section and the contents it caches -/
structure InternalShdr where
  shName : BitVec 32
  shType : BitVec 32
  shFlags : Vma
  shAddr : Vma
  shOffset : Vma
  shSize : Vma
  shLink : BitVec 32
  shInfo : BitVec 32
  shAddralign : Vma
  shEntsize : Vma

/-- `Elf32_External_Shdr` and `Elf64_External_Shdr` -/
structure ExternalShdr (word : Nat) where
  shName : Field 4
  shType : Field 4
  shFlags : Field word
  shAddr : Field word
  shOffset : Field word
  shSize : Field word
  shLink : Field 4
  shInfo : Field 4
  shAddralign : Field word
  shEntsize : Field word

/-- `elf_swap_shdr_in` -/
def elfSwapShdrIn (t : Target) (src : ExternalShdr t.wordBytes) : InternalShdr where
  shName := (hGet t src.shName).setWidth 32
  shType := (hGet t src.shType).setWidth 32
  shFlags := hGet t src.shFlags
  shAddr := hGetVma t src.shAddr
  shOffset := hGet t src.shOffset
  shSize := hGet t src.shSize
  shLink := (hGet t src.shLink).setWidth 32
  shInfo := (hGet t src.shInfo).setWidth 32
  shAddralign := hGet t src.shAddralign
  shEntsize := hGet t src.shEntsize

/-- `elf_swap_shdr_out` -/
def elfSwapShdrOut (t : Target) (src : InternalShdr) : ExternalShdr t.wordBytes where
  shName := hPut t 4 src.shName
  shType := hPut t 4 src.shType
  shFlags := hPut t t.wordBytes src.shFlags
  shAddr := hPut t t.wordBytes src.shAddr
  shOffset := hPut t t.wordBytes src.shOffset
  shSize := hPut t t.wordBytes src.shSize
  shLink := hPut t 4 src.shLink
  shInfo := hPut t 4 src.shInfo
  shAddralign := hPut t t.wordBytes src.shAddralign
  shEntsize := hPut t t.wordBytes src.shEntsize

/-- Some fields in the first section header handle overflow of ehdr fields. -/
def overflowFields (h : InternalEhdr) (s0 : InternalShdr) : InternalShdr :=
  { s0 with
    shInfo := if h.ePhnum ≥ pnXnum then h.ePhnum else s0.shInfo
    shSize := if h.eShnum ≥ shnLoreserve &&& 0xffff then h.eShnum.setWidth 64 else s0.shSize
    shLink := if h.eShstrndx ≥ shnLoreserve &&& 0xffff then h.eShstrndx else s0.shLink }

/-- `elf_write_shdrs_and_ehdr`: the header and the section headers as they are written. -/
def elfWriteShdrsAndEhdr (t : Target) (h : InternalEhdr) (shdrs : List InternalShdr) :
    ExternalEhdr t.wordBytes × List (ExternalShdr t.wordBytes) :=
  (elfSwapEhdrOut t h,
    ((shdrs.modifyHead (overflowFields h)).take h.eShnum.toNat).map (elfSwapShdrOut t))

/-- How `elf_object_p` gives up. -/
inductive Reject
  | wrongFormat
  | noMatch
  deriving DecidableEq

/-- The flags `elf_object_p` sets in the bfd. -/
structure ObjectFlags where
  execP : Bool
  isDynamic : Bool
  dPaged : Bool

def etRel : BitVec 16 := 1
def etExec : BitVec 16 := 2
def etDyn : BitVec 16 := 3
def etCore : BitVec 16 := 4

/-- `elf_file_p` -/
def elfFileP (eIdent : Fin 16 → BfdByte) : Bool :=
  eIdent 0 == 0x7f && eIdent 1 == 0x45 && eIdent 2 == 0x4c && eIdent 3 == 0x46

/-- What `elf_object_p` checks of the header before it turns to the section headers. -/
def headerChecks (t : Target) (h : InternalEhdr) : Except Reject ObjectFlags :=
  if !elfFileP h.eIdent || h.eIdent 6 != 1 || h.eIdent 4 != t.elfclass then .error .wrongFormat
  else if h.eIdent 5 != (if t.bfdHeaderBigEndian then 2 else 1) then .error .wrongFormat
  else if h.eType = etCore then .error .wrongFormat
  else if h.eShoff = 0 ∧ h.eType = etRel then .error .wrongFormat
  else if h.eShentsize ≠ t.sizeofShdr ∧ h.eShnum ≠ 0 then .error .wrongFormat
  else if h.eShoff = 0 ∧ h.eShnum ≠ 0 then .error .wrongFormat
  else if t.archSize ≠ 8 * t.wordBytes then .error .wrongFormat
  else if t.elfMachineCode ≠ h.eMachine.setWidth 32 ∧
      (t.elfMachineAlt1 = 0 ∨ h.eMachine.setWidth 32 ≠ t.elfMachineAlt1) ∧
      (t.elfMachineAlt2 = 0 ∨ h.eMachine.setWidth 32 ≠ t.elfMachineAlt2) ∧
      t.elfMachineCode ≠ 0 then .error .wrongFormat
  else if !t.archKnown ∧ t.elfMachineCode ≠ 0 then .error .noMatch
  else if t.elfMachineCode ≠ 0 ∧ (h.eIdent 7).setWidth 32 ≠ t.elfOsabi ∧ t.elfOsabi ≠ 0 then
    .error .wrongFormat
  else .ok {
    execP := h.eType == etExec
    isDynamic := h.eType == etDyn
    dPaged := h.ePhnum > 0 }

/-- If the section count is zero, the actual count is in the first section header. -/
def resolveShnum (h : InternalEhdr) (s0 : InternalShdr) : Except Reject InternalEhdr :=
  if h.eShnum = shnUndef then
    let eShnum := s0.shSize.setWidth 32
    if eShnum ≥ shnLoreserve ∨ eShnum.setWidth 64 ≠ s0.shSize ∨ eShnum = 0 then
      .error .wrongFormat
    else .ok { h with eShnum }
  else .ok h

/-- And similarly for the string table index; its second check compares a number to itself. -/
def resolveShstrndx (h : InternalEhdr) (s0 : InternalShdr) : Except Reject InternalEhdr :=
  if h.eShstrndx = shnXindex &&& 0xffff then
    let eShstrndx := s0.shLink
    if eShstrndx ≠ s0.shLink then .error .wrongFormat else .ok { h with eShstrndx }
  else .ok h

/-- And program headers. -/
def resolvePhnum (h : InternalEhdr) (s0 : InternalShdr) : Except Reject InternalEhdr :=
  if h.ePhnum = pnXnum ∧ s0.shInfo ≠ 0 then
    let ePhnum := s0.shInfo
    if ePhnum ≠ s0.shInfo then .error .wrongFormat else .ok { h with ePhnum }
  else .ok h

/-- What `elf_object_p` knows before its size checks. -/
structure Object where
  ehdr : InternalEhdr
  /-- the first section header, where there is one -/
  shdr0 : Option InternalShdr
  flags : ObjectFlags

/-- `elf_object_p`, up to its check that the section headers can be read. The second argument is
the section header found at `e_shoff`. -/
def elfObjectP (t : Target) (xEhdr : ExternalEhdr t.wordBytes) (xShdr : ExternalShdr t.wordBytes) :
    Except Reject Object := do
  let iEhdr := elfSwapEhdrIn t xEhdr
  let flags ← headerChecks t iEhdr
  if iEhdr.eShoff ≠ 0 then
    let iShdr := elfSwapShdrIn t xShdr
    let iEhdr ← resolveShnum iEhdr iShdr
    let iEhdr ← resolveShstrndx iEhdr iShdr
    let iEhdr ← resolvePhnum iEhdr iShdr
    return { ehdr := iEhdr, shdr0 := some iShdr, flags }
  else return { ehdr := iEhdr, shdr0 := none, flags }

section ReadBack
variable {t : Target} {h i : InternalEhdr} {s0 : InternalShdr}

/-- The section header as it is written and read again. -/
abbrev swapped (t : Target) (s : InternalShdr) : InternalShdr :=
  elfSwapShdrIn t (elfSwapShdrOut t s)

theorem swapped_shnum : (elfSwapEhdrIn t (elfSwapEhdrOut t h)).eShnum =
    if h.eShnum ≥ shnLoreserve &&& 0xffff then shnUndef else h.eShnum := by
  apply hGet_two
  split
  · decide
  · next hlow => exact (small_index hlow).1

theorem swapped_shstrndx : (elfSwapEhdrIn t (elfSwapEhdrOut t h)).eShstrndx =
    if h.eShstrndx ≥ shnLoreserve &&& 0xffff then shnXindex &&& 0xffff else h.eShstrndx := by
  apply hGet_two
  split
  · decide
  · next hlow => exact (small_index hlow).1

theorem swapped_phnum : (elfSwapEhdrIn t (elfSwapEhdrOut t h)).ePhnum =
    if h.ePhnum > pnXnum then pnXnum else h.ePhnum := by
  apply hGet_two
  split
  · decide
  · next hlow => exact BitVec.not_lt.mp hlow

/-- A section count of `0xff00` and above comes back through `sh_size`. -/
theorem resolveShnum_swapped (hpos : 1 ≤ h.eShnum) (hlt : h.eShnum < shnLoreserve)
    (hi : i.eShnum = if h.eShnum ≥ shnLoreserve &&& 0xffff then shnUndef else h.eShnum) :
    resolveShnum i (swapped t (overflowFields h s0)) = .ok { i with eShnum := h.eShnum } := by
  have hne : h.eShnum ≠ 0 := by bv_omega
  by_cases hbig : h.eShnum ≥ shnLoreserve &&& 0xffff
  · have hsize : (swapped t (overflowFields h s0)).shSize = h.eShnum.setWidth 64 := by
      simp only [elfSwapShdrIn, elfSwapShdrOut, overflowFields, if_pos hbig, hGet_word,
        kept_setWidth]
    have hback : (h.eShnum.setWidth 64).setWidth 32 = h.eShnum := by
      apply BitVec.eq_of_toNat_eq
      simp
    rw [if_pos hbig] at hi
    simp only [resolveShnum, if_pos hi, hsize, hback]
    rw [if_neg]
    rintro (hge | hne' | hzero)
    · exact BitVec.not_le.mpr hlt hge
    · exact hne' rfl
    · exact hne hzero
  · rw [if_neg hbig] at hi
    rw [resolveShnum, if_neg (by rw [hi]; exact hne), ← hi]

/-- A string table index of `0xff00` and above comes back through `sh_link`. -/
theorem resolveShstrndx_swapped
    (hi : i.eShstrndx =
      if h.eShstrndx ≥ shnLoreserve &&& 0xffff then shnXindex &&& 0xffff else h.eShstrndx) :
    resolveShstrndx i (swapped t (overflowFields h s0)) =
      .ok { i with eShstrndx := h.eShstrndx } := by
  by_cases hbig : h.eShstrndx ≥ shnLoreserve &&& 0xffff
  · have hlink : (swapped t (overflowFields h s0)).shLink = h.eShstrndx := by
      simp only [elfSwapShdrIn, elfSwapShdrOut, overflowFields, if_pos hbig, hGet_four]
    rw [if_pos hbig] at hi
    simp only [resolveShstrndx, if_pos hi, hlink, ne_eq, not_true_eq_false, if_false]
  · rw [if_neg hbig] at hi
    rw [resolveShstrndx, if_neg (by rw [hi]; exact (small_index hbig).2), ← hi]

/-- A program header count of `0xffff` and above comes back through `sh_info`. -/
theorem resolvePhnum_swapped (hi : i.ePhnum = if h.ePhnum > pnXnum then pnXnum else h.ePhnum) :
    resolvePhnum i (swapped t (overflowFields h s0)) = .ok { i with ePhnum := h.ePhnum } := by
  by_cases hbig : h.ePhnum ≥ pnXnum
  · have hinfo : (swapped t (overflowFields h s0)).shInfo = h.ePhnum := by
      simp only [elfSwapShdrIn, elfSwapShdrOut, overflowFields, if_pos hbig, hGet_four]
    have hmark : i.ePhnum = pnXnum := by
      rw [hi]
      split
      · rfl
      · next hle => exact BitVec.le_antisymm (BitVec.not_lt.mp hle) hbig
    have hne : h.ePhnum ≠ 0 := by
      rw [pnXnum] at hbig
      bv_omega
    simp only [resolvePhnum, hinfo, if_pos (And.intro hmark hne), ne_eq, not_true_eq_false,
      if_false]
  · have hle : ¬ h.ePhnum > pnXnum := fun hgt => hbig (BitVec.le_of_lt hgt)
    rw [if_neg hle] at hi
    rw [resolvePhnum, if_neg, ← hi]
    rintro ⟨hmark, -⟩
    exact hbig (by rw [← hi, hmark]; exact BitVec.le_refl _)

theorem swapped_shoff_ne (hoff : h.eShoff.setWidth (8 * t.wordBytes) ≠ 0) :
    (elfSwapEhdrIn t (elfSwapEhdrOut t h)).eShoff ≠ 0 := by
  intro hzero
  have hkept : kept t h.eShoff = 0 := (hGet_word t h.eShoff).symm.trans hzero
  have hwidth : 8 * t.wordBytes ≤ 64 := by rcases t.wordBytes_eq with hw | hw <;> omega
  apply hoff
  have hback := congrArg (BitVec.setWidth (8 * t.wordBytes)) hkept
  rw [kept, BitVec.setWidth_setWidth_of_le _ hwidth, BitVec.setWidth_eq] at hback
  exact hback.trans (by simp)

/-- A field of two bytes keeps what fits it. -/
theorem hGet_half (t : Target) (v : BitVec 16) : (hGet t (hPut t 2 v)).setWidth 16 = v := by
  rw [hGet_hPut]
  apply BitVec.eq_of_toNat_eq
  have hlt := v.isLt
  simp only [BitVec.toNat_setWidth]
  omega

/-- A check that let a result through did not apply. -/
theorem ok_of_ite {α ε : Type} {c : Prop} [Decidable c] {r : ε} {x : Except ε α} {v : α}
    (hok : (if c then .error r else x) = .ok v) : ¬ c ∧ x = .ok v := by
  by_cases hc : c
  · rw [if_pos hc] at hok
    cases hok
  · rw [if_neg hc] at hok
    exact ⟨hc, hok⟩

/-- The checks of the header take no offence at the escapes. -/
theorem headerChecks_swapped {flags : ObjectFlags}
    (hoff : h.eShoff.setWidth (8 * t.wordBytes) ≠ 0) (hpos : 1 ≤ h.eShnum)
    (hok : headerChecks t h = .ok flags) :
    headerChecks t (elfSwapEhdrIn t (elfSwapEhdrOut t h)) = .ok flags := by
  have hident : (elfSwapEhdrIn t (elfSwapEhdrOut t h)).eIdent = h.eIdent := rfl
  have htype : (elfSwapEhdrIn t (elfSwapEhdrOut t h)).eType = h.eType := hGet_half t h.eType
  have hmachine : (elfSwapEhdrIn t (elfSwapEhdrOut t h)).eMachine = h.eMachine :=
    hGet_half t h.eMachine
  have hshoff := swapped_shoff_ne hoff
  have hshnum : h.eShnum ≠ 0 := by bv_omega
  have hpaged : (decide ((elfSwapEhdrIn t (elfSwapEhdrOut t h)).ePhnum > 0)) =
      decide (h.ePhnum > 0) := by
    rw [swapped_phnum]
    split
    · next hgt =>
      rw [pnXnum] at hgt
      exact decide_eq_decide.mpr ⟨fun _ => by bv_omega, fun _ => by decide⟩
    · rfl
  rw [headerChecks] at hok
  obtain ⟨hmagic, hok⟩ := ok_of_ite hok
  obtain ⟨hdata, hok⟩ := ok_of_ite hok
  obtain ⟨hcore, hok⟩ := ok_of_ite hok
  obtain ⟨-, hok⟩ := ok_of_ite hok
  obtain ⟨hentsize, hok⟩ := ok_of_ite hok
  obtain ⟨-, hok⟩ := ok_of_ite hok
  obtain ⟨hsize, hok⟩ := ok_of_ite hok
  obtain ⟨hcode, hok⟩ := ok_of_ite hok
  obtain ⟨harch, hok⟩ := ok_of_ite hok
  obtain ⟨hosabi, hok⟩ := ok_of_ite hok
  have hsizeof : h.eShentsize = t.sizeofShdr := by
    by_contra hne
    exact hentsize ⟨hne, hshnum⟩
  have hentry : (elfSwapEhdrIn t (elfSwapEhdrOut t h)).eShentsize = t.sizeofShdr := by
    rw [← hsizeof]
    apply hGet_two
    rw [hsizeof, Target.sizeofShdr]
    split <;> decide
  rw [headerChecks, hident, htype, hmachine, hentry, hpaged, if_neg hmagic, if_neg hdata,
    if_neg hcore, if_neg fun hc => hshoff hc.1, if_neg fun hc => hc.1 rfl,
    if_neg fun hc => hshoff hc.1, if_neg hsize, if_neg hcode, if_neg harch, if_neg hosabi]
  exact hok

/-- What the swapped header is missing comes back from the swapped section header. -/
theorem elfObjectP_swapped (hoff : h.eShoff.setWidth (8 * t.wordBytes) ≠ 0)
    (hpos : 1 ≤ h.eShnum) (hlt : h.eShnum < shnLoreserve) :
    elfObjectP t (elfSwapEhdrOut t h) (elfSwapShdrOut t (overflowFields h s0)) =
      (headerChecks t (elfSwapEhdrIn t (elfSwapEhdrOut t h))).map fun flags => {
        ehdr := { elfSwapEhdrIn t (elfSwapEhdrOut t h) with
          eShnum := h.eShnum
          eShstrndx := h.eShstrndx
          ePhnum := h.ePhnum }
        shdr0 := some (swapped t (overflowFields h s0))
        flags } := by
  have hshoff := swapped_shoff_ne hoff
  simp only [elfObjectP, if_pos hshoff, resolveShnum_swapped hpos hlt swapped_shnum]
  cases headerChecks t (elfSwapEhdrIn t (elfSwapEhdrOut t h)) with
  | error r => rfl
  | ok flags =>
    have hstr : resolveShstrndx
        { elfSwapEhdrIn t (elfSwapEhdrOut t h) with eShnum := h.eShnum }
        (swapped t (overflowFields h s0)) = _ := resolveShstrndx_swapped swapped_shstrndx
    have hph : resolvePhnum
        { elfSwapEhdrIn t (elfSwapEhdrOut t h) with
          eShnum := h.eShnum
          eShstrndx := h.eShstrndx }
        (swapped t (overflowFields h s0)) = _ := resolvePhnum_swapped swapped_phnum
    simp only [bind, Except.bind, hstr, hph]
    rfl

end ReadBack

/-- The extended numbers read back: the counts and the string table index of every header, through
the header and the first section header as they are written, and the section of every symbol. -/
theorem numbers_read_back (t : Target) :
    (∀ (h : InternalEhdr) (s0 : InternalShdr) (shdrs : List InternalShdr),
      h.eShoff.setWidth (8 * t.wordBytes) ≠ 0 → 1 ≤ h.eShnum → h.eShnum < shnLoreserve →
      h.eShstrndx < h.eShnum →
      ∃ xEhdr xShdr xShdrs,
        elfWriteShdrsAndEhdr t h (s0 :: shdrs) = (xEhdr, xShdr :: xShdrs) ∧
        elfObjectP t xEhdr xShdr = (headerChecks t (elfSwapEhdrIn t xEhdr)).map (fun flags => {
          ehdr := { elfSwapEhdrIn t xEhdr with
            eShnum := h.eShnum
            eShstrndx := h.eShstrndx
            ePhnum := h.ePhnum }
          shdr0 := some (elfSwapShdrIn t xShdr)
          flags }) ∧
        ∀ flags, headerChecks t h = .ok flags →
          headerChecks t (elfSwapEhdrIn t xEhdr) = .ok flags) ∧
    ∀ (src : InternalSym) (shndx : Option (Field 4)), src.stShndx ≠ shnXindex →
      (shndx.isSome → (elfSwapSymbolOut t src shndx).isSome) ∧
      ∀ x o, elfSwapSymbolOut t src shndx = some (x, o) →
        elfSwapSymbolIn t x o = some (keptSym t src) := by
  constructor
  · intro h s0 shdrs hoff hpos hlt _
    obtain ⟨count, hcount⟩ : ∃ count, h.eShnum.toNat = count + 1 :=
      ⟨h.eShnum.toNat - 1, by bv_omega⟩
    refine ⟨elfSwapEhdrOut t h, elfSwapShdrOut t (overflowFields h s0),
      (shdrs.take count).map (elfSwapShdrOut t), ?_, elfObjectP_swapped hoff hpos hlt,
      fun flags => headerChecks_swapped hoff hpos⟩
    rw [elfWriteShdrsAndEhdr, hcount]
    rfl
  · intro src shndx hx
    refine ⟨?_, fun x o => swap_symbol_in_out t hx⟩
    intro hsome
    obtain ⟨word, rfl⟩ := Option.isSome_iff_exists.mp hsome
    obtain ⟨x, o, hout⟩ := swap_symbol_out_some t src word
    rw [hout]
    rfl

/-- A little-endian 32-bit target that knows its machine. -/
def elf32Little : Target where
  arch64 := false
  bfdHeaderBigEndian := false
  signExtendVma := false
  archSize := 32
  elfMachineCode := 0xf5
  elfMachineAlt1 := 0
  elfMachineAlt2 := 0
  elfOsabi := 0
  archKnown := true

/-- The header of a relocatable file of 70000 sections. -/
def manySections : InternalEhdr where
  eIdent := ![0x7f, 0x45, 0x4c, 0x46, 1, 1, 1, 0, 0, 0, 0, 0, 0, 0, 0, 0]
  eEntry := 0
  ePhoff := 0
  eShoff := 52
  eVersion := 1
  eFlags := 0
  eType := etRel
  eMachine := 0xf5
  eEhsize := 52
  ePhentsize := 0
  ePhnum := 0xffff
  eShentsize := 40
  eShnum := 70000
  eShstrndx := 69999

def nullShdr : InternalShdr := ⟨0, 0, 0, 0, 0, 0, 0, 0, 0, 0⟩

theorem many_sections_read_back : ∃ xEhdr xShdr xShdrs,
    elfWriteShdrsAndEhdr elf32Little manySections [nullShdr] = (xEhdr, xShdr :: xShdrs) ∧
    (elfObjectP elf32Little xEhdr xShdr).map
      (fun o => (o.ehdr.eShnum, o.ehdr.eShstrndx, o.ehdr.ePhnum)) = .ok (70000, 69999, 0xffff) := by
  obtain ⟨xEhdr, xShdr, xShdrs, hwrite, hread, hchecks⟩ :=
    (numbers_read_back elf32Little).1 manySections nullShdr [] (by decide) (by decide) (by decide)
      (by decide)
  refine ⟨xEhdr, xShdr, xShdrs, hwrite, ?_⟩
  rw [hread, hchecks _ rfl]
  rfl

end FusionBinutils.Bfd.Elfcode
