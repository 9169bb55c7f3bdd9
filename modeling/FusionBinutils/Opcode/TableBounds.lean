import FusionBinutils.Gas.Register
import FusionBinutils.Opcode.Disassemble

/-! The places that the disassembler reads in its tables (opcodes/fusion-dis.c). -/
namespace FusionBinutils.Opcode

open Bfd

def fusionSpregName : List String :=
  ["CPUREV", "CPNUM", "CPO0", "n/a", "CPO0", "n/a", "CPO1", "n/a", "CPO3", "n/a", "STAT", "n/a",
   "OPCAR"]

/-- The tables of opcodes/fusion-opc.c that `print_insn_fusion` looks things up in. -/
inductive DisTable where
  | gpregName | spregName | insnR | insnI | insnL | insnLI | insnS | insnB | insnSYS
  deriving DecidableEq, Repr

/-- How many entries of a table are initialised. -/
def DisTable.size : DisTable → Nat
  | .gpregName => Gas.fusionGpregName.length
  | .spregName => fusionSpregName.length
  | .insnR => fusionInsnR.length
  | .insnI => fusionInsnI.length
  | .insnL => fusionInsnL.length
  | .insnLI => fusionInsnLI.length
  | .insnS => fusionInsnS.length
  | .insnB => fusionInsnB.length
  | .insnSYS => fusionInsnSYS.length

/-- An index into a table. -/
structure Lookup where
  table : DisTable
  index : InsnT
  deriving DecidableEq, Repr

def Lookup.Within (a : Lookup) : Prop := a.index.toNat < a.table.size

instance (a : Lookup) : Decidable a.Within := inferInstanceAs (Decidable (_ < _))

/-- The entry of an instruction table that a word selects. -/
def insnLookup (w : InsnT) : Option Lookup :=
  let opc := getOpc w
  if opc = opcInt then some ⟨.insnR, getAluop w⟩
  else if opc = opcImm then some ⟨.insnI, getAluop w⟩
  else if opc = opcLd then some ⟨.insnL, getFunctL w⟩
  else if opc = opcLi then some ⟨.insnLI, getDselLi w⟩
  else if opc = opcSt then some ⟨.insnS, getFunctS w⟩
  else if opc = opcJmp ∨ opc = opcJlnk then none
  else if opc = opcBranch then some ⟨.insnB, getFunctB w⟩
  else if opc = opcSys then some ⟨.insnSYS, getFunctSys w⟩
  else none

/-- The name that is looked up for an operand. -/
def PrintOp.lookup? : PrintOp → Option Lookup
  | .gpr n | .base n => some ⟨.gpregName, n⟩
  | .spr n => some ⟨.spregName, n⟩
  | .dec _ | .hex _ _ => none

def Printed.lookups : Printed → List Lookup
  | .insn _ ops => ops.filterMap PrintOp.lookup?
  | .ascii _ _ _ _ | .nothing => []

/-- All indices that are used for a word. -/
def wordLookups (w : InsnT) : List Lookup :=
  (insnLookup w).toList ++ (printWord w).elim [] Printed.lookups

/-- All indices that `print_insn_fusion` uses, given what `read_memory_func` answers. -/
def printLookups (addr : Vma) (buf : Except Int Contents) : List Lookup :=
  match buf with
  | .error _ => []
  | .ok buf => if addr > 0x2000000 then [] else wordLookups (wordAt buf 0)

/-- Every index is below the length of its table. -/
def IndexesWithin (addr : Vma) (buf : Except Int Contents) : Prop :=
  ∀ a ∈ printLookups addr buf, a.Within

/-- A word that names a special register beyond the table: `stspr` in `Rd`, `ldspr` in `RSa`. -/
def NamesNoSpr (w : InsnT) : Prop :=
  getOpc w = opcSys ∧
    (getFunctSys w = 0x02 ∧ fusionSpregName.length ≤ (getRd w).toNat ∨
      getFunctSys w = 0x03 ∧ fusionSpregName.length ≤ (getRsa w).toNat)

instance (w : InsnT) : Decidable (NamesNoSpr w) := inferInstanceAs (Decidable (_ ∧ _))

variable {w : InsnT}

/-! The fields that select registers and rows. -/

@[simp]
theorem rd_within (w : InsnT) : (Lookup.mk .gpregName (getRd w)).Within := by
  have h := getRd_toNat (Nat.le_refl 32) w
  change _ < 32
  dsimp only
  omega

@[simp]
theorem rsa_within (w : InsnT) : (Lookup.mk .gpregName (getRsa w)).Within := by
  have h := getRsa_toNat (Nat.le_refl 32) w
  change _ < 32
  dsimp only
  omega

@[simp]
theorem rsb_within (w : InsnT) : (Lookup.mk .gpregName (getRsb w)).Within := by
  have h := getRsb_toNat (Nat.le_refl 32) w
  change _ < 32
  dsimp only
  omega

/-- The row of a table at an index. -/
theorem row_of_lt {l : List FusionOpcInfo} {n : Nat} (h : n < l.length) : ∃ r, l[n]? = some r :=
  ⟨l[n], List.getElem?_eq_getElem h⟩

theorem insnR_row (w : InsnT) : (getAluop w).toNat < fusionInsnR.length := by
  have h := getAluop_toNat (Nat.le_refl 32) w
  change _ < 17
  omega

theorem insnI_row (w : InsnT) : (getAluop w).toNat < fusionInsnI.length := by
  have h := getAluop_toNat (Nat.le_refl 32) w
  change _ < 16
  omega

theorem insnL_row (w : InsnT) : (getFunctL w).toNat < fusionInsnL.length := by
  have h := getFunctL_toNat (Nat.le_refl 32) w
  change _ < 4
  omega

theorem insnLI_row (w : InsnT) : (getDselLi w).toNat < fusionInsnLI.length := by
  have h := getDselLi_toNat (Nat.le_refl 32) w
  change _ < 16
  omega

theorem insnS_row (w : InsnT) : (getFunctS w).toNat < fusionInsnS.length := by
  have h := getFunctS_toNat (Nat.le_refl 32) w
  change _ < 4
  omega

theorem insnB_row (w : InsnT) : (getFunctB w).toNat < fusionInsnB.length := by
  have h := getFunctB_toNat (Nat.le_refl 32) w
  change _ < 4
  omega

theorem insnSYS_row (w : InsnT) : (getFunctSys w).toNat < fusionInsnSYS.length := by
  have h := getFunctSys_toNat (Nat.le_refl 32) w
  have hlen : fusionInsnSYS.length = 256 := by
    rw [fusionInsnSYS, List.length_append, List.length_map, List.length_range]
    rfl
  omega

theorem insnLookup_within {a : Lookup} (h : insnLookup w = some a) : a.Within := by
  rw [insnLookup] at h
  split_ifs at h <;> cases h
  · exact insnR_row w
  · exact insnI_row w
  · exact insnL_row w
  · exact insnLI_row w
  · exact insnS_row w
  · exact insnB_row w
  · exact insnSYS_row w

/-! The names of the operands. -/

theorem printI_within (insn : FusionOpcInfo) (w : InsnT) :
    ∀ a ∈ (printI insn w).lookups, a.Within := by
  rw [printI]
  split <;> simp [Printed.lookups, PrintOp.lookup?]

theorem printJ_within (w : InsnT) : ∀ a ∈ (printJ w).lookups, a.Within := by
  rw [printJ]
  split_ifs <;> simp [Printed.lookups, PrintOp.lookup?]

/-- A special register is only named by the instructions that take two registers. -/
theorem printSys_within {insn : FusionOpcInfo} (h : ¬ NamesNoSpr w) (hopc : getOpc w = opcSys) :
    ∀ a ∈ (printSys insn w).lookups, a.Within := by
  have hspr {n : InsnT} (hn : n.toNat < 13) : (Lookup.mk .spregName n).Within := hn
  rw [printSys]
  split
  case h_4 =>
    split_ifs with h2 h3
    · have hlt : (getRd w).toNat < 13 := Nat.not_le.1 fun hge => h ⟨hopc, .inl ⟨h2, hge⟩⟩
      simp [Printed.lookups, PrintOp.lookup?, hspr hlt]
    · have hlt : (getRsa w).toNat < 13 := Nat.not_le.1 fun hge => h ⟨hopc, .inr ⟨h3, hge⟩⟩
      simp [Printed.lookups, PrintOp.lookup?, hspr hlt]
    · simp [Printed.lookups]
  all_goals simp [Printed.lookups, PrintOp.lookup?]

/-- What is printed for a word that names no special register beyond the table. -/
theorem printWord_within (h : ¬ NamesNoSpr w) :
    ∃ p, printWord w = some p ∧ ∀ a ∈ p.lookups, a.Within := by
  rw [printWord]
  split_ifs with hint himm hld hli hst hj hb hsys
  · obtain ⟨r, hr⟩ := row_of_lt (insnR_row w)
    rw [hr]
    exact ⟨_, rfl, by simp [Printed.lookups, PrintOp.lookup?]⟩
  · obtain ⟨r, hr⟩ := row_of_lt (insnI_row w)
    rw [hr]
    exact ⟨_, rfl, printI_within r w⟩
  · obtain ⟨r, hr⟩ := row_of_lt (insnL_row w)
    rw [hr]
    exact ⟨_, rfl, by simp [Printed.lookups, PrintOp.lookup?]⟩
  · obtain ⟨r, hr⟩ := row_of_lt (insnLI_row w)
    rw [hr]
    exact ⟨_, rfl, by simp [Printed.lookups, PrintOp.lookup?]⟩
  · obtain ⟨r, hr⟩ := row_of_lt (insnS_row w)
    rw [hr]
    exact ⟨_, rfl, by simp [Printed.lookups, PrintOp.lookup?]⟩
  · exact ⟨_, rfl, printJ_within w⟩
  · obtain ⟨r, hr⟩ := row_of_lt (insnB_row w)
    rw [hr]
    exact ⟨_, rfl, by simp [Printed.lookups, PrintOp.lookup?]⟩
  · obtain ⟨r, hr⟩ := row_of_lt (insnSYS_row w)
    rw [hr]
    exact ⟨_, rfl, printSys_within h hsys⟩
  all_goals exact ⟨_, rfl, by simp [Printed.lookups]⟩

/-- Such a word is looked up beyond the table. -/
theorem printWord_spr (h : NamesNoSpr w) :
    ∃ p, printWord w = some p ∧ ∃ a ∈ p.lookups, ¬ a.Within := by
  have hspr {n : InsnT} (hn : 13 ≤ n.toNat) : ¬ (Lookup.mk .spregName n).Within := Nat.not_lt.2 hn
  obtain ⟨hopc, ⟨hf, hge⟩ | ⟨hf, hge⟩⟩ := h
  · refine ⟨.insn "stspr" [.spr (getRd w), .gpr (getRsa w)], ?_, ⟨.spregName, getRd w⟩, .head _, hspr hge⟩
    rw [printWord, hopc, hf]
    change some (printSys ⟨"stspr", _, .rda, _, _, _, _⟩ w) = _
    rw [printSys, if_pos hf]
  · refine ⟨.insn "ldspr" [.gpr (getRd w), .spr (getRsa w)], ?_, ⟨.spregName, getRsa w⟩,
      .tail _ (.head _), hspr hge⟩
    rw [printWord, hopc, hf]
    change some (printSys ⟨"ldspr", _, .rda, _, _, _, _⟩ w) = _
    rw [printSys, hf]
    rfl

/-- The disassembler stays inside its tables exactly when it takes the word for data or the word
names no special register beyond the table of these. -/
theorem indexesWithin_iff (addr : Vma) (buf : Contents) :
    IndexesWithin addr (.ok buf) ↔ ¬ (addr ≤ 0x2000000 ∧ NamesNoSpr (wordAt buf 0)) := by
  rw [IndexesWithin, printLookups]
  by_cases haddr : addr > 0x2000000
  · rw [if_pos haddr]
    refine iff_of_true (by simp) ?_
    rintro ⟨hle, -⟩
    exact BitVec.not_le.2 haddr hle
  rw [if_neg haddr, wordLookups]
  have hle : addr ≤ 0x2000000 := BitVec.not_lt.1 haddr
  constructor
  · rintro hall ⟨-, hspr⟩
    obtain ⟨p, hp, a, ha, hnot⟩ := printWord_spr hspr
    rw [hp] at hall
    exact hnot (hall a (List.mem_append_right _ ha))
  · intro h a ha
    rcases List.mem_append.1 ha with ha | ha
    · exact insnLookup_within (Option.mem_toList.1 ha)
    · obtain ⟨p, hp, hall⟩ := printWord_within fun hspr => h ⟨hle, hspr⟩
      rw [hp] at ha
      exact hall a ha

/-- `stspr` with 13 in `Rd` at address 0. -/
theorem spr_index_outside : ¬ IndexesWithin 0 (.ok (bfdPutb32 0x81a00200 (fun _ => 0) 0)) := by
  rw [indexesWithin_iff]
  decide

end FusionBinutils.Opcode
