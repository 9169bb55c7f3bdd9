import FusionBinutils.Bfd.LineMachine

/-! Runs of the line-number state machine: an opcode takes bytes and rows are never taken back. -/
namespace FusionBinutils.Bfd.LineMachine
variable {u : CompUnit} {lh : LineHead} {m m' : Machine} {n k : Nat}

theorem length_readBits_rest (w : Nat) (data : List BfdByte) (r s : Nat) (b : BfdByte) :
    (Leb128.readBits w data r s b).rest.length ≤ data.length := by
  induction data generalizing r s b with
  | nil => simp [Leb128.readBits]
  | cons c rest ih =>
    simp only [Leb128.readBits]
    split
    · simp
    · exact Nat.le_succ_of_le (ih _ _ _)

theorem length_readLeb128 (sign : Bool) (data : List BfdByte) :
    (readLeb128 sign data).2.length ≤ data.length := length_readBits_rest 64 data 0 0 0#8

theorem length_readString (buf : List BfdByte) : (readString buf).2.length ≤ buf.length := by
  unfold readString
  split
  · simp
  · split <;> (rw [List.length_drop]; omega)

theorem length_skipOperands (n : Nat) (p : List BfdByte) :
    (skipOperands n p).length ≤ p.length := by
  induction n generalizing p with
  | zero => exact le_rfl
  | succ n ih => exact (ih _).trans (length_readLeb128 false p)

/-- What every opcode keeps: it does not go back in the bytes or in the rows. -/
def Onward (m m' : Machine) : Prop :=
  m'.linePtr.length ≤ m.linePtr.length ∧ m.table.rows <+: m'.table.rows

theorem Onward.addLineInfo (b : Bool) : Onward m (m.addLineInfo b) :=
  ⟨le_rfl, List.prefix_append _ _⟩

theorem Onward.addOps (lh : LineHead) (adjust : Nat) : Onward m (m.addOps lh adjust) := by
  unfold Machine.addOps
  split <;> exact ⟨le_rfl, List.prefix_rfl⟩

theorem Onward.trans {a b c : Machine} (h : Onward a b) (h' : Onward b c) : Onward a c :=
  ⟨h'.1.trans h.1, h.2.trans h'.2⟩

theorem onward_special (adj : Nat) (h : special lh m adj = some m') : Onward m m' := by
  unfold special at h
  split at h
  · cases h
  · cases h
    exact (Onward.addOps lh _).trans (Onward.addLineInfo false)

theorem onward_defineFile (h : defineFile m = some m') : Onward m m' := by
  unfold defineFile at h
  obtain ⟨name, -, h⟩ := Option.bind_eq_some_iff.mp h
  cases h
  refine ⟨?_, List.prefix_rfl⟩
  have h1 := length_readString m.linePtr
  have h2 := length_readLeb128 false (readString m.linePtr).2
  have h3 := length_readLeb128 false (readLeb128 false (readString m.linePtr).2).2
  exact (length_readLeb128 false _).trans (h3.trans (h2.trans h1))

theorem onward_extendedOp {len op : Nat} (h : extendedOp u m len op = some m') : Onward m m' := by
  unfold extendedOp at h
  split at h
  · cases h
    exact Onward.addLineInfo true
  · cases h
    exact ⟨by simp, List.prefix_rfl⟩
  · exact onward_defineFile h
  · cases h
    exact ⟨length_readLeb128 false _, List.prefix_rfl⟩
  · rw [← Option.some.inj h]
    exact ⟨by simp only [List.length_drop]; omega, List.prefix_rfl⟩
  · cases h

theorem onward_extended (h : extended u m = some m') : Onward m m' := by
  simp only [extended] at h
  obtain ⟨hlen, hrows⟩ := onward_extendedOp h
  have hle := length_readLeb128 false m.linePtr
  rw [List.length_drop] at hlen
  exact ⟨by omega, hrows⟩

theorem onward_advancePc : Onward m (advancePc lh m) := by
  have hle := length_readLeb128 false m.linePtr
  obtain ⟨hlen, hrows⟩ : Onward { m with
      linePtr := (readLeb128 false m.linePtr).2
      address := if lh.maximumOpsPerInsn = 1 then m.address else 0 } (advancePc lh m) :=
    Onward.addOps _ _
  exact ⟨hlen.trans hle, hrows⟩

theorem onward_standardOp {op : Nat} (h : standardOp u lh m op = some m') : Onward m m' := by
  unfold standardOp at h
  split at h
  · exact onward_extended h
  · cases h
    exact Onward.addLineInfo false
  · cases h
    exact onward_advancePc
  · cases h
    exact ⟨length_readLeb128 true _, List.prefix_rfl⟩
  · cases h
    exact ⟨length_readLeb128 false _, List.prefix_rfl⟩
  · cases h
    exact ⟨length_readLeb128 false _, List.prefix_rfl⟩
  · cases h
    exact ⟨le_rfl, List.prefix_rfl⟩
  · cases h
    exact ⟨le_rfl, List.prefix_rfl⟩
  · split at h
    · cases h
    · cases h
      exact Onward.addOps _ _
  · cases h
    exact ⟨by simp, List.prefix_rfl⟩
  · cases h
    exact ⟨length_skipOperands _ _, List.prefix_rfl⟩

/-- Behind its first byte an opcode only goes on. -/
theorem onward_step (h : step u lh m = some m') :
    Onward { m with linePtr := m.linePtr.drop 1 } m' := by
  simp only [step] at h
  split at h
  · exact onward_special _ h
  · exact onward_standardOp h

/-- Where nothing is left an opcode is read as an unknown extended one. -/
theorem step_nil (hbase : 0 < lh.opcodeBase) (h : m.linePtr = []) : step u lh m = none := by
  have hne : lh.opcodeBase ≠ 0 := by omega
  simp [step, h, read1Byte, hne, standardOp, extended, extendedOp, readLeb128, Leb128.read, Leb128.readBits]

theorem step_length (hbase : 0 < lh.opcodeBase) (h : step u lh m = some m') :
    m'.linePtr.length < m.linePtr.length := by
  obtain ⟨hle, -⟩ := onward_step h
  have hne : m.linePtr ≠ [] := by
    intro hnil
    rw [step_nil hbase hnil] at h
    cases h
  have hpos := List.length_pos_iff.mpr hne
  simp only [List.length_drop] at hle
  omega

/-- How many turns of the loop a machine can ask for. -/
def turns (m : Machine) : Nat := 2 * m.linePtr.length + if m.endSequence then 2 else 1

theorem decodeLoop_eq (hbase : 0 < lh.opcodeBase) (hn : turns m ≤ n) (hk : turns m ≤ k) :
    decodeLoop u lh n m = decodeLoop u lh k m := by
  induction n generalizing m k with
  | zero => unfold turns at hn; split at hn <;> omega
  | succ n ih =>
    obtain ⟨k, rfl⟩ : ∃ k', k = k' + 1 := ⟨k - 1, by unfold turns at hk; split at hk <;> omega⟩
    simp only [decodeLoop]
    by_cases he : m.endSequence
    · rw [if_pos he, if_pos he]
      have hr : turns (m.restart lh) + 1 = turns m := by simp [turns, Machine.restart, he]
      split
      · rfl
      · exact ih (by omega) (by omega)
    · rw [if_neg he, if_neg he]
      cases hs : step u lh m with
      | none => rfl
      | some m' =>
        have hlen := step_length hbase hs
        have ht : turns m' + 1 ≤ turns m := by
          unfold turns
          rw [if_neg he]
          split <;> omega
        exact ih (by omega) (by omega)

theorem turns_le (m : Machine) : turns m ≤ 2 * m.linePtr.length + 2 := by
  unfold turns
  split <;> omega

/-- A run goes on behind an opcode. -/
theorem decodeLines_step (hbase : 0 < lh.opcodeBase) (he : m.endSequence = false)
    (h : step u lh m = some m') : decodeLines u lh m = decodeLines u lh m' := by
  have hlen := step_length hbase h
  have hm' := turns_le m'
  rw [decodeLines, decodeLines, decodeLoop, if_neg (by simp [he]), h, Option.bind_some]
  exact decodeLoop_eq hbase (by omega) hm'

/-- A run goes on in a new sequence. -/
theorem decodeLines_restart (hbase : 0 < lh.opcodeBase) (he : m.endSequence = true)
    (h : m.linePtr ≠ []) : decodeLines u lh m = decodeLines u lh (m.restart lh) := by
  have hr : turns (m.restart lh) ≤ 2 * m.linePtr.length + 1 := by simp [turns, Machine.restart]
  rw [decodeLines, decodeLines, decodeLoop, if_pos he, if_neg (by simpa using h)]
  exact decodeLoop_eq hbase hr (turns_le _)

theorem decodeLines_done (he : m.endSequence = true) (h : m.linePtr = []) :
    decodeLines u lh m = some m := by
  rw [decodeLines, decodeLoop, if_pos he, if_pos (by simp [h])]

theorem decodeLoop_rows (h : decodeLoop u lh n m = some m') : m.table.rows <+: m'.table.rows := by
  induction n generalizing m with
  | zero => cases h
  | succ n ih =>
    simp only [decodeLoop] at h
    split at h
    · split at h
      · cases h
        exact List.prefix_rfl
      · have hrows := ih h
        exact hrows
    · obtain ⟨m₁, hs, h⟩ := Option.bind_eq_some_iff.mp h
      exact (onward_step hs).2.trans (ih h)

/-- The rows at any point of a run are the first ones of its result. -/
theorem decodeLines_rows (h : decodeLines u lh m = some m') : m.table.rows <+: m'.table.rows :=
  decodeLoop_rows h

end FusionBinutils.Bfd.LineMachine
