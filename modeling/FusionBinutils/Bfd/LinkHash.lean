import FusionBinutils.Bfd.Linker

/-! What each change of the linker hash table leaves as it was. -/
namespace FusionBinutils.Bfd.Linker

variable {hash : Hash} {h i n : Nat} {u : HashU} {c : Callback} {e : HashEntry}

theorem u_eq_some : hash.u h = some u ↔ ∃ e, hash.entries[h]? = some e ∧ e.u = u := by
  unfold Hash.u
  exact Option.map_eq_some_iff

/-- An entry that is neither indirect nor a warning. -/
def Direct (u : HashU) : Prop := u.type ≠ .indirect ∧ u.type ≠ .warning

/-! Callbacks change nothing but the record of calls. -/

@[simp] theorem call_u : (hash.call c).u i = hash.u i := rfl
@[simp] theorem call_next : (hash.call c).next i = hash.next i := rfl
@[simp] theorem call_table : (hash.call c).table = hash.table := rfl
@[simp] theorem call_entries : (hash.call c).entries = hash.entries := rfl
@[simp] theorem call_undefs : (hash.call c).undefs = hash.undefs := rfl
@[simp] theorem call_undefsTail : (hash.call c).undefsTail = hash.undefsTail := rfl
@[simp] theorem call_assertFailed : (hash.call c).assertFailed = hash.assertFailed := rfl
@[simp] theorem call_calls : (hash.call c).calls = hash.calls ++ [c] := rfl

/-! A new type and union. -/

theorem setU_u :
    (hash.setU h u).u i = if i = h then (hash.u h).map fun _ => u else hash.u i := by
  simp only [Hash.setU, Hash.modify, Hash.u, List.getElem?_modify]
  by_cases hi : i = h
  · subst hi
    cases hash.entries[i]? <;> simp
  · simp [hi, Ne.symm hi]

theorem setU_u_self {v : HashU} (hu : hash.u h = some v) : (hash.setU h u).u h = some u := by
  rw [setU_u, if_pos rfl, hu]
  rfl

theorem setU_u_ne (hi : i ≠ h) : (hash.setU h u).u i = hash.u i := by
  rw [setU_u, if_neg hi]

@[simp] theorem setU_next : (hash.setU h u).next i = hash.next i := by
  simp only [Hash.setU, Hash.modify, Hash.next, List.getElem?_modify]
  by_cases hi : h = i
  · subst hi
    cases hash.entries[h]? <;> simp
  · simp [hi]

@[simp] theorem setU_table : (hash.setU h u).table = hash.table := rfl
@[simp] theorem setU_undefs : (hash.setU h u).undefs = hash.undefs := rfl
@[simp] theorem setU_undefsTail : (hash.setU h u).undefsTail = hash.undefsTail := rfl
@[simp] theorem setU_assertFailed : (hash.setU h u).assertFailed = hash.assertFailed := rfl
@[simp] theorem setU_calls : (hash.setU h u).calls = hash.calls := rfl
@[simp] theorem setU_length : (hash.setU h u).entries.length = hash.entries.length := by
  simp [Hash.setU, Hash.modify]

/-! A new link of the list. -/

@[simp] theorem setNext_u : (hash.setNext h n).u i = hash.u i := by
  simp only [Hash.setNext, Hash.modify, Hash.u, List.getElem?_modify]
  by_cases hi : h = i
  · subst hi
    cases hash.entries[h]? <;> simp
  · simp [hi]

theorem setNext_next_self (hu : (hash.u h).isSome) : (hash.setNext h n).next h = some n := by
  obtain ⟨u, hu⟩ := Option.isSome_iff_exists.mp hu
  obtain ⟨e, he, -⟩ := u_eq_some.mp hu
  simp [Hash.setNext, Hash.modify, Hash.next, he]

theorem setNext_next_ne (hi : i ≠ h) : (hash.setNext h n).next i = hash.next i := by
  simp [Hash.setNext, Hash.modify, Hash.next, hi.symm]

@[simp] theorem setNext_table : (hash.setNext h n).table = hash.table := rfl
@[simp] theorem setNext_undefs : (hash.setNext h n).undefs = hash.undefs := rfl
@[simp] theorem setNext_undefsTail : (hash.setNext h n).undefsTail = hash.undefsTail := rfl
@[simp] theorem setNext_assertFailed :
    (hash.setNext h n).assertFailed = hash.assertFailed := rfl
@[simp] theorem setNext_calls : (hash.setNext h n).calls = hash.calls := rfl

/-! An entry put on the list, or marked as referenced. -/

@[simp] theorem linkTail_u : (hash.linkTail h).u i = hash.u i := by
  unfold Hash.linkTail
  split
  · exact setNext_u
  · rfl

@[simp] theorem linkTail_table : (hash.linkTail h).table = hash.table := by
  unfold Hash.linkTail
  split <;> rfl

@[simp] theorem linkTail_calls : (hash.linkTail h).calls = hash.calls := by
  unfold Hash.linkTail
  split <;> rfl

@[simp] theorem addUndef_u : (hash.addUndef h).u i = hash.u i := linkTail_u
@[simp] theorem addUndef_next : (hash.addUndef h).next i = (hash.linkTail h).next i := rfl
@[simp] theorem addUndef_table : (hash.addUndef h).table = hash.table := linkTail_table
@[simp] theorem addUndef_calls : (hash.addUndef h).calls = hash.calls := linkTail_calls
@[simp] theorem addUndef_undefsTail : (hash.addUndef h).undefsTail = some h := rfl

@[simp] theorem markReferenced_u : (hash.markReferenced h).u i = hash.u i := by
  unfold Hash.markReferenced
  split
  · exact setNext_u
  · rfl

@[simp] theorem markReferenced_table : (hash.markReferenced h).table = hash.table := by
  unfold Hash.markReferenced
  split <;> rfl

@[simp] theorem markReferenced_calls : (hash.markReferenced h).calls = hash.calls := by
  unfold Hash.markReferenced
  split <;> rfl

/-! A new entry at the end. -/

theorem push_u {hash' : Hash} (he : hash'.entries = hash.entries ++ [e]) :
    hash'.u i = if i = hash.entries.length then some e.u else hash.u i := by
  unfold Hash.u
  rw [he]
  by_cases hi : i = hash.entries.length
  · subst hi
    simp
  · rw [if_neg hi]
    by_cases hlt : i < hash.entries.length
    · rw [List.getElem?_append_left hlt]
    · rw [List.getElem?_eq_none (by simp; omega), List.getElem?_eq_none (by omega)]

theorem push_next {hash' : Hash} (he : hash'.entries = hash.entries ++ [e]) :
    hash'.next i = if i = hash.entries.length then e.next else hash.next i := by
  unfold Hash.next
  rw [he]
  by_cases hi : i = hash.entries.length
  · subst hi
    simp
  · rw [if_neg hi]
    by_cases hlt : i < hash.entries.length
    · rw [List.getElem?_append_left hlt]
    · rw [List.getElem?_eq_none (by simp; omega), List.getElem?_eq_none (by omega)]

theorem ne_length_of_u (hu : hash.u i = some u) : i ≠ hash.entries.length := by
  rintro rfl
  simp [Hash.u] at hu

/-! Entries looked up. -/

variable {name : String}

theorem lookupCreate_known (ht : hash.table.lookup name = some h) :
    hash.lookupCreate name = (h, hash) := by
  simp [Hash.lookupCreate, ht]

theorem lookupCreate_lookup :
    (hash.lookupCreate name).2.table.lookup name = some (hash.lookupCreate name).1 := by
  unfold Hash.lookupCreate
  split
  · assumption
  · simp

theorem lookupCreate_call :
    (hash.call c).lookupCreate name
      = ((hash.lookupCreate name).1, (hash.lookupCreate name).2.call c) := by
  unfold Hash.lookupCreate
  simp only [call_table]
  split <;> rfl

@[simp] theorem lookupCreate_calls : (hash.lookupCreate name).2.calls = hash.calls := by
  unfold Hash.lookupCreate
  split <;> rfl

theorem lookupCreate_new (ht : hash.table.lookup name = none) :
    (hash.lookupCreate name).2.u (hash.lookupCreate name).1 = some .new := by
  simp [Hash.lookupCreate, ht, Hash.u]

end FusionBinutils.Bfd.Linker
