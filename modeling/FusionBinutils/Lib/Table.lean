import Mathlib.Data.List.Basic

/-! Sparse arrays: keys with their values, searched from the front and grown at the end. -/
namespace FusionBinutils

variable {κ β γ : Type*} [DecidableEq κ]

abbrev Table (κ β : Type*) := List (κ × β)

namespace Table

/-- The value of the first entry of a key. -/
def get? : Table κ β → κ → Option β
  | [], _ => none
  | (k, v) :: t, key => if k = key then some v else get? t key

/-- The entry of a key is changed; a key that is not listed yet gets a new entry. -/
def upsert (f : Option β → β) (key : κ) : Table κ β → Table κ β
  | [] => [(key, f none)]
  | (k, v) :: t => if k = key then (k, f (some v)) :: t else (k, v) :: upsert f key t

theorem get?_upsert (f : Option β → β) (key key' : κ) (t : Table κ β) :
    get? (upsert f key t) key' = if key = key' then some (f (get? t key)) else get? t key' := by
  induction t with
  | nil => simp [upsert, get?]
  | cons e t ih =>
    obtain ⟨k, v⟩ := e
    by_cases hk : k = key
    · subst hk
      simp only [upsert, if_true, get?]
      by_cases hk' : k = key'
      · rw [if_pos hk', if_pos hk']
      · rw [if_neg hk', if_neg hk', if_neg hk']
    · simp only [upsert, if_neg hk, get?, ih]
      by_cases hk' : k = key'
      · subst hk'
        rw [if_pos rfl, if_neg (Ne.symm hk), if_pos rfl]
      · rw [if_neg hk', if_neg hk']

theorem get?_map (f : β → γ) (key : κ) (t : Table κ β) :
    get? (t.map fun e => (e.1, f e.2)) key = (get? t key).map f := by
  induction t with
  | nil => rfl
  | cons e t ih =>
    simp only [List.map_cons, get?, ih]
    split <;> rfl

end Table

end FusionBinutils
