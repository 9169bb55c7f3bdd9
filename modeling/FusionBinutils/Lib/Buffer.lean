import Mathlib.Data.List.Basic

/-! A buffer as the function from its places to what stands there. -/
namespace FusionBinutils.Buffer
variable {α : Type*} {m m' : Nat → α} {a : α} {l : List α} {p q n k dst src : Nat}

/-- `n` cells are copied from `src` to `dst`, as they were before. -/
def memmove (m : Nat → α) (dst src n : Nat) : Nat → α :=
  fun p => if dst ≤ p ∧ p < dst + n then m (src + (p - dst)) else m p

def memset (m : Nat → α) (dst : Nat) (a : α) (n : Nat) : Nat → α :=
  fun p => if dst ≤ p ∧ p < dst + n then a else m p

/-- The cells of `l` are put at `dst`. -/
def store (m : Nat → α) (dst : Nat) (l : List α) : Nat → α :=
  fun p => if dst ≤ p then l[p - dst]?.getD (m p) else m p

/-- `n` cells from `p` on. -/
def load (m : Nat → α) (p n : Nat) : List α := (List.range n).map fun k => m (p + k)

theorem memmove_inside (hk : k < n) : memmove m dst src n (dst + k) = m (src + k) := by
  rw [memmove, if_pos ⟨by omega, by omega⟩, Nat.add_sub_cancel_left]

theorem memmove_outside (hp : p < dst ∨ dst + n ≤ p) : memmove m dst src n p = m p := by
  rw [memmove, if_neg (by omega)]

theorem memset_outside (hp : p < dst ∨ dst + n ≤ p) : memset m dst a n p = m p := by
  rw [memset, if_neg (by omega)]

theorem store_inside (hk : k < l.length) : store m dst l (dst + k) = l[k] := by
  rw [store, if_pos (by omega), Nat.add_sub_cancel_left, List.getElem?_eq_getElem hk]
  rfl

theorem store_outside (hp : p < dst ∨ dst + l.length ≤ p) : store m dst l p = m p := by
  unfold store
  split
  · rw [List.getElem?_eq_none (by omega)]
    rfl
  · rfl

@[simp]
theorem length_load : (load m p n).length = n := by simp [load]

theorem load_congr (h : ∀ k < n, m (p + k) = m' (q + k)) : load m p n = load m' q n := by
  apply List.map_congr_left
  intro k hk
  exact h k (List.mem_range.mp hk)

theorem load_store : load (store m p l) p l.length = l := by
  apply List.ext_getElem (by simp)
  intro k hk hl
  simp only [load, List.getElem_map, List.getElem_range, store_inside hl]

end FusionBinutils.Buffer
