import FusionBinutils.Lib.Buffer

/-! Blocks of a buffer that are moved to new places without being reordered, first those that go
up and then those that go down. -/
namespace FusionBinutils.Compaction

open Buffer

variable {α : Type*} {m m' : Nat → α} {p : Nat}

/-- A block of `size` cells that is to be taken from one place to another. -/
structure Move where
  old : Nat
  new : Nat
  size : Nat

/-- The blocks lie one behind the other, where they are and where they go. -/
def Ordered (l : List Move) : Prop :=
  l.Pairwise fun x y => x.old + x.size ≤ y.old ∧ x.new + x.size ≤ y.new

/-- What the block was in `m` is at `place` in `m'`. -/
def HeldAt (m m' : Nat → α) (x : Move) (place : Nat) : Prop :=
  ∀ k < x.size, m' (place + k) = m (x.old + k)

def Move.up (x : Move) (m : Nat → α) : Nat → α :=
  if x.old < x.new then memmove m x.new x.old x.size else m

def Move.down (x : Move) (m : Nat → α) : Nat → α :=
  if x.new < x.old then memmove m x.new x.old x.size else m

/-- The pass that moves blocks up takes the last one first. -/
def upward (m : Nat → α) (l : List Move) : Nat → α := l.foldr Move.up m

def downward (m : Nat → α) (l : List Move) : Nat → α := l.foldl (fun m x => x.down m) m

theorem Move.up_outside {x : Move} (hp : p < x.new ∨ x.new + x.size ≤ p) : x.up m p = m p := by
  unfold Move.up
  split
  · exact memmove_outside hp
  · rfl

theorem Move.down_outside {x : Move} (hp : p < x.new ∨ x.new + x.size ≤ p) :
    x.down m p = m p := by
  unfold Move.down
  split
  · exact memmove_outside hp
  · rfl

/-- Below the first block that moves up nothing changes. -/
theorem upward_below {l : List Move} (hp : ∀ x ∈ l, x.old < x.new → p < x.new) :
    upward m l p = m p := by
  induction l with
  | nil => rfl
  | cons x l ih =>
    have hrest := ih fun y hy => hp y (List.mem_cons_of_mem x hy)
    rw [upward, List.foldr_cons, ← upward, ← hrest]
    unfold Move.up
    split
    · next hlt => exact memmove_outside (.inl (hp x List.mem_cons_self hlt))
    · rfl

theorem downward_below {l : List Move} (hp : ∀ x ∈ l, p < x.new) : downward m l p = m p := by
  induction l generalizing m with
  | nil => rfl
  | cons x l ih =>
    rw [downward, List.foldl_cons, ← downward, ih fun y hy => hp y (List.mem_cons_of_mem x hy)]
    exact Move.down_outside (.inl (hp x List.mem_cons_self))

/-- After the first pass every block is at the higher one of its places. -/
theorem heldAt_upward {l : List Move} (hl : Ordered l) :
    ∀ x ∈ l, HeldAt m (upward m l) x (max x.old x.new) := by
  induction l with
  | nil => intro x hx; cases hx
  | cons x l ih =>
    obtain ⟨hx, hl⟩ := List.pairwise_cons.mp hl
    intro y hy k hk
    rw [upward, List.foldr_cons, ← upward]
    rcases List.mem_cons.mp hy with rfl | hy
    · -- the blocks behind it have gone up, so they have not touched it
      have hold : upward m l (y.old + k) = m (y.old + k) := by
        apply upward_below
        intro z hz hlt
        have := hx z hz
        omega
      unfold Move.up
      split
      · next hlt => rw [Nat.max_eq_right (Nat.le_of_lt hlt), memmove_inside hk, hold]
      · next hge => rw [Nat.max_eq_left (by omega), hold]
    · rw [Move.up_outside ?_]
      · exact ih hl y hy k hk
      · have := hx y hy
        omega

/-- Blocks at the higher one of their places are taken to the new ones by the second pass. -/
theorem heldAt_downward {l : List Move} (hl : Ordered l)
    (h : ∀ x ∈ l, HeldAt m m' x (max x.old x.new)) :
    ∀ x ∈ l, HeldAt m (downward m' l) x x.new := by
  induction l generalizing m' with
  | nil => intro x hx; cases hx
  | cons x l ih =>
    obtain ⟨hx, hl⟩ := List.pairwise_cons.mp hl
    have hrest : ∀ y ∈ l, HeldAt m (x.down m') y (max y.old y.new) := by
      intro y hy k hk
      have hdown : x.down m' (max y.old y.new + k) = m' (max y.old y.new + k) := by
        apply Move.down_outside
        have := hx y hy
        omega
      rw [hdown]
      exact h y (List.mem_cons_of_mem x hy) k hk
    intro y hy k hk
    rw [downward, List.foldl_cons, ← downward]
    rcases List.mem_cons.mp hy with rfl | hy
    · have hfirst := h y List.mem_cons_self k hk
      rw [downward_below (fun z hz => by have := hx z hz; omega)]
      unfold Move.down
      split
      · next hlt =>
        rw [Nat.max_eq_left (Nat.le_of_lt hlt)] at hfirst
        rw [memmove_inside hk, hfirst]
      · next hge =>
        rw [Nat.max_eq_right (by omega)] at hfirst
        exact hfirst
    · exact ih hl hrest y hy k hk

/-- Both passes together lose nothing. -/
theorem heldAt_passes {l : List Move} (hl : Ordered l) :
    ∀ x ∈ l, HeldAt m (downward (upward m l) l) x x.new :=
  heldAt_downward hl (heldAt_upward hl)

end FusionBinutils.Compaction
