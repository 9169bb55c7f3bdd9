import Mathlib.Data.List.Basic
import Mathlib.Tactic.Tauto

/-! Memory given by blocks of consecutive cells. -/
namespace FusionBinutils.Memory
variable {β : Type*} {a k : Nat} {b : β} {xs ys : List β}

/-- The cells from an address on. -/
structure Block (β : Type*) where
  start : Nat
  cells : List β

def Block.stop (blk : Block β) : Nat := blk.start + blk.cells.length

/-- A block has the cell `b` at the address `a`. -/
def Block.Has (blk : Block β) (a : Nat) (b : β) : Prop :=
  blk.start ≤ a ∧ blk.cells[a - blk.start]? = some b

/-- Some block has the cell. -/
def Holds (blocks : List (Block β)) (a : Nat) (b : β) : Prop := ∃ blk ∈ blocks, blk.Has a b

/-- The same cells at the same addresses. -/
def Same (blocks blocks' : List (Block β)) : Prop :=
  ∀ a b, Holds blocks a b ↔ Holds blocks' a b

/-- One block ends before the other starts. -/
def Apart (x y : Block β) : Prop := x.stop ≤ y.start ∨ y.stop ≤ x.start

instance : Std.Symm (Apart (β := β)) := ⟨fun _ _ => Or.symm⟩

theorem Block.Has.lt {blk : Block β} (h : blk.Has a b) : a < blk.stop := by
  obtain ⟨hle, hget⟩ := h
  obtain ⟨hlt, -⟩ := List.getElem?_eq_some_iff.mp hget
  simp only [Block.stop]
  omega

@[simp]
theorem holds_nil : ¬ Holds ([] : List (Block β)) a b := by simp [Holds]

@[simp]
theorem holds_cons {blk : Block β} {blocks : List (Block β)} :
    Holds (blk :: blocks) a b ↔ blk.Has a b ∨ Holds blocks a b := by simp [Holds]

@[simp]
theorem holds_append {l l' : List (Block β)} :
    Holds (l ++ l') a b ↔ Holds l a b ∨ Holds l' a b := by
  simp [Holds, or_and_right, exists_or]

/-- Cells that follow each other are one block or two. -/
theorem has_append : (Block.mk k (xs ++ ys)).Has a b ↔
    (Block.mk k xs).Has a b ∨ (Block.mk (k + xs.length) ys).Has a b := by
  simp only [Block.Has, List.getElem?_append]
  by_cases h : a - k < xs.length
  · rw [if_pos h]
    constructor
    · exact .inl
    · rintro (h' | ⟨hle, -⟩)
      · exact h'
      · omega
  · rw [if_neg h, Nat.sub_sub]
    constructor
    · rintro ⟨hle, hget⟩
      exact .inr ⟨by omega, hget⟩
    · rintro (⟨hle, hget⟩ | ⟨hle, hget⟩)
      · obtain ⟨hlt, -⟩ := List.getElem?_eq_some_iff.mp hget
        exact absurd hlt h
      · exact ⟨by omega, hget⟩

theorem Same.of_perm {l l' : List (Block β)} (h : l.Perm l') : Same l l' := by
  intro a b
  simp only [Holds, h.mem_iff]

@[simp]
theorem not_has_nil : ¬ (Block.mk k ([] : List β)).Has a b := by simp [Block.Has]

/-! Blocks that follow each other. -/

/-- The cells of some blocks, one after the other. -/
def cellsOf (l : List (Block β)) : List β := l.flatMap (·.cells)

/-- Each block starts where the one before it stops, the first one at `k`. -/
def Chain : Nat → List (Block β) → Prop
  | _, [] => True
  | k, blk :: l => blk.start = k ∧ Chain blk.stop l

theorem cellsOf_append (l l' : List (Block β)) : cellsOf (l ++ l') = cellsOf l ++ cellsOf l' :=
  List.flatMap_append

theorem Chain.snoc {l : List (Block β)} {blk : Block β} (h : Chain k l)
    (hblk : blk.start = k + (cellsOf l).length) : Chain k (l ++ [blk]) := by
  induction l generalizing k with
  | nil => exact ⟨by simpa [cellsOf] using hblk, trivial⟩
  | cons x l ih =>
    refine ⟨h.1, ih h.2 ?_⟩
    rw [hblk, cellsOf, List.flatMap_cons, List.length_append, Block.stop, h.1, cellsOf]
    omega

/-- A chain is one block with all its cells. -/
theorem Chain.has_iff {l : List (Block β)} (h : Chain k l) :
    (Block.mk k (cellsOf l)).Has a b ↔ Holds l a b := by
  induction l generalizing k with
  | nil => simp [cellsOf]
  | cons x l ih =>
    obtain ⟨hx, hl⟩ := h
    have hstop : k + x.cells.length = x.stop := by rw [Block.stop, hx]
    rw [cellsOf, List.flatMap_cons, has_append, hstop, ← cellsOf, ih hl, holds_cons, ← hx]

theorem Chain.mem {l : List (Block β)} {blk : Block β} (h : Chain k l) (hblk : blk ∈ l) :
    k ≤ blk.start ∧ blk.stop ≤ k + (cellsOf l).length := by
  induction l generalizing k with
  | nil => simp at hblk
  | cons x l ih =>
    obtain ⟨hx, hl⟩ := h
    have hcells : (cellsOf (x :: l)).length = x.cells.length + (cellsOf l).length := by
      simp [cellsOf]
    simp only [Block.stop] at hl ih ⊢
    rcases List.mem_cons.mp hblk with rfl | hblk
    · omega
    · have := ih hl hblk
      omega

theorem Chain.pairwise {l : List (Block β)} (h : Chain k l) :
    l.Pairwise fun x y => x.stop ≤ y.start := by
  induction l generalizing k with
  | nil => exact .nil
  | cons x l ih => exact List.pairwise_cons.mpr ⟨fun y hy => (h.2.mem hy).1, ih h.2⟩

end FusionBinutils.Memory
