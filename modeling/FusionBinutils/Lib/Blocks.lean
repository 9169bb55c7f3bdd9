import Mathlib.Algebra.BigOperators.Group.List.Basic
import Mathlib.Algebra.GroupWithZero.Nat
import Mathlib.Data.List.Infix

/-! Blocks written one after the other into a buffer, and what stands at an offset of it. -/
namespace FusionBinutils.Blocks

variable {α β : Type*} {buf s t : List α} {off : Nat}

/-- The list `s` stands in the buffer at the offset `off`. -/
def StandsAt (buf : List α) (off : Nat) (s : List α) : Prop := s <+: buf.drop off

/-- A tail of what stands at an offset stands that much later. -/
theorem StandsAt.suffix (h : StandsAt buf off t) (hs : s <:+ t) :
    StandsAt buf (off + (t.length - s.length)) s := by
  obtain ⟨p, rfl⟩ := hs
  obtain ⟨r, hr⟩ := h
  refine ⟨r, ?_⟩
  rw [← List.drop_drop, ← hr, List.append_assoc, List.length_append, Nat.add_sub_cancel,
    List.drop_left]

theorem StandsAt.drop {d : Nat} (h : StandsAt buf off t) (hd : d ≤ t.length) :
    StandsAt buf (off + d) (t.drop d) := by
  have hs := h.suffix (List.drop_suffix d t)
  rwa [List.length_drop, Nat.sub_sub_self hd] at hs

/-- A block stands at the sum of the lengths before it. -/
theorem standsAt_flatMap (f : β → List α) (pre post : List β) (b : β) :
    StandsAt ((pre ++ b :: post).flatMap f) (pre.map fun c => (f c).length).sum (f b) := by
  refine ⟨post.flatMap f, ?_⟩
  have hlen : (pre.flatMap f).length = (pre.map fun c => (f c).length).sum := by
    simp [List.length_flatMap]
  rw [List.flatMap_append, ← hlen, List.drop_left, List.flatMap_cons]

theorem standsAt_zero (s t : List α) : StandsAt (s ++ t) 0 s := List.prefix_append s t

theorem StandsAt.append_left (h : StandsAt buf off s) (p : List α) :
    StandsAt (p ++ buf) (p.length + off) s := by
  unfold StandsAt
  rwa [← List.drop_drop, List.drop_left]

theorem StandsAt.append_right (h : StandsAt buf off s) (t : List α) :
    StandsAt (buf ++ t) off s := by
  unfold StandsAt at h ⊢
  rw [List.drop_append]
  exact h.trans (List.prefix_append _ _)

/-- From the offset on there is nothing but `s`. -/
def Remains (buf : List α) (off : Nat) (s : List α) : Prop :=
  buf.drop off = s ∧ off + s.length = buf.length

theorem Remains.next (h : Remains buf off (s ++ t)) : Remains buf (off + s.length) t := by
  obtain ⟨hdrop, hlen⟩ := h
  rw [List.length_append] at hlen
  refine ⟨?_, by omega⟩
  rw [← List.drop_drop, hdrop, List.drop_left]

theorem remains_zero (s : List α) : Remains s 0 s := ⟨rfl, Nat.zero_add _⟩

/-- What a reader with an end of its own sees of what remains. -/
theorem Remains.take_drop {last : Nat} (h : Remains buf off (s ++ t))
    (hlast : off + s.length ≤ last) :
    ∃ r, (buf.take last).drop off = s ++ r := by
  refine ⟨t.take (last - off - s.length), ?_⟩
  rw [List.drop_take, h.1, List.take_append, List.take_of_length_le (by omega)]

end FusionBinutils.Blocks
