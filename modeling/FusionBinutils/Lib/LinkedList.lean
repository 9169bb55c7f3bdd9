import Mathlib.Data.List.Chain
import Mathlib.Data.List.Nodup
import Mathlib.Logic.Function.Basic

/-! Lists linked through a field of their cells, with a head and a tail pointer. -/
namespace FusionBinutils.LinkedList

variable {α : Type*} {next next' : α → Option α} {head tail : Option α} {l : List α} {a b : α}

/-- The cells `l` are linked by `next`, from `head` to `tail`. -/
structure Linked (next : α → Option α) (head tail : Option α) (l : List α) : Prop where
  head : l.head? = head
  tail : l.getLast? = tail
  nodup : l.Nodup
  chain : l.IsChain fun a b => next a = some b
  stop : ∀ a, l.getLast? = some a → next a = none

theorem Linked.empty (next : α → Option α) : Linked next none none [] :=
  ⟨rfl, rfl, List.nodup_nil, .nil, by simp⟩

theorem Linked.congr (h : Linked next head tail l) (hn : ∀ a ∈ l, next' a = next a) :
    Linked next' head tail l := by
  refine ⟨h.head, h.tail, h.nodup, ?_, ?_⟩
  · refine List.IsChain.imp_of_mem_imp (fun a b ha _ hab => ?_) h.chain
    rw [hn a ha, hab]
  · intro a ha
    rw [hn a (List.mem_of_getLast? ha), h.stop a ha]

/-- A cell without a link is the last one. -/
theorem Linked.last_of_none (h : Linked next head tail l) (ha : a ∈ l) (hn : next a = none) :
    tail = some a := by
  obtain ⟨pre, post, rfl⟩ := List.append_of_mem ha
  cases post with
  | nil =>
    rw [← h.tail]
    simp
  | cons c post =>
    have hc := h.chain
    rw [List.isChain_append, List.isChain_cons_cons] at hc
    rw [hc.2.1.1] at hn
    cases hn

/-- A new cell is put behind the last one. -/
theorem Linked.snoc (h : Linked next head tail l) (hb : b ∉ l) (hnb : next' b = none)
    (hlast : ∀ a, tail = some a → next' a = some b)
    (hn : ∀ a ∈ l, tail ≠ some a → next' a = next a) :
    Linked next' (if head = none then some b else head) (some b) (l ++ [b]) := by
  refine ⟨?_, by simp, ?_, ?_, ?_⟩
  · cases l with
    | nil => simp [← h.head]
    | cons c l => simp [← h.head]
  · rw [List.nodup_append]
    refine ⟨h.nodup, List.nodup_singleton b, ?_⟩
    intro x hx y hy hxy
    rw [List.mem_singleton] at hy
    exact hb (hy ▸ hxy ▸ hx)
  · rw [List.isChain_append]
    refine ⟨?_, .singleton b, ?_⟩
    · -- only the last link changes, and it leads to no cell of `l`
      refine List.IsChain.imp_of_mem_imp (fun a c ha _ hac => ?_) h.chain
      have ht : tail ≠ some a := by
        intro ht
        rw [h.stop a (h.tail.trans ht)] at hac
        cases hac
      rw [hn a ha ht, hac]
    · intro x hx y hy
      rw [Option.mem_def] at hx hy
      rw [List.head?_cons, Option.some.injEq] at hy
      rw [← hy]
      exact hlast x (h.tail.symm.trans hx)
  · intro a ha
    rw [List.getLast?_concat, Option.some.injEq] at ha
    rw [← ha, hnb]

/-- A longer list has another tail. -/
theorem Linked.eq_nil_of_tail {head' : Option α} {m : List α} (h : Linked next head tail l)
    (h' : Linked next' head' tail (l ++ m)) : m = [] := by
  cases hm : m.getLast? with
  | none => exact List.getLast?_eq_none_iff.mp hm
  | some x =>
    have hx : tail = some x := by
      rw [← h'.tail, List.getLast?_append, hm]
      rfl
    have hl : x ∈ l := List.mem_of_getLast? (h.tail.trans hx)
    exact absurd rfl ((List.nodup_append.mp h'.nodup).2.2 x hl x (List.mem_of_getLast? hm))

end FusionBinutils.LinkedList
