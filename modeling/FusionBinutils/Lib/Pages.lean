import Mathlib.Data.Finset.Card
import Mathlib.Order.Interval.Finset.Nat
import Mathlib.Tactic.Ring

/-! The pages of a given size that a range of addresses touches. Nothing here refers to a
program. -/
namespace FusionBinutils.Pages

variable {c base base' length : Nat}

/-- The pages of `c` addresses with an address of the range in them. -/
def touched (c base length : Nat) : Finset Nat :=
  (Finset.Ico base (base + length)).image (· / c)

/-- How many pages the range touches. -/
def count (c base length : Nat) : Nat := (touched c base length).card

theorem count_zero : count c base 0 = 0 := by
  unfold count touched
  rw [Nat.add_zero, Finset.Ico_self]
  rfl

/-- The pages from that of the first address to that of the last. -/
theorem touched_eq (hc : 0 < c) (hlen : 0 < length) :
    touched c base length = Finset.Icc (base / c) ((base + length - 1) / c) := by
  ext p
  simp only [touched, Finset.mem_image, Finset.mem_Ico, Finset.mem_Icc]
  constructor
  · rintro ⟨x, ⟨hge, hlt⟩, rfl⟩
    exact ⟨Nat.div_le_div_right hge, Nat.div_le_div_right (by omega)⟩
  · rintro ⟨hge, hle⟩
    have hlast := (Nat.le_div_iff_mul_le hc).mp hle
    rcases Nat.lt_or_ge (p * c) base with hlt | hle'
    · refine ⟨base, ⟨Nat.le_refl _, by omega⟩, Nat.le_antisymm hge ?_⟩
      exact (Nat.le_div_iff_mul_le hc).mpr (Nat.le_of_lt hlt)
    · exact ⟨p * c, ⟨hle', by omega⟩, Nat.mul_div_cancel p hc⟩

theorem count_eq (hc : 0 < c) (hlen : 0 < length) :
    count c base length = (base + length - 1) / c + 1 - base / c := by
  unfold count
  rw [touched_eq hc hlen, Nat.card_Icc]

/-- Only where the range starts in its first page counts. -/
theorem count_add_mul (c base length q : Nat) : count c (base + c * q) length = count c base length := by
  rcases Nat.eq_zero_or_pos length with rfl | hlen
  · rw [count_zero, count_zero]
  rcases Nat.eq_zero_or_pos c with rfl | hc
  · rw [Nat.zero_mul, Nat.add_zero]
  rw [count_eq hc hlen, count_eq hc hlen]
  have hlast : base + c * q + length - 1 = base + length - 1 + c * q := by omega
  rw [hlast, Nat.add_mul_div_left _ _ hc, Nat.add_mul_div_left _ _ hc]
  omega

theorem count_mod (c base length : Nat) : count c (base % c) length = count c base length := by
  have h := count_add_mul c (base % c) length (base / c)
  rw [Nat.mod_add_div] at h
  exact h.symm

/-- A range that starts at a page touches as few pages as its length allows. -/
theorem count_of_dvd (hc : 0 < c) (hlen : 0 < length) (h : c ∣ base) :
    count c base length = (length - 1) / c + 1 := by
  rw [← count_mod, Nat.mod_eq_zero_of_dvd h, count_eq hc hlen, Nat.zero_div, Nat.zero_add]
  rfl

theorem count_le_of_dvd (base length : Nat) (hc : 0 < c) (h : c ∣ base') :
    count c base' length ≤ count c base length := by
  rcases Nat.eq_zero_or_pos length with rfl | hlen
  · rw [count_zero]
    exact Nat.zero_le _
  rw [count_of_dvd hc hlen h, ← count_mod c base, count_eq hc hlen,
    Nat.div_eq_of_lt (Nat.mod_lt base hc), Nat.sub_zero]
  exact Nat.succ_le_succ (Nat.div_le_div_right (by omega))

/-- A page can be saved by starting at a page: the range takes parts of two different pages at its
ends, that fit into one. -/
def Saves (c base length : Nat) : Prop :=
  base % c ≠ 0 ∧ (base + length) % c ≠ 0 ∧ base / c ≠ (base + length) / c ∧
    (c - base % c) + (base + length) % c ≤ c

/-- A range that starts within a page touches one page more exactly then. -/
theorem count_eq_iff (base length : Nat) (hc : 0 < c) (h : c ∣ base') :
    count c base length = count c base' length ↔ ¬ Saves c base length := by
  rcases Nat.eq_zero_or_pos length with rfl | hlen
  · rw [count_zero, count_zero]
    exact iff_of_true rfl fun hsaves => hsaves.2.2.1 rfl
  rw [count_of_dvd hc hlen h, ← count_mod, count_eq hc hlen,
    Nat.div_eq_of_lt (Nat.mod_lt base hc), Nat.sub_zero, Nat.add_right_cancel_iff]
  have hr := Nat.mod_lt base hc
  have hbase := Nat.mod_add_div base c
  have hend := Nat.mod_add_div (base + length) c
  have hl := Nat.mod_lt (base + length) hc
  unfold Saves
  generalize base % c = r at *
  generalize (base + length) % c = l at *
  generalize base / c = q at *
  generalize (base + length) / c = k at *
  -- the length, from the place in the first page to that in the last
  obtain ⟨d, rfl⟩ : ∃ d, k = q + d := by
    refine Nat.exists_eq_add_of_le ?_
    by_contra hlt
    have hmul : c * (k + 1) ≤ c * q := Nat.mul_le_mul_left c (by omega)
    rw [Nat.mul_add] at hmul
    omega
  have hlength : r + length = l + c * d := by
    rw [Nat.mul_add] at hend
    omega
  have hdiv : ∀ x e, x < c → (x + c * e) / c = e := by
    intro x e hx
    rw [Nat.add_mul_div_left _ _ hc, Nat.div_eq_of_lt hx, Nat.zero_add]
  rcases Nat.eq_zero_or_pos d with rfl | hd
  · -- one page
    rw [Nat.mul_zero, Nat.add_zero] at hlength
    rw [Nat.div_eq_of_lt (by omega), Nat.div_eq_of_lt (by omega)]
    exact iff_of_true rfl fun hsaves => hsaves.2.2.1 (by omega)
  obtain ⟨e, rfl⟩ := Nat.exists_eq_add_of_lt hd
  rw [Nat.zero_add] at hlength
  have hmul : c * (e + 1) = c + c * e := by ring
  rw [hmul] at hlength
  rcases Nat.eq_zero_or_pos l with rfl | hlpos
  · have h1 : r + length - 1 = (c - 1) + c * e := by omega
    have h2 : length - 1 = (c - 1 - r) + c * e := by omega
    rw [h1, h2, hdiv _ _ (by omega), hdiv _ _ (by omega)]
    exact iff_of_true rfl fun hsaves => hsaves.2.1 rfl
  have h1 : r + length - 1 = (l - 1) + c * (e + 1) := by omega
  rw [h1, hdiv _ _ (by omega)]
  rcases Nat.lt_or_ge r l with hlt | hge
  · have h2 : length - 1 = (l - r - 1) + c * (e + 1) := by omega
    rw [h2, hdiv _ _ (by omega)]
    exact iff_of_true rfl fun hsaves => absurd hsaves.2.2.2 (by omega)
  · have h2 : length - 1 = (c + l - r - 1) + c * e := by omega
    rcases Nat.eq_zero_or_pos r with rfl | hrpos
    · omega
    rw [h2, hdiv _ _ (by omega)]
    refine iff_of_false (by omega) fun hnot => hnot ⟨by omega, by omega, by omega, by omega⟩

end FusionBinutils.Pages
