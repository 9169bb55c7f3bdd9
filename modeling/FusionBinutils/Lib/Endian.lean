import Mathlib.Tactic.Ring

/-! Numbers as a fixed count of bytes, in either byte order. -/
namespace FusionBinutils.Endian

/-- The low `n` bytes of a number, the lowest first. -/
def little : Nat → Nat → List (BitVec 8)
  | 0, _ => []
  | n + 1, v => .ofNat 8 (v % 256) :: little n (v / 256)

def ofLittle : List (BitVec 8) → Nat
  | [] => 0
  | b :: bs => b.toNat + 256 * ofLittle bs

/-- The low `n` bytes of a number as they lie in memory. -/
def put (big : Bool) (n v : Nat) : List (BitVec 8) := if big then (little n v).reverse else little n v

def get (big : Bool) (bytes : List (BitVec 8)) : Nat :=
  ofLittle (if big then bytes.reverse else bytes)

@[simp]
theorem length_little (n v : Nat) : (little n v).length = n := by
  induction n generalizing v with
  | zero => rfl
  | succ n ih => simp [little, ih]

@[simp]
theorem length_put (big : Bool) (n v : Nat) : (put big n v).length = n := by
  cases big <;> simp [put]

theorem ofLittle_little (n v : Nat) : ofLittle (little n v) = v % 256 ^ n := by
  induction n generalizing v with
  | zero => simp [little, ofLittle, Nat.mod_one]
  | succ n ih =>
    rw [little, ofLittle, ih, Nat.pow_succ', Nat.mod_mul, BitVec.toNat_ofNat]
    omega

/-- A number comes back as far as its bytes hold it. -/
theorem get_put (big : Bool) (n v : Nat) : get big (put big n v) = v % 256 ^ n := by
  cases big <;> simp [get, put, ofLittle_little]

/-- The bytes hold a number as far as they go, and no more. -/
theorem put_eq_put_iff (big : Bool) {n v v' : Nat} :
    put big n v = put big n v' ↔ v % 256 ^ n = v' % 256 ^ n := by
  constructor
  · intro h
    rw [← get_put big, ← get_put big, h]
  · have hlittle {n v v' : Nat} (h : v % 256 ^ n = v' % 256 ^ n) : little n v = little n v' := by
      induction n generalizing v v' with
      | zero => rfl
      | succ n ih =>
        rw [Nat.pow_succ', Nat.mod_mul, Nat.mod_mul] at h
        have hlow : v % 256 = v' % 256 := by omega
        have hhigh : v / 256 % 256 ^ n = v' / 256 % 256 ^ n := by omega
        rw [little, little, hlow, ih hhigh]
    intro h
    rw [put, put, hlittle h]

theorem little_add (n k v : Nat) : little (n + k) v = little n v ++ little k (v / 256 ^ n) := by
  induction n generalizing v with
  | zero => simp [little]
  | succ n ih => rw [Nat.succ_add, little, little, ih, Nat.div_div_eq_div_mul, ← Nat.pow_succ']; rfl

theorem eq_zero_of_ofLittle {l : List (BitVec 8)} (h : ofLittle l = 0) : ∀ b ∈ l, b = 0 := by
  induction l with
  | nil =>
    intro b hb
    cases hb
  | cons a l ih =>
    rw [ofLittle] at h
    intro b hb
    rcases List.mem_cons.mp hb with rfl | hb
    · exact BitVec.eq_of_toNat_eq (show b.toNat = 0 by omega)
    · exact ih (by omega) b hb

/-- Only zeros make zero. -/
theorem eq_zero_of_get {big : Bool} {bytes : List (BitVec 8)} {b : BitVec 8} (h : get big bytes = 0)
    (hb : b ∈ bytes) : b = 0 := by
  cases big
  · exact eq_zero_of_ofLittle h b hb
  · exact eq_zero_of_ofLittle h b (List.mem_reverse.mpr hb)

end FusionBinutils.Endian
