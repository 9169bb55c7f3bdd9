/-! Computations that end with a value or an error: what holds of the value, which errors may come,
and loops that go on until they are done. Nothing here refers to a program. -/
namespace FusionBinutils.Outcome
variable {ε α β σ : Type} {allowed : ε → Prop} {P Q : α → Prop} {R : β → Prop}

/-- The computation ends with a value that `Q` holds of or with an allowed error. -/
def Meets (allowed : ε → Prop) (Q : α → Prop) : Except ε α → Prop
  | .ok a => Q a
  | .error e => allowed e

@[simp] theorem meets_ok {a : α} : Meets allowed Q (.ok a) ↔ Q a := .rfl

@[simp] theorem meets_error {e : ε} : Meets allowed Q (.error e : Except ε α) ↔ allowed e := .rfl

theorem Meets.mono {x : Except ε α} (h : Meets allowed P x) (hPQ : ∀ a, P a → Q a) :
    Meets allowed Q x := by
  cases x with
  | ok a => exact hPQ a h
  | error e => exact h

/-- Without an allowed error there is a value. -/
theorem Meets.exists_ok {x : Except ε α} (h : Meets (fun _ => False) Q x) :
    ∃ a, x = .ok a ∧ Q a := by
  cases x with
  | ok a => exact ⟨a, rfl, h⟩
  | error e => exact h.elim

theorem Meets.weaken {x : Except ε α} (h : Meets (fun _ => False) Q x) : Meets allowed Q x := by
  cases x with
  | ok a => exact h
  | error e => exact h.elim

theorem meets_any (x : Except ε α) : Meets (fun _ => True) (fun _ => True) x := by
  cases x <;> trivial

/-- One computation after the other; the second may use that the first has ended with its value. -/
theorem Meets.bind_eq {x : Except ε α} {f : α → Except ε β} (h : Meets allowed P x)
    (hf : ∀ a, x = .ok a → P a → Meets allowed R (f a)) : Meets allowed R (x >>= f) := by
  cases x with
  | ok a => exact hf a rfl h
  | error e => exact h

theorem Meets.bind {x : Except ε α} {f : α → Except ε β} (h : Meets allowed P x)
    (hf : ∀ a, P a → Meets allowed R (f a)) : Meets allowed R (x >>= f) :=
  h.bind_eq fun a _ => hf a

theorem meets_ite {c : Prop} [Decidable c] {x y : Except ε α} (hx : c → Meets allowed Q x)
    (hy : ¬ c → Meets allowed Q y) : Meets allowed Q (if c then x else y) := by
  split
  case isTrue h => exact hx h
  case isFalse h => exact hy h

/-- A loop whose body either goes on with a new state or is done; `out` stands for a run that is
longer than the fuel. -/
def iterate (body : σ → Except ε (σ ⊕ α)) (out : ε) : Nat → σ → Except ε α
  | 0, _ => .error out
  | n + 1, s =>
    match body s with
    | .error e => .error e
    | .ok (.inl s') => iterate body out n s'
    | .ok (.inr a) => .ok a

/-- The states that the loop comes to. -/
inductive Reached (body : σ → Except ε (σ ⊕ α)) (start : σ) : σ → Prop
  | start : Reached body start start
  | next {s s' : σ} : Reached body start s → body s = .ok (.inl s') → Reached body start s'

/-- What one round of a loop has to do: keep the invariant, and lower the measure unless it is the
last one. -/
def Round (I : σ → Prop) (μ : σ → Nat) (Q : α → Prop) (s : σ) : σ ⊕ α → Prop
  | .inl s' => I s' ∧ μ s' < μ s
  | .inr a => Q a

/-- A loop of good rounds ends, and well, with more fuel than its measure. -/
theorem iterate_meets {body : σ → Except ε (σ ⊕ α)} {out : ε} {I : σ → Prop} {μ : σ → Nat}
    {start s : σ} {n : Nat}
    (hbody : ∀ s, Reached body start s → I s → Meets allowed (Round I μ Q s) (body s))
    (hs : Reached body start s) (hI : I s) (hn : μ s < n) :
    Meets allowed Q (iterate body out n s) := by
  induction n generalizing s with
  | zero => omega
  | succ n ih =>
    have hround := hbody s hs hI
    rw [iterate]
    cases hres : body s with
    | error e =>
      rw [hres] at hround
      exact hround
    | ok r =>
      rw [hres] at hround
      cases r with
      | inl s' =>
        obtain ⟨hI', hμ⟩ := hround
        exact ih (hs.next hres) hI' (by omega)
      | inr a => exact hround

/-- From a state that the loop comes to it goes on as from its start, unless the fuel is used up. -/
theorem iterate_reached {body : σ → Except ε (σ ⊕ α)} {out : ε} {start s : σ}
    (hs : Reached body start s) (n : Nat) :
    iterate body out n start = .error out ∨
      ∃ k, iterate body out n start = iterate body out k s := by
  induction hs with
  | start => exact .inr ⟨n, rfl⟩
  | next hs hbody ih =>
    rcases ih with hout | ⟨k, hk⟩
    · exact .inl hout
    · cases k with
      | zero => exact .inl hk
      | succ k =>
        rw [iterate, hbody] at hk
        exact .inr ⟨k, hk⟩

/-- A loop that comes to a round with an error has no value. -/
theorem iterate_error {body : σ → Except ε (σ ⊕ α)} {out e : ε} {start s : σ}
    (hs : Reached body start s) (he : body s = .error e) (n : Nat) :
    iterate body out n start = .error out ∨ iterate body out n start = .error e := by
  obtain hout | ⟨k, hk⟩ : iterate body out n start = .error out ∨
      ∃ k, iterate body out n start = iterate body out k s := iterate_reached hs n
  · exact .inl hout
  · cases k with
    | zero => exact .inl hk
    | succ k =>
      rw [iterate, he] at hk
      exact .inr hk

/-- A loop that goes on with a good round from each fine state and fails at each other state ends well
just when it comes to fine states only. -/
theorem iterate_meets_iff {body : σ → Except ε (σ ⊕ α)} {out : ε} {Fine : σ → Prop} {μ : σ → Nat}
    {start : σ} {n : Nat}
    (hfine : ∀ s, Reached body start s → Fine s →
      Meets allowed (Round (fun _ => True) μ Q s) (body s))
    (hbad : ∀ s, Reached body start s → ¬Fine s → ∃ e, ¬allowed e ∧ body s = .error e)
    (hout : ¬allowed out) (hn : μ start < n) :
    Meets allowed Q (iterate body out n start) ↔ ∀ s, Reached body start s → Fine s := by
  constructor
  · intro hmeets s hs
    apply Classical.byContradiction
    intro hnot
    obtain ⟨e, he, hbody⟩ := hbad s hs hnot
    rcases iterate_error hs hbody n with h | h
    · rw [h] at hmeets
      exact hout hmeets
    · rw [h] at hmeets
      exact he hmeets
  · intro hall
    exact iterate_meets (fun s hs _ => hfine s hs (hall s hs)) .start trivial hn

/-- The value does not depend on the fuel. -/
theorem iterate_ok {body : σ → Except ε (σ ⊕ α)} {out : ε} {s : σ} {a : α} {n : Nat}
    (h : iterate body out n s = .ok a) (k : Nat) :
    iterate body out k s = .ok a ∨ iterate body out k s = .error out := by
  induction n generalizing s k with
  | zero => cases h
  | succ n ih =>
    cases k with
    | zero => exact .inr rfl
    | succ k =>
      rw [iterate] at h ⊢
      cases hres : body s with
      | error e =>
        rw [hres] at h
        cases h
      | ok r =>
        rw [hres] at h
        cases r with
        | inl s' => exact ih h k
        | inr a' => exact .inl h

end FusionBinutils.Outcome
