import Mathlib.Order.Defs.Unbundled

/-! Computations that change a state and may stop: what holds between the state before and the one
they leave, whichever way they end. Nothing here refers to a program. -/
namespace FusionBinutils.Effects
variable {ε σ α β : Type} {R S : σ → σ → Prop} {m : EStateM ε σ α} {f : α → EStateM ε σ β} {s : σ}

/-- The state that a computation leaves. -/
def after (m : EStateM ε σ α) (s : σ) : σ :=
  match m s with
  | .ok _ t => t
  | .error _ t => t

/-- `R` holds between the state before and the one after. -/
def Moves (R : σ → σ → Prop) (m : EStateM ε σ α) : Prop := ∀ s, R s (after m s)

theorem after_pure (a : α) (s : σ) : after (pure a : EStateM ε σ α) s = s := rfl

theorem after_throw (e : ε) (s : σ) : after (throw e : EStateM ε σ α) s = s := rfl

theorem after_get (s : σ) : after (get : EStateM ε σ σ) s = s := rfl

/-- A computation that looks at the state first. -/
theorem after_get_bind (f : σ → EStateM ε σ β) (s : σ) : after (get >>= f) s = after (f s) s := rfl

theorem after_modify_bind (g : σ → σ) (f : PUnit → EStateM ε σ β) (s : σ) :
    after (modify g >>= f) s = after (f ⟨⟩) (g s) := rfl

theorem after_modify (g : σ → σ) (s : σ) : after (modify g : EStateM ε σ PUnit) s = g s := rfl

/-- The second computation goes on from the state that the first one leaves, unless that stops. -/
theorem after_bind (m : EStateM ε σ α) (f : α → EStateM ε σ β) (s : σ) :
    (∃ a, after (m >>= f) s = after (f a) (after m s)) ∨ after (m >>= f) s = after m s := by
  simp only [after, bind, EStateM.bind]
  cases m s with
  | ok a t => exact .inl ⟨a, rfl⟩
  | error e t => exact .inr rfl

theorem Moves.mono (h : Moves R m) (hRS : ∀ s t, R s t → S s t) : Moves S m :=
  fun s => hRS s _ (h s)

section
variable [Std.Refl R]

theorem moves_pure (a : α) : Moves R (pure a : EStateM ε σ α) := fun s => refl_of R s

theorem moves_throw (e : ε) : Moves R (throw e : EStateM ε σ α) := fun s => refl_of R s

theorem moves_get : Moves R (get : EStateM ε σ σ) := fun s => refl_of R s

end

theorem moves_modify {g : σ → σ} (h : ∀ s, R s (g s)) :
    Moves R (modify g : EStateM ε σ PUnit) := h

theorem Moves.bind [IsTrans σ R] (hm : Moves R m) (hf : ∀ a, Moves R (f a)) :
    Moves R (m >>= f) := by
  intro s
  rcases after_bind m f s with ⟨a, heq⟩ | heq
  · rw [heq]
    exact trans_of R (hm s) (hf a (after m s))
  · rw [heq]
    exact hm s

theorem moves_ite {c : Prop} [Decidable c] {m m' : EStateM ε σ α} (h : c → Moves R m)
    (h' : ¬ c → Moves R m') : Moves R (if c then m else m') := by
  split
  case isTrue hc => exact h hc
  case isFalse hc => exact h' hc

end FusionBinutils.Effects
