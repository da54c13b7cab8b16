import Mathlib

/-!
# Deliveries that come to an end

A system delivers messages, and in between takes steps that are quiet. This
module is a library about one question: whether the deliveries come to an end.
They do if there is a measure that every delivery lowers and no quiet step
raises (`Draining.Drains.add_measure_le`); and what is left of the measure
bounds what is left of the deliveries. The measure need only behave in states
with an invariant.
-/

namespace Draining

variable {σ : Type} {deliver quiet : σ → σ → Prop}

/-- **A run of deliveries and quiet steps**, with the number of deliveries. -/
inductive Drains (deliver quiet : σ → σ → Prop) : σ → ℕ → σ → Prop
  | nil (s : σ) : Drains deliver quiet s 0 s
  | quiet {s s₁ s' : σ} {n : ℕ} (h : quiet s s₁) (hs : Drains deliver quiet s₁ n s') :
      Drains deliver quiet s n s'
  | deliver {s s₁ s' : σ} {n : ℕ} (h : deliver s s₁) (hs : Drains deliver quiet s₁ n s') :
      Drains deliver quiet s (n + 1) s'

/-- **The measure bounds the deliveries.** -/
theorem Drains.add_measure_le (Inv : σ → Prop) (measure : σ → ℕ)
    (hquiet : ∀ {s s'}, Inv s → quiet s s' → Inv s' ∧ measure s' ≤ measure s)
    (hdeliver : ∀ {s s'}, Inv s → deliver s s' → Inv s' ∧ measure s' < measure s)
    {s s' : σ} {n : ℕ} (h : Drains deliver quiet s n s') (hinv : Inv s) :
    n + measure s' ≤ measure s := by
  induction h with
  | nil s => exact (Nat.zero_add _).le
  | quiet h _ ih =>
    obtain ⟨hinv₁, hle⟩ := hquiet hinv h
    exact (ih hinv₁).trans hle
  | deliver h _ ih =>
    obtain ⟨hinv₁, hlt⟩ := hdeliver hinv h
    have := ih hinv₁
    omega

end Draining
