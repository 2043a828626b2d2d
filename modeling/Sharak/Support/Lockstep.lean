import Mathlib.Logic.Basic

/-!
# Support — Lockstep

Two fallible computations that both come to an end, with related results (`Both`), and the rules
that carry a relation through sequences and branches.  A component answers one request after
another (`run`); two components whose every answer is the same, as long as their states are related,
give the same answers over a whole run (`run_lockstep`).
-/

namespace Lockstep

variable {α β γ δ ε σ τ ρ ℓ : Type}

/-- Both computations come to an end, with related results. -/
def Both (R : α → β → Prop) (x : Except ε α) (y : Except ε β) : Prop :=
  ∃ a b, x = .ok a ∧ y = .ok b ∧ R a b

theorem both_ok {R : α → β → Prop} {a : α} {b : β} (h : R a b) :
    Both R (.ok a : Except ε α) (.ok b) := ⟨a, b, rfl, rfl, h⟩

/-- A relation is carried through a sequence. -/
theorem Both.bind {R : α → β → Prop} {S : γ → δ → Prop} {x : Except ε α} {y : Except ε β}
    {f : α → Except ε γ} {g : β → Except ε δ} (h : Both R x y)
    (hf : ∀ a b, R a b → Both S (f a) (g b)) : Both S (x >>= f) (y >>= g) := by
  obtain ⟨a, b, rfl, rfl, hR⟩ := h
  exact hf a b hR

/-- Two branches on one condition. -/
theorem both_ite {R : α → β → Prop} {c : Prop} [Decidable c] {x x' : Except ε α}
    {y y' : Except ε β} (h : c → Both R x y) (h' : ¬ c → Both R x' y') :
    Both R (if c then x else x') (if c then y else y') := by
  by_cases hc : c
  · rw [if_pos hc, if_pos hc]
    exact h hc
  · rw [if_neg hc, if_neg hc]
    exact h' hc

/-- The same answer, and related states behind it. -/
def Same (R : σ → τ → Prop) (p : ρ × σ) (q : ρ × τ) : Prop := p.1 = q.1 ∧ R p.2 q.2

/-! ### Runs -/

/-- The answers to requests in order, each on the state the one before has left. -/
def run (step : σ → ℓ → Except ε (ρ × σ)) : σ → List ℓ → Except ε (List ρ × σ)
  | s, [] => .ok ([], s)
  | s, l :: ls => do
      let (r, s) ← step s l
      let (rs, s) ← run step s ls
      .ok (r :: rs, s)

/-- **A run in lockstep.**  The relation may speak of the requests that are still to come. -/
theorem run_lockstep {f : σ → ℓ → Except ε (ρ × σ)} {g : τ → ℓ → Except ε (ρ × τ)}
    {R : List ℓ → σ → τ → Prop}
    (step : ∀ l ls s t, R (l :: ls) s t → Both (Same (R ls)) (f s l) (g t l)) {s : σ} {t : τ}
    (ls : List ℓ) (h : R ls s t) : Both (Same (R [])) (run f s ls) (run g t ls) := by
  induction ls generalizing s t with
  | nil => exact both_ok ⟨rfl, h⟩
  | cons l ls ih =>
      refine (step l ls s t h).bind ?_
      rintro ⟨r, s'⟩ ⟨r', t'⟩ ⟨rfl, h'⟩
      refine (ih h').bind ?_
      rintro ⟨rs, s''⟩ ⟨rs', t''⟩ ⟨rfl, h''⟩
      exact both_ok ⟨rfl, h''⟩

/-- With one relation throughout. -/
theorem run_same {f : σ → ℓ → Except ε (ρ × σ)} {g : τ → ℓ → Except ε (ρ × τ)}
    {R : σ → τ → Prop} (step : ∀ l s t, R s t → Both (Same R) (f s l) (g t l)) {s : σ} {t : τ}
    (ls : List ℓ) (h : R s t) : Both (Same R) (run f s ls) (run g t ls) :=
  run_lockstep (R := fun _ => R) (fun l _ s t => step l s t) ls h

/-- What agrees with the same agrees. -/
theorem Both.trans {υ : Type} {R : σ → τ → Prop} {S : τ → υ → Prop} {x : Except ε (ρ × σ)}
    {y : Except ε (ρ × τ)} {z : Except ε (ρ × υ)} (h : Both (Same R) x y)
    (h' : Both (Same S) y z) : Both (Same fun s u => ∃ t, R s t ∧ S t u) x z := by
  obtain ⟨p, q, rfl, rfl, hpq, hR⟩ := h
  obtain ⟨q', r, hq, rfl, hqr, hS⟩ := h'
  cases hq
  exact both_ok ⟨hpq.trans hqr, q.2, hR, hS⟩

end Lockstep
