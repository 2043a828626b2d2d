import Mathlib.Data.List.Basic

/-!
# Support — Attempts

A list of tasks carried out in order, each with what came of it, and given up behind the first one
that fails (`Run`).  What was carried out is a front of the tasks (`Run.front`); only its last
outcome can be bad (`Run.eq_last_of_bad`), and if none is, all tasks were carried out
(`Run.complete`).  Two lists of tasks in sequence are one list (`Run.append`, `Run.given_up`).
-/

namespace Attempts

variable {α β : Type} {good : β → Prop}

/-- The tasks carried out, with their outcomes: all of them, or as far as the first bad outcome. -/
inductive Run (good : β → Prop) : List α → List (α × β) → Prop where
  | done : Run good [] []
  | failed {a : α} {b : β} (as : List α) (h : ¬ good b) : Run good (a :: as) [(a, b)]
  | next {a : α} {b : β} {as : List α} {rs : List (α × β)} (h : good b) (t : Run good as rs) :
      Run good (a :: as) ((a, b) :: rs)

/-- No outcome is bad. -/
def Clean (good : β → Prop) (rs : List (α × β)) : Prop := ∀ r ∈ rs, good r.2

theorem clean_nil : Clean good ([] : List (α × β)) := by
  intro r hr
  cases hr

theorem clean_cons {r : α × β} {rs : List (α × β)} :
    Clean good (r :: rs) ↔ good r.2 ∧ Clean good rs := List.forall_mem_cons

namespace Run

variable {as bs : List α} {rs ss : List (α × β)}

/-- The tasks carried out are the first ones, in order. -/
theorem front (h : Run good as rs) : rs.map Prod.fst <+: as := by
  induction h with
  | done => exact ⟨[], rfl⟩
  | failed as h => exact ⟨as, rfl⟩
  | next h t ih =>
      obtain ⟨rest, rfl⟩ := ih
      exact ⟨rest, rfl⟩

theorem complete (h : Run good as rs) (hc : Clean good rs) : rs.map Prod.fst = as := by
  induction h with
  | done => rfl
  | failed as h => exact absurd (clean_cons.mp hc).1 h
  | next h t ih => rw [List.map_cons, ih (clean_cons.mp hc).2]

/-- A bad outcome is the last. -/
theorem eq_last_of_bad (h : Run good as rs) {r : α × β} (hr : r ∈ rs) (hb : ¬ good r.2) :
    ∃ init, rs = init ++ [r] ∧ Clean good init := by
  induction h with
  | done => cases hr
  | failed as h =>
      obtain rfl := List.mem_singleton.mp hr
      exact ⟨[], rfl, clean_nil⟩
  | next h t ih =>
      rcases List.mem_cons.mp hr with rfl | hr'
      · exact absurd h hb
      · obtain ⟨init, rfl, hi⟩ := ih hr'
        exact ⟨_ :: init, rfl, clean_cons.mpr ⟨h, hi⟩⟩

/-- Something is tried. -/
theorem ne_nil (h : Run good as rs) (ha : as ≠ []) : rs ≠ [] := by
  cases h with
  | done => exact absurd rfl ha
  | failed as h => exact List.cons_ne_nil _ _
  | next h t => exact List.cons_ne_nil _ _

/-- Further tasks are carried out behind a clean run. -/
theorem append (h : Run good as rs) (hc : Clean good rs) (h' : Run good bs ss) :
    Run good (as ++ bs) (rs ++ ss) := by
  induction h with
  | done => exact h'
  | failed as h => exact absurd (clean_cons.mp hc).1 h
  | next h t ih => exact .next h (ih (clean_cons.mp hc).2)

/-- A run that failed has nothing to do with further tasks. -/
theorem given_up (h : Run good as rs) (hc : ¬ Clean good rs) (bs : List α) :
    Run good (as ++ bs) rs := by
  induction h with
  | done => exact absurd clean_nil hc
  | failed as h => exact .failed _ h
  | next h t ih =>
      refine .next h (ih ?_)
      intro hrs
      exact hc (clean_cons.mpr ⟨h, hrs⟩)

end Run

end Attempts
