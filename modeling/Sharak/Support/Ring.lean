import Mathlib.Logic.Function.Iterate

/-!
# Support — Ring

The places `0, …, N - 1` in a ring: behind the last comes the first (`next`).  `k` places on from
`p` is addition modulo `N` (`iterate_next`), and the `n` places from `p` on include one of a window
`a, …, b` exactly if they reach it before the end or on the next round (`visits_iff`).
-/

namespace Ring

variable {N p n a b : Nat}

/-- The place behind `p`. -/
def next (N p : Nat) : Nat := if p + 1 ≥ N then 0 else p + 1

theorem next_lt (hN : 0 < N) (p : Nat) : next N p < N := by
  unfold next
  split <;> omega

theorem next_eq_mod (h : p < N) : next N p = (p + 1) % N := by
  unfold next
  by_cases hlast : p + 1 ≥ N
  · have heq : p + 1 = N := by omega
    rw [if_pos hlast, heq, Nat.mod_self]
  · rw [if_neg hlast, Nat.mod_eq_of_lt (by omega)]

theorem iterate_next (h : p < N) (k : Nat) : (next N)^[k] p = (p + k) % N := by
  induction k with
  | zero => exact (Nat.mod_eq_of_lt h).symm
  | succ k ih =>
      have hlt : (p + k) % N < N := Nat.mod_lt _ (by omega)
      rw [Function.iterate_succ_apply', ih, next_eq_mod hlt, Nat.mod_add_mod, Nat.add_assoc]

/-- In front of the end there is no wrap. -/
theorem iterate_next_of_lt {k : Nat} (h : p + k < N) : (next N)^[k] p = p + k := by
  rw [iterate_next (by omega), Nat.mod_eq_of_lt h]

/-- A window is visited before the end, or on the next round. -/
theorem visits_iff (hp : p < N) (hn : 0 < n) (hab : a ≤ b) (hb : b < N) :
    (∃ k < n, a ≤ (next N)^[k] p ∧ (next N)^[k] p ≤ b) ↔
      (p ≤ b ∧ a < p + n) ∨ N + a < p + n := by
  constructor
  · rintro ⟨k, hk, hak, hkb⟩
    by_cases hwrap : p + k < N
    · rw [iterate_next_of_lt hwrap] at hak hkb
      left
      omega
    -- the place is at least `N` places behind `0`
    · rw [iterate_next hp] at hak
      have hround : (p + k) % N ≤ p + k - N := by
        rw [Nat.mod_eq_sub_mod (by omega)]
        exact Nat.mod_le _ _
      right
      omega
  · rintro (⟨hpb, hreach⟩ | hreach)
    -- the first place of the window, or `p` itself
    · have hlt : p + (a - p) < N := by omega
      refine ⟨a - p, by omega, ?_⟩
      rw [iterate_next_of_lt hlt]
      omega
    · have hround : (next N)^[N - p + a] p = a := by
        have hsum : p + (N - p + a) = N + a := by omega
        rw [iterate_next hp, hsum, Nat.add_mod_left, Nat.mod_eq_of_lt (by omega)]
      refine ⟨N - p + a, by omega, ?_⟩
      rw [hround]
      exact ⟨Nat.le_refl a, hab⟩

end Ring
