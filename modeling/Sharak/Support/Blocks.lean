import Mathlib.Data.List.Basic

/-!
# Support — Blocks

Things laid out one after another as blocks, `xs.flatMap f`, and a window on the layout.  A cut goes
between two blocks or through one (`Cut`, `cut`).  So what a window shows is inside one block, or the
tail of a block, whole blocks, and the head of one (`window`); the whole blocks are those that begin
and end inside it.
-/

namespace Blocks

variable {α β : Type} {f : α → List β} {xs : List α} {u w v : List β}

/-! ### Cuts -/

/-- A layout is cut in two, between blocks or through one. -/
inductive Cut (f : α → List β) : List α → List β → List β → Prop where
  | between (as bs : List α) : Cut f (as ++ bs) (as.flatMap f) (bs.flatMap f)
  | inside {p : α} {s t : List β} (as bs : List α) (h : f p = s ++ t) (hs : s ≠ []) (ht : t ≠ []) :
      Cut f (as ++ p :: bs) (as.flatMap f ++ s) (t ++ bs.flatMap f)

/-- A cut further on. -/
theorem Cut.cons (h : Cut f xs u w) (x : α) : Cut f (x :: xs) (f x ++ u) w := by
  cases h with
  | between as bs => exact .between (x :: as) bs
  | inside as bs h hs ht =>
      rw [← List.append_assoc]
      exact .inside (x :: as) bs h hs ht

theorem cut (h : xs.flatMap f = u ++ w) : Cut f xs u w := by
  induction xs generalizing u with
  | nil =>
      obtain ⟨rfl, rfl⟩ := List.append_eq_nil_iff.mp h.symm
      exact .between [] []
  | cons x xs ih =>
      rcases List.append_eq_append_iff.mp h with ⟨u', rfl, hu⟩ | ⟨t, hx, rfl⟩
      · exact (ih hu).cons x
      -- the cut is in the first block, or at one of its ends
      · by_cases hu : u = []
        · subst hu
          rw [List.nil_append] at hx
          rw [← hx]
          exact .between [] (x :: xs)
        · by_cases ht : t = []
          · subst ht
            rw [List.append_nil] at hx
            rw [← hx]
            have hcut : Cut f (x :: xs) ([x].flatMap f) (xs.flatMap f) := .between [x] xs
            rw [List.flatMap_singleton] at hcut
            exact hcut
          · exact .inside [] xs hx hu ht

/-! ### Places -/

/-- Where block `i` begins. -/
def start (f : α → List β) (xs : List α) (i : Nat) : Nat := ((xs.take i).flatMap f).length

theorem start_mono {i j : Nat} (h : i ≤ j) : start f xs i ≤ start f xs j := by
  obtain ⟨k, rfl⟩ := Nat.exists_eq_add_of_le h
  rw [start, start, List.take_add, List.flatMap_append, List.length_append]
  exact Nat.le_add_right _ _

theorem start_left (as bs : List α) : start f (as ++ bs) as.length = (as.flatMap f).length := by
  rw [start, List.take_left]

theorem start_cons (as bs : List α) (p : α) :
    start f (as ++ p :: bs) (as.length + 1) = (as.flatMap f).length + (f p).length := by
  have h := @start_left α β f (as ++ [p]) bs
  rw [List.length_append, List.length_singleton, List.append_assoc, List.singleton_append,
    List.flatMap_append, List.flatMap_singleton, List.length_append] at h
  exact h

theorem start_succ_lt (hne : ∀ x, f x ≠ []) {i : Nat} (h : i < xs.length) :
    start f xs i < start f xs (i + 1) := by
  have hpos := List.length_pos_of_ne_nil (hne xs[i])
  rw [start, start, ← List.take_append_getElem h, List.flatMap_append, List.flatMap_singleton,
    List.length_append]
  omega

/-- Blocks from `a` on begin at `m` or behind. -/
theorem begins_iff {a m i : Nat} (ha : m ≤ start f xs a)
    (hb : ∀ j, j + 1 = a → start f xs j < m) : m ≤ start f xs i ↔ a ≤ i := by
  constructor
  · intro h
    by_contra hi
    have hlt := hb (a - 1) (by omega)
    have hle := @start_mono α β f xs i (a - 1) (by omega)
    omega
  · intro h
    exact Nat.le_trans ha (start_mono h)

/-- Blocks in front of `b` end at `n` or in front. -/
theorem ends_iff {b n i : Nat} (hb : start f xs b ≤ n)
    (ha : b < xs.length → n < start f xs (b + 1)) (hi : i < xs.length) :
    start f xs (i + 1) ≤ n ↔ i < b := by
  constructor
  · intro h
    by_contra hbi
    have hlt := ha (by omega)
    have hle := @start_mono α β f xs (b + 1) (i + 1) (by omega)
    omega
  · intro h
    exact Nat.le_trans (start_mono h) hb

/-! ### Windows -/

/-- What is left of a block behind a cut: its tail, or nothing if the cut is between blocks. -/
def Tail (f : α → List β) (t : List β) : Prop := t = [] ∨ ∃ p s, f p = s ++ t ∧ s ≠ []

/-- What is left of it in front of a cut. -/
def Head (f : α → List β) (s : List β) : Prop := s = [] ∨ ∃ p t, f p = s ++ t ∧ t ≠ []

/-- Block `i` begins at `m` or behind, and ends at `n` or in front. -/
def Whole (f : α → List β) (xs : List α) (m n i : Nat) : Prop :=
  m ≤ start f xs i ∧ start f xs (i + 1) ≤ n

/-- The front of a layout up to a cut: whole blocks and the head of one. -/
theorem front (hne : ∀ x, f x ≠ []) (h : xs.flatMap f = w ++ v) :
    ∃ bs cs s, xs = bs ++ cs ∧ w = bs.flatMap f ++ s ∧ Head f s ∧
      start f xs bs.length ≤ w.length ∧
      (bs.length < xs.length → w.length < start f xs (bs.length + 1)) := by
  cases cut h with
  | between bs cs =>
      refine ⟨bs, cs, [], rfl, (List.append_nil _).symm, Or.inl rfl, ?_, ?_⟩
      · exact Nat.le_of_eq (start_left bs cs)
      · intro hlt
        rw [← start_left bs cs]
        exact start_succ_lt hne hlt
  | @inside p s t bs cs hp hs ht =>
      refine ⟨bs, p :: cs, s, rfl, rfl, Or.inr ⟨p, t, hp, ht⟩, ?_, ?_⟩
      · rw [start_left, List.length_append]
        exact Nat.le_add_right _ _
      · intro _
        have hpos := List.length_pos_of_ne_nil ht
        rw [start_cons, hp, List.length_append, List.length_append]
        omega

/-- Blocks behind the first ones. -/
theorem start_add (as bs : List α) (k : Nat) :
    start f (as ++ bs) (as.length + k) = (as.flatMap f).length + start f bs k := by
  rw [start, List.take_length_add_append, List.flatMap_append, List.length_append, start]

/-- A window that begins behind the blocks `as`, or at the tail of the last of them. -/
theorem window_behind (hne : ∀ x, f x ≠ []) {as rest : List α} {t : List β} {m : Nat}
    (hm : m + t.length = (as.flatMap f).length)
    (hb : ∀ j, j + 1 = as.length → start f (as ++ rest) j < m) (h : rest.flatMap f = w ++ v) :
    ∃ bs cs s, rest = bs ++ cs ∧ w = bs.flatMap f ++ s ∧ Head f s ∧
      ∀ i < (as ++ rest).length,
        Whole f (as ++ rest) m (m + (t ++ w).length) i ↔ as.length ≤ i ∧ i < as.length + bs.length := by
  obtain ⟨bs, cs, s, hrest, hw, hs, hle, hlt⟩ := front hne h
  refine ⟨bs, cs, s, hrest, hw, hs, ?_⟩
  intro i hi
  refine and_congr (begins_iff ?_ hb) (ends_iff ?_ ?_ hi)
  · rw [start_left]
    omega
  · rw [start_add, List.length_append]
    omega
  · intro hend
    have hend' : bs.length < rest.length := by
      rw [List.length_append] at hend
      omega
    have hnext := hlt hend'
    rw [Nat.add_assoc, start_add, List.length_append]
    omega

/-- **What a window shows.** -/
theorem window (hne : ∀ x, f x ≠ []) (h : xs.flatMap f = u ++ (w ++ v)) :
    ∃ as bs cs, xs = as ++ (bs ++ cs) ∧
      (∀ i < xs.length, Whole f xs u.length (u.length + w.length) i ↔
        as.length ≤ i ∧ i < as.length + bs.length) ∧
      ((∃ t s, w = t ++ (bs.flatMap f ++ s) ∧ Tail f t ∧ Head f s) ∨
        bs = [] ∧ ∃ p s t, f p = s ++ (w ++ t) ∧ s ≠ []) := by
  generalize hwv : w ++ v = r at h
  cases cut h with
  | between as rest =>
      have hm : (as.flatMap f).length + ([] : List β).length = (as.flatMap f).length := rfl
      obtain ⟨bs, cs, s, rfl, hw, hs, hwhole⟩ := window_behind hne hm (fun j hj => by
        rw [← start_left as rest, ← hj]
        exact start_succ_lt hne (by rw [List.length_append]; omega)) hwv.symm
      exact ⟨as, bs, cs, rfl, hwhole, Or.inl ⟨[], s, hw, Or.inl rfl, hs⟩⟩
  | @inside p s₀ t as rest hp hs₀ ht =>
      have hsplit : as ++ p :: rest = as ++ [p] ++ rest := List.append_cons as p rest
      have hlast : ∀ j, j + 1 = (as ++ [p]).length →
          start f (as ++ [p] ++ rest) j < (as.flatMap f ++ s₀).length := by
        intro j hj
        obtain rfl : j = as.length := by
          rw [List.length_append, List.length_singleton] at hj
          omega
        have hpos := List.length_pos_of_ne_nil hs₀
        rw [← hsplit, start_left, List.length_append]
        omega
      have hm : (as.flatMap f ++ s₀).length + t.length = ((as ++ [p]).flatMap f).length := by
        rw [List.flatMap_append, List.flatMap_singleton, hp, List.length_append,
          List.length_append, List.length_append, Nat.add_assoc]
      rcases List.append_eq_append_iff.mp hwv with ⟨t', rfl, -⟩ | ⟨w', rfl, hrest⟩
      -- the window ends in the block it begins in
      · refine ⟨as ++ [p], [], rest, hsplit, ?_, Or.inr ⟨rfl, p, s₀, t', hp, hs₀⟩⟩
        intro i hi
        refine iff_of_false ?_ (by rw [List.length_nil]; omega)
        rintro ⟨hbegin, hend⟩
        rw [hsplit] at hbegin hend hi
        have hend' : (as.flatMap f ++ s₀).length + (w ++ t').length =
            start f (as ++ [p] ++ rest) (as ++ [p]).length := by
          rw [start_left, hm]
        have hlate : (as ++ [p]).length ≤ i :=
          (begins_iff (by omega) hlast).mp hbegin
        have hmono := @start_mono α β f (as ++ [p] ++ rest) _ _ hlate
        have hlt := @start_succ_lt α β f (as ++ [p] ++ rest) hne i hi
        have hlen : (w ++ t').length = w.length + t'.length := List.length_append
        omega
      · obtain ⟨bs, cs, s, rfl, hw, hs, hwhole⟩ := window_behind hne hm hlast hrest
        refine ⟨as ++ [p], bs, cs, hsplit, ?_, Or.inl ⟨t, s, ?_, Or.inr ⟨p, s₀, hp, hs₀⟩, hs⟩⟩
        · rw [hsplit]
          exact hwhole
        · rw [hw]

end Blocks
