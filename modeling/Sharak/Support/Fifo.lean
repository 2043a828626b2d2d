import Mathlib.Data.List.Basic

/-!
# Support — Fifo

A queue of at most `depth` entries between a producer and a consumer.  An entry that comes while the
queue is full is lost; the others leave in the order they came in, which is a part of the structure
(`Queue.conserved`).  A producer that has seen room may push whatever the consumer does meanwhile
(`push_room`, `room_pop`), and a consumer that has seen an entry will get it whatever the producer
does (`pop_head`, `head_push`).
-/

namespace Fifo

variable {α : Type} {depth : Nat}

/-- The entries inside, oldest first; those that have left; all that were taken in; and those that
came while there was no room. -/
structure Queue (α : Type) (depth : Nat) where
  items : List α
  gone : List α
  taken : List α
  lost : List α
  bound : items.length ≤ depth
  conserved : taken = gone ++ items

namespace Queue

/-- One more entry fits. -/
def Room (q : Queue α depth) : Prop := q.items.length < depth

instance (q : Queue α depth) : Decidable q.Room := inferInstanceAs (Decidable (_ < _))

def empty : Queue α depth := ⟨[], [], [], [], Nat.zero_le depth, rfl⟩

def push (q : Queue α depth) (a : α) : Queue α depth :=
  if h : q.Room then
    { q with
      items := q.items ++ [a]
      taken := q.taken ++ [a]
      bound := by
        rw [List.length_append]
        exact h
      conserved := by rw [q.conserved, List.append_assoc] }
  else { q with lost := q.lost ++ [a] }

/-- Nothing leaves an empty queue. -/
def pop (q : Queue α depth) : Queue α depth :=
  match h : q.items with
  | [] => q
  | a :: rest =>
      { q with
        items := rest
        gone := q.gone ++ [a]
        bound := by
          have hb := q.bound
          rw [h, List.length_cons] at hb
          omega
        conserved := by rw [q.conserved, h, List.append_assoc, List.singleton_append] }

variable (q : Queue α depth) {a : α}

/-! ### The producer's side -/

theorem push_room (h : q.Room) (a : α) :
    (q.push a).taken = q.taken ++ [a] ∧ (q.push a).lost = q.lost := by
  rw [push, dif_pos h]
  exact ⟨rfl, rfl⟩

@[simp] theorem taken_pop : q.pop.taken = q.taken := by
  unfold pop
  split <;> rfl

@[simp] theorem lost_pop : q.pop.lost = q.lost := by
  unfold pop
  split <;> rfl

/-- What leaves makes no less room. -/
theorem room_pop (h : q.Room) : q.pop.Room := by
  unfold pop
  split
  · exact h
  · rename_i a rest hq
    rw [Room, hq, List.length_cons] at h
    show rest.length < depth
    omega

/-- Behind a departure there is room. -/
theorem room_of_pop (hd : 0 < depth) : q.pop.Room := by
  unfold pop
  split
  · rename_i hq
    rw [Room, hq]
    exact hd
  · rename_i a rest hq
    have hb := q.bound
    rw [hq, List.length_cons] at hb
    exact hb

/-! ### The consumer's side -/

theorem pop_head (h : q.items.head? = some a) : q.pop.gone = q.gone ++ [a] := by
  unfold pop
  split
  · rename_i hq
    rw [hq] at h
    cases h
  · rename_i b rest hq
    rw [hq] at h
    cases h
    rfl

@[simp] theorem gone_push (b : α) : (q.push b).gone = q.gone := by
  unfold push
  split <;> rfl

/-- What comes does not overtake. -/
theorem head_push (h : q.items.head? = some a) (b : α) : (q.push b).items.head? = some a := by
  unfold push
  split
  · show (q.items ++ [b]).head? = some a
    rw [List.head?_append, h]
    rfl
  · exact h

/-- At most `depth` entries have not left yet. -/
theorem gone_prefix : q.gone <+: q.taken ∧ q.taken.length ≤ q.gone.length + depth := by
  have hb := q.bound
  rw [q.conserved, List.length_append]
  exact ⟨List.prefix_append _ _, by omega⟩

end Queue

end Fifo
