import Mathlib.Data.List.Basic

/-!
# Support — Memory

Objects of fixed size, and the accesses a C function makes to them.  An access outside the
object is a `Fault` that names the index and the size; a computation that faults has no result,
so a statement `f x = .ok y` says that `f` stays inside every object it touches.

* `Slice α`: a `(pointer, size)` argument pair, `NULL` with any size or the `size` cells behind
  the pointer.  Reading or writing through `NULL` faults at size `0`.
* `load`, `store`: an array member of a fixed length `n`.
* `upto n f`: the counted loop `for (i = 0; i < n; i++)`, with an invariant rule (`upto_ok`) and
  its two instances for copy loops (`upto_store`, `upto_write`).
* `overlay xs ys`: `ys` with its front overwritten by `xs`, what a copy loop leaves.
-/

namespace Memory

variable {α β σ ε : Type}

/-- An access outside an object: the index used, and the object's size. -/
structure Fault where
  index : Nat
  size : Nat
deriving DecidableEq, Repr

/-- A computation that stops at the first access outside an object. -/
abbrev Checked := Except Fault

@[simp] theorem ok_bind (a : α) (f : α → Except ε β) : (Except.ok a >>= f) = f a := rfl

@[simp] theorem error_bind (e : ε) (f : α → Except ε β) : (Except.error e >>= f) = .error e := rfl

@[simp] theorem pure_ok (a : α) : (pure a : Except ε α) = .ok a := rfl

/-- A sequence with a result went through its first step. -/
theorem bind_eq_ok {x : Except ε α} {f : α → Except ε β} {b : β} (h : (x >>= f) = .ok b) :
    ∃ a, x = .ok a ∧ f a = .ok b := by
  cases x with
  | ok a => exact ⟨a, rfl, h⟩
  | error e => cases h

/-! ### Overwriting the front of a list -/

/-- `ys` with its front overwritten by `xs`. -/
def overlay (xs ys : List α) : List α := xs ++ ys.drop xs.length

@[simp] theorem overlay_nil (ys : List α) : overlay [] ys = ys := by simp [overlay]

theorem length_overlay {xs ys : List α} (h : xs.length ≤ ys.length) :
    (overlay xs ys).length = ys.length := by
  simp [overlay, h]

@[simp] theorem take_overlay (xs ys : List α) : (overlay xs ys).take xs.length = xs := by
  simp [overlay]

/-- An overlay of the whole list leaves nothing of it. -/
theorem overlay_all {xs ys : List α} (h : ys.length ≤ xs.length) : overlay xs ys = xs := by
  rw [overlay, List.drop_of_length_le h, List.append_nil]

/-- One more cell written behind the front. -/
theorem set_overlay_take {xs ys : List α} {i : Nat} (hi : i < xs.length)
    (h : xs.length ≤ ys.length) :
    (overlay (xs.take i) ys).set i xs[i] = overlay (xs.take (i + 1)) ys := by
  have hl : (xs.take i).length = i := by simp; omega
  have hl' : (xs.take (i + 1)).length = i + 1 := by simp; omega
  have hd : ys.drop i = ys[i] :: ys.drop (i + 1) := List.drop_eq_getElem_cons (by omega)
  rw [overlay, overlay, hl, hl', hd, List.set_append_right _ _ (by omega), hl, Nat.sub_self,
    List.set_cons_zero, List.take_succ_eq_append_getElem hi, List.append_assoc,
    List.singleton_append]

/-- The cell behind the front `xs` is written next. -/
theorem set_overlay {xs ys : List α} {a : α} (h : xs.length < ys.length) :
    (overlay xs ys).set xs.length a = overlay (xs ++ [a]) ys := by
  have hi : xs.length < (xs ++ [a]).length := by simp
  have := @set_overlay_take _ _ ys _ hi (by simpa)
  simpa [List.take_of_length_le] using this

/-! ### Slices -/

/-- A `(pointer, size)` argument pair. -/
inductive Slice (α : Type) where
  | null (size : Nat)
  | mem (cells : List α)
deriving DecidableEq, Repr

namespace Slice

def size : Slice α → Nat
  | .null n => n
  | .mem cs => cs.length

def isNull : Slice α → Bool
  | .null _ => true
  | .mem _ => false

/-- The cells behind the pointer; none behind `NULL`. -/
def cells : Slice α → List α
  | .null _ => []
  | .mem cs => cs

def read (s : Slice α) (i : Nat) : Checked α :=
  match s.cells[i]? with
  | some a => .ok a
  | none => .error ⟨i, s.cells.length⟩

def write (s : Slice α) (i : Nat) (a : α) : Checked (Slice α) :=
  if i < s.cells.length then .ok (.mem (s.cells.set i a)) else .error ⟨i, s.cells.length⟩

/-- The argument pair `(s, k)`: the callee may touch the first `k` cells of `s`. -/
def pass (s : Slice α) (k : Nat) : Checked (Slice α) :=
  if k ≤ s.cells.length then .ok (.mem (s.cells.take k)) else .error ⟨k, s.cells.length⟩

/-- What is left of `s` when its first cells are overwritten by `xs`; `NULL` has no cells. -/
def put (xs : List α) : Slice α → Slice α
  | .null n => .null n
  | .mem cs => .mem (overlay xs cs)

@[simp] theorem size_null (n : Nat) : (Slice.null n : Slice α).size = n := rfl
@[simp] theorem size_mem (cs : List α) : (Slice.mem cs).size = cs.length := rfl
@[simp] theorem isNull_null (n : Nat) : (Slice.null n : Slice α).isNull = true := rfl
@[simp] theorem isNull_mem (cs : List α) : (Slice.mem cs).isNull = false := rfl
@[simp] theorem cells_null (n : Nat) : (Slice.null n : Slice α).cells = [] := rfl
@[simp] theorem cells_mem (cs : List α) : (Slice.mem cs).cells = cs := rfl
@[simp] theorem put_mem (xs cs : List α) : put xs (.mem cs) = .mem (overlay xs cs) := rfl
@[simp] theorem put_nil (s : Slice α) : put [] s = s := by cases s <;> simp [put]

theorem isNull_put (xs : List α) (s : Slice α) : (put xs s).isNull = s.isNull := by
  cases s <;> rfl

theorem size_put {xs : List α} {s : Slice α} (h : xs.length ≤ s.size) :
    (put xs s).size = s.size := by
  cases s with
  | null n => rfl
  | mem cs => exact length_overlay h

/-- A slice that is not `NULL` is its cells. -/
theorem eq_mem {s : Slice α} (h : s.isNull = false) : s = .mem s.cells := by
  cases s with
  | null n => cases h
  | mem cs => rfl

theorem read_mem {cs : List α} {i : Nat} (h : i < cs.length) :
    (Slice.mem cs).read i = .ok cs[i] := by
  simp [read, h]

/-- A cell of the middle part. -/
theorem read_mid {xs ys zs : List α} {i : Nat} (h : i < ys.length) :
    (Slice.mem (xs ++ ys ++ zs)).read (xs.length + i) = .ok ys[i] := by
  have hi : (xs ++ ys ++ zs)[xs.length + i]? = some ys[i] := by
    rw [List.append_assoc, List.getElem?_append_right (by omega), Nat.add_sub_cancel_left,
      List.getElem?_append_left h, List.getElem?_eq_getElem h]
  rw [read, cells, hi]

theorem write_mem {cs : List α} {i : Nat} (a : α) (h : i < cs.length) :
    (Slice.mem cs).write i a = .ok (.mem (cs.set i a)) := by
  simp [write, h]

theorem pass_mem {cs : List α} {k : Nat} (h : k ≤ cs.length) :
    (Slice.mem cs).pass k = .ok (.mem (cs.take k)) := by
  simp [pass, h]

/-- The cell behind an overwritten front is written next. -/
theorem write_overlay {xs ys : List α} (a : α) (h : xs.length < ys.length) :
    (Slice.mem (overlay xs ys)).write xs.length a = .ok (.mem (overlay (xs ++ [a]) ys)) := by
  rw [write_mem a (by rw [length_overlay (Nat.le_of_lt h)]; exact h), set_overlay h]

/-- The same, at an index that is the length of the front. -/
theorem write_overlay_at {xs ys : List α} {i : Nat} (a : α) (hi : i = xs.length)
    (h : xs.length < ys.length) :
    (Slice.mem (overlay xs ys)).write i a = .ok (.mem (overlay (xs ++ [a]) ys)) :=
  hi ▸ write_overlay a h

end Slice

/-- A single object behind a pointer, a function included; through `NULL` there is none. -/
def deref (p : Option α) : Checked α :=
  match p with
  | some a => .ok a
  | none => .error ⟨0, 0⟩

@[simp] theorem deref_some (a : α) : deref (some a) = .ok a := rfl

/-! ### Array members -/

def load {n : Nat} (v : Vector α n) (i : Nat) : Checked α :=
  if h : i < n then .ok v[i] else .error ⟨i, n⟩

def store {n : Nat} (v : Vector α n) (i : Nat) (a : α) : Checked (Vector α n) :=
  if h : i < n then .ok (v.set i a) else .error ⟨i, n⟩

/-- The argument pair `(v, k)`: the callee may touch the first `k` cells of `v`. -/
def pass {n : Nat} (v : Vector α n) (k : Nat) : Checked (Slice α) :=
  if k ≤ n then .ok (.mem (v.toList.take k)) else .error ⟨k, n⟩

theorem load_ok {n : Nat} {v : Vector α n} {i : Nat} (h : i < n) : load v i = .ok v[i] := by
  simp [load, h]

theorem store_ok {n : Nat} {v : Vector α n} {i : Nat} {a : α} (h : i < n) :
    store v i a = .ok (v.set i a) := by
  simp [store, h]

theorem store_inBounds {n : Nat} {v : Vector α n} {i : Nat} {a : α} (h : i < n) :
    store v i a = .ok (v.setIfInBounds i a) := by
  rw [store_ok h, Except.ok.injEq]
  ext j hj
  rw [Vector.getElem_set, Vector.getElem_setIfInBounds]

theorem load_fault {n : Nat} {v : Vector α n} {i : Nat} (h : ¬ i < n) :
    load v i = .error ⟨i, n⟩ := by
  simp [load, h]

theorem store_fault {n : Nat} {v : Vector α n} {i : Nat} {a : α} (h : ¬ i < n) :
    store v i a = .error ⟨i, n⟩ := by
  simp [store, h]

theorem pass_ok {n : Nat} {v : Vector α n} {k : Nat} (h : k ≤ n) :
    pass v k = .ok (.mem (v.toList.take k)) := by
  simp [pass, h]

/-- The cells `as` from index `i` on; what does not fit is dropped. -/
def fill {n : Nat} (v : Vector α n) (i : Nat) : List α → Vector α n
  | [] => v
  | a :: as => fill (v.setIfInBounds i a) (i + 1) as

theorem fill_below {n : Nat} {v : Vector α n} {i j : Nat} {as : List α} (h : j < i) :
    (fill v i as)[j]? = v[j]? := by
  induction as generalizing v i with
  | nil => rfl
  | cons a as ih => rw [fill, ih (by omega), Vector.getElem?_setIfInBounds_ne (by omega)]

theorem fill_above {n : Nat} {v : Vector α n} {i j : Nat} {as : List α} (h : i + as.length ≤ j) :
    (fill v i as)[j]? = v[j]? := by
  induction as generalizing v i with
  | nil => rfl
  | cons a as ih =>
      rw [List.length_cons] at h
      rw [fill, ih (by omega), Vector.getElem?_setIfInBounds_ne (by omega)]

theorem fill_inside {n : Nat} {v : Vector α n} {i k : Nat} {as : List α} (hk : k < as.length)
    (hn : i + as.length ≤ n) : (fill v i as)[i + k]? = some as[k] := by
  induction as generalizing v i k with
  | nil => simp at hk
  | cons a as ih =>
      rw [List.length_cons] at hk hn
      cases k with
      | zero =>
          show (fill (v.setIfInBounds i a) (i + 1) as)[i]? = some a
          rw [fill_below (by omega), Vector.getElem?_setIfInBounds_self_of_lt (by omega)]
      | succ k =>
          have h := @ih (v.setIfInBounds i a) (i + 1) k (by omega) (by omega)
          rw [fill, show i + (k + 1) = i + 1 + k by omega, h]
          rfl

/-! ### Counted loops -/

/-- `for (i = 0; i < n; i++) s = f(i, s)`. -/
def upto (n : Nat) (f : Nat → σ → Except ε σ) (s : σ) : Except ε σ :=
  match n with
  | 0 => .ok s
  | n + 1 => upto n f s >>= f n

/-- The invariant rule: what holds at the start, and is kept by every turn, holds at the end;
the loop does not stop early. -/
theorem upto_ok {n : Nat} {f : Nat → σ → Except ε σ} {s : σ} (P : Nat → σ → Prop) (h₀ : P 0 s)
    (hs : ∀ i t, i < n → P i t → ∃ t', f i t = .ok t' ∧ P (i + 1) t') :
    ∃ t, upto n f s = .ok t ∧ P n t := by
  induction n with
  | zero => exact ⟨s, rfl, h₀⟩
  | succ n ih =>
      obtain ⟨t, ht, hP⟩ := ih fun i t hi => hs i t (by omega)
      obtain ⟨t', ht', hP'⟩ := hs n t (by omega) hP
      exact ⟨t', by simp only [upto, ht]; exact ht', hP'⟩

/-- A copy loop into an array member. -/
theorem upto_store {n m : Nat} {v : Vector α n} {src : Nat → Checked α} {xs : List α}
    (hm : xs.length = m) (hn : m ≤ n) (hsrc : ∀ i (h : i < xs.length), src i = .ok xs[i]) :
    ∃ w : Vector α n, upto m (fun i v => do store v i (← src i)) v = .ok w ∧
      w.toList = overlay xs v.toList := by
  obtain ⟨w, hw, hP⟩ := upto_ok (n := m) (f := fun i v => do store v i (← src i)) (s := v)
    (fun i w => w.toList = overlay (xs.take i) v.toList) (by simp) (fun i w hi hw => by
      refine ⟨w.set i xs[i], ?_, ?_⟩
      · simp only [hsrc i (by omega)]
        exact store_ok (by omega)
      · rw [Vector.toList_set, hw, set_overlay_take (by omega) (by simp; omega)])
  exact ⟨w, hw, by rw [hP, ← hm, List.take_length]⟩

/-- A copy loop into a slice. -/
theorem upto_write {m : Nat} {cs : List α} {src : Nat → Checked α} {xs : List α}
    (hm : xs.length = m) (hn : m ≤ cs.length) (hsrc : ∀ i (h : i < xs.length), src i = .ok xs[i]) :
    upto m (fun i s => do Slice.write s i (← src i)) (.mem cs) = .ok (.mem (overlay xs cs)) := by
  obtain ⟨s, hs, hP⟩ := upto_ok (n := m) (f := fun i s => do Slice.write s i (← src i))
    (s := Slice.mem cs) (fun i s => s = .mem (overlay (xs.take i) cs)) (by simp)
    (fun i s hi hs => by
      subst hs
      refine ⟨_, ?_, rfl⟩
      simp only [hsrc i (by omega)]
      rw [← set_overlay_take (by omega) (by omega)]
      exact Slice.write_mem _ (by rw [length_overlay (by simp; omega)]; omega))
  rw [hs, hP, ← hm, List.take_length]

end Memory
