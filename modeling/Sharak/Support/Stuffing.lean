import Mathlib.Data.List.Basic
import Mathlib.Tactic.Tauto

/-!
# Support — Stuffing

Escape stuffing over any alphabet.  A *code* names a delimiter `flag`, an escape symbol `esc` and
an involution `mask` that takes both of them to plain symbols.  `stuff w` is `w` with each special
symbol `b` sent as `esc, mask b`; `unstuff s` drops each `esc` and masks the first other symbol
after it, whatever `s` is.

* `unstuff_stuff`: stuffing is undone, in front of any tail (`unstuff_stuff_append`).
* `flag_not_mem_stuff`: a stuffed word holds no delimiter.
* `clean_iff`: the delimiter-free segments that are the stuffing of something are those where
  every `esc` is followed by the mask of a special symbol (`BadEscape` is the negation), and each
  is the stuffing of what it unstuffs to.
-/

namespace Stuffing

/-- A delimiter, an escape symbol, and the mask an escaped symbol is sent under. -/
structure Code (α : Type) where
  flag : α
  esc : α
  mask : α → α
  mask_mask : ∀ a, mask (mask a) = a
  esc_ne_flag : esc ≠ flag
  mask_flag : mask flag ≠ flag ∧ mask flag ≠ esc
  mask_esc : mask esc ≠ flag ∧ mask esc ≠ esc

variable {α : Type} (C : Code α)

namespace Code

/-- A symbol that must not be sent as itself. -/
def Special (b : α) : Prop := b = C.flag ∨ b = C.esc

theorem mask_plain {b : α} (h : C.Special b) : ¬ C.Special (C.mask b) := by
  rcases h with rfl | rfl
  · exact fun h => h.elim C.mask_flag.1 C.mask_flag.2
  · exact fun h => h.elim C.mask_esc.1 C.mask_esc.2

theorem mask_ne_esc {b : α} (h : C.Special b) : C.mask b ≠ C.esc :=
  fun e => C.mask_plain h (Or.inr e)

theorem mask_ne_flag {b : α} (h : C.Special b) : C.mask b ≠ C.flag :=
  fun e => C.mask_plain h (Or.inl e)

theorem esc_special : C.Special C.esc := Or.inr rfl

/-! ### Bad escapes -/

/-- Some `esc` of `s` is not followed by the mask of a special symbol: by another symbol, or by
nothing. -/
def BadEscape (s : List α) : Prop :=
  ∃ u v, s = u ++ C.esc :: v ∧ ∀ c, v.head? = some c → c ≠ C.mask C.flag ∧ c ≠ C.mask C.esc

theorem not_badEscape_nil : ¬ C.BadEscape [] := by
  rintro ⟨u, v, h, -⟩
  simp at h

theorem badEscape_cons_other {b : α} (h : b ≠ C.esc) (s : List α) :
    C.BadEscape (b :: s) ↔ C.BadEscape s := by
  constructor
  · rintro ⟨u, v, hs, hv⟩
    cases u with
    | nil => exact absurd (List.cons.inj hs).1 h
    | cons a u => exact ⟨u, v, (List.cons.inj hs).2, hv⟩
  · rintro ⟨u, v, rfl, hv⟩
    exact ⟨b :: u, v, rfl, hv⟩

theorem badEscape_esc_nil : C.BadEscape [C.esc] := ⟨[], [], rfl, by simp⟩

theorem badEscape_esc_cons {c : α} (s : List α) :
    C.BadEscape (C.esc :: c :: s) ↔
      (c ≠ C.mask C.flag ∧ c ≠ C.mask C.esc) ∨ C.BadEscape (c :: s) := by
  constructor
  · rintro ⟨u, v, hs, hv⟩
    cases u with
    | nil =>
        obtain rfl : c :: s = v := (List.cons.inj hs).2
        exact Or.inl (hv c rfl)
    | cons a u => exact Or.inr ⟨u, v, (List.cons.inj hs).2, hv⟩
  · rintro (hc | ⟨u, v, hs, hv⟩)
    · refine ⟨[], c :: s, rfl, ?_⟩
      intro d hd
      obtain rfl : c = d := Option.some.inj hd
      exact hc
    · exact ⟨C.esc :: u, v, by rw [List.cons_append, ← hs], hv⟩

/-- Without a bad escape, every `esc` is followed by the mask of a special symbol. -/
theorem esc_followed {s : List α} (h : ¬ C.BadEscape s) {i : Nat} (hi : s[i]? = some C.esc) :
    s[i + 1]? = some (C.mask C.flag) ∨ s[i + 1]? = some (C.mask C.esc) := by
  obtain ⟨hlt, he⟩ := List.getElem?_eq_some_iff.mp hi
  by_contra hn
  refine h ⟨s.take i, s.drop (i + 1), ?_, ?_⟩
  · rw [← he, ← List.drop_eq_getElem_cons hlt, List.take_append_drop]
  · intro c hc
    rw [List.head?_drop] at hc
    constructor
    · rintro rfl
      exact hn (.inl hc)
    · rintro rfl
      exact hn (.inr hc)

/-! ### Stuffing -/

variable [DecidableEq α]

instance (b : α) : Decidable (C.Special b) := inferInstanceAs (Decidable (_ ∨ _))

/-- How one symbol is sent. -/
def unit (b : α) : List α := if C.Special b then [C.esc, C.mask b] else [b]

/-- How a word is sent. -/
def stuff (w : List α) : List α := w.flatMap C.unit

theorem unit_special {b : α} (h : C.Special b) : C.unit b = [C.esc, C.mask b] := if_pos h

theorem unit_plain {b : α} (h : ¬ C.Special b) : C.unit b = [b] := if_neg h

@[simp] theorem stuff_nil : C.stuff [] = [] := rfl

@[simp] theorem stuff_cons (b : α) (w : List α) : C.stuff (b :: w) = C.unit b ++ C.stuff w := rfl

theorem stuff_append (v w : List α) : C.stuff (v ++ w) = C.stuff v ++ C.stuff w := by
  simp [stuff]

/-- Each special symbol costs one more. -/
theorem length_stuff (w : List α) :
    (C.stuff w).length = w.length + w.countP fun b => decide (C.Special b) := by
  induction w with
  | nil => rfl
  | cons b w ih =>
      rw [stuff_cons, List.length_append, ih, List.length_cons, List.countP_cons]
      by_cases h : C.Special b
      · simp [C.unit_special h, h]
        omega
      · simp [C.unit_plain h, h]
        omega

theorem length_stuff_le (w : List α) : (C.stuff w).length ≤ 2 * w.length := by
  have h := List.countP_le_length (p := fun b => decide (C.Special b)) (l := w)
  rw [C.length_stuff]
  omega

theorem flag_not_mem_unit (b : α) : C.flag ∉ C.unit b := by
  by_cases h : C.Special b
  · rw [C.unit_special h]
    simp [C.esc_ne_flag.symm, (C.mask_ne_flag h).symm]
  · rw [C.unit_plain h]
    simpa [eq_comm] using fun e => h (Or.inl e)

/-- A stuffed word holds no delimiter. -/
theorem flag_not_mem_stuff (w : List α) : C.flag ∉ C.stuff w := by
  intro h
  obtain ⟨b, -, hb⟩ := List.mem_flatMap.mp h
  exact C.flag_not_mem_unit b hb

/-- Each symbol of a stuffed word is that of a plain one, or one of the two of a special one. -/
theorem stuff_locate {w : List α} {j : Nat} (h : j < (C.stuff w).length) :
    ∃ a x c, w = a ++ x :: c ∧
      ((¬ C.Special x ∧ j = (C.stuff a).length) ∨
        (C.Special x ∧ (j = (C.stuff a).length ∨ j = (C.stuff a).length + 1))) := by
  induction w generalizing j with
  | nil => simp at h
  | cons b w ih =>
      rw [stuff_cons, List.length_append] at h
      by_cases hj : j < (C.unit b).length
      · refine ⟨[], b, w, rfl, ?_⟩
        by_cases hb : C.Special b
        · rw [C.unit_special hb] at hj
          exact Or.inr ⟨hb, by simp at hj ⊢; omega⟩
        · rw [C.unit_plain hb] at hj
          exact Or.inl ⟨hb, by simpa using hj⟩
      · obtain ⟨a, x, c, rfl, hx⟩ := ih (j := j - (C.unit b).length) (by omega)
        refine ⟨b :: a, x, c, rfl, ?_⟩
        rw [stuff_cons, List.length_append]
        exact hx.imp (And.imp_right (by omega)) (And.imp_right (Or.imp (by omega) (by omega)))

/-! ### Unstuffing -/

/-- The symbols of `s`; `e` says that an escape is pending in front of it. -/
def unstuffFrom : Bool → List α → List α
  | _, [] => []
  | e, b :: s =>
      if b = C.esc then unstuffFrom true s
      else (if e then C.mask b else b) :: unstuffFrom false s

/-- `s` with each escape dropped and the first other symbol after it masked. -/
def unstuff (s : List α) : List α := C.unstuffFrom false s

/-- An escape is pending behind `s`. -/
def pendingFrom : Bool → List α → Bool
  | e, [] => e
  | _, b :: s => pendingFrom (b = C.esc) s

def pending (s : List α) : Bool := C.pendingFrom false s

@[simp] theorem unstuffFrom_nil (e : Bool) : C.unstuffFrom e [] = [] := by
  cases e <;> rfl

theorem unstuffFrom_esc (e : Bool) (s : List α) :
    C.unstuffFrom e (C.esc :: s) = C.unstuffFrom true s := by
  simp [unstuffFrom]

theorem unstuffFrom_other {b : α} (h : b ≠ C.esc) (e : Bool) (s : List α) :
    C.unstuffFrom e (b :: s) = (if e then C.mask b else b) :: C.unstuffFrom false s := by
  simp [unstuffFrom, h]

theorem unstuffFrom_append (e : Bool) (s t : List α) :
    C.unstuffFrom e (s ++ t) = C.unstuffFrom e s ++ C.unstuffFrom (C.pendingFrom e s) t := by
  induction s generalizing e with
  | nil => simp [pendingFrom]
  | cons b s ih =>
      by_cases h : b = C.esc
      · subst h
        rw [List.cons_append, unstuffFrom_esc, unstuffFrom_esc, ih]
        simp [pendingFrom]
      · rw [List.cons_append, C.unstuffFrom_other h, C.unstuffFrom_other h, ih]
        simp [pendingFrom, h]

theorem pendingFrom_append (e : Bool) (s t : List α) :
    C.pendingFrom e (s ++ t) = C.pendingFrom (C.pendingFrom e s) t := by
  induction s generalizing e with
  | nil => rfl
  | cons b s ih => simp only [List.cons_append, pendingFrom, ih]

/-- One more symbol: an escape is dropped and leaves one pending. -/
theorem unstuff_snoc_esc (s : List α) :
    C.unstuff (s ++ [C.esc]) = C.unstuff s ∧ C.pending (s ++ [C.esc]) = true := by
  constructor
  · rw [unstuff, unstuffFrom_append, unstuffFrom_esc, unstuffFrom_nil, List.append_nil, unstuff]
  · rw [pending, pendingFrom_append]; simp [pendingFrom]

/-- One more symbol: any other is taken, masked if an escape is pending. -/
theorem unstuff_snoc_other {b : α} (h : b ≠ C.esc) (s : List α) :
    C.unstuff (s ++ [b]) = C.unstuff s ++ [if C.pending s then C.mask b else b] ∧
      C.pending (s ++ [b]) = false := by
  constructor
  · rw [unstuff, unstuffFrom_append, C.unstuffFrom_other h, unstuffFrom_nil]; rfl
  · rw [pending, pendingFrom_append]; simp [pendingFrom, h]

theorem unstuff_unit_append (b : α) (t : List α) :
    C.unstuff (C.unit b ++ t) = b :: C.unstuff t := by
  by_cases h : C.Special b
  · rw [C.unit_special h, List.cons_append, List.singleton_append, unstuff, unstuffFrom_esc,
      C.unstuffFrom_other (C.mask_ne_esc h), if_pos rfl, C.mask_mask]
    rfl
  · rw [C.unit_plain h, List.singleton_append, unstuff,
      C.unstuffFrom_other (fun e => h (Or.inr e))]
    rfl

/-- Stuffing is undone, in front of any tail. -/
theorem unstuff_stuff_append (w t : List α) : C.unstuff (C.stuff w ++ t) = w ++ C.unstuff t := by
  induction w with
  | nil => rfl
  | cons b w ih => rw [stuff_cons, List.append_assoc, unstuff_unit_append, ih]; rfl

theorem unstuff_stuff (w : List α) : C.unstuff (C.stuff w) = w := by
  simpa [unstuff] using C.unstuff_stuff_append w []

/-- Behind a stray escape, the next symbol of a stuffed word arrives masked when it was plain
and as itself when it was special; the rest arrives as sent. -/
theorem unstuffFrom_true_stuff_cons (y : α) (c : List α) :
    C.unstuffFrom true (C.stuff (y :: c)) = (if C.Special y then y else C.mask y) :: c := by
  by_cases h : C.Special y
  · rw [stuff_cons, C.unit_special h, if_pos h, List.cons_append, List.singleton_append,
      unstuffFrom_esc, C.unstuffFrom_other (C.mask_ne_esc h), if_pos rfl, C.mask_mask]
    exact congrArg _ (C.unstuff_stuff c)
  · rw [stuff_cons, C.unit_plain h, if_neg h, List.singleton_append,
      C.unstuffFrom_other (fun e => h (Or.inr e)), if_pos rfl]
    exact congrArg _ (C.unstuff_stuff c)

/-! ### Canonical segments -/

theorem badEscape_unit_append (b : α) (s : List α) :
    C.BadEscape (C.unit b ++ s) ↔ C.BadEscape s := by
  by_cases h : C.Special b
  · rw [C.unit_special h, List.cons_append, List.singleton_append, badEscape_esc_cons,
      C.badEscape_cons_other (C.mask_ne_esc h)]
    have : C.mask b = C.mask C.flag ∨ C.mask b = C.mask C.esc :=
      h.imp (congrArg _) (congrArg _)
    tauto
  · rw [C.unit_plain h, List.singleton_append, C.badEscape_cons_other fun e => h (Or.inr e)]

theorem not_badEscape_stuff (w : List α) : ¬ C.BadEscape (C.stuff w) := by
  induction w with
  | nil => exact C.not_badEscape_nil
  | cons b w ih => rwa [stuff_cons, badEscape_unit_append]

/-- A segment without a bad escape is the stuffing of what it unstuffs to. -/
theorem stuff_unstuff : ∀ {s : List α}, C.flag ∉ s → ¬ C.BadEscape s →
    C.stuff (C.unstuff s) = s
  | [], _, _ => rfl
  | [b], hf, hb => by
      have he : b ≠ C.esc := fun e => hb (e ▸ C.badEscape_esc_nil)
      have hp : ¬ C.Special b := fun h => h.elim (fun e => hf (by simp [e])) he
      rw [unstuff, C.unstuffFrom_other he, unstuffFrom_nil]
      simp [C.unit_plain hp]
  | b :: c :: s, hf, hb => by
      by_cases he : b = C.esc
      · subst he
        rw [badEscape_esc_cons, not_or] at hb
        have hc : c = C.mask C.flag ∨ c = C.mask C.esc := by tauto
        have hce : c ≠ C.esc := hc.elim (fun e => e ▸ C.mask_flag.2) (fun e => e ▸ C.mask_esc.2)
        have hsp : C.Special (C.mask c) := by
          rcases hc with rfl | rfl
          · exact Or.inl (C.mask_mask _)
          · exact Or.inr (C.mask_mask _)
        have ih := stuff_unstuff (s := s) (by simp at hf; tauto)
          (by rw [← C.badEscape_cons_other hce]; exact hb.2)
        rw [unstuff, unstuffFrom_esc, C.unstuffFrom_other hce, if_pos rfl, stuff_cons,
          C.unit_special hsp, C.mask_mask, List.cons_append, List.singleton_append]
        exact congrArg (fun t => C.esc :: c :: t) ih
      · have hp : ¬ C.Special b := fun h => h.elim (fun e => hf (by simp [e])) he
        have ih := stuff_unstuff (s := c :: s) (by simp at hf; simp; tauto)
          (by rw [← C.badEscape_cons_other he]; exact hb)
        rw [unstuff, C.unstuffFrom_other he, stuff_cons, if_neg (by simp), C.unit_plain hp,
          List.singleton_append]
        exact congrArg (b :: ·) ih

/-- **Canonical segments.**  A delimiter-free segment has no bad escape exactly when it is the
stuffing of what it unstuffs to. -/
theorem clean_iff {s : List α} (hf : C.flag ∉ s) :
    ¬ C.BadEscape s ↔ s = C.stuff (C.unstuff s) :=
  ⟨fun h => (C.stuff_unstuff hf h).symm, fun h => h ▸ C.not_badEscape_stuff _⟩

end Code

end Stuffing
