import Mathlib.Algebra.CharP.Two
import Mathlib.Algebra.Field.ZMod
import Mathlib.Algebra.Module.ZMod
import Mathlib.Data.List.Count
import Mathlib.Data.ZMod.Basic
import Mathlib.RingTheory.AdjoinRoot

/-!
# Support — cyclic redundancy codes

A string of bits is a polynomial over `GF(2)` (`ofBits`), its first bit the highest coefficient.
A register of `n` bits with feedback taps `g` computes in the quotient by the generator
`x ^ n + g`: a shift multiplies by `x` (`val_shift`), so the register after a string of words is
the remainder of the message and of the initial value moved in front of it (`val_run`).

* `run_append_eq_zero_iff`: a register that is then fed the digits of a value is zero exactly when
  it held that value.
* `run_xor_eq_zero_iff`: an error turns a zero register into a zero register exactly when the
  generator divides the error's polynomial.
* `not_dvd_error`: the errors a generator does not divide: up to three bits, an odd number of bits,
  or a burst no longer than the register.
-/

namespace Cyclic
open Polynomial

/-! ### Bit strings as polynomials -/

/-- The polynomial of a string of bits, highest coefficient first. -/
noncomputable def ofBits : List Bool → (ZMod 2)[X]
  | [] => 0
  | b :: bs => (if b then X ^ bs.length else 0) + ofBits bs

@[simp] theorem ofBits_nil : ofBits [] = 0 := rfl

@[simp] theorem ofBits_cons (b : Bool) (bs : List Bool) :
    ofBits (b :: bs) = (if b then X ^ bs.length else 0) + ofBits bs := rfl

theorem ofBits_append (as bs : List Bool) :
    ofBits (as ++ bs) = ofBits as * X ^ bs.length + ofBits bs := by
  induction as with
  | nil => simp
  | cons a as ih =>
      cases a with
      | false => simpa using ih
      | true => simp only [List.cons_append, ofBits_cons, ih, List.length_append]; simp; ring

/-- The coefficient of `x ^ i` is the `i`-th bit from the end. -/
theorem coeff_ofBits (bs : List Bool) (i : ℕ) :
    (ofBits bs).coeff i = if bs.reverse[i]? = some true then 1 else 0 := by
  induction bs with
  | nil => simp
  | cons b bs ih =>
      rw [ofBits_cons, coeff_add, ih, List.reverse_cons]
      rcases lt_trichotomy i bs.length with h | rfl | h
      · rw [List.getElem?_append_left (by simpa using h)]
        cases b <;> simp [coeff_X_pow, h.ne]
      · cases b <;> simp
      · have hout : (bs.reverse ++ [b]).length ≤ i := by simpa using h
        rw [List.getElem?_eq_none hout, List.getElem?_eq_none (by simpa using h.le)]
        cases b <;> simp [coeff_X_pow, h.ne']

theorem degree_ofBits_lt (bs : List Bool) : (ofBits bs).degree < bs.length := by
  rw [degree_lt_iff_coeff_zero]
  intro i hi
  rw [coeff_ofBits, List.getElem?_eq_none (by simpa using hi)]
  simp

/-- Only a string of zeros has the polynomial zero. -/
theorem ofBits_eq_zero_iff {bs : List Bool} : ofBits bs = 0 ↔ true ∉ bs := by
  constructor
  · intro h hb
    obtain ⟨i, hi⟩ := List.mem_iff_getElem?.mp (List.mem_reverse.mpr hb)
    have hc := coeff_ofBits bs i
    rw [h, if_pos hi] at hc
    simp at hc
  · intro h
    ext i
    have hi : bs.reverse[i]? ≠ some true := fun hi =>
      h (List.mem_reverse.mp (List.mem_of_getElem? hi))
    rw [coeff_ofBits, if_neg hi, coeff_zero]

theorem ofBits_replicate_true (k : ℕ) :
    ofBits (List.replicate k true) = ∑ i ∈ Finset.range k, X ^ i := by
  induction k with
  | zero => rfl
  | succ k ih =>
      rw [List.replicate_succ, ofBits_cons, ih, if_pos rfl, List.length_replicate,
        Finset.sum_range_succ, add_comm]

/-- Exclusive or of strings of one length is addition. -/
theorem ofBits_xor {as bs : List Bool} (h : as.length = bs.length) :
    ofBits (List.zipWith xor as bs) = ofBits as + ofBits bs := by
  induction as generalizing bs with
  | nil =>
      obtain rfl : bs = [] := List.length_eq_zero_iff.mp h.symm
      simp
  | cons a as ih =>
      obtain ⟨b, bs, rfl⟩ := List.exists_cons_of_length_eq_add_one h.symm
      have hl : as.length = bs.length := by simpa using h
      have hz : (List.zipWith xor as bs).length = bs.length := by simp [hl]
      have htwo := CharTwo.add_self_eq_zero (X ^ bs.length : (ZMod 2)[X])
      rw [List.zipWith_cons_cons, ofBits_cons, ih hl, hz, ofBits_cons, ofBits_cons, hl]
      cases a <;> cases b <;> simp only [Bool.xor_false, Bool.xor_true, Bool.not_true,
        Bool.not_false, if_true, if_false, Bool.false_eq_true]
      · ring
      · ring
      · ring
      · linear_combination -htwo

/-- The value at `1` is the parity of the string. -/
theorem eval_one_ofBits (bs : List Bool) : (ofBits bs).eval 1 = (bs.count true : ZMod 2) := by
  induction bs with
  | nil => simp
  | cons b bs ih =>
      cases b with
      | false => simpa using ih
      | true => simp [ih, add_comm]

/-! ### Registers -/

variable {n m : ℕ}

/-- The bits of a word, highest first. -/
def bits (r : BitVec n) : List Bool := List.ofFn fun i : Fin n => r.getMsbD i

@[simp] theorem length_bits (r : BitVec n) : (bits r).length = n := by simp [bits]

theorem bits_xor (r s : BitVec n) : bits (r ^^^ s) = List.zipWith xor (bits r) (bits s) := by
  apply List.ext_getElem
  · simp
  · intro i h₁ h₂
    simp [bits]

theorem true_mem_bits_iff {r : BitVec n} : true ∈ bits r ↔ r ≠ 0 := by
  constructor
  · rintro h rfl
    simp [bits] at h
  · intro h
    by_contra hr
    apply h
    apply BitVec.eq_of_getMsbD_eq
    intro i hi
    have hf : r.getMsbD i ≠ true := fun ht => hr (by simpa [bits] using ⟨⟨i, hi⟩, ht⟩)
    simpa using hf

/-- The polynomial of a word. -/
noncomputable def poly (r : BitVec n) : (ZMod 2)[X] := ofBits (bits r)

theorem poly_xor (r s : BitVec n) : poly (r ^^^ s) = poly r + poly s := by
  rw [poly, bits_xor, ofBits_xor (by simp)]
  rfl

theorem poly_eq_zero_iff {r : BitVec n} : poly r = 0 ↔ r = 0 := by
  rw [poly, ofBits_eq_zero_iff, true_mem_bits_iff, not_not]

theorem degree_poly_lt (r : BitVec n) : (poly r).degree < n := by
  have h := degree_ofBits_lt (bits r)
  rwa [length_bits] at h

/-- The coefficient of `x ^ i` is bit `i`. -/
theorem coeff_poly (r : BitVec n) (i : ℕ) :
    (poly r).coeff i = if r.getLsbD i then 1 else 0 := by
  have hbit : (bits r).reverse[i]? = some true ↔ r.getLsbD i = true := by
    by_cases hi : i < n
    · rw [List.getElem?_reverse (by rwa [length_bits]), length_bits, bits,
        List.getElem?_ofFn, dif_pos (by omega), Option.some.injEq,
        BitVec.getMsbD_eq_getLsbD]
      simp only [show n - 1 - i < n by omega, show n - 1 - (n - 1 - i) = i by omega,
        decide_true, Bool.true_and]
    · rw [List.getElem?_eq_none (by simpa using hi), BitVec.getLsbD_of_ge r i (by omega)]
      simp
  rw [poly, coeff_ofBits]
  exact if_congr hbit rfl rfl

/-- A left shift loses the highest coefficient. -/
theorem poly_shiftLeft (r : BitVec n) :
    X * poly r = (if r.msb then X ^ n else 0) + poly (r <<< 1) := by
  cases n with
  | zero =>
      obtain rfl : r = 0 := BitVec.eq_nil r
      simp [poly, bits]
  | succ n =>
      let rest := List.ofFn fun i : Fin n => r.getMsbD (i + 1)
      have hr : bits r = r.msb :: rest := by
        rw [BitVec.msb_eq_getMsbD_zero, bits, List.ofFn_succ]
        rfl
      have hs : bits (r <<< 1) = rest ++ [false] := by
        rw [bits, List.ofFn_succ_last]
        simp [rest, BitVec.getMsbD_shiftLeft, BitVec.getMsbD_of_ge]
      have hlen : rest.length = n := by simp [rest]
      rw [poly, hr, ofBits_cons, hlen, poly, hs, ofBits_append]
      cases r.msb with
      | false => simp [mul_comm]
      | true => simp only [if_true, List.length_singleton, ofBits_cons, ofBits_nil]; simp; ring

/-- One shift of a register with feedback taps `g`. -/
def shift (g r : BitVec n) : BitVec n := if r.msb then (r <<< 1) ^^^ g else r <<< 1

/-- The generator of the taps `g`. -/
noncomputable def gen (g : BitVec n) : (ZMod 2)[X] := X ^ n + poly g

theorem monic_gen (g : BitVec n) : (gen g).Monic := monic_X_pow_add (degree_poly_lt g)

theorem degree_gen (g : BitVec n) : (gen g).degree = n := by
  have h : (poly g).degree < (X ^ n : (ZMod 2)[X]).degree := by
    rw [degree_X_pow]; exact degree_poly_lt g
  rw [gen, degree_add_eq_left_of_degree_lt h, degree_X_pow]

/-- The class of a register modulo the generator. -/
noncomputable def val (g r : BitVec n) : AdjoinRoot (gen g) := AdjoinRoot.mk (gen g) (poly r)

theorem val_xor (g r s : BitVec n) : val g (r ^^^ s) = val g r + val g s := by
  rw [val, poly_xor, map_add]
  rfl

theorem val_eq_zero_iff {g r : BitVec n} : val g r = 0 ↔ r = 0 := by
  rw [val, AdjoinRoot.mk_eq_zero]
  constructor
  · intro h
    by_contra hr
    refine (monic_gen g).not_dvd_of_degree_lt (fun h0 => hr (poly_eq_zero_iff.mp h0)) ?_ h
    rw [degree_gen]
    exact degree_poly_lt r
  · rintro rfl
    rw [poly_eq_zero_iff.mpr rfl]
    exact dvd_zero _

theorem val_injective (g : BitVec n) : Function.Injective (val g) := by
  intro r s h
  have hx : val g (r ^^^ s) = 0 := by rw [val_xor, h, ZModModule.add_self]
  exact BitVec.xor_eq_zero_iff.mp (val_eq_zero_iff.mp hx)

/-- The taps stand for the power that is shifted out. -/
theorem val_taps (g : BitVec n) : val g g = AdjoinRoot.root (gen g) ^ n := by
  have h : AdjoinRoot.mk (gen g) (X ^ n + poly g) = 0 := AdjoinRoot.mk_self
  rw [map_add, map_pow, AdjoinRoot.mk_X, add_eq_zero_iff_eq_neg, ZModModule.neg_eq_self] at h
  exact h.symm

/-- A shift multiplies by `x`. -/
theorem val_shift (g r : BitVec n) : val g (shift g r) = AdjoinRoot.root (gen g) * val g r := by
  have h := congrArg (AdjoinRoot.mk (gen g)) (poly_shiftLeft r)
  rw [map_mul, AdjoinRoot.mk_X, map_add] at h
  rw [shift, show val g r = AdjoinRoot.mk (gen g) (poly r) from rfl, h]
  cases r.msb with
  | false => simp [val]
  | true => rw [if_pos rfl, if_pos rfl, val_xor, val_taps, map_pow, AdjoinRoot.mk_X, add_comm, val]

theorem val_shifts (g r : BitVec n) (k : ℕ) :
    val g ((shift g)^[k] r) = AdjoinRoot.root (gen g) ^ k * val g r := by
  induction k with
  | zero => simp
  | succ k ih => rw [Function.iterate_succ_apply', val_shift, ih, pow_succ']; ring

/-! ### Words through a register -/

/-- The next word: into the highest bits, then one shift for each bit. -/
def feed (g r : BitVec n) (b : BitVec m) : BitVec n :=
  (shift g)^[m] (r ^^^ (b.setWidth n <<< (n - m)))

/-- The bits of a string of words. -/
def allBits (ws : List (BitVec m)) : List Bool := ws.flatMap bits

@[simp] theorem allBits_nil : allBits ([] : List (BitVec m)) = [] := rfl

@[simp] theorem allBits_cons (b : BitVec m) (ws : List (BitVec m)) :
    allBits (b :: ws) = bits b ++ allBits ws := rfl

theorem length_allBits (ws : List (BitVec m)) : (allBits ws).length = m * ws.length := by
  induction ws with
  | nil => rfl
  | cons b ws ih => rw [allBits_cons, List.length_append, length_bits, ih, List.length_cons]; ring

theorem allBits_xor {ws es : List (BitVec m)} (h : ws.length = es.length) :
    allBits (List.zipWith (· ^^^ ·) ws es) = List.zipWith xor (allBits ws) (allBits es) := by
  induction ws generalizing es with
  | nil => rfl
  | cons b ws ih =>
      obtain ⟨e, es, rfl⟩ := List.exists_cons_of_length_eq_add_one h.symm
      rw [List.zipWith_cons_cons, allBits_cons, allBits_cons, allBits_cons, bits_xor,
        ih (by simpa using h), List.zipWith_append (by simp)]

/-- A word in the highest bits of a register. -/
theorem poly_top (h : m ≤ n) (b : BitVec m) :
    poly (b.setWidth n <<< (n - m)) = X ^ (n - m) * poly b := by
  have hb : bits (b.setWidth n <<< (n - m)) = bits b ++ List.replicate (n - m) false := by
    apply List.ext_getElem
    · simp [h]
    · intro i h₁ h₂
      have hin : i < n := by simpa using h₁
      rw [List.getElem_append]
      split
      · simp [bits, show i + (n - m) + m - n = i by omega]
      · have hi : m ≤ i := by simpa using ‹¬ i < (bits b).length›
        simp [bits, BitVec.getMsbD_of_ge b (i + (n - m) + m - n) (by omega)]
  have hz : ofBits (List.replicate (n - m) false) = 0 :=
    ofBits_eq_zero_iff.mpr fun ht => by simpa using List.eq_of_mem_replicate ht
  rw [poly, hb, ofBits_append, hz, List.length_replicate, add_zero, mul_comm]
  rfl

theorem val_feed (h : m ≤ n) (g r : BitVec n) (b : BitVec m) :
    val g (feed g r b) = AdjoinRoot.root (gen g) ^ m * val g r +
      AdjoinRoot.root (gen g) ^ n * AdjoinRoot.mk (gen g) (poly b) := by
  have hpow : AdjoinRoot.root (gen g) ^ n =
      AdjoinRoot.root (gen g) ^ m * AdjoinRoot.root (gen g) ^ (n - m) := by
    rw [← pow_add, Nat.add_sub_cancel' h]
  rw [feed, val_shifts, val_xor, val, val, poly_top h, map_mul, map_pow, AdjoinRoot.mk_X, hpow]
  ring

/-- **The register is a remainder.**  After a string of words it holds the class of the message
times `x ^ n` plus the initial value moved in front of the message. -/
theorem val_run (h : m ≤ n) (g r : BitVec n) (ws : List (BitVec m)) :
    val g (ws.foldl (feed g) r) = AdjoinRoot.root (gen g) ^ (m * ws.length) * val g r +
      AdjoinRoot.root (gen g) ^ n * AdjoinRoot.mk (gen g) (ofBits (allBits ws)) := by
  induction ws generalizing r with
  | nil => simp
  | cons b ws ih =>
      rw [List.foldl_cons, ih, val_feed h, allBits_cons, ofBits_append, length_allBits, map_add,
        map_mul, map_pow, AdjoinRoot.mk_X, List.length_cons, Nat.mul_succ, pow_add, poly]
      ring

/-- The same as a division: the register holds the coefficients of the remainder. -/
theorem poly_run (h : m ≤ n) (g r : BitVec n) (ws : List (BitVec m)) :
    poly (ws.foldl (feed g) r) =
      (ofBits (allBits ws) * X ^ n + poly r * X ^ (m * ws.length)) %ₘ gen g := by
  have hlt : (poly (ws.foldl (feed g) r)).degree < (gen g).degree := by
    rw [degree_gen]
    exact degree_poly_lt _
  rw [← (modByMonic_eq_self_iff (monic_gen g)).mpr hlt]
  apply modByMonic_eq_of_dvd_sub (monic_gen g)
  rw [← AdjoinRoot.mk_eq_mk, map_add, map_mul, map_mul, map_pow, map_pow, AdjoinRoot.mk_X]
  have hrun := val_run h g r ws
  rw [val, val] at hrun
  rw [hrun]
  ring

/-- The register is zero exactly if the generator divides what it is a remainder of. -/
theorem run_eq_zero_iff (h : m ≤ n) (g r : BitVec n) (ws : List (BitVec m)) :
    ws.foldl (feed g) r = 0 ↔
      gen g ∣ X ^ (m * ws.length) * poly r + X ^ n * ofBits (allBits ws) := by
  rw [← val_eq_zero_iff (g := g), val_run h, ← AdjoinRoot.mk_eq_zero, map_add, map_mul, map_mul,
    map_pow, map_pow, AdjoinRoot.mk_X]
  rfl

/-- A generator with constant term `1` makes `x` invertible. -/
theorem isUnit_root {g : BitVec n} (hg : (gen g).coeff 0 = 1) :
    IsUnit (AdjoinRoot.root (gen g)) := by
  have h : AdjoinRoot.mk (gen g) ((gen g).divX * X + C ((gen g).coeff 0)) = 0 := by
    rw [divX_mul_X_add, AdjoinRoot.mk_self]
  rw [hg, C_1, map_add, map_mul, AdjoinRoot.mk_X, map_one, add_eq_zero_iff_eq_neg,
    ZModModule.neg_eq_self] at h
  exact IsUnit.of_mul_eq_one_right _ h

/-- A register that is fed the digits of `s` ends at zero exactly if it held `s`. -/
theorem run_append_eq_zero_iff (h : m ≤ n) {g : BitVec n} (hg : (gen g).coeff 0 = 1)
    (r s : BitVec n) (ws ds : List (BitVec m)) (hd : allBits ds = bits s) :
    (ws ++ ds).foldl (feed g) r = 0 ↔ ws.foldl (feed g) r = s := by
  have hn : m * ds.length = n := by rw [← length_allBits, hd, length_bits]
  have hx : val g ((ws ++ ds).foldl (feed g) r) =
      AdjoinRoot.root (gen g) ^ n * val g (ws.foldl (feed g) r ^^^ s) := by
    rw [List.foldl_append, val_run h g _ ds, hd, hn, val_xor, mul_add]
    rfl
  rw [← val_eq_zero_iff (g := g), hx, ((isUnit_root hg).pow n).mul_right_eq_zero, val_eq_zero_iff]
  exact BitVec.xor_eq_zero_iff

/-- An error takes a zero register to a zero register exactly if the generator divides it. -/
theorem run_xor_eq_zero_iff (h : m ≤ n) {g : BitVec n} (hg : (gen g).coeff 0 = 1)
    (r : BitVec n) {ws es : List (BitVec m)} (hl : ws.length = es.length)
    (hw : ws.foldl (feed g) r = 0) :
    (List.zipWith (· ^^^ ·) ws es).foldl (feed g) r = 0 ↔ gen g ∣ ofBits (allBits es) := by
  have hlen : (List.zipWith (· ^^^ ·) ws es).length = ws.length := by simp [hl]
  have hx : val g ((List.zipWith (· ^^^ ·) ws es).foldl (feed g) r) =
      AdjoinRoot.root (gen g) ^ n * AdjoinRoot.mk (gen g) (ofBits (allBits es)) := by
    have hbits : (allBits ws).length = (allBits es).length := by
      rw [length_allBits, length_allBits, hl]
    have h0 : val g (ws.foldl (feed g) r) = 0 := val_eq_zero_iff.mpr hw
    rw [val_run h] at h0 ⊢
    rw [hlen, allBits_xor hl, ofBits_xor hbits, map_add, mul_add, ← add_assoc, h0, zero_add]
  rw [← val_eq_zero_iff (g := g), hx, ((isUnit_root hg).pow n).mul_right_eq_zero,
    AdjoinRoot.mk_eq_zero]

/-- A zero register stays zero only behind a zero word. -/
theorem feed_zero_eq_zero_iff (h : m ≤ n) {g : BitVec n} (hg : (gen g).coeff 0 = 1)
    (b : BitVec m) : feed g 0 b = 0 ↔ b = 0 := by
  have hx : val g (feed g 0 b) = AdjoinRoot.root (gen g) ^ n * AdjoinRoot.mk (gen g) (poly b) := by
    rw [val_feed h, val_eq_zero_iff.mpr rfl, mul_zero, zero_add]
  rw [← val_eq_zero_iff (g := g), hx, ((isUnit_root hg).pow n).mul_right_eq_zero,
    AdjoinRoot.mk_eq_zero, ← poly_eq_zero_iff]
  refine ⟨?_, fun h0 => h0 ▸ dvd_zero _⟩
  intro hd
  by_contra hb
  refine (monic_gen g).not_dvd_of_degree_lt hb ?_ hd
  rw [degree_gen]
  exact (degree_poly_lt b).trans_le (by exact_mod_cast h)

/-! ### Errors -/

/-- If `1` is a root of the generator, no multiple of it has an odd number of terms. -/
theorem not_dvd_odd {g : BitVec n} (hg : (gen g).eval 1 = 0) {e : List Bool}
    (he : Odd (e.count true)) : ¬ gen g ∣ ofBits e := by
  intro hd
  have h1 : (ofBits e).eval 1 = 0 := eval_eq_zero_of_dvd_of_eval_eq_zero hd hg
  rw [eval_one_ofBits, ZMod.natCast_eq_zero_iff_even] at h1
  exact Nat.not_even_iff_odd.mpr he h1

/-- Trailing zeros do not help the generator to divide. -/
theorem dvd_mul_pow_iff {g : BitVec n} (hg : (gen g).coeff 0 = 1) (p : (ZMod 2)[X]) (k : ℕ) :
    gen g ∣ p * X ^ k ↔ gen g ∣ p := by
  rw [← AdjoinRoot.mk_eq_zero, map_mul, map_pow, AdjoinRoot.mk_X,
    ((isUnit_root hg).pow k).mul_left_eq_zero, AdjoinRoot.mk_eq_zero]

/-- No multiple of the generator is a burst that fits the register. -/
theorem not_dvd_burst {g : BitVec n} (hg : (gen g).coeff 0 = 1) {e : List Bool} {k : ℕ}
    (he : true ∈ e) (hk : ∀ i, e[i]? = some true → k ≤ i ∧ i < k + n) : ¬ gen g ∣ ofBits e := by
  have hsplit : e = e.take k ++ ((e.drop k).take n ++ (e.drop k).drop n) := by simp
  have hfront : true ∉ e.take k := by
    intro h
    obtain ⟨i, hi⟩ := List.mem_iff_getElem?.mp h
    rw [List.getElem?_take] at hi
    split at hi
    · exact absurd (hk i hi).1 (by omega)
    · cases hi
  have hback : true ∉ (e.drop k).drop n := by
    intro h
    obtain ⟨i, hi⟩ := List.mem_iff_getElem?.mp h
    rw [List.getElem?_drop, List.getElem?_drop] at hi
    exact absurd (hk _ hi).2 (by omega)
  have hmid : true ∈ (e.drop k).take n := by
    rw [hsplit, List.mem_append, List.mem_append] at he
    exact (he.resolve_left hfront).resolve_right hback
  rw [hsplit, ofBits_append, ofBits_append, ofBits_eq_zero_iff.mpr hfront,
    ofBits_eq_zero_iff.mpr hback, zero_mul, zero_add, add_zero, dvd_mul_pow_iff hg]
  refine (monic_gen g).not_dvd_of_degree_lt (fun h => ofBits_eq_zero_iff.mp h hmid) ?_
  rw [degree_gen]
  exact (degree_ofBits_lt _).trans_le (by exact_mod_cast List.length_take_le _ _)

/-- If no shorter power of `x` than the string is `1`, no multiple of the generator has exactly
two terms. -/
theorem not_dvd_pair {g : BitVec n} (hg : (gen g).coeff 0 = 1) {e : List Bool}
    (hp : ∀ d, 0 < d → d < e.length → (shift g)^[d] 1 ≠ 1) (he : e.count true = 2) :
    ¬ gen g ∣ ofBits e := by
  obtain ⟨s, t, rfl, hs⟩ := List.eq_append_cons_of_mem
    (List.count_pos_iff.mp (show 0 < e.count true by omega))
  have ht : t.count true = 1 := by
    rw [List.count_append, List.count_eq_zero_of_not_mem hs, List.count_cons_self] at he
    omega
  obtain ⟨s', t', rfl, hs'⟩ := List.eq_append_cons_of_mem
    (List.count_pos_iff.mp (show 0 < t.count true by omega))
  have ht' : true ∉ t' := by
    rw [List.count_append, List.count_eq_zero_of_not_mem hs', List.count_cons_self] at ht
    exact List.count_eq_zero.mp (by omega)
  have hpair : ofBits (s ++ true :: (s' ++ true :: t')) =
      (X ^ (s'.length + 1) + 1) * X ^ t'.length := by
    rw [ofBits_append, ofBits_cons, ofBits_append, ofBits_cons, ofBits_eq_zero_iff.mpr hs,
      ofBits_eq_zero_iff.mpr hs', ofBits_eq_zero_iff.mpr ht', List.length_append,
      List.length_cons, List.length_cons, if_pos rfl, if_pos rfl]
    ring
  rw [hpair, dvd_mul_pow_iff hg, ← AdjoinRoot.mk_eq_zero, map_add, map_pow, AdjoinRoot.mk_X,
    map_one, add_eq_zero_iff_eq_neg, ZModModule.neg_eq_self]
  intro hone
  refine hp (s'.length + 1) (by omega) ?_ (val_injective g ?_)
  · simp only [List.length_append, List.length_cons]
    omega
  · rw [val_shifts, hone, one_mul]

/-- **What a generator detects.**  A generator with roots at `1` but not at `0`, and for which `x`
has a large enough order, divides no error of up to three bits, of an odd number of bits, or inside
a window of the register's length. -/
theorem not_dvd_error {g : BitVec n} (h₀ : (gen g).coeff 0 = 1) (h₁ : (gen g).eval 1 = 0)
    {e : List Bool} (hp : ∀ d, 0 < d → d < e.length → (shift g)^[d] 1 ≠ 1) (he : true ∈ e)
    (h : e.count true ≤ 3 ∨ Odd (e.count true) ∨
      ∃ k, ∀ i, e[i]? = some true → k ≤ i ∧ i < k + n) : ¬ gen g ∣ ofBits e := by
  rcases h with h | h | ⟨k, hk⟩
  · have hpos : 0 < e.count true := List.count_pos_iff.mpr he
    by_cases h2 : e.count true = 2
    · exact not_dvd_pair h₀ hp h2
    · refine not_dvd_odd h₁ ?_
      obtain h1 | h3 : e.count true = 1 ∨ e.count true = 3 := by omega
      · rw [h1]; exact odd_one
      · rw [h3]; exact ⟨1, rfl⟩
  · exact not_dvd_odd h₁ h
  · exact not_dvd_burst h₀ he hk

end Cyclic
