import Sharak.Protocol.Decode
import Sharak.Support.Cyclic

/-!
# Protocol — what the CRC detects

The bit loop of `crc16_ccitt_false` is a register with the taps `0x1021` (`toBitVec_crcBit`), so
the CRC of a string is the remainder `Cyclic.val_run` describes.  A body ends in its own CRC
exactly when the CRC over all of it is zero (`crcHolds_iff`), an error keeps a body's CRC exactly
when the generator divides the error (`crcHolds_damage_iff`), and the generator divides no error of
a body that is short, odd or a burst (`ValidBody.not_crcHolds_damage`).
-/

namespace Sharak
open Memory

/-! ### The register -/

/-- The feedback taps of the register. -/
def crcTaps : BitVec 16 := 0x1021

theorem toBitVec_crcBit (crc : UInt16) :
    (crcBit crc).toBitVec = Cyclic.shift crcTaps crc.toBitVec := by
  have hmsb : crc &&& 0x8000 ≠ 0 ↔ crc.toBitVec.msb = true := by
    have h : (crc &&& 0x8000).toBitVec = crc.toBitVec &&& BitVec.twoPow 16 15 := rfl
    rw [ne_eq, ← UInt16.toBitVec_inj, h, BitVec.and_twoPow, BitVec.msb_eq_getLsbD_last]
    cases crc.toBitVec.getLsbD 15 <;> decide
  unfold crcBit Cyclic.shift
  by_cases h : crc &&& 0x8000 ≠ 0
  · rw [if_pos h, if_pos (hmsb.mp h)]
    rfl
  · rw [if_neg h, if_neg (mt hmsb.mpr h)]
    rfl

theorem toBitVec_crcByte (crc : UInt16) (b : UInt8) :
    (crcByte crc b).toBitVec = Cyclic.feed crcTaps crc.toBitVec b.toBitVec := by
  have h : ∀ (k : Nat) (c : UInt16),
      (crcBit^[k] c).toBitVec = (Cyclic.shift crcTaps)^[k] c.toBitVec := by
    intro k
    induction k with
    | zero => intro c; rfl
    | succ k ih => intro c; rw [Function.iterate_succ_apply, ih, toBitVec_crcBit]; rfl
  rw [crcByte, h, Cyclic.feed]
  rfl

/-- A byte string as words of the register. -/
def words (d : List UInt8) : List (BitVec 8) := d.map UInt8.toBitVec

/-- The bits of a byte string, most significant first within each byte. -/
def bitsOf (d : List UInt8) : List Bool := Cyclic.allBits (words d)

theorem toBitVec_crc (d : List UInt8) :
    (crc16CcittFalse (.mem d)).toBitVec = (words d).foldl (Cyclic.feed crcTaps) 0xFFFF := by
  have h : ∀ (c : UInt16), (d.foldl crcByte c).toBitVec =
      (words d).foldl (Cyclic.feed crcTaps) c.toBitVec := by
    induction d with
    | nil => intro c; rfl
    | cons b d ih => intro c; rw [List.foldl_cons, ih, toBitVec_crcByte]; rfl
  exact h 0xFFFF

/-- The two bytes of a CRC are its bits in order. -/
theorem bitsOf_crcBytes (crc : UInt16) : bitsOf (crcBytes crc) = Cyclic.bits crc.toBitVec := by
  have hhi : Cyclic.bits (((crc >>> 8) &&& 0xFF).toUInt8).toBitVec =
      (Cyclic.bits crc.toBitVec).take 8 := List.ext_getElem (by simp) fun i _ _ => by
    simp [Cyclic.bits]
  have hlo : Cyclic.bits ((crc &&& 0xFF).toUInt8).toBitVec =
      (Cyclic.bits crc.toBitVec).drop 8 := List.ext_getElem (by simp) fun i _ _ => by
    simp [Cyclic.bits, Nat.add_comm]
  show Cyclic.bits _ ++ (Cyclic.bits _ ++ []) = _
  rw [hhi, hlo, List.append_nil, List.take_append_drop]

/-! ### The residue -/

theorem coeff_zero_gen_crcTaps : (Cyclic.gen crcTaps).coeff 0 = 1 := by
  rw [Cyclic.gen, Polynomial.coeff_add, Polynomial.coeff_X_pow, Cyclic.poly, Cyclic.coeff_ofBits,
    if_neg (by decide), if_pos (by decide), zero_add]

theorem eval_one_gen_crcTaps : (Cyclic.gen crcTaps).eval 1 = 0 := by
  rw [Cyclic.gen, Polynomial.eval_add, Polynomial.eval_pow, Polynomial.eval_X, Cyclic.poly,
    Cyclic.eval_one_ofBits, show (Cyclic.bits crcTaps).count true = 3 by decide]
  decide

/-- `x` has no power `1` among those of the 144 bits of a body. -/
theorem shift_crcTaps_ne_one : ∀ d < 144, 0 < d → (Cyclic.shift crcTaps)^[d] 1 ≠ 1 := by
  decide +kernel

/-- **The residue.**  The CRC over a string and a trailer is zero exactly when the trailer is the
CRC of the string. -/
theorem crc_append_eq_zero_iff (d : List UInt8) (crc : UInt16) :
    crc16CcittFalse (.mem (d ++ crcBytes crc)) = 0 ↔ crc16CcittFalse (.mem d) = crc := by
  rw [← UInt16.toBitVec_inj, ← UInt16.toBitVec_inj, toBitVec_crc, toBitVec_crc, words,
    List.map_append]
  exact Cyclic.run_append_eq_zero_iff (by decide) coeff_zero_gen_crcTaps _ _ _ _
    (bitsOf_crcBytes crc)

/-- A body ends in its own CRC exactly when the CRC over all of it is zero. -/
theorem crcHolds_iff {w : List UInt8} (h : skCrcLen ≤ w.length) :
    CrcHolds w ↔ crc16CcittFalse (.mem w) = 0 := by
  conv_rhs => rw [← payloadOf_append_trailer h]
  exact (crc_append_eq_zero_iff _ _).symm

/-! ### Errors -/

/-- A body with an error: each byte's exclusive or with the error's. -/
def damage (w e : List UInt8) : List UInt8 := List.zipWith (· ^^^ ·) w e

theorem length_damage {w e : List UInt8} (h : w.length = e.length) :
    (damage w e).length = w.length := by simp [damage, h]

theorem words_damage (w e : List UInt8) :
    words (damage w e) = List.zipWith (· ^^^ ·) (words w) (words e) := by
  simp [words, damage, List.map_zipWith, List.zipWith_map]

/-- An error keeps the CRC of a body exactly when the generator divides it. -/
theorem crcHolds_damage_iff {w e : List UInt8} (hw : skCrcLen ≤ w.length)
    (hl : w.length = e.length) (hc : CrcHolds w) :
    CrcHolds (damage w e) ↔ Cyclic.gen crcTaps ∣ Cyclic.ofBits (bitsOf e) := by
  have h0 : (words w).foldl (Cyclic.feed crcTaps) 0xFFFF = 0 := by
    rw [← toBitVec_crc, (crcHolds_iff hw).mp hc]
    rfl
  rw [crcHolds_iff (by rw [length_damage hl]; exact hw), ← UInt16.toBitVec_inj, toBitVec_crc,
    words_damage]
  exact Cyclic.run_xor_eq_zero_iff (by decide) coeff_zero_gen_crcTaps _ (by simpa [words]) h0

theorem true_mem_bitsOf_iff {e : List UInt8} : true ∈ bitsOf e ↔ ∃ x ∈ e, x ≠ 0 := by
  rw [bitsOf, Cyclic.allBits, List.mem_flatMap]
  simp only [words, List.mem_map, exists_exists_and_eq_and, Cyclic.true_mem_bits_iff]
  simp only [ne_eq, ← UInt8.toBitVec_inj]
  rfl

/-- The errors the CRC is there for: up to three bits, an odd number of bits, or all inside sixteen
consecutive positions. -/
def Detectable (e : List UInt8) : Prop :=
  (bitsOf e).count true ≤ 3 ∨ Odd ((bitsOf e).count true) ∨
    ∃ k, ∀ i, (bitsOf e)[i]? = some true → k ≤ i ∧ i < k + 16

/-- **Error detection**: a detectable error never leaves a body that ends in its own CRC. -/
theorem ValidBody.not_crcHolds_damage {w e : List UInt8} (hw : ValidBody w)
    (hl : w.length = e.length) (he : ∃ x ∈ e, x ≠ 0) (hd : Detectable e) :
    ¬ CrcHolds (damage w e) := by
  have h₁ := hw.min_le
  have h₂ := hw.le_max
  simp only [skPayloadMin, skPayloadMax, skFrameInner, skCrcLen] at h₁ h₂
  have hlen : (bitsOf e).length ≤ 144 := by
    rw [bitsOf, Cyclic.length_allBits, words, List.length_map]
    omega
  rw [crcHolds_damage_iff (by simp only [skCrcLen]; omega) hl hw.crc]
  exact Cyclic.not_dvd_error coeff_zero_gen_crcTaps eval_one_gen_crcTaps
    (fun d h0 hlt => shift_crcTaps_ne_one d (by omega) h0) (true_mem_bitsOf_iff.mpr he) hd

/-! ### What a valid body cannot be -/

/-- The parity of a byte string. -/
def parity (d : List UInt8) : ZMod 2 := ((bitsOf d).count true : ZMod 2)

theorem parity_append (a b : List UInt8) : parity (a ++ b) = parity a + parity b := by
  have h : bitsOf (a ++ b) = bitsOf a ++ bitsOf b := by
    simp [bitsOf, words, Cyclic.allBits]
  rw [parity, h, List.count_append, Nat.cast_add]
  rfl

theorem parity_cons (b : UInt8) (d : List UInt8) : parity (b :: d) = parity [b] + parity d :=
  parity_append [b] d

/-- The generator is even, so a body with a matching CRC is. -/
theorem ValidBody.parity {w : List UInt8} (h : ValidBody w) : parity w = 0 := by
  have hlen : skCrcLen ≤ w.length := by have := h.min_le; omega
  have h0 : (words w).foldl (Cyclic.feed crcTaps) 0xFFFF = 0 := by
    rw [← toBitVec_crc, (crcHolds_iff hlen).mp h.crc]
    rfl
  have hd := (Cyclic.run_eq_zero_iff (by decide) _ _ _).mp h0
  have h1 := Polynomial.eval_eq_zero_of_dvd_of_eval_eq_zero hd eval_one_gen_crcTaps
  have hi : (((Cyclic.bits (0xFFFF : BitVec 16)).count true : ℕ) : ZMod 2) = 0 := by decide
  rw [Polynomial.eval_add, Polynomial.eval_mul, Polynomial.eval_mul, Polynomial.eval_pow,
    Polynomial.eval_pow, Polynomial.eval_X, one_pow, one_pow, one_mul, one_mul, Cyclic.poly,
    Cyclic.eval_one_ofBits, Cyclic.eval_one_ofBits, hi, zero_add] at h1
  exact h1

/-- A valid body without its last byte is not valid, unless that byte is zero. -/
theorem ValidBody.snoc {a : List UInt8} {x : UInt8} (h : ValidBody (a ++ [x]))
    (ha : ValidBody a) : x = 0 := by
  have hlen : skCrcLen ≤ a.length := by have := ha.min_le; omega
  have h₀ := (crcHolds_iff hlen).mp ha.crc
  have h₁ := (crcHolds_iff (by simp only [List.length_append]; omega)).mp h.crc
  rw [← UInt16.toBitVec_inj, toBitVec_crc] at h₀ h₁
  rw [words, List.map_append, List.foldl_append] at h₁
  have hz : Cyclic.feed crcTaps 0 x.toBitVec = 0 := by
    rw [← words, h₀] at h₁
    exact h₁
  exact UInt8.toBitVec_inj.mp
    ((Cyclic.feed_zero_eq_zero_iff (by decide) coeff_zero_gen_crcTaps _).mp hz)

end Sharak
