import Sharak.Protocol.Crc

/-!
# Protocol — the CRC as a remainder

`crc_remainder`: the sixteen bits the byte and bit loops leave are the coefficients of the remainder
of the message, with the initial value in front of it, by the generator.  `residue_test`: comparing
the trailer with the CRC of the rest, as `decoder_finish` does, and testing the CRC over everything
for zero are the same test.
-/

namespace Sharak
open Memory Polynomial

/-! ### The polynomials -/

/-- The taps `0x1021` name the generator. -/
theorem gen_crcTaps : Cyclic.gen crcTaps = X ^ 16 + X ^ 12 + X ^ 5 + 1 := by
  have hbits : Cyclic.bits crcTaps =
      [false, false, false, true, false, false, false, false,
        false, false, true, false, false, false, false, true] := by
    decide
  rw [Cyclic.gen, Cyclic.poly, hbits]
  simp [add_assoc]

/-- The initial value `0xFFFF` has every coefficient. -/
theorem poly_initial : Cyclic.poly (0xFFFF : BitVec 16) = ∑ i ∈ Finset.range 16, X ^ i := by
  have hbits : Cyclic.bits (0xFFFF : BitVec 16) = List.replicate 16 true := by decide
  rw [Cyclic.poly, hbits, Cyclic.ofBits_replicate_true]

/-! ### The remainder -/

/-- **The CRC is a remainder.**  Bit `i` of the CRC is the coefficient of `x ^ i`. -/
theorem crc_remainder (d : List UInt8) (i : ℕ) :
    ((Cyclic.ofBits (bitsOf d) * X ^ 16 +
        (∑ k ∈ Finset.range 16, X ^ k) * X ^ (8 * d.length)) %ₘ
      (X ^ 16 + X ^ 12 + X ^ 5 + 1)).coeff i =
        if (crc16CcittFalse (.mem d)).toNat.testBit i then 1 else 0 := by
  have hrun := Cyclic.poly_run (by decide) crcTaps 0xFFFF (words d)
  rw [← toBitVec_crc, gen_crcTaps, poly_initial, words, List.length_map] at hrun
  rw [bitsOf, words, ← hrun, Cyclic.coeff_poly]
  rfl

/-- The check value of the catalog, the CRC of `"123456789"`. -/
example : crc16CcittFalse
    (.mem [0x31, 0x32, 0x33, 0x34, 0x35, 0x36, 0x37, 0x38, 0x39]) = 0x29B1 := by
  decide +kernel

/-! ### The residue test -/

/-- **The two tests are one.** -/
theorem residue_test :
    (∀ (d : List UInt8) (r : UInt16),
      crc16CcittFalse (.mem (d ++ crcBytes r)) = 0 ↔ r = crc16CcittFalse (.mem d)) ∧
    ∀ (st : SkDecoder) (out : Slice UInt8), st.overflow = 0 → 8 ≤ st.count.toNat →
      st.count.toNat ≤ 18 → ∃ r o, decoderFinish st out = .ok (r, o) ∧
        (r = skDecErrCrc ↔
          crc16CcittFalse (.mem (st.buf.toList.take st.count.toNat)) ≠ 0) := by
  constructor
  · intro d r
    rw [crc_append_eq_zero_iff, eq_comm]
  · intro st out ho hmin hmax
    have hlen : (st.buf.toList.take st.count.toNat).length = st.count.toNat := by
      rw [List.length_take, Vector.length_toList]
      exact Nat.min_eq_left hmax
    have hholds : st.Holds (st.buf.toList.take st.count.toNat) :=
      ⟨by rw [hlen]; exact hmax, by rw [hlen]⟩
    refine ⟨_, _, decoderFinish_holds out hholds hlen.symm ho, ?_⟩
    rw [ne_eq, ← crcHolds_iff (by rw [hlen]; exact Nat.le_trans (by decide) hmin)]
    exact verdict_crc_iff out (by rw [hlen]; exact hmax) (by rw [hlen]; exact hmin)

end Sharak
