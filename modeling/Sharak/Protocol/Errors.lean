import Sharak.Protocol.Crc
import Sharak.Protocol.Streams

/-!
# Protocol — errors in a body

A body that is damaged before it is stuffed keeps its length, so the decoder's verdict on it is
the verdict on its CRC, and a detectable error fails there (`error_detected`).
-/

namespace Sharak
open Memory

/-- The verdict on a damaged body: the CRC is wrong. -/
theorem judge_damage (p : Payload) {e : List UInt8} (out : Slice UInt8)
    (hl : e.length = (body p.bytes).length) (he : ∃ x ∈ e, x ≠ 0) (hd : Detectable e) :
    judge (damage (body p.bytes) e) out = skDecErrCrc := by
  have hv := p.validBody
  have hlen := length_damage hl.symm
  have hmin := hv.min_le
  have hne : damage (body p.bytes) e ≠ [] := by
    intro h
    rw [h, List.length_nil] at hlen
    simp only [skPayloadMin, skCrcLen] at hmin
    omega
  rw [judge_ne_nil hne]
  exact verdict_crc out (by rw [hlen]; exact hv.le_max) (by rw [hlen]; exact hmin)
    (hv.not_crcHolds_damage hl.symm he hd)

/-- **Error detection.**  The body of a payload with a detectable error, stuffed and framed, gives
a fresh decoder a CRC error at the closing FLAG, nothing before it, and leaves the buffer alone. -/
theorem error_detected (p : Payload) {e : List UInt8} (hl : e.length = (body p.bytes).length)
    (he : ∃ x ∈ e, x ≠ 0) (hd : Detectable e) (st : SkDecoder) (out : Slice UInt8) :
    ∃ cs st', feedAll (skDecoderInit (some st)) out
        ([skFlag] ++ wire.stuff (damage (body p.bytes) e) ++ [skFlag]) =
        .ok ⟨cs ++ [⟨skDecErrCrc, out⟩], some st', out⟩ ∧
      cs.length = (wire.stuff (damage (body p.bytes) e)).length + 1 ∧
      ∀ c ∈ cs, c = ⟨skDecMore, out⟩ := by
  obtain ⟨st', hrun⟩ := fresh_segment st out (wire.flag_not_mem_stuff _)
  have hclose : Call.close (wire.stuff (damage (body p.bytes) e)) out = ⟨skDecErrCrc, out⟩ := by
    have hj := judge_damage p out hl he hd
    have hno : ¬ 0 < verdict (damage (body p.bytes) e) out := by
      rw [← judge_pos_iff, hj]
      decide
    rw [Call.close, wire.unstuff_stuff, hj, deliver_of_not_pos hno]
  rw [hclose] at hrun
  exact ⟨_, st', hrun, by simp, fun c hc => List.eq_of_mem_replicate hc⟩

/-- Three flipped bits in a body of eight bytes, one of them in its CRC. -/
theorem error_detected_three :
    ∃ cs st', feedAll (skDecoderInit (some ⟨0, 0, 0, 0, Vector.replicate skFrameInner 0⟩))
        (.mem (List.replicate 16 0)) ([skFlag] ++ wire.stuff (damage (body [1, 2, 0, 0, 0, 0])
          [0x80, 0, 1, 0, 0, 0, 0x20, 0]) ++ [skFlag]) =
        .ok ⟨cs ++ [⟨skDecErrCrc, .mem (List.replicate 16 0)⟩], some st',
          .mem (List.replicate 16 0)⟩ ∧
      cs.length = (wire.stuff (damage (body [1, 2, 0, 0, 0, 0])
        [0x80, 0, 1, 0, 0, 0, 0x20, 0])).length + 1 ∧
      ∀ c ∈ cs, c = ⟨skDecMore, .mem (List.replicate 16 0)⟩ :=
  error_detected ⟨[1, 2, 0, 0, 0, 0], by decide, by decide⟩ (by decide) (by decide)
    (Or.inl (by decide)) _ _

end Sharak
