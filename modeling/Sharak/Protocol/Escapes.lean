import Sharak.Protocol.Streams

/-!
# Protocol — which segments the decoder accepts

An accepted body is the body of the payload it delivers (`ValidBody.eq_body`), so a segment
without a bad escape is accepted only if it is the interior of that payload's frame.  The decoder
does not look for bad escapes: a segment that has one is judged on what it unstuffs to.  So a run
is strict about escapes exactly when no segment with a bad escape unstuffs to nothing or to a
valid body (`strict_iff`).
-/

namespace Sharak
open Memory

/-! ### Accepted bodies -/

/-- A valid body is the body of its payload. -/
theorem ValidBody.eq_body {w : List UInt8} (h : ValidBody w) : w = body (payloadOf w) := by
  have hmin := h.min_le
  simp only [skPayloadMin, skCrcLen] at hmin
  rw [body, h.crc, payloadOf_append_trailer (by simp only [skCrcLen]; omega)]

theorem ValidBody.min_le_payloadOf {w : List UInt8} (h : ValidBody w) :
    skPayloadMin ≤ (payloadOf w).length := by
  have hmin := h.min_le
  rw [length_payloadOf]
  omega

theorem ValidBody.payloadOf_le_max {w : List UInt8} (h : ValidBody w) :
    (payloadOf w).length ≤ skPayloadMax := by
  have hmax := h.le_max
  rw [length_payloadOf]
  simp only [skFrameInner] at hmax
  omega

/-- The payload of a valid body. -/
def ValidBody.payload {w : List UInt8} (h : ValidBody w) : Payload :=
  ⟨payloadOf w, h.min_le_payloadOf, h.payloadOf_le_max⟩

/-- The verdict on a body is a length or an error, never `SK_DEC_MORE`. -/
theorem verdict_pos_or_neg (w : List UInt8) (out : Slice UInt8) :
    0 < verdict w out ∨ verdict w out < 0 := by
  unfold verdict
  split; · exact Or.inr (by decide)
  split; · exact Or.inr (by decide)
  split; · exact Or.inr (by decide)
  split; · exact Or.inr (by decide)
  simp only [skPayloadMin, skCrcLen] at *
  omega

/-- Into a roomy buffer, the verdict is negative on a body that is neither empty nor valid. -/
theorem Roomy.judge_neg_iff {out : Slice UInt8} (h : Roomy out) {w : List UInt8} :
    judge w out < 0 ↔ w ≠ [] ∧ ¬ ValidBody w := by
  rw [← h.judge_pos_iff]
  constructor
  · intro hn
    refine ⟨?_, by omega⟩
    rintro rfl
    cases hn
  · rintro ⟨hw, hp⟩
    rw [judge_ne_nil hw] at hp ⊢
    exact (verdict_pos_or_neg w out).resolve_left hp

/-! ### Strict runs -/

/-- A run that accepts exactly the frames of the encoder and rejects bad escapes: a positive
result is at a FLAG behind the interior of the delivered payload's frame, and behind a segment
with a bad escape the result is negative. -/
structure Strict (bs : List UInt8) (cs : List Call) : Prop where
  frames : ∀ (i : Nat) (c : Call), cs[i]? = some c → 0 < c.ret →
    ∃ s, Between bs i s ∧ skFrame c.payload = [skFlag] ++ s ++ [skFlag]
  escapes : ∀ (i : Nat) (s : List UInt8) (c : Call), Between bs i s → wire.BadEscape s →
    cs[i]? = some c → c.ret < 0

/-- **Strictness, exactly.**  A run from `sk_decoder_init` accepts only the encoder's frames and
rejects every bad escape if and only if each segment with a bad escape unstuffs to a body that is
neither empty nor valid. -/
theorem strict_iff (st : SkDecoder) (out : List UInt8) (bs : List UInt8)
    (ho : skPayloadMax ≤ out.length) :
    ∃ r, feedAll (skDecoderInit (some st)) (.mem out) bs = .ok r ∧
      (Strict bs r.calls ↔
        ∀ i s, Between bs i s → wire.BadEscape s →
          wire.unstuff s ≠ [] ∧ ¬ ValidBody (wire.unstuff s)) := by
  have hroom : Roomy (.mem out) := .of_mem ho
  obtain ⟨cs, st', out', hr, -⟩ := feedAll_any
    { st with inFrame := 0, esc := 0, overflow := 0, count := 0 } (.mem out) bs
  refine ⟨_, hr, ?_, fun h => ⟨?_, ?_⟩⟩
  · intro h i s hb he
    obtain ⟨c, hc, hret, -⟩ := call_between hr hb
    exact hroom.judge_neg_iff.mp (hret ▸ h.escapes i s c hb he hc)
  · intro i c hc hp
    obtain ⟨s, hb⟩ := fresh_result_between hr hc (by omega)
    obtain ⟨c', hc', hret, hpay⟩ := call_between hr hb
    obtain rfl := Option.some.inj (hc.symm.trans hc')
    have hv : ValidBody (wire.unstuff s) := hroom.judge_pos_iff.mp (hret ▸ hp)
    have hclean : ¬ wire.BadEscape s := fun he => (h i s hb he).2 hv
    obtain ⟨u, v, -, hs, -⟩ := id hb
    refine ⟨s, hb, ?_⟩
    rw [hpay hp, show payloadOf (wire.unstuff s) = hv.payload.bytes from rfl, skFrame_eq]
    show [skFlag] ++ wire.stuff (body (payloadOf (wire.unstuff s))) ++ [skFlag] = _
    rw [← hv.eq_body, ← (wire.clean_iff hs).mp hclean]
  · intro i s c hb he hc
    obtain ⟨c', hc', hret, -⟩ := call_between hr hb
    obtain rfl := Option.some.inj (hc.symm.trans hc')
    rw [hret]
    exact hroom.judge_neg_iff.mpr (h i s hb he)

/-- The frame of a payload with a FLAG and an ESC in it, which has no bad escape; and a segment with
a bad escape, `7D 21`, that does not end in its CRC: both run strictly. -/
theorem strict_iff_clean :
    skPayloadMax ≤ (List.replicate 16 (0 : UInt8)).length ∧
      (∃ r, feedAll (skDecoderInit (some ⟨1, 0, 0, 3, Vector.replicate skFrameInner 0⟩))
          (.mem (List.replicate 16 0)) (skFrame [1, 2, 0x7E, 0x7D, 0, 0]) = .ok r ∧
        Strict (skFrame [1, 2, 0x7E, 0x7D, 0, 0]) r.calls) ∧
      wire.BadEscape [0x7D, 0x21, 2, 0, 0, 0, 0, 0x0F, 0x34] ∧
      ∃ r, feedAll (skDecoderInit (some ⟨1, 0, 0, 3, Vector.replicate skFrameInner 0⟩))
          (.mem (List.replicate 16 0))
          ([skFlag] ++ [0x7D, 0x21, 2, 0, 0, 0, 0, 0x0F, 0x34] ++ [skFlag]) = .ok r ∧
        Strict ([skFlag] ++ [0x7D, 0x21, 2, 0, 0, 0, 0, 0x0F, 0x34] ++ [skFlag]) r.calls := by
  refine ⟨by decide, ?_, (wire.badEscape_esc_cons _).mpr (Or.inl (by decide)), ?_⟩
  · obtain ⟨r, hr, hiff⟩ := strict_iff ⟨1, 0, 0, 3, Vector.replicate skFrameInner 0⟩
      (List.replicate 16 0) (skFrame [1, 2, 0x7E, 0x7D, 0, 0]) (by decide)
    refine ⟨r, hr, hiff.mpr fun i s hb he => ?_⟩
    have hframe := skFrame_eq ⟨[1, 2, 0x7E, 0x7D, 0, 0], by decide, by decide⟩
    rw [hframe] at hb
    obtain rfl := between_segment (wire.flag_not_mem_stuff _) hb
    exact absurd he (wire.not_badEscape_stuff _)
  · obtain ⟨r, hr, hiff⟩ := strict_iff ⟨1, 0, 0, 3, Vector.replicate skFrameInner 0⟩
      (List.replicate 16 0) ([skFlag] ++ [0x7D, 0x21, 2, 0, 0, 0, 0, 0x0F, 0x34] ++ [skFlag])
      (by decide)
    refine ⟨r, hr, hiff.mpr fun i s hb he => ?_⟩
    obtain rfl := between_segment (by decide) hb
    refine ⟨by decide, fun hv => ?_⟩
    exact absurd hv.crc (by decide +kernel)

/-- A bad escape that is delivered: `7D 21`, for the payload byte `01`, between two FLAGs. -/
def laxStream : List UInt8 := [0x7E, 0x7D, 0x21, 2, 0, 0, 0, 0, 0x0F, 0x33, 0x7E]

/-- The run on `laxStream` is not strict: it delivers `01 02 00 00 00 00` at the closing FLAG. -/
theorem laxStream_not_strict :
    ∃ r, feedAll (skDecoderInit (some ⟨0, 0, 0, 0, Vector.replicate skFrameInner 0⟩))
        (.mem (List.replicate 16 0)) laxStream = .ok r ∧
      reports r.calls = [(6, [1, 2, 0, 0, 0, 0])] ∧ ¬ Strict laxStream r.calls := by
  have hrun : (feedAll (skDecoderInit (some ⟨0, 0, 0, 0, Vector.replicate skFrameInner 0⟩))
      (.mem (List.replicate 16 0)) laxStream).toOption.map
        (fun r => (r.calls.map Call.ret, reports r.calls)) =
      some ([0, 0, 0, 0, 0, 0, 0, 0, 0, 0, 6], [(6, [1, 2, 0, 0, 0, 0])]) := by decide +kernel
  obtain ⟨cs, st', out', hr, -⟩ := feedAll_any
    ⟨0, 0, 0, 0, Vector.replicate skFrameInner 0⟩ (.mem (List.replicate 16 0)) laxStream
  rw [show skDecoderInit _ = some _ from rfl, hr] at hrun
  obtain ⟨hrets, hrep⟩ := Prod.mk.inj (Option.some.inj hrun)
  refine ⟨_, hr, hrep, ?_⟩
  intro h
  obtain ⟨c, hc, hret⟩ : ∃ c, cs[10]? = some c ∧ c.ret = 6 := by
    have h₁₀ : (cs.map Call.ret)[10]? = some 6 := by rw [hrets]; rfl
    simpa using h₁₀
  have hbad : wire.BadEscape [0x7D, 0x21, 2, 0, 0, 0, 0, 0x0F, 0x33] :=
    (wire.badEscape_esc_cons _).mpr (Or.inl (by decide))
  have hneg := h.escapes 10 _ c ⟨[], [], rfl, by decide, rfl⟩ hbad hc
  omega

end Sharak
