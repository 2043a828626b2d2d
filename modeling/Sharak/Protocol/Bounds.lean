import Sharak.Protocol.Streams

/-!
# Protocol — the decoder stays in bounds

From every value of the decoder, initialised or not, no call leaves `buf` or `out`, and `out` is
written only by a call with a positive result, exactly at its front (`feed_in_bounds`).

Behind a FLAG, or from `sk_decoder_init`, the state is in range (`InRange`), and each byte keeps
it so (`feed_inRange`): there the test `count > SK_FRAME_INNER` of `decoder_finish` never fires.
-/

namespace Sharak
open Memory

/-! ### What one call writes -/

/-- What a call with result `n` may do to `out`: nothing, unless `n` is a payload length that
fits; then the first `n` bytes of `buf` are at the front. -/
def Wrote (st : SkDecoder) (n : Int) (out out' : Slice UInt8) : Prop :=
  (n ≤ 0 ∧ out' = out) ∨
    ∃ (k : Nat) (cs : List UInt8), n = k ∧ skPayloadMin ≤ k ∧ k ≤ skPayloadMax ∧
      k ≤ cs.length ∧ out = .mem cs ∧ out' = .mem (overlay (st.buf.toList.take k) cs)

theorem wrote_of_verdict {st : SkDecoder} {w : List UInt8} (out : Slice UInt8)
    (h : 0 < verdict w out → st.Holds w) : Wrote st (verdict w out) out (deliver w out) := by
  by_cases hp : 0 < verdict w out
  · obtain ⟨⟨hmin, hmax, -⟩, ho⟩ := verdict_pos_iff.mp hp
    obtain ⟨hnull, hsize⟩ := not_or.mp ho
    have hm : out = .mem out.cells := Slice.eq_mem (by simpa using hnull)
    have hs : out.size = out.cells.length := by rw [hm]; rfl
    have hpay : st.buf.toList.take (w.length - skCrcLen) = payloadOf w := by
      conv_rhs => rw [payloadOf, ← (h hp).take, List.take_take, (h hp).take]
      rw [Nat.min_eq_left (by omega)]
    refine Or.inr ⟨w.length - skCrcLen, out.cells, verdict_of_pos hp, by omega, ?_, by omega, hm,
      ?_⟩
    · simp only [skFrameInner] at hmax; omega
    · rw [deliver, if_pos hp, hpay]
      conv_lhs => rw [hm]
      rfl
  · exact Or.inl ⟨Int.not_lt.mp hp, deliver_of_not_pos hp⟩

theorem wrote_of_judge {st : SkDecoder} {w : List UInt8} (out : Slice UInt8)
    (h : 0 < judge w out → st.Holds w) : Wrote st (judge w out) out (deliver w out) := by
  by_cases hw : w = []
  · subst hw
    exact Or.inl ⟨by rw [judge_nil]; decide, deliver_nil out⟩
  · rw [judge_ne_nil hw] at h ⊢
    exact wrote_of_verdict out h

/-- One call of `decoder_finish`, from any state. -/
theorem decoderFinish_wrote (st : SkDecoder) (out : Slice UInt8) :
    ∃ n out', decoderFinish st out = .ok (n, out') ∧ Wrote st n out out' := by
  obtain ⟨w, hw, -, hh⟩ := decoderFinish_any st out
  exact ⟨_, _, hw, wrote_of_verdict out hh⟩

/-- One call of `sk_decoder_feed`, from any state. -/
theorem feed_wrote (st : SkDecoder) (b : UInt8) (out : Slice UInt8) :
    ∃ n st' out', st.feed b out = .ok (n, st', out') ∧ Wrote st n out out' := by
  by_cases hb : b = skFlag
  · obtain ⟨w, hw, hh⟩ := feed_flag_any st out
    exact ⟨_, _, _, hb ▸ hw, wrote_of_judge out hh⟩
  · exact ⟨_, _, _, feed_other_cases st hb out, Or.inl ⟨by decide, rfl⟩⟩

/-! ### The range of the state -/

/-- What every state behind a FLAG, or from `sk_decoder_init`, satisfies. -/
structure InRange (st : SkDecoder) : Prop where
  count_le : st.count.toNat ≤ skFrameInner
  full : st.overflow ≠ 0 → st.count.toNat = skFrameInner
  hunting : st.inFrame = 0 → st.count = 0

theorem inRange_restart (st : SkDecoder) : InRange st.restart where
  count_le := Nat.zero_le _
  full h := absurd rfl h
  hunting _ := rfl

theorem inRange_init {st st' : SkDecoder} (h : skDecoderInit (some st) = some st') :
    InRange st' := by
  obtain rfl := Option.some.inj h
  exact ⟨Nat.zero_le _, fun h => absurd rfl h, fun _ => rfl⟩

/-- One more body byte stays in range. -/
theorem inRange_take {st : SkDecoder} (h : InRange st) (hi : st.inFrame ≠ 0) (b : UInt8) :
    InRange (st.take b) := by
  have hi' : (st.take b).inFrame ≠ 0 := by rw [(st.take_inFrame b).1]; exact hi
  by_cases hc : st.count.toNat < skFrameInner
  · have ht : st.take b =
        { st with esc := 0, buf := st.buf.set st.count.toNat b, count := st.count + 1 } :=
      dif_pos hc
    have hn : (st.count + 1).toNat = st.count.toNat + 1 := by
      rw [UInt16.toNat_add]
      simp only [skFrameInner, skPayloadMax, skCrcLen] at hc
      simp only [UInt16.reduceToNat]
      omega
    refine ⟨?_, fun ho => ?_, fun h0 => absurd h0 hi'⟩
    · rw [ht]
      show (st.count + 1).toNat ≤ _
      omega
    · rw [ht] at ho
      exact absurd (h.full ho) (by omega)
  · have := h.count_le
    refine ⟨?_, fun _ => ?_, fun h0 => absurd h0 hi'⟩ <;> rw [SkDecoder.take_full hc]
    · exact h.count_le
    · show st.count.toNat = _
      omega

/-- **Each byte keeps the state in range.** -/
theorem feed_inRange {st st' : SkDecoder} {b : UInt8} {out out' : Slice UInt8} {n : Int}
    (h : InRange st) (hf : st.feed b out = .ok (n, st', out')) : InRange st' := by
  by_cases hb : b = skFlag
  · subst hb
    obtain ⟨w, hw, -⟩ := feed_flag_any st out
    rw [hw] at hf
    obtain ⟨-, rfl, -⟩ := hf
    exact inRange_restart st
  · rw [feed_other_cases st hb out] at hf
    obtain ⟨-, rfl, -⟩ := hf
    split
    · exact h
    split
    · exact ⟨h.count_le, h.full, h.hunting⟩
    · rename_i hi _
      exact inRange_take h hi _

/-- A run from a state in range ends in one. -/
theorem feedAll_inRange {st : SkDecoder} {out : Slice UInt8} {bs : List UInt8} {r : Fed}
    (h : InRange st) (hr : feedAll (some st) out bs = .ok r) :
    ∃ st', r.st = some st' ∧ InRange st' := by
  induction bs generalizing st out r with
  | nil =>
      obtain rfl := Except.ok.inj hr
      exact ⟨st, rfl, h⟩
  | cons b bs ih =>
      obtain ⟨n, st₁, out₁, h₁, -⟩ := feed_any st b out
      obtain ⟨cs, st₂, out₂, h₂, -⟩ := feedAll_any st₁ out₁ bs
      obtain rfl := Except.ok.inj ((feedAll_cons h₁ h₂).symm.trans hr)
      obtain ⟨st', hst, hin⟩ := ih (feed_inRange h h₁) h₂
      exact ⟨st', hst, hin⟩

/-- A run with a FLAG in it ends in range, whatever it started from. -/
theorem feedAll_flag_inRange {st : SkDecoder} {out : Slice UInt8} {bs : List UInt8} {r : Fed}
    (hb : skFlag ∈ bs) (hr : feedAll (some st) out bs = .ok r) :
    ∃ st', r.st = some st' ∧ InRange st' := by
  obtain ⟨u, v, rfl⟩ := List.append_of_mem hb
  obtain ⟨cs, st₁, out₁, h₁, -⟩ := feedAll_any st out u
  obtain ⟨w, hw, -⟩ := feed_flag_any st₁ out₁
  obtain ⟨cv, st₂, out₂, h₂, -⟩ := feedAll_any st₁.restart (deliver w out₁) v
  obtain rfl := Except.ok.inj ((feedAll_append h₁ (feedAll_cons hw h₂)).symm.trans hr)
  obtain ⟨st', hst, hin⟩ := feedAll_inRange (inRange_restart st₁) h₂
  exact ⟨st', hst, hin⟩

/-- **Bounds and frame condition of the decoder.**  From any value of `sk_decoder_t`, neither
`decoder_finish` nor `sk_decoder_feed` nor a whole run leaves `buf` or `out`, and a call writes
`out` only as its positive result says.  A state reached behind a FLAG, or from
`sk_decoder_init`, is in range. -/
theorem feed_in_bounds (st : SkDecoder) (b : UInt8) (out : Slice UInt8) (bs : List UInt8) :
    (∃ n out', decoderFinish st out = .ok (n, out') ∧ Wrote st n out out') ∧
    (∃ n st' out', skDecoderFeed (some st) b out = .ok (n, some st', out') ∧
      Wrote st n out out') ∧
    (∃ r st', feedAll (some st) out bs = .ok r ∧ r.st = some st' ∧
      (skFlag ∈ bs → InRange st')) ∧
    ∃ r st', feedAll (skDecoderInit (some st)) out bs = .ok r ∧ r.st = some st' ∧
      InRange st' := by
  obtain ⟨n, st₁, out₁, h₁, hw₁⟩ := feed_wrote st b out
  obtain ⟨cs, st₂, out₂, h₂, -⟩ := feedAll_any st out bs
  obtain ⟨st₀, h₀⟩ : ∃ st₀, skDecoderInit (some st) = some st₀ := ⟨_, rfl⟩
  obtain ⟨cs', st₃, out₃, h₃, -⟩ := feedAll_any st₀ out bs
  refine ⟨decoderFinish_wrote st out, ⟨n, st₁, out₁, ?_, hw₁⟩, ⟨_, st₂, h₂, rfl, fun hb => ?_⟩,
    ⟨_, st₃, h₀ ▸ h₃, rfl, ?_⟩⟩
  · simp only [skDecoderFeed, h₁, ok_bind, pure_ok]
  · obtain ⟨st', hst, hin⟩ := feedAll_flag_inRange hb h₂
    exact Option.some.inj hst ▸ hin
  · obtain ⟨st', hst, hin⟩ := feedAll_inRange (inRange_init h₀) h₃
    exact Option.some.inj hst ▸ hin

end Sharak
