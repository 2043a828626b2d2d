import Sharak.Protocol.Encode

/-!
# Protocol — the incremental decoder

The decoder's state after a FLAG and the bytes `s` behind it is determined by `s` alone
(`Collects`), up to the bytes of `buf` it no longer reads.  A byte other than FLAG extends `s`
(`feed_other`); a FLAG gives the verdict on the body `s` unstuffs to (`judge`), delivers the
payload when the verdict is positive (`deliver`), and opens the next frame (`feed_flag`).  From a
state no FLAG has been fed to, one is still enough (`feed_flag_any`).

* `feed_refines_batch`: the incremental decoder refines the batch verdict, from every state.
* `feed_in_bounds`: no call leaves `buf` or `out`, and only a positive result writes `out`.
-/

namespace Sharak
open Memory

/-! ### The batch verdict -/

/-- The last two bytes of `w`, read big-endian. -/
def trailer (w : List UInt8) : UInt16 :=
  ((w.getD (w.length - skCrcLen) 0).toUInt16 <<< 8) |||
    (w.getD (w.length - skCrcLen + 1) 0).toUInt16

/-- The two bytes of a CRC, high first, read back. -/
theorem be16_crcBytes (crc : UInt16) :
    ((((crc >>> 8) &&& 0xFF).toUInt8.toUInt16 <<< 8) ||| (crc &&& 0xFF).toUInt8.toUInt16) =
      crc := by
  have h255 : ∀ x : Nat, x &&& 255 = x % 256 := fun x => Nat.and_two_pow_sub_one_eq_mod x 8
  have hc := crc.toNat_lt
  apply UInt16.toNat_inj.mp
  simp only [UInt16.toNat_or, UInt16.toNat_shiftLeft, UInt8.toNat_toUInt16, UInt16.toNat_toUInt8,
    UInt16.toNat_and, UInt16.toNat_shiftRight, UInt16.reduceToNat, h255, Nat.reduceMod,
    Nat.shiftRight_eq_div_pow, Nat.shiftLeft_eq]
  rw [Nat.mod_eq_of_lt (by omega), ← Nat.shiftLeft_eq,
    ← Nat.shiftLeft_add_eq_or_of_lt (by omega), Nat.shiftLeft_eq]
  omega

/-- Two bytes read big-endian, taken apart again. -/
theorem crcBytes_be16 (hi lo : UInt8) :
    crcBytes ((hi.toUInt16 <<< 8) ||| lo.toUInt16) = [hi, lo] := by
  have h255 : ∀ x : Nat, x &&& 255 = x % 256 := fun x => Nat.and_two_pow_sub_one_eq_mod x 8
  have h₁ := hi.toNat_lt
  have h₂ := lo.toNat_lt
  have hor : hi.toNat * 2 ^ 8 % 2 ^ 16 ||| lo.toNat = hi.toNat * 2 ^ 8 + lo.toNat := by
    rw [Nat.mod_eq_of_lt (by omega), ← Nat.shiftLeft_eq, Nat.shiftLeft_add_eq_or_of_lt (by omega)]
  simp only [crcBytes, List.cons.injEq, and_true]
  constructor <;> apply UInt8.toNat_inj.mp <;>
    simp only [UInt16.toNat_or, UInt16.toNat_shiftLeft, UInt8.toNat_toUInt16, UInt16.toNat_toUInt8,
      UInt16.toNat_and, UInt16.toNat_shiftRight, UInt16.reduceToNat, h255, Nat.reduceMod,
      Nat.shiftRight_eq_div_pow, Nat.shiftLeft_eq, hor] <;>
    omega

/-- The body without its CRC. -/
def payloadOf (w : List UInt8) : List UInt8 := w.take (w.length - skCrcLen)

/-- A body is its front and its last two bytes. -/
theorem payloadOf_append_trailer {w : List UInt8} (h : skCrcLen ≤ w.length) :
    payloadOf w ++ crcBytes (trailer w) = w := by
  simp only [skCrcLen] at h
  have hi₁ : w.length - 2 < w.length := by omega
  have hi₂ : w.length - 2 + 1 < w.length := by omega
  have htail : w.drop (w.length - 2) = [w[w.length - 2], w[w.length - 2 + 1]] := by
    rw [List.drop_eq_getElem_cons hi₁, List.drop_eq_getElem_cons hi₂, List.drop_of_length_le
      (by omega)]
  rw [trailer]
  simp only [skCrcLen, List.getD_eq_getElem?_getD, List.getElem?_eq_getElem hi₁,
    List.getElem?_eq_getElem hi₂, Option.getD_some, crcBytes_be16, ← htail, payloadOf]
  exact List.take_append_drop _ _

/-- The body ends in the CRC of the rest. -/
def CrcHolds (w : List UInt8) : Prop := crc16CcittFalse (.mem (payloadOf w)) = trailer w

instance (w : List UInt8) : Decidable (CrcHolds w) := inferInstanceAs (Decidable (_ = _))

/-- The verdict of `decoder_finish` on a body; of `out`, only `NULL` or not, and the size. -/
def verdict (w : List UInt8) (out : Slice UInt8) : Int :=
  if skFrameInner < w.length then skDecErrOflow
  else if w.length < skPayloadMin + skCrcLen then skDecErrLen
  else if ¬ CrcHolds w then skDecErrCrc
  else if out.isNull ∨ out.size < w.length - skCrcLen then skDecErrLen
  else ((w.length - skCrcLen : Nat) : Int)

/-- The verdict on the body between two FLAGs: an empty one is no frame. -/
def judge (w : List UInt8) (out : Slice UInt8) : Int :=
  if w = [] then skDecMore else verdict w out

/-- The buffer behind the verdict. -/
def deliver (w : List UInt8) (out : Slice UInt8) : Slice UInt8 :=
  if 0 < verdict w out then out.put (payloadOf w) else out

/-- A body a frame can carry: of a legal length, and ending in its CRC. -/
structure ValidBody (w : List UInt8) : Prop where
  min_le : skPayloadMin + skCrcLen ≤ w.length
  le_max : w.length ≤ skFrameInner
  crc : CrcHolds w

theorem length_payloadOf (w : List UInt8) : (payloadOf w).length = w.length - skCrcLen := by
  simp [payloadOf]

theorem verdict_oflow {w : List UInt8} (out : Slice UInt8) (h : skFrameInner < w.length) :
    verdict w out = skDecErrOflow := if_pos h

section
variable {w : List UInt8} (out : Slice UInt8) (hw : w.length ≤ skFrameInner)
include hw

theorem verdict_len (h : w.length < skPayloadMin + skCrcLen) : verdict w out = skDecErrLen := by
  rw [verdict, if_neg (by omega), if_pos h]

theorem verdict_crc (h : skPayloadMin + skCrcLen ≤ w.length) (hc : ¬ CrcHolds w) :
    verdict w out = skDecErrCrc := by
  rw [verdict, if_neg (by omega), if_neg (by omega), if_pos hc]

theorem verdict_noRoom (h : skPayloadMin + skCrcLen ≤ w.length) (hc : CrcHolds w)
    (ho : out.isNull ∨ out.size < w.length - skCrcLen) : verdict w out = skDecErrLen := by
  rw [verdict, if_neg (by omega), if_neg (by omega), if_neg (not_not.mpr hc), if_pos ho]

theorem verdict_good (h : skPayloadMin + skCrcLen ≤ w.length) (hc : CrcHolds w)
    (ho : ¬ (out.isNull ∨ out.size < w.length - skCrcLen)) :
    verdict w out = ((w.length - skCrcLen : Nat) : Int) := by
  rw [verdict, if_neg (by omega), if_neg (by omega), if_neg (not_not.mpr hc), if_neg ho]

end

/-- The verdict is positive on a valid body that fits, and only there. -/
theorem verdict_pos_iff {w : List UInt8} {out : Slice UInt8} :
    0 < verdict w out ↔
      ValidBody w ∧ ¬ (out.isNull ∨ out.size < w.length - skCrcLen) := by
  constructor
  · intro h
    unfold verdict at h
    split at h; · cases h
    split at h; · cases h
    split at h; · cases h
    split at h; · cases h
    rename_i h₁ h₂ h₃ h₄
    exact ⟨⟨by omega, by omega, not_not.mp h₃⟩, h₄⟩
  · rintro ⟨⟨h₁, h₂, h₃⟩, h₄⟩
    rw [verdict_good out h₂ h₁ h₃ h₄]
    simp only [skPayloadMin, skCrcLen] at *
    omega

theorem verdict_of_pos {w : List UInt8} {out : Slice UInt8} (h : 0 < verdict w out) :
    verdict w out = ((w.length - skCrcLen : Nat) : Int) := by
  obtain ⟨⟨h₁, h₂, h₃⟩, h₄⟩ := verdict_pos_iff.mp h
  exact verdict_good out h₂ h₁ h₃ h₄

theorem deliver_of_not_pos {w : List UInt8} {out : Slice UInt8} (h : ¬ 0 < verdict w out) :
    deliver w out = out := if_neg h

/-- An empty body is too short for a verdict other than an error, so it never delivers. -/
theorem judge_pos_iff {w : List UInt8} {out : Slice UInt8} :
    0 < judge w out ↔ 0 < verdict w out := by
  unfold judge
  split
  · rename_i h
    rw [h, verdict_len out (by simp) (by decide)]
    decide
  · rfl

theorem judge_of_pos {w : List UInt8} {out : Slice UInt8} (h : 0 < judge w out) :
    judge w out = verdict w out := by
  unfold judge at h ⊢
  split at h
  · cases h
  · rename_i hw
    rw [if_neg hw]

theorem judge_congr {w : List UInt8} {out out' : Slice UInt8} (hn : out'.isNull = out.isNull)
    (hs : out'.size = out.size) : judge w out' = judge w out := by
  simp only [judge, verdict, hn, hs]

theorem isNull_deliver (w : List UInt8) (out : Slice UInt8) :
    (deliver w out).isNull = out.isNull := by
  unfold deliver; split
  · exact Slice.isNull_put _ _
  · rfl

theorem size_deliver (w : List UInt8) (out : Slice UInt8) :
    (deliver w out).size = out.size := by
  unfold deliver; split
  · rename_i h
    have := (verdict_pos_iff.mp h).2
    exact Slice.size_put (by rw [length_payloadOf]; omega)
  · rfl

/-- A body of a legal length is refused for its CRC exactly when it does not end in it. -/
theorem verdict_crc_iff {w : List UInt8} (out : Slice UInt8) (hmax : w.length ≤ skFrameInner)
    (hmin : skPayloadMin + skCrcLen ≤ w.length) :
    verdict w out = skDecErrCrc ↔ ¬ CrcHolds w := by
  constructor
  · intro hv hc
    by_cases ho : out.isNull ∨ out.size < w.length - skCrcLen
    · rw [verdict_noRoom out hmax hmin hc ho] at hv
      exact absurd hv (by decide)
    · rw [verdict_good out hmax hmin hc ho, skDecErrCrc] at hv
      omega
  · exact verdict_crc out hmax hmin

/-- What a positive verdict delivers is the body without its CRC. -/
theorem payload_deliver {w : List UInt8} {out : Slice UInt8} (h : 0 < verdict w out) :
    (Call.mk (verdict w out) (deliver w out)).payload = payloadOf w := by
  have hn : out.isNull = false := by simpa using (not_or.mp (verdict_pos_iff.mp h).2).1
  have hl : ((w.length - skCrcLen : Nat) : Int).toNat = (payloadOf w).length := by
    rw [length_payloadOf, Int.toNat_natCast]
  rw [Call.payload, deliver, if_pos h, verdict_of_pos h, hl, Slice.eq_mem hn]
  exact take_overlay _ _

/-! ### Closing a frame -/

/-- `w` is in front of `buf`. -/
structure SkDecoder.Holds (st : SkDecoder) (w : List UInt8) : Prop where
  le : w.length ≤ skFrameInner
  take : st.buf.toList.take w.length = w

namespace SkDecoder.Holds

theorem load {st : SkDecoder} {w : List UInt8} (h : st.Holds w) {i : Nat} (hi : i < w.length) :
    Memory.load st.buf i = .ok w[i] := by
  have hi' : i < skFrameInner := Nat.lt_of_lt_of_le hi h.le
  have hl : st.buf.toList[i]? = w[i]? := by
    rw [← List.getElem?_take_of_lt hi, h.take]
  rw [List.getElem?_eq_getElem hi, List.getElem?_eq_getElem (by simpa using hi'),
    Option.some.injEq, Vector.getElem_toList] at hl
  rw [load_ok hi', hl]

theorem pass {st : SkDecoder} {w : List UInt8} (h : st.Holds w) :
    Memory.pass st.buf (w.length - skCrcLen) = .ok (.mem (payloadOf w)) := by
  have hk := h.le
  rw [pass_ok (by omega), payloadOf]
  conv_rhs => rw [← h.take]
  rw [List.take_take, h.take, Nat.min_eq_left (by omega)]

/-- The copy loop delivers the payload. -/
theorem copy {st : SkDecoder} {w : List UInt8} (h : st.Holds w) {out : Slice UInt8}
    (ho : ¬ (out.isNull ∨ out.size < w.length - skCrcLen)) :
    upto (w.length - skCrcLen) (fun i out => do out.write i (← Memory.load st.buf i)) out =
      .ok (out.put (payloadOf w)) := by
  have hm : out = .mem out.cells := Slice.eq_mem (by simpa using (not_or.mp ho).1)
  have hs : out.size = out.cells.length := by rw [hm]; rfl
  have hcopy := upto_write (length_payloadOf w) (show _ ≤ out.cells.length by omega)
    (fun i hi => by
      rw [length_payloadOf] at hi
      simp only [payloadOf, List.getElem_take]
      exact h.load (by omega))
  rw [← hm] at hcopy
  rw [hcopy]
  conv_rhs => rw [hm]
  rfl

end SkDecoder.Holds

theorem decoderFinish_oflow {st : SkDecoder} (out : Slice UInt8)
    (h : st.overflow ≠ 0 ∨ st.count.toNat > skFrameInner) :
    decoderFinish st out = .ok (skDecErrOflow, out) := by
  rw [decoderFinish, if_pos h]; rfl

/-- `decoder_finish` on a decoder that holds the whole of `w`. -/
theorem decoderFinish_holds {st : SkDecoder} {w : List UInt8} (out : Slice UInt8)
    (h : st.Holds w) (hc : st.count.toNat = w.length) (ho : st.overflow = 0) :
    decoderFinish st out = .ok (verdict w out, deliver w out) := by
  have hle := h.le
  have hne : ¬ (st.overflow ≠ 0 ∨ st.count.toNat > skFrameInner) := by
    rw [hc]; simp [ho]; omega
  rw [decoderFinish, if_neg hne, hc]
  by_cases h₁ : w.length < skPayloadMin + skCrcLen
  · have hv := verdict_len out hle h₁
    rw [if_pos h₁, deliver_of_not_pos (by rw [hv]; decide), hv]
    rfl
  have hi₁ : w.length - skCrcLen < w.length := by simp only [skPayloadMin, skCrcLen] at *; omega
  have hi₂ : w.length - skCrcLen + 1 < w.length := by
    simp only [skPayloadMin, skCrcLen] at *; omega
  have hcrc : (crc16CcittFalse (.mem (payloadOf w)) ≠
      (w[w.length - skCrcLen].toUInt16 <<< 8) ||| w[w.length - skCrcLen + 1].toUInt16) ↔
      ¬ CrcHolds w := by
    rw [CrcHolds, trailer]
    simp only [List.getD_eq_getElem?_getD, List.getElem?_eq_getElem hi₁,
      List.getElem?_eq_getElem hi₂, Option.getD_some, ne_eq]
  rw [if_neg h₁]
  simp only [h.pass, ok_bind, h.load hi₁, h.load hi₂]
  by_cases h₂ : CrcHolds w
  · rw [if_neg (mt hcrc.mp (not_not.mpr h₂))]
    by_cases h₃ : out.isNull = true ∨ out.size < w.length - skCrcLen
    · have hv := verdict_noRoom out hle (by omega) h₂ h₃
      rw [if_pos h₃, deliver_of_not_pos (by rw [hv]; decide), hv]
      rfl
    · have hv := verdict_good out hle (by omega) h₂ h₃
      have hpos : 0 < verdict w out := verdict_pos_iff.mpr ⟨⟨by omega, hle, h₂⟩, h₃⟩
      rw [if_neg h₃, h.copy h₃, deliver, if_pos hpos, hv]
      rfl
  · have hv := verdict_crc out hle (by omega) h₂
    rw [if_pos (hcrc.mpr h₂), deliver_of_not_pos (by rw [hv]; decide), hv]
    rfl

/-! ### One byte -/

/-- A decoder just behind a FLAG: what `sk_decoder_feed` leaves of `st` there. -/
def SkDecoder.restart (st : SkDecoder) : SkDecoder :=
  { st with inFrame := 1, esc := 0, overflow := 0, count := 0 }

/-- **The state behind a FLAG and the bytes `s`**: the body unstuffed so far is in front of
`buf`, as far as it fits. -/
structure Collects (st : SkDecoder) (s : List UInt8) : Prop where
  inFrame : st.inFrame ≠ 0
  esc : st.esc ≠ 0 ↔ wire.pending s = true
  overflow : st.overflow ≠ 0 ↔ skFrameInner < (wire.unstuff s).length
  count : st.count.toNat = ((wire.unstuff s).take skFrameInner).length
  holds : st.Holds ((wire.unstuff s).take skFrameInner)

theorem collects_restart (st : SkDecoder) : Collects st.restart [] where
  inFrame := show (1 : UInt8) ≠ 0 by decide
  esc := iff_of_false (fun h => h rfl) (by decide)
  overflow := iff_of_false (fun h => h rfl) (by decide)
  count := rfl
  holds := ⟨by decide, rfl⟩

@[simp] theorem judge_nil (out : Slice UInt8) : judge [] out = skDecMore := rfl

@[simp] theorem deliver_nil (out : Slice UInt8) : deliver [] out = out :=
  deliver_of_not_pos (by rw [verdict_len out (by simp) (by decide)]; decide)

theorem judge_ne_nil {w : List UInt8} (h : w ≠ []) (out : Slice UInt8) :
    judge w out = verdict w out := if_neg h

/-- Whatever the state, `decoder_finish` gives the verdict on some body, and one it holds when the
verdict is positive. -/
theorem decoderFinish_any (st : SkDecoder) (out : Slice UInt8) :
    ∃ w, decoderFinish st out = .ok (verdict w out, deliver w out) ∧
      (0 < st.count → w ≠ []) ∧ (0 < verdict w out → st.Holds w) := by
  by_cases h : st.overflow ≠ 0 ∨ st.count.toNat > skFrameInner
  · -- an overlong body, whatever its bytes
    have hv := verdict_oflow (w := List.replicate (skFrameInner + 1) 0) out (by simp)
    refine ⟨List.replicate (skFrameInner + 1) 0, ?_, fun _ => by simp,
      fun hp => by rw [hv] at hp; cases hp⟩
    rw [decoderFinish_oflow out h, hv, deliver_of_not_pos (by rw [hv]; decide)]
  · rw [not_or, not_not] at h
    have hl : (st.buf.toList.take st.count.toNat).length = st.count.toNat := by simp; omega
    have hh : st.Holds (st.buf.toList.take st.count.toNat) := ⟨by omega, by rw [hl]⟩
    refine ⟨_, decoderFinish_holds out hh hl.symm h.1, fun hc e => ?_, fun _ => hh⟩
    rw [e] at hl
    have : 0 < st.count.toNat := by simpa [UInt16.lt_iff_toNat_lt] using hc
    simp at hl
    omega

/-- **A FLAG, from any state**: the verdict on some body, and a restarted decoder. -/
theorem feed_flag_any (st : SkDecoder) (out : Slice UInt8) :
    ∃ w, st.feed skFlag out = .ok (judge w out, st.restart, deliver w out) ∧
      (0 < judge w out → st.Holds w) := by
  by_cases h : st.inFrame ≠ 0 ∧ st.count > 0
  · obtain ⟨w, hw, hne, hh⟩ := decoderFinish_any st out
    refine ⟨w, ?_, fun hp => hh (judge_pos_iff.mp hp)⟩
    rw [SkDecoder.feed, if_pos rfl, if_pos h, hw, judge_ne_nil (hne h.2)]
    rfl
  · refine ⟨[], ?_, fun hp => by cases hp⟩
    rw [SkDecoder.feed, if_pos rfl, if_neg h, deliver_nil]
    rfl

/-- **A FLAG behind `s`**: the verdict on the body of `s`, and a restarted decoder. -/
theorem feed_flag {st : SkDecoder} {s : List UInt8} (h : Collects st s) (out : Slice UInt8) :
    st.feed skFlag out =
      .ok (judge (wire.unstuff s) out, st.restart, deliver (wire.unstuff s) out) := by
  obtain ⟨hin, -, hov, hc, hh⟩ := h
  generalize wire.unstuff s = w at *
  by_cases h0 : w = []
  · subst h0
    have hn : ¬ (st.inFrame ≠ 0 ∧ st.count > 0) := by
      rintro ⟨-, hp⟩
      have : 0 < st.count.toNat := by simpa [UInt16.lt_iff_toNat_lt] using hp
      rw [hc] at this
      simp at this
    rw [SkDecoder.feed, if_pos rfl, if_neg hn, deliver_nil]
    rfl
  · have hp : st.inFrame ≠ 0 ∧ st.count > 0 := by
      refine ⟨hin, ?_⟩
      have hw : 0 < w.length := List.length_pos_iff.mpr h0
      have : 0 < st.count.toNat := by rw [hc]; simp [skFrameInner, skPayloadMax]; omega
      simpa [UInt16.lt_iff_toNat_lt] using this
    rw [SkDecoder.feed, if_pos rfl, if_pos hp, judge_ne_nil h0]
    by_cases hl : skFrameInner < w.length
    · have hv := verdict_oflow out hl
      rw [decoderFinish_oflow out (Or.inl (hov.mpr hl)), hv,
        deliver_of_not_pos (by rw [hv]; decide)]
      rfl
    · rw [List.take_of_length_le (by omega)] at hc hh
      have ho : st.overflow = 0 := by
        by_contra hne
        exact hl (hov.mp hne)
      rw [decoderFinish_holds out hh hc ho]
      rfl

/-- One more byte of the body: what `sk_decoder_feed` does with the unescaped byte `b`. -/
def SkDecoder.take (st : SkDecoder) (b : UInt8) : SkDecoder :=
  if h : st.count.toNat < skFrameInner then
    { st with esc := 0, buf := st.buf.set st.count.toNat b, count := st.count + 1 }
  else { st with esc := 0, overflow := 1 }

/-- **A byte other than FLAG, from any state**: what it does, case by case. -/
theorem feed_other_cases (st : SkDecoder) {b : UInt8} (hb : b ≠ skFlag) (out : Slice UInt8) :
    st.feed b out = .ok (skDecMore,
      if st.inFrame = 0 then st
      else if b = skEsc then { st with esc := 1 }
      else st.take (if st.esc ≠ 0 then b ^^^ skEscXor else b), out) := by
  rw [SkDecoder.feed, if_neg hb]
  by_cases hi : st.inFrame = 0
  · rw [if_pos hi, if_pos hi]; rfl
  rw [if_neg hi, if_neg hi]
  by_cases he : b = skEsc
  · rw [if_pos he, if_pos he]; rfl
  rw [if_neg he, if_neg he, SkDecoder.take]
  by_cases hs : st.esc ≠ 0 <;> by_cases hc : st.count.toNat < skFrameInner
  · simp only [if_pos hs, if_pos hc, dif_pos hc, store_ok hc]; rfl
  · simp only [if_pos hs, if_neg hc, dif_neg hc]; rfl
  · have h0 : st.esc = 0 := not_not.mp hs
    simp only [h0, ne_eq, not_true_eq_false, if_false, if_pos hc, dif_pos hc, store_ok hc]; rfl
  · have h0 : st.esc = 0 := not_not.mp hs
    simp only [h0, ne_eq, not_true_eq_false, if_false, if_neg hc, dif_neg hc]; rfl

/-- The byte goes behind what `buf` holds. -/
theorem SkDecoder.Holds.take_room {st : SkDecoder} {w : List UInt8} (h : st.Holds w)
    (hc : st.count.toNat = w.length) (hw : w.length < skFrameInner) (b : UInt8) :
    (st.take b).Holds (w ++ [b]) ∧ (st.take b).count.toNat = (w ++ [b]).length ∧
      (st.take b).overflow = st.overflow := by
  have hlt : st.count.toNat < skFrameInner := by omega
  have ht : st.take b =
      { st with esc := 0, buf := st.buf.set st.count.toNat b, count := st.count + 1 } := dif_pos hlt
  rw [ht]
  refine ⟨⟨by simp; omega, ?_⟩, ?_, rfl⟩
  · show (st.buf.set st.count.toNat b).toList.take _ = _
    have hl : w.length < st.buf.toList.length := by simpa using hw
    rw [Vector.toList_set, hc, List.length_append, List.length_singleton,
      List.take_succ_eq_append_getElem (by simpa using hl), List.take_set_of_le (Nat.le_refl _),
      h.take, List.getElem_set_self]
  · show (st.count + 1).toNat = _
    have : st.count.toNat + 1 < 2 ^ 16 := by
      simp only [skFrameInner, skPayloadMax, skCrcLen] at hlt; omega
    rw [UInt16.toNat_add]
    simp [hc] at this ⊢
    omega

/-- The body is full: the byte is dropped and the overflow noted. -/
theorem SkDecoder.take_full {st : SkDecoder} (hc : ¬ st.count.toNat < skFrameInner) (b : UInt8) :
    st.take b = { st with esc := 0, overflow := 1 } := dif_neg hc

theorem SkDecoder.take_inFrame (st : SkDecoder) (b : UInt8) :
    (st.take b).inFrame = st.inFrame ∧ (st.take b).esc = 0 := by
  unfold SkDecoder.take
  split <;> exact ⟨rfl, rfl⟩

/-- An unescaped byte extends the body. -/
theorem collects_take {st : SkDecoder} {s : List UInt8} (h : Collects st s) {b c : UInt8}
    (hc : wire.unstuff (s ++ [c]) = wire.unstuff s ++ [b]) (hp : wire.pending (s ++ [c]) = false) :
    Collects (st.take b) (s ++ [c]) := by
  obtain ⟨hin, -, hov, hcount, hholds⟩ := h
  obtain ⟨htin, htesc⟩ := st.take_inFrame b
  refine ⟨by rwa [htin], iff_of_false (fun h => h htesc) (by rw [hp]; decide), ?_, ?_, ?_⟩ <;>
    rw [hc] <;> generalize wire.unstuff s = w at * <;>
    by_cases hw : w.length < skFrameInner
  · rw [List.take_of_length_le (by omega)] at hcount hholds
    rw [(hholds.take_room hcount hw b).2.2, hov]
    simp
    omega
  · rw [SkDecoder.take_full (by rw [hcount]; simp; omega)]
    exact iff_of_true (show (1 : UInt8) ≠ 0 by decide) (by simp; omega)
  · rw [List.take_of_length_le (by omega)] at hcount hholds
    rw [(hholds.take_room hcount hw b).2.1, List.take_of_length_le (by simp; omega)]
  · rw [SkDecoder.take_full (by rw [hcount]; simp; omega),
      List.take_append_of_le_length (by omega)]
    exact hcount
  · rw [List.take_of_length_le (by omega)] at hcount hholds
    rw [List.take_of_length_le (by simp; omega)]
    exact (hholds.take_room hcount hw b).1
  · rw [SkDecoder.take_full (by rw [hcount]; simp; omega),
      List.take_append_of_le_length (by omega)]
    exact ⟨hholds.le, hholds.take⟩

/-- **A byte other than FLAG, behind `s`**: it returns `SK_DEC_MORE` and extends `s`. -/
theorem feed_other {st : SkDecoder} {s : List UInt8} (h : Collects st s) {b : UInt8}
    (hb : b ≠ skFlag) (out : Slice UInt8) :
    ∃ st', st.feed b out = .ok (skDecMore, st', out) ∧ Collects st' (s ++ [b]) := by
  rw [feed_other_cases st hb, if_neg h.inFrame]
  by_cases he : b = skEsc
  · rw [if_pos he, he]
    have hu : wire.unstuff (s ++ [skEsc]) = wire.unstuff s := (wire.unstuff_snoc_esc s).1
    have hp : wire.pending (s ++ [skEsc]) = true := (wire.unstuff_snoc_esc s).2
    refine ⟨_, rfl, h.inFrame, iff_of_true (show (1 : UInt8) ≠ 0 by decide) hp, ?_, ?_, ?_⟩ <;>
      rw [hu]
    · exact h.overflow
    · exact h.count
    · exact ⟨h.holds.le, h.holds.take⟩
  · rw [if_neg he]
    obtain ⟨hu, hp⟩ := wire.unstuff_snoc_other he s
    refine ⟨_, rfl, collects_take h ?_ hp⟩
    rw [hu]
    by_cases hs : wire.pending s = true
    · rw [if_pos hs, if_pos (h.esc.mpr hs)]; rfl
    · rw [if_neg hs, if_neg (mt h.esc.mp hs)]

end Sharak
