import Sharak.Protocol.Encode

/-!
# Protocol — what the encoder accepts and what it writes

A frame is as long as its payload and four bytes more, and one for each byte of the payload and
CRC that is sent escaped (`length_frame_escapes`).  `encoder_exact` says when `sk_frame_encode`
succeeds and all it leaves behind: a refused call and a call into a buffer one byte short included,
every access stays inside the payload, `inner` and the buffer.
-/

namespace Sharak
open Memory

/-- How many bytes of `w` are sent escaped. -/
def escapes (w : List UInt8) : Nat := w.countP fun b => decide (b = skFlag ∨ b = skEsc)

theorem length_frame_escapes (p : List UInt8) :
    (frame p).length = p.length + 4 + escapes (body p) := by
  have h := wire.length_stuff (body p)
  rw [length_body] at h
  have hs : (wire.stuff (body p)).length = p.length + skCrcLen + escapes (body p) := h
  rw [length_frame, hs, skCrcLen]
  omega

/-! ### Special bytes of a frame -/

theorem frame_inside (p : List UInt8) {j : Nat} (h : j < (wire.stuff (body p)).length) :
    (frame p)[j + 1]? = (wire.stuff (body p))[j]? := by
  rw [frame, List.cons_append, List.getElem?_cons_succ, List.getElem?_append_left h]

/-- FLAG delimits a frame and occurs nowhere else in it. -/
theorem frame_flag_iff (p : List UInt8) (i : Nat) :
    (frame p)[i]? = some skFlag ↔ i = 0 ∨ i + 1 = (frame p).length := by
  rw [length_frame]
  cases i with
  | zero => simp [frame]
  | succ j =>
      rcases Nat.lt_trichotomy j (wire.stuff (body p)).length with h | h | h
      · rw [frame_inside p h]
        constructor
        · intro hf
          exact absurd (List.mem_of_getElem? hf) (wire.flag_not_mem_stuff _)
        · intro hi
          omega
      · have hlast : (frame p)[j + 1]? = some skFlag := by
          rw [frame, List.cons_append, List.getElem?_cons_succ, h, List.getElem?_append_right
            (Nat.le_refl _), Nat.sub_self]
          rfl
        rw [hlast]
        constructor
        · intro _
          omega
        · intro _
          rfl
      · have hnone : (frame p)[j + 1]? = none :=
          List.getElem?_eq_none (by rw [length_frame]; omega)
        rw [hnone]
        constructor
        · intro hf
          cases hf
        · intro hi
          omega

/-- ESC is followed, before the closing FLAG, by one of the two escaped bytes. -/
theorem frame_esc {p : List UInt8} {i : Nat} (hi : (frame p)[i]? = some skEsc) :
    i + 2 < (frame p).length ∧
      ((frame p)[i + 1]? = some 0x5E ∨ (frame p)[i + 1]? = some 0x5D) := by
  have hlt := (List.getElem?_eq_some_iff.mp hi).1
  have hflag : ¬ (i = 0 ∨ i + 1 = (frame p).length) := by
    rw [← frame_flag_iff, hi]
    decide
  obtain ⟨j, rfl⟩ := Nat.exists_eq_succ_of_ne_zero fun h0 => hflag (.inl h0)
  rw [length_frame] at hlt hflag ⊢
  have hj : j < (wire.stuff (body p)).length := by omega
  rw [frame_inside p hj] at hi
  have hnext := wire.esc_followed (wire.not_badEscape_stuff (body p)) hi
  have hj' : j + 1 < (wire.stuff (body p)).length := by
    rcases hnext with h | h
    · exact (List.getElem?_eq_some_iff.mp h).1
    · exact (List.getElem?_eq_some_iff.mp h).1
  rw [frame_inside p hj']
  exact ⟨by omega, hnext⟩

/-! ### The encoder -/

/-- The arguments the encoder accepts. -/
def Encodable (payload out : Slice UInt8) : Prop :=
  payload.isNull = false ∧ out.isNull = false ∧ skPayloadMin ≤ payload.size ∧
    payload.size ≤ skPayloadMax ∧ payload.size + 4 + escapes (body payload.cells) ≤ out.size

/-- Any buffer of `SK_FRAME_MAX` bytes is large enough. -/
theorem encodable_frameMax {payload out : Slice UInt8} (hp : payload.isNull = false)
    (ho : out.isNull = false) (hmin : skPayloadMin ≤ payload.size)
    (hmax : payload.size ≤ skPayloadMax) (hcap : skFrameMax ≤ out.size) :
    Encodable payload out := by
  refine ⟨hp, ho, hmin, hmax, ?_⟩
  cases payload with
  | null k => cases hp
  | mem p =>
      have hle := length_frame_le hmax
      rw [length_frame_escapes] at hle
      exact Nat.le_trans hle hcap

/-- The call is refused at its first test, or has a payload and a buffer to work on. -/
theorem encode_arguments (payload out : Slice UInt8) :
    (payload.isNull ∨ out.isNull ∨ payload.size < skPayloadMin ∨ payload.size > skPayloadMax) ∨
      ∃ (p : Payload) (cs : List UInt8), payload = .mem p.bytes ∧ out = .mem cs := by
  by_cases h : payload.isNull ∨ out.isNull ∨ payload.size < skPayloadMin ∨
      payload.size > skPayloadMax
  · exact .inl h
  · right
    simp only [not_or, Bool.not_eq_true, Nat.not_lt, gt_iff_lt] at h
    obtain ⟨hp, ho, hmin, hmax⟩ := h
    cases payload with
    | null k => cases hp
    | mem p =>
        cases out with
        | null k => cases ho
        | mem cs => exact ⟨⟨p, hmin, hmax⟩, cs, rfl, rfl⟩

/-- A buffer `cs` after a call that encoded `p` into its first `n` bytes. -/
structure Encoded (p cs : List UInt8) (n : Nat) (o : List UInt8) : Prop where
  count : n = p.length + 4 + escapes (body p)
  count_le : n ≤ 38
  /-- FLAG, the payload and its CRC with each special byte escaped, FLAG; the rest as it was. -/
  cells : o = frame p ++ cs.drop n
  length : (frame p).length = n
  flag : ∀ i < n, o[i]? = some 0x7E ↔ i = 0 ∨ i = n - 1
  /-- No escape is cut off by the end of the frame. -/
  esc : ∀ i < n, o[i]? = some 0x7D → i + 1 < n ∧ (o[i + 1]? = some 0x5E ∨ o[i + 1]? = some 0x5D)

theorem encoded_overlay {p cs : List UInt8} (hmax : p.length ≤ skPayloadMax) :
    Encoded p cs (frame p).length (overlay (frame p) cs) := by
  have hin : ∀ i, i < (frame p).length → (overlay (frame p) cs)[i]? = (frame p)[i]? := by
    intro i hi
    rw [overlay, List.getElem?_append_left hi]
  refine ⟨length_frame_escapes p, length_frame_le hmax, rfl, rfl, ?_, ?_⟩
  · intro i hi
    have hflag := frame_flag_iff p i
    rw [hin i hi]
    exact hflag.trans (by omega)
  · intro i hi h
    rw [hin i hi] at h
    obtain ⟨hlt, hnext⟩ := frame_esc h
    rw [hin (i + 1) (by omega)]
    exact ⟨by omega, hnext⟩

/-- **The encoder, exactly.**  Whatever the payload and the buffer, the call stays inside both and
inside `inner`, and leaves a buffer of the same size.  It succeeds exactly on the arguments that
are `Encodable`, every buffer of `SK_FRAME_MAX` bytes among them, and then leaves the frame in
front. -/
theorem encoder_exact (payload out : Slice UInt8) :
    ∃ (r : Int) (o : Slice UInt8), skFrameEncode payload out = .ok (r, o) ∧
      o.isNull = out.isNull ∧ o.size = out.size ∧
      (0 ≤ r ↔ Encodable payload out) ∧
      (0 ≤ r → ∃ n : Nat, r = n ∧ Encoded payload.cells out.cells n o.cells) ∧
      (payload.isNull = false → out.isNull = false → skPayloadMin ≤ payload.size →
        payload.size ≤ skPayloadMax → skFrameMax ≤ out.size → Encodable payload out) := by
  rcases encode_arguments payload out with h | ⟨p, cs, rfl, rfl⟩
  · have hrefused : ¬ Encodable payload out := by
      rintro ⟨hp, ho, hmin, hmax, -⟩
      rcases h with h | h | h | h
      · rw [hp] at h
        cases h
      · rw [ho] at h
        cases h
      · omega
      · omega
    refine ⟨-1, out, if_pos h, rfl, rfl, ?_, ?_, encodable_frameMax⟩
    · constructor
      · intro hr
        omega
      · intro he
        exact absurd he hrefused
    · intro hr
      omega
  · have hfits : Encodable (.mem p.bytes) (.mem cs) ↔ (frame p.bytes).length ≤ cs.length := by
      rw [length_frame_escapes]
      constructor
      · rintro ⟨-, -, -, -, hcap⟩
        exact hcap
      · intro hcap
        exact ⟨rfl, rfl, p.min_le, p.le_max, hcap⟩
    obtain ⟨o, hrun, hlen, hwrote⟩ := skFrameEncode_mem p cs
    refine ⟨_, _, hrun, rfl, hlen, ?_, ?_, encodable_frameMax⟩
    · rw [hfits]
      split <;> omega
    · intro hr
      have hcap : (frame p.bytes).length ≤ cs.length := by
        by_contra hover
        rw [if_neg hover] at hr
        omega
      rw [if_pos hcap, hwrote hcap]
      exact ⟨_, rfl, encoded_overlay p.le_max⟩

end Sharak
