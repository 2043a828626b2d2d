import Sharak.Protocol.Definitions
import Sharak.Support.Stuffing

/-!
# Protocol — the frame encoder

`skFrameEncode` writes `frame p`: a FLAG, the stuffed body of `p`, and a FLAG, where the body is
the payload with its CRC behind it, high byte first.

* `skFrameEncode_mem`: on a payload of a legal length the encoder stays inside `inner` and `out`,
  returns the length of the frame and leaves the frame in front of the buffer exactly when the
  frame fits, and returns `-1` otherwise.
* `skFrame_eq`: the frame it writes into a buffer of `SK_FRAME_MAX` bytes, which always fits
  (`length_frame_le`).
-/

namespace Sharak
open Memory

/-- The stuffing the wire uses. -/
def wire : Stuffing.Code UInt8 where
  flag := skFlag
  esc := skEsc
  mask b := b ^^^ skEscXor
  mask_mask b := by rw [UInt8.xor_assoc]; simp
  esc_ne_flag := by decide
  mask_flag := by decide
  mask_esc := by decide

theorem wire_special {b : UInt8} : wire.Special b ↔ b = skFlag ∨ b = skEsc := Iff.rfl

/-- A payload of a length the protocol carries. -/
structure Payload where
  bytes : List UInt8
  min_le : skPayloadMin ≤ bytes.length
  le_max : bytes.length ≤ skPayloadMax

/-- The CRC as it is appended: high byte first. -/
def crcBytes (crc : UInt16) : List UInt8 :=
  [((crc >>> 8) &&& 0xFF).toUInt8, (crc &&& 0xFF).toUInt8]

/-- The bytes between the FLAGs, before stuffing. -/
def body (p : List UInt8) : List UInt8 := p ++ crcBytes (crc16CcittFalse (.mem p))

/-- A whole frame. -/
def frame (p : List UInt8) : List UInt8 := skFlag :: wire.stuff (body p) ++ [skFlag]

@[simp] theorem length_body (p : List UInt8) : (body p).length = p.length + skCrcLen := by
  simp [body, crcBytes, skCrcLen]

theorem length_frame (p : List UInt8) : (frame p).length = (wire.stuff (body p)).length + 2 := by
  simp [frame]

/-- `SK_FRAME_MAX` bytes hold every frame. -/
theorem length_frame_le {p : List UInt8} (h : p.length ≤ skPayloadMax) :
    (frame p).length ≤ skFrameMax := by
  have := wire.length_stuff_le (body p)
  rw [length_body] at this
  rw [length_frame]
  simp only [skPayloadMax, skFrameMax, skFrameInner, skCrcLen] at *
  omega

/-! ### The stuffing loop -/

/-- What the stuffing loop does from `n = |xs|` bytes on, with `w` the bytes of `inner` still to
send: it leaves `xs`, the stuffing of `w` and a FLAG in front of the buffer if they fit, and
returns `-1` if they do not. -/
def Stuffed (cs xs w : List UInt8) (r : Checked (Int × Slice UInt8)) : Prop :=
  let f := xs ++ wire.stuff w ++ [skFlag]
  ∃ o : List UInt8, r = .ok (if f.length ≤ cs.length then (f.length : Int) else -1, .mem o) ∧
    o.length = cs.length ∧ (f.length ≤ cs.length → o = overlay f cs)

/-- The loop returns `-1` at once when the next bytes do not fit. -/
theorem stuffed_full {cs xs w : List UInt8} (hxs : xs.length ≤ cs.length)
    (h : cs.length < (xs ++ wire.stuff w ++ [skFlag]).length) :
    Stuffed cs xs w (.ok (-1, .mem (overlay xs cs))) :=
  ⟨_, by rw [if_neg (by omega)], length_overlay hxs, fun h' => by omega⟩

theorem stuffed_cons {cs xs w : List UInt8} {b : UInt8} {r : Checked (Int × Slice UInt8)} :
    Stuffed cs xs (b :: w) r ↔ Stuffed cs (xs ++ wire.unit b) w r := by
  have h : xs ++ wire.stuff (b :: w) = xs ++ wire.unit b ++ wire.stuff w := by
    rw [wire.stuff_cons, List.append_assoc]
  rw [Stuffed, Stuffed, h]

/-- One turn of the loop: the unit of the next byte, if it fits. -/
theorem stuffLoop_turn {inner : Vector UInt8 skFrameInner} {cs xs : List UInt8} {todo i : Nat}
    {b : UInt8} (hl : load inner i = .ok b) (hxs : xs.length ≤ cs.length) :
    stuffLoop inner (todo + 1) i xs.length (.mem (overlay xs cs)) =
      if (xs ++ wire.unit b).length ≤ cs.length then
        stuffLoop inner todo (i + 1) (xs ++ wire.unit b).length
          (.mem (overlay (xs ++ wire.unit b) cs))
      else .ok (-1, .mem (overlay xs cs)) := by
  have hs : (Slice.mem (overlay xs cs)).size = cs.length := length_overlay hxs
  rw [stuffLoop, hl, ok_bind, hs]
  by_cases hb : wire.Special b
  · have hu : wire.unit b = [skEsc] ++ [b ^^^ skEscXor] := wire.unit_special hb
    have hlen : (xs ++ wire.unit b).length = xs.length + 2 := by simp [hu]
    have hesc : (xs ++ [skEsc]).length = xs.length + 1 := by simp
    rw [if_pos (wire_special.mp hb), hlen]
    by_cases hfull : xs.length + 2 > cs.length
    · rw [if_pos hfull, if_neg (by omega)]
      rfl
    · rw [if_neg hfull, if_pos (by omega), Slice.write_overlay skEsc (by omega), ok_bind,
        Slice.write_overlay_at _ hesc.symm (by omega), ok_bind, hu, List.append_assoc]
  · have hu : wire.unit b = [b] := wire.unit_plain hb
    have hlen : (xs ++ wire.unit b).length = xs.length + 1 := by simp [hu]
    rw [if_neg (mt wire_special.mpr hb), hlen]
    by_cases hfull : xs.length + 1 > cs.length
    · rw [if_pos hfull, if_neg (by omega)]
      rfl
    · rw [if_neg hfull, if_pos (by omega), Slice.write_overlay b (by omega), ok_bind, hu]

theorem stuffLoop_stuffed (inner : Vector UInt8 skFrameInner) (cs : List UInt8) :
    ∀ (todo i : Nat) (xs : List UInt8), i + todo ≤ skFrameInner → xs.length ≤ cs.length →
      Stuffed cs xs ((inner.toList.drop i).take todo)
        (stuffLoop inner todo i xs.length (.mem (overlay xs cs)))
  | 0, i, xs, _, hxs => by
      have hs : (Slice.mem (overlay xs cs)).size = cs.length := length_overlay hxs
      rw [stuffLoop, hs, List.take_zero]
      by_cases hfull : xs.length + 1 > cs.length
      · rw [if_pos hfull]
        exact stuffed_full hxs (by simp; omega)
      · have he : xs ++ wire.stuff [] ++ [skFlag] = xs ++ [skFlag] := by simp
        have hlen : (xs ++ [skFlag]).length = xs.length + 1 := by simp
        rw [if_neg hfull, Slice.write_overlay skFlag (by omega), ok_bind]
        refine ⟨overlay (xs ++ [skFlag]) cs, ?_, length_overlay (by omega), fun _ => by rw [he]⟩
        rw [he, hlen, if_pos (by omega)]
        rfl
  | todo + 1, i, xs, hi, hxs => by
      have hil : i < inner.toList.length := by simp; omega
      have hw : (inner.toList.drop i).take (todo + 1) =
          inner[i] :: (inner.toList.drop (i + 1)).take todo := by
        rw [List.drop_eq_getElem_cons hil, List.take_succ_cons, Vector.getElem_toList]
      rw [hw, stuffLoop_turn (load_ok (by omega)) hxs]
      by_cases hfit : (xs ++ wire.unit inner[i]).length ≤ cs.length
      · rw [if_pos hfit, stuffed_cons]
        exact stuffLoop_stuffed inner cs todo (i + 1) _ (by omega) hfit
      · rw [if_neg hfit]
        refine stuffed_full hxs ?_
        rw [wire.stuff_cons]
        simp only [List.length_append] at hfit ⊢
        omega

/-! ### The encoder -/

/-- `inner` after the copy loop and the two CRC stores. -/
theorem inner_filled {p : List UInt8} {v : Vector UInt8 skFrameInner}
    (hv : v.toList = overlay p (List.replicate skFrameInner 0)) (h : p.length ≤ skPayloadMax)
    (hi lo : UInt8) :
    ∃ w w' : Vector UInt8 skFrameInner, store v p.length hi = .ok w ∧
      store w (p.length + 1) lo = .ok w' ∧
      w'.toList.take (p.length + skCrcLen) = p ++ [hi, lo] := by
  have h₁ : p.length + 1 < skFrameInner := by
    simp only [skFrameInner, skPayloadMax, skCrcLen] at *; omega
  have hl : (List.replicate skFrameInner (0 : UInt8)).length = skFrameInner := by simp
  refine ⟨v.set p.length hi, _, store_ok (by omega), store_ok h₁, ?_⟩
  have e : ∀ a : UInt8, (p ++ [a]).length = p.length + 1 := by simp
  rw [Vector.toList_set, Vector.toList_set, hv, set_overlay (by omega), ← e hi,
    set_overlay (by rw [e, hl]; exact h₁)]
  simpa [skCrcLen] using take_overlay (p ++ [hi] ++ [lo]) (List.replicate skFrameInner 0)

/-- **The encoder.**  On a payload of a legal length it returns the length of the frame and
leaves the frame in front of the buffer when the frame fits, and returns `-1` when it does not. -/
theorem skFrameEncode_mem (p : Payload) (cs : List UInt8) :
    ∃ o : List UInt8, skFrameEncode (.mem p.bytes) (.mem cs) =
        .ok (if (frame p.bytes).length ≤ cs.length then ((frame p.bytes).length : Int) else -1,
          .mem o) ∧
      o.length = cs.length ∧
      ((frame p.bytes).length ≤ cs.length → o = overlay (frame p.bytes) cs) := by
  obtain ⟨p, hmin, hmax⟩ := p
  have hn : p.length ≤ skFrameInner := by
    simp only [skFrameInner, skPayloadMax, skCrcLen] at *; omega
  obtain ⟨v, hv, hvl⟩ := upto_store (v := Vector.replicate skFrameInner (0 : UInt8)) rfl hn
    (fun i h => Slice.read_mem h)
  rw [Vector.toList_replicate] at hvl
  obtain ⟨w, w', hw, hw', hwl⟩ := inner_filled hvl hmax
    ((crc16CcittFalse (.mem p) >>> 8) &&& 0xFF).toUInt8 (crc16CcittFalse (.mem p) &&& 0xFF).toUInt8
  have hbody : w'.toList.take (p.length + skCrcLen) = body p := hwl
  have hp : (Slice.mem p).size = p.length := rfl
  have hlen : ¬ ((Slice.mem p).size < skPayloadMin ∨ (Slice.mem p).size > skPayloadMax) := by omega
  rw [skFrameEncode, if_neg (by simpa using hlen)]
  simp only [hp, hv, hw, hw', ok_bind, pure_ok]
  have hc : (Slice.mem cs).size = cs.length := rfl
  by_cases h0 : (Slice.mem cs).size < 1
  · rw [if_pos h0]
    have hnil : cs.length = 0 := by omega
    have hlong : ¬ (frame p).length ≤ cs.length := by
      rw [length_frame, hnil]
      omega
    refine ⟨cs, ?_, rfl, fun h => absurd h hlong⟩
    rw [if_neg hlong]
  · rw [if_neg h0]
    have hflag : (Slice.mem cs).write 0 skFlag = .ok (.mem (overlay [skFlag] cs)) := by
      simpa using @Slice.write_overlay _ [] cs skFlag (by simp; omega)
    have hs := stuffLoop_stuffed w' cs (p.length + skCrcLen) 0 [skFlag]
      (by simp only [skFrameInner, skPayloadMax, skCrcLen] at *; omega) (by simp; omega)
    rw [List.drop_zero, hbody] at hs
    rw [hflag, ok_bind]
    simpa [Stuffed, frame] using hs

/-- Into `SK_FRAME_MAX` bytes, every payload of a legal length is encoded. -/
theorem skFrameEncode_fits (p : Payload) {cs : List UInt8} (h : skFrameMax ≤ cs.length) :
    skFrameEncode (.mem p.bytes) (.mem cs) =
      .ok (((frame p.bytes).length : Int), .mem (overlay (frame p.bytes) cs)) := by
  obtain ⟨o, ho, -, ho'⟩ := skFrameEncode_mem p cs
  have hfit : (frame p.bytes).length ≤ cs.length := Nat.le_trans (length_frame_le p.le_max) h
  rw [ho, if_pos hfit, ho' hfit]

/-- The frame `sk_frame_encode` writes for `p` into a buffer of `SK_FRAME_MAX` bytes. -/
def skFrame (p : List UInt8) : List UInt8 :=
  match skFrameEncode (.mem p) (.mem (List.replicate skFrameMax 0)) with
  | .ok (n, out) => out.cells.take n.toNat
  | .error _ => []

theorem skFrame_eq (p : Payload) : skFrame p.bytes = frame p.bytes := by
  rw [skFrame, skFrameEncode_fits p (by simp)]
  exact take_overlay _ _

end Sharak
