import Sharak.Protocol.Streams

/-!
# Protocol — encode, then decode

A frame is delivered wherever it stands in a stream, whatever the decoder held before
(`frame_delivered`), and joined frames are delivered in order from a fresh decoder, whether
neighbours share a FLAG or stand apart by any number of them (`frames_delivered`).
-/

namespace Sharak
open Memory

/-! ### One frame in a stream -/

theorem skFrame_shape (p : Payload) :
    skFrame p.bytes = [skFlag] ++ (segment (some p) ++ [skFlag]) := by
  rw [skFrame_eq]; rfl

/-- **A frame in any stream, from any state.**  The bytes inside it return `SK_DEC_MORE`, and its
last byte delivers the payload. -/
theorem frame_delivered (st : SkDecoder) (u v : List UInt8) (p : Payload) {out : Slice UInt8}
    (ho : Roomy out) :
    ∃ (r : Fed) (cu ci : List Call) (cl : Call) (cv : List Call),
      feedAll (some st) out (u ++ skFrame p.bytes ++ v) = .ok r ∧
      r.calls = cu ++ ci ++ [cl] ++ cv ∧ cu.length = u.length + 1 ∧
      ci.length = (skFrame p.bytes).length - 2 ∧ (∀ c ∈ ci, c.ret = skDecMore) ∧
      cl.ret = (p.bytes.length : Int) ∧ cl.payload = p.bytes := by
  obtain ⟨r, out₁, cu, cv, hr, hs, hcu, hcalls⟩ :=
    feedAll_between st out u v (flag_not_mem_segment (some p))
  have hu : wire.unstuff (segment (some p)) = body p.bytes := wire.unstuff_stuff _
  obtain ⟨h₁, h₂⟩ := (ho.of_sameShape hs).close_valid (s := segment (some p))
    (by rw [hu]; exact p.validBody)
  rw [hu, payloadOf_body] at h₁ h₂
  refine ⟨r, cu, List.replicate (segment (some p)).length (.more out₁), _, cv, ?_, ?_, hcu, ?_,
    ?_, h₁, h₂⟩
  · rw [skFrame_shape]
    simpa using hr
  · rw [hcalls]
    simp
  · rw [skFrame_shape]
    simp
  · intro c hc
    rw [List.eq_of_mem_replicate hc]
    rfl

/-! ### Joined frames -/

/-- How a frame stands behind the one before it: it opens with that one's closing FLAG, or has
its own behind `k` extra ones. -/
inductive Joint where
  | share
  | gap (k : Nat)

/-- The frame of `p`, and the frames behind it, joined. -/
def joinBehind (p : Payload) : List (Joint × Payload) → List UInt8
  | [] => skFrame p.bytes
  | (.share, q) :: ps => skFrame p.bytes ++ (joinBehind q ps).tail
  | (.gap k, q) :: ps => skFrame p.bytes ++ List.replicate k skFlag ++ joinBehind q ps

/-- The frames of `ps`, joined; nothing stands before the first, so its joint is not read. -/
def joinFrames : List (Joint × Payload) → List UInt8
  | [] => []
  | (_, p) :: ps => joinBehind p ps

/-- Joined frames are a FLAG and a stream of segments that carries their payloads. -/
theorem joinBehind_carry (p : Payload) (ps : List (Joint × Payload)) :
    ∃ os, joinBehind p ps = skFlag :: carry os ∧ os.reduceOption = p :: ps.map Prod.snd := by
  induction ps generalizing p with
  | nil => exact ⟨[some p], by rw [joinBehind, skFrame_eq, frame_eq_carry], rfl⟩
  | cons jq ps ih =>
      obtain ⟨j, q⟩ := jq
      obtain ⟨os, hos, hred⟩ := ih q
      cases j with
      | share =>
          refine ⟨some p :: os, ?_, by simp [List.reduceOption_cons_of_some, hred]⟩
          rw [joinBehind, hos, skFrame_eq, frame_eq_carry, List.tail_cons, List.cons_append,
            ← carry_append, List.singleton_append]
      | gap k =>
          refine ⟨some p :: (List.replicate (k + 1) none ++ os), ?_, ?_⟩
          · have hk : carry (List.replicate (k + 1) none) =
                List.replicate k skFlag ++ [skFlag] := by
              rw [carry_replicate_none, List.replicate_succ']
            have hp : carry (some p :: (List.replicate (k + 1) none ++ os)) =
                carry [some p] ++ (carry (List.replicate (k + 1) none) ++ carry os) := by
              rw [← carry_append, ← carry_append, List.singleton_append]
            rw [joinBehind, hos, skFrame_eq, frame_eq_carry, hp, hk]
            simp
          · rw [List.reduceOption_cons_of_some, List.reduceOption_append,
              List.reduceOption_replicate_none, hred]
            rfl

/-- **Joined frames, from a fresh decoder**: the payloads in order, and nothing else. -/
theorem frames_delivered (st : SkDecoder) (ps : List (Joint × Payload)) {out : Slice UInt8}
    (ho : Roomy out) :
    ∃ r, feedAll (skDecoderInit (some st)) out (joinFrames ps) = .ok r ∧
      reports r.calls = ps.map fun jp => jp.2.report := by
  cases ps with
  | nil => exact ⟨_, rfl, rfl⟩
  | cons jp ps =>
      obtain ⟨os, hos, hred⟩ := joinBehind_carry jp.2 ps
      obtain ⟨r, hr, hrep⟩ := fresh_carry st ho (g := []) (s := []) (by simp) (by simp) os
      refine ⟨r, ?_, by rw [hrep, hred]; simp⟩
      show feedAll (skDecoderInit (some st)) out (joinBehind jp.2 ps) = _
      rw [hos]
      simpa using hr

/-! ### Frames one after another -/

/-- Frames, each with both of its FLAGs. -/
def frames (ps : List Payload) : List UInt8 := ps.flatMap fun p => frame p.bytes

theorem frames_append (ps qs : List Payload) : frames (ps ++ qs) = frames ps ++ frames qs :=
  List.flatMap_append

/-- Frames, as segments behind a FLAG that stands before them. -/
theorem frames_eq_carry (ps : List Payload) :
    ∃ os, frames ps = carry os ∧ os.reduceOption = ps := by
  induction ps with
  | nil => exact ⟨[], rfl, rfl⟩
  | cons p ps ih =>
      obtain ⟨os, hos, hred⟩ := ih
      refine ⟨none :: some p :: os, ?_, ?_⟩
      · have hcons : frames (p :: ps) = frame p.bytes ++ frames ps := rfl
        have hcarry : carry (none :: some p :: os) = [skFlag] ++ (carry [some p] ++ carry os) := by
          rw [← carry_append]
          rfl
        rw [hcons, hos, frame_eq_carry, hcarry]
        rfl
      · rw [List.reduceOption_cons_of_none, List.reduceOption_cons_of_some, hred]

/-- A stream that broke off inside a frame, if not between frames: its first FLAG is its only
one. -/
def Torn (t : List UInt8) : Prop := t = [] ∨ ∃ s, t = skFlag :: s ∧ skFlag ∉ s

/-- A proper prefix of a frame is torn. -/
theorem torn_of_prefix {t v : List UInt8} (p : Payload) (h : t ++ v = frame p.bytes)
    (hv : v ≠ []) : Torn t := by
  cases t with
  | nil => exact Or.inl rfl
  | cons b s =>
      obtain ⟨rfl, hsv⟩ : b = skFlag ∧ s ++ v = segment (some p) ++ [skFlag] := by
        simpa [frame, segment] using h
      refine Or.inr ⟨s, rfl, ?_⟩
      intro hs
      -- only the last byte of what follows the opening FLAG is one
      obtain ⟨v', c, rfl⟩ := List.eq_nil_or_concat v |>.resolve_left hv
      rw [List.concat_eq_append, ← List.append_assoc] at hsv
      obtain ⟨hseg, -⟩ := List.append_inj' hsv rfl
      exact flag_not_mem_segment (some p) (hseg ▸ List.mem_append_left _ hs)

/-- **Frames one after another, from a fresh decoder**: behind what holds no FLAG, and torn off at
the end or not, they report their payloads in order, and nothing else. -/
theorem fresh_frames (st : SkDecoder) {out : Slice UInt8} (ho : Roomy out) {g t : List UInt8}
    (hg : skFlag ∉ g) (ht : Torn t) (ps : List Payload) :
    ∃ r, feedAll (skDecoderInit (some st)) out (g ++ (frames ps ++ t)) = .ok r ∧
      reports r.calls = ps.map Payload.report := by
  -- a run without any FLAG is silent; else the first FLAG opens the stream of segments
  cases ps with
  | nil =>
      rcases ht with rfl | ⟨s, rfl, hs⟩
      · have h := @feedAll_hunting
          { st with inFrame := 0, esc := 0, overflow := 0, count := 0 } rfl out g hg
        rw [List.append_nil, frames, List.flatMap_nil, List.append_nil]
        exact ⟨_, h, reports_more g.length out⟩
      · exact fresh_carry st ho hg hs []
  | cons p ps =>
      obtain ⟨os, hos, hred⟩ := frames_eq_carry ps
      have hcons : frames (p :: ps) = skFlag :: carry (some p :: os) := by
        have hcarry : carry (some p :: os) = carry [some p] ++ carry os := by
          rw [← carry_append]
          rfl
        rw [hcarry, ← hos, ← List.cons_append, ← frame_eq_carry]
        rfl
      rcases ht with rfl | ⟨s, rfl, hs⟩
      · obtain ⟨r, hr, hrep⟩ := fresh_carry st ho hg (s := []) (by simp) (some p :: os)
        refine ⟨r, ?_, by rw [hrep, List.reduceOption_cons_of_some, hred]⟩
        rw [hcons]
        simpa using hr
      · obtain ⟨r, hr, hrep⟩ := fresh_carry st ho hg hs (some p :: os ++ [none])
        refine ⟨r, ?_, ?_⟩
        · rw [hcons]
          rw [carry_append] at hr
          simpa [carry, segment] using hr
        · rw [hrep, List.cons_append, List.reduceOption_cons_of_some, List.reduceOption_append,
            List.reduceOption_cons_of_none, List.reduceOption_nil, List.append_nil, hred]

/-- **Stream round trip and resynchronisation.**  From any state of the decoder, between any
bytes, a frame is silent inside and delivers its payload at its last byte; and any joining of
frames, from a fresh decoder, reports exactly their payloads, in order. -/
theorem stream_round_trip (st : SkDecoder) (out : List UInt8) (ho : skPayloadMax ≤ out.length) :
    (∀ (u v : List UInt8) (p : Payload),
      ∃ (r : Fed) (cu ci : List Call) (cl : Call) (cv : List Call),
        feedAll (some st) (.mem out) (u ++ skFrame p.bytes ++ v) = .ok r ∧
        r.calls = cu ++ ci ++ [cl] ++ cv ∧ cu.length = u.length + 1 ∧
        ci.length = (skFrame p.bytes).length - 2 ∧ (∀ c ∈ ci, c.ret = skDecMore) ∧
        cl.ret = (p.bytes.length : Int) ∧ cl.payload = p.bytes) ∧
    ∀ ps : List (Joint × Payload),
      ∃ r, feedAll (skDecoderInit (some st)) (.mem out) (joinFrames ps) = .ok r ∧
        reports r.calls = ps.map fun jp => ((jp.2.bytes.length : Int), jp.2.bytes) :=
  ⟨fun u v p => frame_delivered st u v p (.of_mem ho),
    fun ps => frames_delivered st ps (.of_mem ho)⟩

/-- Payloads of six and of eight bytes that share a FLAG, into a buffer of sixteen bytes. -/
theorem stream_round_trip_two :
    skPayloadMax ≤ (List.replicate 16 (0 : UInt8)).length ∧
      ∃ r, feedAll (skDecoderInit (some ⟨1, 1, 1, 99, Vector.replicate skFrameInner 0x7E⟩))
          (.mem (List.replicate 16 0))
          (joinFrames [(.share, ⟨[1, 2, 0x7E, 0x7D, 0, 0], by decide, by decide⟩),
            (.share, ⟨[1, 3, 0, 0, 0, 0, 0, 0x7E], by decide, by decide⟩)]) = .ok r ∧
        reports r.calls = [(6, [1, 2, 0x7E, 0x7D, 0, 0]), (8, [1, 3, 0, 0, 0, 0, 0, 0x7E])] :=
  ⟨by decide, (stream_round_trip _ _ (by decide)).2 _⟩

end Sharak
