import Sharak.Protocol.RoundTrip
import Sharak.Support.Blocks

/-!
# Protocol — windows and damage

A receiver that listens for some time sees a window of the stream.  A fresh decoder fed any window
of frames one after another delivers the payloads of the frames that lie wholly inside it, and
reports nothing else, no error either (`window_delivered`).  Bytes that are not frames at all, put
anywhere between frames, cost no frame on either side, and at most one result a FLAG
(`damage_contained`).
-/

namespace Sharak
open Memory

/-! ### Tails and heads of frames -/

theorem frame_ne_nil (p : List UInt8) : frame p ≠ [] := List.cons_ne_nil _ _

/-- The tail of a frame behind its opening FLAG has the closing one at its end. -/
theorem tail_frame {s t : List UInt8} (p : Payload) (h : frame p.bytes = s ++ t) (hs : s ≠ []) :
    t = [] ∨ ∃ g, t = g ++ [skFlag] ∧ skFlag ∉ g := by
  obtain ⟨b, s', rfl⟩ := List.exists_cons_of_ne_nil hs
  obtain ⟨-, hst⟩ : skFlag = b ∧ segment (some p) ++ [skFlag] = s' ++ t := by
    simpa [frame, segment] using h
  rcases List.eq_nil_or_concat t with rfl | ⟨g, c, rfl⟩
  · exact Or.inl rfl
  · rw [List.concat_eq_append, ← List.append_assoc] at hst
    obtain ⟨hseg, hc⟩ := List.append_inj' hst rfl
    refine Or.inr ⟨g, by rw [List.concat_eq_append, ← hc], ?_⟩
    intro hg
    exact flag_not_mem_segment (some p) (hseg ▸ List.mem_append_right _ hg)

theorem torn_of_head {s : List UInt8} (h : Blocks.Head (fun p : Payload => frame p.bytes) s) :
    Torn s := by
  rcases h with rfl | ⟨p, t, hp, ht⟩
  · exact Or.inl rfl
  · exact torn_of_prefix p hp.symm ht

/-- **Frames behind the tail of one**, from a fresh decoder. -/
theorem fresh_tail_frames (st : SkDecoder) {out : Slice UInt8} (ho : Roomy out) {g t : List UInt8}
    (hg : skFlag ∉ g) (ht : Torn t) (ps : List Payload) :
    ∃ r, feedAll (skDecoderInit (some st)) out (g ++ [skFlag] ++ (frames ps ++ t)) = .ok r ∧
      reports r.calls = ps.map Payload.report := by
  obtain ⟨os, hos, hred⟩ := frames_eq_carry ps
  rcases ht with rfl | ⟨s, rfl, hs⟩
  · obtain ⟨r, hr, hrep⟩ := fresh_carry st ho hg (s := []) (by simp) os
    refine ⟨r, ?_, by rw [hrep, hred]⟩
    rw [hos]
    simpa using hr
  -- the opening FLAG of the torn frame closes an empty segment
  · obtain ⟨r, hr, hrep⟩ := fresh_carry st ho hg hs (os ++ [none])
    refine ⟨r, ?_, ?_⟩
    · rw [carry_append] at hr
      rw [hos]
      simpa [carry, segment] using hr
    · rw [hrep, List.reduceOption_append, List.reduceOption_cons_of_none, List.reduceOption_nil,
        List.append_nil, hred]

/-- Bytes without a FLAG are silent. -/
theorem fresh_silent (st : SkDecoder) {out : Slice UInt8} (ho : Roomy out) {g : List UInt8}
    (hg : skFlag ∉ g) :
    ∃ r, feedAll (skDecoderInit (some st)) out g = .ok r ∧ reports r.calls = [] := by
  obtain ⟨r, hr, hrep⟩ := fresh_frames st ho hg (Or.inl rfl) []
  refine ⟨r, ?_, hrep⟩
  simpa [frames] using hr

/-! ### Windows -/

/-- A window on frames: a fresh decoder reports the whole ones in it. -/
theorem window_frames (st : SkDecoder) {out : Slice UInt8} (ho : Roomy out) {ps : List Payload}
    {u w v : List UInt8} (h : frames ps = u ++ (w ++ v)) :
    ∃ r as bs cs, ps = as ++ (bs ++ cs) ∧
      feedAll (skDecoderInit (some st)) out w = .ok r ∧ reports r.calls = bs.map Payload.report ∧
      ∀ i < ps.length, as.length ≤ i ∧ i < as.length + bs.length ↔
        u.length ≤ (frames (ps.take i)).length ∧
          (frames (ps.take (i + 1))).length ≤ u.length + w.length := by
  obtain ⟨as, bs, cs, hps, hwhole, hw⟩ := Blocks.window (f := fun p : Payload => frame p.bytes)
    (fun p => frame_ne_nil p.bytes) h
  have hframes : bs.flatMap (fun p => frame p.bytes) = frames bs := rfl
  have hiff := fun i hi => (hwhole i hi).symm
  rcases hw with ⟨t, s, hw, ht, hs⟩ | ⟨rfl, p, s, t, hp, hs⟩
  · have htorn := torn_of_head hs
    have hg : t = [] ∨ ∃ g, t = g ++ [skFlag] ∧ skFlag ∉ g := by
      rcases ht with rfl | ⟨p, s₀, hp, hs₀⟩
      · exact Or.inl rfl
      · exact tail_frame p hp hs₀
    rcases hg with rfl | ⟨g, rfl, hg⟩
    · obtain ⟨r, hr, hrep⟩ := fresh_frames st ho (g := []) (by simp) htorn bs
      exact ⟨r, as, bs, cs, hps, by rw [hw, hframes]; exact hr, hrep, hiff⟩
    · obtain ⟨r, hr, hrep⟩ := fresh_tail_frames st ho hg htorn bs
      exact ⟨r, as, bs, cs, hps, by rw [hw, hframes]; exact hr, hrep, hiff⟩
  -- the window is inside the frame of `p`, behind its opening FLAG
  · rcases tail_frame p hp hs with hnil | ⟨g, hg, hflag⟩
    · obtain ⟨rfl, rfl⟩ := List.append_eq_nil_iff.mp hnil
      exact ⟨⟨[], _, out⟩, as, [], cs, hps, rfl, rfl, hiff⟩
    · rcases List.eq_nil_or_concat t with rfl | ⟨t', c, rfl⟩
      · rw [List.append_nil] at hg
        obtain ⟨r, hr, hrep⟩ := fresh_tail_frames st ho hflag (Or.inl rfl) []
        refine ⟨r, as, [], cs, hps, ?_, hrep, hiff⟩
        rw [hg]
        simpa [frames] using hr
      · rw [List.concat_eq_append, ← List.append_assoc] at hg
        obtain ⟨hwg, -⟩ := List.append_inj' hg rfl
        obtain ⟨r, hr, hrep⟩ := fresh_silent st ho (g := w)
          (fun hmem => hflag (hwg ▸ List.mem_append_left _ hmem))
        exact ⟨r, as, [], cs, hps, hr, hrep, hiff⟩

/-- The same, with something that holds no FLAG in front of the first frame. -/
theorem window_stream (st : SkDecoder) {out : Slice UInt8} (ho : Roomy out) {ps : List Payload}
    {g u w v : List UInt8} (hg : skFlag ∉ g) (h : g ++ frames ps = u ++ (w ++ v)) :
    ∃ r as bs cs, ps = as ++ (bs ++ cs) ∧
      feedAll (skDecoderInit (some st)) out w = .ok r ∧ reports r.calls = bs.map Payload.report ∧
      ∀ i < ps.length, as.length ≤ i ∧ i < as.length + bs.length ↔
        u.length ≤ g.length + (frames (ps.take i)).length ∧
          g.length + (frames (ps.take (i + 1))).length ≤ u.length + w.length := by
  rcases List.append_eq_append_iff.mp h with ⟨u', rfl, hu⟩ | ⟨g', rfl, hg'⟩
  -- the window begins in front of the first frame
  · obtain ⟨r, as, bs, cs, hps, hr, hrep, hiff⟩ := window_frames st ho hu
    refine ⟨r, as, bs, cs, hps, hr, hrep, ?_⟩
    intro i hi
    rw [hiff i hi, List.length_append]
    omega
  · rw [List.mem_append, not_or] at hg
    rcases List.append_eq_append_iff.mp hg' with ⟨t, rfl, rfl⟩ | ⟨w', rfl, hw⟩
    -- and ends there
    · rw [List.mem_append, not_or] at hg
      obtain ⟨r, hr, hrep⟩ := fresh_silent st ho hg.2.1
      refine ⟨r, [], [], ps, rfl, hr, hrep, ?_⟩
      intro i hi
      have hlt := Blocks.start_succ_lt (f := fun p : Payload => frame p.bytes)
        (fun p => frame_ne_nil p.bytes) hi
      refine iff_of_false (by rw [List.length_nil]; omega) ?_
      rintro ⟨-, hend⟩
      rw [List.length_append, List.length_append] at hend
      change (frames (ps.take i)).length < (frames (ps.take (i + 1))).length at hlt
      omega
    · obtain ⟨bs, cs, s, hps, rfl, hs, hle, hlt⟩ := Blocks.front
        (f := fun p : Payload => frame p.bytes) (fun p => frame_ne_nil p.bytes) hw
      obtain ⟨r, hr, hrep⟩ := fresh_frames st ho hg.2 (torn_of_head hs) bs
      refine ⟨r, [], bs, cs, hps, hr, hrep, ?_⟩
      intro i hi
      have hends := Blocks.ends_iff hle hlt hi
      change (frames (ps.take (i + 1))).length ≤ _ ↔ _ at hends
      simp only [List.length_append, List.length_nil] at hends ⊢
      omega

theorem frames_eq_skFrames (ps : List Payload) :
    frames ps = ps.flatMap fun p => skFrame p.bytes := by
  simp only [skFrame_eq]
  rfl

/-- **A window on a stream.**  A fresh decoder fed any window `w` of a stream of frames, behind
bytes `g` that hold no FLAG, reports the payloads of the frames that lie wholly inside the window,
in order, and nothing else. -/
theorem window_delivered (st : SkDecoder) (out : List UInt8) (ho : skPayloadMax ≤ out.length)
    (ps : List Payload) (g u w v : List UInt8) (hg : skFlag ∉ g)
    (h : g ++ ps.flatMap (fun p => skFrame p.bytes) = u ++ (w ++ v)) :
    ∃ r as bs cs, ps = as ++ (bs ++ cs) ∧
      feedAll (skDecoderInit (some st)) (.mem out) w = .ok r ∧
      reports r.calls = bs.map (fun p => ((p.bytes.length : Int), p.bytes)) ∧
      ∀ i < ps.length, as.length ≤ i ∧ i < as.length + bs.length ↔
        u.length ≤ g.length + ((ps.take i).flatMap fun p => skFrame p.bytes).length ∧
          g.length + ((ps.take (i + 1)).flatMap fun p => skFrame p.bytes).length ≤
            u.length + w.length := by
  simp only [← frames_eq_skFrames] at h ⊢
  exact window_stream st (.of_mem ho) hg h

/-- Three frames behind a line of text. -/
def threePayloads : List Payload :=
  [⟨[1, 2, 0x7E, 0x7D, 0, 0], by decide, by decide⟩,
    ⟨[1, 3, 0, 0, 0, 0, 0, 0x7E], by decide, by decide⟩,
    ⟨[1, 2, 3, 4, 5, 6, 7], by decide, by decide⟩]

def threeFrames : List UInt8 :=
  [0x48, 0x69, 0x0A] ++ threePayloads.flatMap fun p => skFrame p.bytes

/-- The window of thirty bytes behind the first six: the second frame is in it, and the others are
not, or in part. -/
theorem window_delivered_thirty :
    skFlag ∉ [0x48, 0x69, 0x0A] ∧
      threeFrames = threeFrames.take 6 ++ ((threeFrames.drop 6).take 30 ++
        (threeFrames.drop 6).drop 30) ∧
      ∃ r, feedAll (skDecoderInit (some ⟨1, 1, 1, 99, Vector.replicate skFrameInner 0x7E⟩))
          (.mem (List.replicate 16 0)) ((threeFrames.drop 6).take 30) = .ok r ∧
        reports r.calls = [(8, [1, 3, 0, 0, 0, 0, 0, 0x7E])] := by
  have hcut : threeFrames = threeFrames.take 6 ++ ((threeFrames.drop 6).take 30 ++
      (threeFrames.drop 6).drop 30) := by
    rw [List.take_append_drop 30, List.take_append_drop]
  obtain ⟨r, as, bs, cs, hsplit, hr, hrep, hiff⟩ := window_delivered
    ⟨1, 1, 1, 99, Vector.replicate skFrameInner 0x7E⟩ (List.replicate 16 0) (by decide)
    threePayloads [0x48, 0x69, 0x0A] _ _ _ (by decide) hcut
  have hfirst := mt (hiff 0 (by decide)).mp (by decide +kernel)
  have hsecond := (hiff 1 (by decide)).mpr (by decide +kernel)
  have hthird := mt (hiff 2 (by decide)).mp (by decide +kernel)
  obtain ⟨a, rfl⟩ := List.length_eq_one_iff.mp (show as.length = 1 by omega)
  obtain ⟨b, rfl⟩ := List.length_eq_one_iff.mp (show bs.length = 1 by omega)
  cases hsplit
  exact ⟨by decide, hcut, r, hr, hrep⟩

/-! ### Damage -/

/-- A run has no more results than FLAGs. -/
theorem reports_le_flags {bs : List UInt8} {cs : List Call} (hl : cs.length = bs.length)
    (hz : ∀ p ∈ bs.zip cs, p.1 ≠ skFlag → p.2.ret = 0) :
    (reports cs).length ≤ bs.count skFlag := by
  induction bs generalizing cs with
  | nil =>
      obtain rfl := List.length_eq_zero_iff.mp hl
      exact Nat.le_refl 0
  | cons b bs ih =>
      obtain ⟨c, cs, rfl⟩ := List.exists_cons_of_length_eq_add_one hl
      have hrest := @ih cs (by simpa using hl) (fun p hp => hz p (List.mem_cons_of_mem _ hp))
      have hsplit : reports (c :: cs) = reports [c] ++ reports cs := reports_append [c] cs
      have hone : (reports [c]).length ≤ 1 := by
        rw [reports, List.length_map]
        exact List.length_filter_le _ _
      rw [hsplit, List.length_append, List.count_cons]
      by_cases hb : b = skFlag
      · rw [hb, if_pos (by decide)]
        omega
      · have hc : c.ret = 0 := hz (b, c) (List.mem_cons_self) hb
        have hnone : reports [c] = [] := by
          simp [reports, hc]
        rw [hnone, List.length_nil]
        omega

/-- **Frames from any state**: their payloads, behind at most one result at the first FLAG. -/
theorem frames_any (st : SkDecoder) {out : Slice UInt8} (ho : Roomy out) (ps : List Payload) :
    ∃ cs st' out' extra, feedAll (some st) out (frames ps) = .ok ⟨cs, some st', out'⟩ ∧
      Roomy out' ∧ extra.length ≤ 1 ∧ reports cs = extra ++ ps.map Payload.report := by
  cases ps with
  | nil => exact ⟨[], st, out, [], rfl, ho, Nat.zero_le 1, rfl⟩
  | cons p ps =>
      obtain ⟨os, hos, hred⟩ := frames_eq_carry ps
      have hcons : frames (p :: ps) = skFlag :: carry (some p :: os) := by
        have hcarry : carry (some p :: os) = carry [some p] ++ carry os := by
          rw [← carry_append]
          rfl
        rw [hcarry, ← hos, ← List.cons_append, ← frame_eq_carry]
        rfl
      obtain ⟨w, hw, -⟩ := feed_flag_any st out
      obtain ⟨cs, st', out', hcs, -, ho', hrep⟩ := feedAll_carry (collects_restart st)
        (ho.of_sameShape (sameShape_deliver w out)) (some p :: os)
      refine ⟨⟨judge w out, deliver w out⟩ :: cs, st', out', reports [⟨judge w out, deliver w out⟩],
        ?_, ho', ?_, ?_⟩
      · rw [hcons]
        exact feedAll_cons hw hcs
      · rw [reports, List.length_map]
        exact List.length_filter_le _ _
      · rw [List.reduceOption_cons_of_some, hred] at hrep
        rw [← hrep]
        exact reports_append [_] cs

/-- Damage, and the frames behind it. -/
abbrev Section := List UInt8 × List Payload

/-- The bytes on the wire. -/
def Section.bytes (s : Section) : List UInt8 := s.1 ++ s.2.flatMap fun p => skFrame p.bytes

/-- One stretch of damage. -/
theorem section_any (st : SkDecoder) {out : Slice UInt8} (ho : Roomy out) (s : Section) :
    ∃ cs st' out' extra, feedAll (some st) out s.bytes = .ok ⟨cs, some st', out'⟩ ∧ Roomy out' ∧
      extra.length ≤ s.1.count skFlag + 1 ∧ reports cs = extra ++ s.2.map Payload.report := by
  obtain ⟨cs₁, st₁, out₁, h₁, hl, hs, hz⟩ := feedAll_any st out s.1
  obtain ⟨cs₂, st₂, out₂, extra, h₂, ho₂, hle, hrep⟩ := frames_any st₁ (ho.of_sameShape hs) s.2
  have hflags := reports_le_flags hl hz
  refine ⟨cs₁ ++ cs₂, st₂, out₂, reports cs₁ ++ extra, ?_, ho₂, ?_, ?_⟩
  · rw [Section.bytes, ← frames_eq_skFrames]
    exact feedAll_append h₁ h₂
  · rw [List.length_append]
    omega
  · rw [reports_append, hrep, List.append_assoc]

theorem sections_any (st : SkDecoder) {out : Slice UInt8} (ho : Roomy out)
    (sections : List Section) :
    ∃ (r : Fed) (extras : List (List (Int × List UInt8))),
      feedAll (some st) out (sections.flatMap Section.bytes) = .ok r ∧
      List.Forall₂ (fun s e => e.length ≤ s.1.count skFlag + 1) sections extras ∧
      reports r.calls =
        (List.zipWith (fun s e => e ++ s.2.map Payload.report) sections extras).flatten := by
  induction sections generalizing st out with
  | nil => exact ⟨⟨[], some st, out⟩, [], rfl, .nil, rfl⟩
  | cons s sections ih =>
      obtain ⟨cs, st', out', extra, h, ho', hle, hrep⟩ := section_any st ho s
      obtain ⟨r, extras, hr, hall, hreps⟩ := ih st' ho'
      refine ⟨⟨cs ++ r.calls, r.st, r.out⟩, extra :: extras, feedAll_append h hr, .cons hle hall, ?_⟩
      rw [reports_append, hrep, hreps]
      rfl

/-- **Damage is contained.**  From any state of the decoder, through any number of stretches of
damage, of any bytes, with frames behind each: every one of these frames is delivered, in order, and
a stretch adds at most one result a FLAG, and one more, in front of them. -/
theorem damage_contained (st : SkDecoder) (out : List UInt8) (ho : skPayloadMax ≤ out.length)
    (sections : List Section) :
    ∃ (r : Fed) (extras : List (List (Int × List UInt8))),
      feedAll (some st) (.mem out) (sections.flatMap Section.bytes) = .ok r ∧
      List.Forall₂ (fun s e => e.length ≤ s.1.count skFlag + 1) sections extras ∧
      reports r.calls = (List.zipWith
        (fun s e => e ++ s.2.map fun p => ((p.bytes.length : Int), p.bytes))
        sections extras).flatten :=
  sections_any st (.of_mem ho) sections

/-- Half a frame, then two frames, then a stray FLAG and a frame, to a decoder in an impossible
state. -/
theorem damage_contained_twice :
    skPayloadMax ≤ (List.replicate 16 (0 : UInt8)).length ∧
      ∃ (r : Fed) (extra extra' : List (Int × List UInt8)),
        feedAll (some ⟨7, 9, 1, 60000, Vector.replicate skFrameInner 0x7E⟩)
          (.mem (List.replicate 16 0))
          (List.flatMap Section.bytes [(threeFrames.take 9, threePayloads.take 2),
            ([0x7D, 0x7E, 0x13], threePayloads.drop 2)]) = .ok r ∧
        extra.length ≤ 2 ∧ extra'.length ≤ 2 ∧
        reports r.calls = (extra ++ [(6, [1, 2, 0x7E, 0x7D, 0, 0]),
            (8, [1, 3, 0, 0, 0, 0, 0, 0x7E])]) ++
          (extra' ++ [(7, [1, 2, 3, 4, 5, 6, 7])]) := by
  obtain ⟨r, extras, hr, hall, hrep⟩ := damage_contained
    ⟨7, 9, 1, 60000, Vector.replicate skFrameInner 0x7E⟩ (List.replicate 16 0) (by decide)
    [(threeFrames.take 9, threePayloads.take 2), ([0x7D, 0x7E, 0x13], threePayloads.drop 2)]
  have hflags : (threeFrames.take 9).count skFlag = 1 := by decide +kernel
  cases hall with
  | @cons _ extra _ _ h₁ hall =>
      cases hall with
      | @cons _ extra' _ _ h₂ hall =>
          cases hall
          rw [hflags] at h₁
          refine ⟨by decide, r, extra, extra', hr, h₁, h₂, ?_⟩
          rw [hrep, List.zipWith_cons_cons, List.zipWith_cons_cons, List.zipWith_nil_left,
            List.flatten_cons, List.flatten_cons, List.flatten_nil, List.append_nil]
          rfl

end Sharak
