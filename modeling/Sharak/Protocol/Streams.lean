import Mathlib.Data.List.ReduceOption
import Sharak.Protocol.Decode

/-!
# Protocol — streams through the decoder

`feedAll` on a concatenation is `feedAll` on the parts (`feedAll_append`).  The FLAGs of a stream
cut it into segments; a segment behind a FLAG is silent (`feedAll_silent`), and the FLAG that
closes it gives the batch verdict on it (`feedAll_segment`).

* `feed_refines_batch`: between any two consecutive FLAGs, from any state of the decoder, the
  result is the batch verdict on the bytes between them.
* `feedAll_carry`: a stream of FLAG-separated segments, each empty or the stuffed body of a
  payload, delivers those payloads in order and nothing else.
-/

namespace Sharak
open Memory

/-! ### Composing runs -/

theorem feedAll_cons {st st' : SkDecoder} {out out' : Slice UInt8} {b : UInt8} {n : Int}
    {bs : List UInt8} {r : Fed} (h : st.feed b out = .ok (n, st', out'))
    (hr : feedAll (some st') out' bs = .ok r) :
    feedAll (some st) out (b :: bs) = .ok { r with calls := ⟨n, out'⟩ :: r.calls } := by
  simp only [feedAll, skDecoderFeed, h, ok_bind, pure_ok, hr]

theorem feedAll_one {st st' : SkDecoder} {out out' : Slice UInt8} {b : UInt8} {n : Int}
    (h : st.feed b out = .ok (n, st', out')) :
    feedAll (some st) out [b] = .ok ⟨[⟨n, out'⟩], some st', out'⟩ :=
  @feedAll_cons st st' out out' b n [] ⟨[], some st', out'⟩ h rfl

theorem feedAll_append {st : Option SkDecoder} {out : Slice UInt8} {a b : List UInt8}
    {r r' : Fed} (h : feedAll st out a = .ok r) (h' : feedAll r.st r.out b = .ok r') :
    feedAll st out (a ++ b) = .ok ⟨r.calls ++ r'.calls, r'.st, r'.out⟩ := by
  induction a generalizing st out r with
  | nil =>
      obtain rfl : ⟨[], st, out⟩ = r := Except.ok.inj h
      simpa using h'
  | cons x a ih =>
      rw [feedAll] at h
      cases hx : skDecoderFeed st x out with
      | error e => rw [hx] at h; cases h
      | ok y =>
          obtain ⟨n, st₁, out₁⟩ := y
          rw [hx, ok_bind] at h
          cases hr : feedAll st₁ out₁ a with
          | error e => simp only [hr, error_bind] at h; cases h
          | ok r₁ =>
              simp only [hr, ok_bind, pure_ok, Except.ok.injEq] at h
              subst h
              rw [List.cons_append, feedAll, hx, ok_bind]
              simp only [ih hr h', ok_bind, pure_ok, List.cons_append]

/-- The buffers a run passes between calls keep their nullness and size. -/
def SameShape (out out' : Slice UInt8) : Prop :=
  out'.isNull = out.isNull ∧ out'.size = out.size

theorem SameShape.refl (out : Slice UInt8) : SameShape out out := ⟨rfl, rfl⟩

theorem SameShape.trans {a b c : Slice UInt8} (h₁ : SameShape a b) (h₂ : SameShape b c) :
    SameShape a c := ⟨h₂.1.trans h₁.1, h₂.2.trans h₁.2⟩

theorem sameShape_deliver (w : List UInt8) (out : Slice UInt8) : SameShape out (deliver w out) :=
  ⟨isNull_deliver w out, size_deliver w out⟩

/-! ### Any stream, from any state -/

/-- One call, from any state: only a FLAG has a result, and the buffer keeps its shape. -/
theorem feed_any (st : SkDecoder) (b : UInt8) (out : Slice UInt8) :
    ∃ n st' out', st.feed b out = .ok (n, st', out') ∧ SameShape out out' ∧
      (b ≠ skFlag → n = 0) ∧ (b = skFlag → st' = st.restart) := by
  by_cases hb : b = skFlag
  · obtain ⟨w, hw, -⟩ := feed_flag_any st out
    exact ⟨_, _, _, hb ▸ hw, sameShape_deliver w out, fun h => absurd hb h, fun _ => rfl⟩
  · exact ⟨_, _, _, feed_other_cases st hb out, .refl out, fun _ => rfl, fun h => absurd h hb⟩

/-- A run from any state: it never faults, makes one call a byte, and bytes other than FLAG have
no result. -/
theorem feedAll_any (st : SkDecoder) (out : Slice UInt8) (bs : List UInt8) :
    ∃ cs st' out', feedAll (some st) out bs = .ok ⟨cs, some st', out'⟩ ∧
      cs.length = bs.length ∧ SameShape out out' ∧
      ∀ p ∈ bs.zip cs, p.1 ≠ skFlag → p.2.ret = 0 := by
  induction bs generalizing st out with
  | nil => exact ⟨[], st, out, rfl, rfl, .refl out, by simp⟩
  | cons b bs ih =>
      obtain ⟨n, st₁, out₁, h₁, hs₁, hn, -⟩ := feed_any st b out
      obtain ⟨cs, st₂, out₂, h₂, hl, hs₂, hz⟩ := ih st₁ out₁
      refine ⟨⟨n, out₁⟩ :: cs, st₂, out₂, feedAll_cons h₁ h₂, by simp [hl], hs₁.trans hs₂, ?_⟩
      intro p hp hb
      rcases List.mem_cons.mp hp with rfl | hp
      · exact hn hb
      · exact hz p hp hb

/-- A run that ends in a FLAG leaves a decoder that starts a frame. -/
theorem feedAll_to_flag (st : SkDecoder) (out : Slice UInt8) (u : List UInt8) :
    ∃ cs st' out', feedAll (some st) out (u ++ [skFlag]) = .ok ⟨cs, some st', out'⟩ ∧
      cs.length = u.length + 1 ∧ SameShape out out' ∧ Collects st' [] := by
  obtain ⟨cs, st₁, out₁, h₁, hl, hs₁, -⟩ := feedAll_any st out u
  obtain ⟨w, hw, -⟩ := feed_flag_any st₁ out₁
  refine ⟨_, _, _, feedAll_append h₁ (feedAll_one hw), by simp [hl],
    hs₁.trans (sameShape_deliver w out₁), collects_restart st₁⟩

/-! ### Segments -/

/-- A call that consumes a byte without a result. -/
def Call.more (out : Slice UInt8) : Call := ⟨skDecMore, out⟩

/-- Bytes behind a FLAG, none of them FLAG, are silent and are collected. -/
theorem feedAll_silent {st : SkDecoder} {t : List UInt8} (h : Collects st t) (out : Slice UInt8)
    {s : List UInt8} (hs : skFlag ∉ s) :
    ∃ st', feedAll (some st) out s = .ok ⟨List.replicate s.length (.more out), some st', out⟩ ∧
      Collects st' (t ++ s) := by
  induction s generalizing st t with
  | nil => exact ⟨st, rfl, by simpa using h⟩
  | cons b s ih =>
      rw [List.mem_cons, not_or] at hs
      obtain ⟨st₁, h₁, hc₁⟩ := feed_other h (Ne.symm hs.1) out
      obtain ⟨st₂, h₂, hc₂⟩ := ih hc₁ hs.2
      exact ⟨st₂, feedAll_cons h₁ h₂, by simpa using hc₂⟩

/-- The call at the FLAG that closes `s`. -/
def Call.close (s : List UInt8) (out : Slice UInt8) : Call :=
  ⟨judge (wire.unstuff s) out, deliver (wire.unstuff s) out⟩

/-- **A segment and its closing FLAG**, behind a FLAG. -/
theorem feedAll_segment {st : SkDecoder} (h : Collects st []) (out : Slice UInt8)
    {s : List UInt8} (hs : skFlag ∉ s) :
    ∃ st', feedAll (some st) out (s ++ [skFlag]) =
        .ok ⟨List.replicate s.length (.more out) ++ [.close s out], some st',
          (Call.close s out).out⟩ ∧ Collects st' [] := by
  obtain ⟨st₁, h₁, hc₁⟩ := feedAll_silent h out hs
  exact ⟨_, feedAll_append h₁ (feedAll_one (feed_flag hc₁ out)), collects_restart st₁⟩

/-- The run on `u`, a FLAG, a segment `s`, a FLAG, and `v`: the calls at `s` are silent, the one
that closes it gives the verdict on it, at a buffer of the caller's shape. -/
theorem feedAll_between (st : SkDecoder) (out : Slice UInt8) (u v : List UInt8)
    {s : List UInt8} (hs : skFlag ∉ s) :
    ∃ r out₁ cu cv, feedAll (some st) out ((u ++ [skFlag]) ++ ((s ++ [skFlag]) ++ v)) = .ok r ∧
      SameShape out out₁ ∧ cu.length = u.length + 1 ∧
      r.calls = cu ++ (List.replicate s.length (.more out₁) ++ [.close s out₁] ++ cv) := by
  obtain ⟨cu, st₁, out₁, h₁, hl, hs₁, hc₁⟩ := feedAll_to_flag st out u
  obtain ⟨st₂, h₂, -⟩ := feedAll_segment hc₁ out₁ hs
  obtain ⟨cv, st₃, out₃, h₃, -⟩ := feedAll_any st₂ (Call.close s out₁).out v
  exact ⟨_, out₁, cu, cv, feedAll_append h₁ (feedAll_append h₂ h₃), hs₁, hl, rfl⟩

/-- **The decoder refines the batch verdict.**  Fed any stream from any state, a byte other than
FLAG returns `0`; at a FLAG, the bytes `s` since the previous one decide the result, with the
nullness and size of `out`: it is the verdict on what `s` unstuffs to, and a positive result
delivers that body without its CRC. -/
theorem feed_refines_batch (st : SkDecoder) (out : Slice UInt8) (bs : List UInt8) :
    ∃ r, feedAll (some st) out bs = .ok r ∧ r.calls.length = bs.length ∧
      (∀ p ∈ bs.zip r.calls, p.1 ≠ skFlag → p.2.ret = 0) ∧
      ∀ u s v, bs = (u ++ [skFlag]) ++ ((s ++ [skFlag]) ++ v) → skFlag ∉ s →
        ∃ c, r.calls[u.length + 1 + s.length]? = some c ∧
          c.ret = judge (wire.unstuff s) out ∧
          (0 < c.ret → c.payload = payloadOf (wire.unstuff s)) := by
  obtain ⟨cs, st', out', h, hl, -, hz⟩ := feedAll_any st out bs
  refine ⟨_, h, hl, hz, ?_⟩
  rintro u s v rfl hs
  obtain ⟨r, out₁, cu, cv, hr, hsh, hcu, hcalls⟩ := feedAll_between st out u v hs
  obtain rfl : _ = r := Except.ok.inj (h.symm.trans hr)
  have hj : (Call.close s out₁).ret = judge (wire.unstuff s) out := judge_congr hsh.1 hsh.2
  refine ⟨.close s out₁, ?_, hj, ?_⟩
  · have hcs : cs = cu ++ (List.replicate s.length (.more out₁) ++ [.close s out₁] ++ cv) := hcalls
    rw [← hcu]
    change cs[cu.length + s.length]? = _
    rw [hcs, List.getElem?_append_right (by omega)]
    simp
  · intro hp
    have hp' : 0 < judge (wire.unstuff s) out₁ := hp
    rw [← payload_deliver (judge_pos_iff.mp hp'), ← judge_of_pos hp']
    rfl

/-! ### Streams of payloads -/

/-- What a run reports: the non-zero results in order, each with the payload in the buffer. -/
def reports (cs : List Call) : List (Int × List UInt8) :=
  (cs.filter fun c => c.ret ≠ 0).map fun c => (c.ret, c.payload)

/-- The report of a delivered payload. -/
def Payload.report (p : Payload) : Int × List UInt8 := ((p.bytes.length : Int), p.bytes)

theorem reports_append (cs ds : List Call) : reports (cs ++ ds) = reports cs ++ reports ds := by
  simp [reports]

theorem reports_more (n : Nat) (out : Slice UInt8) :
    reports (List.replicate n (.more out)) = [] := by
  simp [reports, Call.more, skDecMore]

/-- A buffer that takes every payload. -/
structure Roomy (out : Slice UInt8) : Prop where
  notNull : out.isNull = false
  le_size : skPayloadMax ≤ out.size

theorem Roomy.of_mem {cs : List UInt8} (h : skPayloadMax ≤ cs.length) : Roomy (.mem cs) := ⟨rfl, h⟩

theorem Roomy.of_sameShape {out out' : Slice UInt8} (h : Roomy out) (hs : SameShape out out') :
    Roomy out' := ⟨hs.1.trans h.notNull, hs.2 ▸ h.le_size⟩

/-- Into a roomy buffer, a positive verdict is a valid body. -/
theorem Roomy.judge_pos_iff {out : Slice UInt8} (h : Roomy out) {w : List UInt8} :
    0 < judge w out ↔ ValidBody w := by
  rw [Sharak.judge_pos_iff, verdict_pos_iff]
  refine ⟨And.left, fun hv => ⟨hv, ?_⟩⟩
  have h₁ := h.le_size
  have h₂ := hv.le_max
  rw [not_or]
  refine ⟨by simp [h.notNull], ?_⟩
  simp only [skFrameInner, skPayloadMax, skCrcLen] at *
  omega

/-- Into a roomy buffer, a valid body is delivered. -/
theorem Roomy.close_valid {out : Slice UInt8} (h : Roomy out) {s : List UInt8}
    (hv : ValidBody (wire.unstuff s)) :
    (Call.close s out).ret = (payloadOf (wire.unstuff s)).length ∧
      (Call.close s out).payload = payloadOf (wire.unstuff s) := by
  have hp : 0 < judge (wire.unstuff s) out := h.judge_pos_iff.mpr hv
  have hp' := Sharak.judge_pos_iff.mp hp
  refine ⟨?_, ?_⟩
  · show judge _ _ = _
    rw [judge_of_pos hp, verdict_of_pos hp', length_payloadOf]
  · rw [← payload_deliver hp', ← judge_of_pos hp]
    rfl

/-- The segment that carries a payload, or an empty one. -/
def segment : Option Payload → List UInt8
  | none => []
  | some p => wire.stuff (body p.bytes)

/-- Segments, each closed by a FLAG. -/
def carry (os : List (Option Payload)) : List UInt8 := os.flatMap fun o => segment o ++ [skFlag]

theorem flag_not_mem_segment (o : Option Payload) : skFlag ∉ segment o := by
  cases o with
  | none => exact List.not_mem_nil
  | some p => exact wire.flag_not_mem_stuff _

theorem carry_append (os os' : List (Option Payload)) :
    carry (os ++ os') = carry os ++ carry os' := by
  simp [carry]

theorem carry_replicate_none (k : Nat) :
    carry (List.replicate k none) = List.replicate k skFlag := by
  induction k with
  | zero => rfl
  | succ k ih => simpa [carry, List.replicate_succ, segment] using ih

theorem frame_eq_carry (p : Payload) : frame p.bytes = skFlag :: carry [some p] := by
  simp [frame, carry, segment]

theorem payloadOf_body (p : List UInt8) : payloadOf (body p) = p := by
  rw [payloadOf, length_body, Nat.add_sub_cancel, body, List.take_left]

theorem trailer_body (p : List UInt8) : trailer (body p) = crc16CcittFalse (.mem p) := by
  have e₀ : ∀ a b : UInt8, (p ++ [a, b]).getD p.length 0 = a := by simp
  have e₁ : ∀ a b : UInt8, (p ++ [a, b]).getD (p.length + 1) 0 = b := by
    simp [List.getD_eq_getElem?_getD]
  rw [trailer, length_body, Nat.add_sub_cancel, body, crcBytes, e₀, e₁]
  exact be16_crcBytes _

/-- The body of a payload is valid. -/
theorem Payload.validBody (p : Payload) : ValidBody (body p.bytes) where
  min_le := by rw [length_body]; have := p.min_le; omega
  le_max := by rw [length_body]; have := p.le_max; simp only [skFrameInner]; omega
  crc := by rw [CrcHolds, payloadOf_body, trailer_body]

/-- The FLAG that closes the segment of a payload delivers the payload. -/
theorem close_segment {out : Slice UInt8} (h : Roomy out) (o : Option Payload) :
    reports [Call.close (segment o) out] = o.toList.map Payload.report := by
  cases o with
  | none => rfl
  | some p =>
      have hu : wire.unstuff (segment (some p)) = body p.bytes := wire.unstuff_stuff _
      obtain ⟨h₁, h₂⟩ := h.close_valid (s := segment (some p)) (by rw [hu]; exact p.validBody)
      rw [hu, payloadOf_body] at h₁ h₂
      have h0 : (Call.close (segment (some p)) out).ret ≠ 0 := by
        have := p.min_le
        rw [h₁]; simp only [skPayloadMin] at this; omega
      rw [reports, List.filter_cons_of_pos (by simpa using h0)]
      simp [h₁, h₂, Payload.report]

/-- **A stream of payload segments delivers the payloads in order and nothing else.** -/
theorem feedAll_carry {st : SkDecoder} (h : Collects st []) {out : Slice UInt8} (ho : Roomy out)
    (os : List (Option Payload)) :
    ∃ cs st' out', feedAll (some st) out (carry os) = .ok ⟨cs, some st', out'⟩ ∧
      Collects st' [] ∧ Roomy out' ∧ reports cs = os.reduceOption.map Payload.report := by
  induction os generalizing st out with
  | nil => exact ⟨[], st, out, rfl, h, ho, rfl⟩
  | cons o os ih =>
      obtain ⟨st₁, h₁, hc₁⟩ := feedAll_segment h out (flag_not_mem_segment o)
      obtain ⟨cs, st₂, out₂, h₂, hc₂, ho₂, hr⟩ := ih hc₁
        (ho.of_sameShape (sameShape_deliver (wire.unstuff (segment o)) out))
      refine ⟨_, st₂, out₂, feedAll_append h₁ h₂, hc₂, ho₂, ?_⟩
      rw [reports_append, reports_append, reports_more, close_segment ho, hr]
      cases o with
      | none => rw [List.reduceOption_cons_of_none]; rfl
      | some p => rw [List.reduceOption_cons_of_some]; rfl

/-! ### From a fresh decoder -/

/-- A decoder that hunts for a FLAG ignores everything else. -/
theorem feedAll_hunting {st : SkDecoder} (h : st.inFrame = 0) (out : Slice UInt8)
    {g : List UInt8} (hg : skFlag ∉ g) :
    feedAll (some st) out g = .ok ⟨List.replicate g.length (.more out), some st, out⟩ := by
  induction g with
  | nil => rfl
  | cons b g ih =>
      rw [List.mem_cons, not_or] at hg
      have hb := feed_other_cases st (Ne.symm hg.1) out
      rw [if_pos h] at hb
      exact feedAll_cons hb (ih hg.2)

/-- The first FLAG a hunting decoder meets is silent. -/
theorem feed_hunting_flag {st : SkDecoder} (h : st.inFrame = 0) (out : Slice UInt8) :
    st.feed skFlag out = .ok (skDecMore, st.restart, out) := by
  rw [SkDecoder.feed, if_pos rfl, if_neg (fun hc => hc.1 h)]
  rfl

/-- A fresh decoder on a FLAG, a segment and a FLAG: silent up to the verdict on the segment. -/
theorem fresh_segment (st : SkDecoder) (out : Slice UInt8) {s : List UInt8} (hs : skFlag ∉ s) :
    ∃ st', feedAll (skDecoderInit (some st)) out ([skFlag] ++ s ++ [skFlag]) =
      .ok ⟨List.replicate (s.length + 1) (.more out) ++ [.close s out], some st',
        (Call.close s out).out⟩ := by
  have h₀ : ({ st with inFrame := 0, esc := 0, overflow := 0, count := 0 } : SkDecoder).inFrame =
      0 := rfl
  obtain ⟨st', h, -⟩ := feedAll_segment (collects_restart _) out hs
  exact ⟨st', feedAll_cons (feed_hunting_flag h₀ out) h⟩

/-- **A fresh decoder**: garbage `g`, then a stream of payload segments, then the start `s` of
one more, reports the payloads in order and nothing else. -/
theorem fresh_carry (st : SkDecoder) {out : Slice UInt8} (ho : Roomy out) {g s : List UInt8}
    (hg : skFlag ∉ g) (hs : skFlag ∉ s) (os : List (Option Payload)) :
    ∃ r, feedAll (skDecoderInit (some st)) out (g ++ (skFlag :: (carry os ++ s))) = .ok r ∧
      reports r.calls = os.reduceOption.map Payload.report := by
  have h₀ : ({ st with inFrame := 0, esc := 0, overflow := 0, count := 0 } : SkDecoder).inFrame =
      0 := rfl
  have h₁ := feedAll_hunting h₀ out hg
  obtain ⟨cs, st₂, out₂, h₂, hc₂, -, hrep⟩ := feedAll_carry (collects_restart _) ho os
  obtain ⟨st₃, h₃, -⟩ := feedAll_silent hc₂ out₂ hs
  refine ⟨_, feedAll_append h₁ (feedAll_cons (feed_hunting_flag h₀ out)
    (feedAll_append h₂ h₃)), ?_⟩
  show reports (_ ++ ([Call.more out] ++ (cs ++ _))) = _
  rw [reports_append, reports_append, reports_append, reports_more, reports_more, hrep]
  simp [reports, Call.more, skDecMore]

/-! ### Where results come from -/

/-- Call `i` is at a FLAG, and `s` are the bytes strictly between the previous FLAG and it. -/
def Between (bs : List UInt8) (i : Nat) (s : List UInt8) : Prop :=
  ∃ u v, bs = (u ++ [skFlag]) ++ ((s ++ [skFlag]) ++ v) ∧ skFlag ∉ s ∧
    i = u.length + 1 + s.length

/-- A segment between two FLAGs is the only one there. -/
theorem between_segment {s t : List UInt8} {i : Nat} (hs : skFlag ∉ s)
    (h : Between ([skFlag] ++ s ++ [skFlag]) i t) : t = s := by
  obtain ⟨u, v, heq, -, -⟩ := h
  cases u with
  | nil =>
      have hrest : s ++ skFlag :: [] = t ++ skFlag :: v := by simpa using heq
      exact ((List.append_cons_inj_of_notMem hs List.not_mem_nil).mp hrest).1.symm
  -- one FLAG in `u`, one behind it and one behind `t` are too many
  | cons b u =>
      have hcount := congrArg (List.count skFlag) heq
      obtain rfl : skFlag = b := (List.cons.inj heq).1
      simp only [List.count_append, List.count_cons_self, List.count_nil,
        List.count_eq_zero.mpr hs] at hcount
      omega

/-- The last FLAG of a list that holds one. -/
theorem last_flag {bs : List UInt8} (h : skFlag ∈ bs) :
    ∃ u s, bs = (u ++ [skFlag]) ++ s ∧ skFlag ∉ s := by
  induction bs with
  | nil => cases h
  | cons b bs ih =>
      by_cases hb : skFlag ∈ bs
      · obtain ⟨u, s, rfl, hs⟩ := ih hb
        exact ⟨b :: u, s, rfl, hs⟩
      · obtain rfl : skFlag = b := (List.mem_cons.mp h).resolve_right hb
        exact ⟨[], bs, rfl, hb⟩

/-- In a run from `sk_decoder_init`, a call at a FLAG with none before it is silent. -/
theorem fresh_first_flag (st : SkDecoder) (out : Slice UInt8) {g : List UInt8} (v : List UInt8)
    (hg : skFlag ∉ g) :
    ∃ r, feedAll (skDecoderInit (some st)) out (g ++ skFlag :: v) = .ok r ∧
      r.calls[g.length]? = some (.more out) := by
  have h₀ : ({ st with inFrame := 0, esc := 0, overflow := 0, count := 0 } : SkDecoder).inFrame =
      0 := rfl
  obtain ⟨cs, st', out', hv, -⟩ := feedAll_any
    ({ st with inFrame := 0, esc := 0, overflow := 0, count := 0 } : SkDecoder).restart out v
  refine ⟨_, feedAll_append (feedAll_hunting h₀ out hg)
    (feedAll_cons (feed_hunting_flag h₀ out) hv), ?_⟩
  simp [Call.more]

/-- **Where results come from.**  In a run from `sk_decoder_init`, a call with a result is at a
FLAG, behind another. -/
theorem fresh_result_between {st : SkDecoder} {out : Slice UInt8} {bs : List UInt8} {r : Fed}
    (hr : feedAll (skDecoderInit (some st)) out bs = .ok r) {i : Nat} {c : Call}
    (hc : r.calls[i]? = some c) (hn : c.ret ≠ 0) : ∃ s, Between bs i s := by
  obtain ⟨cs, st', out', h, hl, -, hz⟩ := feedAll_any
    { st with inFrame := 0, esc := 0, overflow := 0, count := 0 } out bs
  obtain rfl : _ = r := Except.ok.inj (h.symm.trans hr)
  obtain ⟨hi, rfl⟩ := List.getElem?_eq_some_iff.mp hc
  have hib : i < bs.length := hl ▸ hi
  have hb : bs[i] = skFlag := by
    by_contra hne
    have hmem : (bs[i], cs[i]) ∈ bs.zip cs := by
      rw [List.mem_iff_getElem]
      exact ⟨i, by simp [hl, hib], by simp⟩
    exact hn (hz _ hmem hne)
  have hsplit : bs = bs.take i ++ skFlag :: bs.drop (i + 1) := by
    conv_lhs => rw [← List.take_append_drop i bs, List.drop_eq_getElem_cons hib, hb]
  have hlen : (bs.take i).length = i := by simp; omega
  by_cases hf : skFlag ∈ bs.take i
  · obtain ⟨u, s, hus, hs⟩ := last_flag hf
    refine ⟨s, u, bs.drop (i + 1), ?_, hs, ?_⟩
    · conv_lhs => rw [hsplit, hus]
      simp
    · rw [← hlen, hus]
      simp
      omega
  · obtain ⟨r', hr', hc'⟩ := fresh_first_flag st out (bs.drop (i + 1)) hf
    rw [← hsplit] at hr'
    obtain rfl := Except.ok.inj (h.symm.trans hr')
    rw [hlen] at hc'
    rw [Option.some.inj (hc.symm.trans hc')] at hn
    exact absurd rfl hn

/-- The call behind a segment gives the batch verdict on it. -/
theorem call_between {st : SkDecoder} {out : Slice UInt8} {bs : List UInt8} {r : Fed}
    (hr : feedAll (some st) out bs = .ok r) {i : Nat} {s : List UInt8} (h : Between bs i s) :
    ∃ c, r.calls[i]? = some c ∧ c.ret = judge (wire.unstuff s) out ∧
      (0 < c.ret → c.payload = payloadOf (wire.unstuff s)) := by
  obtain ⟨u, v, hbs, hs, rfl⟩ := h
  obtain ⟨r', hr', -, -, hseg⟩ := feed_refines_batch st out bs
  obtain rfl := Except.ok.inj (hr'.symm.trans hr)
  exact hseg u s v hbs hs

end Sharak
