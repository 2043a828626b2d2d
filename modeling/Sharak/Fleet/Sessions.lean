import Sharak.Fleet.Definitions
import Sharak.Protocol.Codec
import Sharak.Protocol.RoundTrip

/-!
# Fleet — the sessions of the server

Whatever `accept` and `write` return, what a client has received is the complete frames of
consecutive phases and the torn start of the next (`Session.Streams`), and the phases of all
sessions, one behind the other, count up from zero (`Server.Sound`).  The invariant spans both
loops; the step lemma is `step_sound`.  With the decoder at the other end, every session delivers
its complete frames and nothing else (`fleet_sessions`).
-/

namespace Sharak
open Memory

/-! ### Signal and frames -/

/-- The wobble, continued. -/
def fleetWobbleAt (m : Nat) : Int32 := fleetWobble.get ⟨m % 8, Nat.mod_lt _ (by decide)⟩

theorem load_fleetWobble {i : UInt32} {m : Nat} (h : i.toNat = m % 8) :
    load fleetWobble i.toNat = .ok (fleetWobbleAt m) := by
  rw [h, load_ok (Nat.mod_lt _ (by decide))]
  rfl

/-- The sample of a phase. -/
def sampleOf (phase : UInt32) : FleetSample :=
  ⟨(phase &&& 0xFFFF).toUInt16, fleetWobbleAt phase.toNat, fleetWobbleAt (phase.toNat + 2), 1000⟩

theorem fleetSample_eq (phase : UInt32) : fleetSample phase = .ok (sampleOf phase) := by
  have hx : (phase % 8).toNat = phase.toNat % 8 := UInt32.toNat_mod _ _
  have hy : ((phase + 2) % 8).toNat = (phase.toNat + 2) % 8 := by
    have h8 : (8 : UInt32).toNat = 8 := rfl
    have h2 : (2 : UInt32).toNat = 2 := rfl
    rw [UInt32.toNat_mod, UInt32.toNat_add, h8, h2]
    omega
  rw [fleetSample, load_fleetWobble hx, ok_bind, load_fleetWobble hy]
  rfl

theorem sampleOf_seq (m : Nat) : (sampleOf (UInt32.ofNat m)).seq.toNat = m % 65536 := by
  have h : (UInt32.ofNat m &&& 0xFFFF).toNat = (UInt32.ofNat m).toNat % 65536 := by
    rw [UInt32.toNat_and]
    exact Nat.and_two_pow_sub_one_eq_mod _ 16
  rw [sampleOf, UInt32.toNat_toUInt16, h, UInt32.toNat_ofNat']
  omega

/-- The payload of a phase. -/
def fleetPayload (phase : UInt32) : Payload :=
  accelPayload (sampleOf phase).seq (sampleOf phase).xMg (sampleOf phase).yMg (sampleOf phase).zMg

theorem fleetBuildFrame_mem (seq : UInt16) (xMg yMg zMg : Int32) {cs : List UInt8}
    (h : skFrameMax ≤ cs.length) :
    fleetBuildFrame seq xMg yMg zMg (.mem cs) =
      .ok (((frame (accelPayload seq xMg yMg zMg).bytes).length : Int),
        .mem (overlay (frame (accelPayload seq xMg yMg zMg).bytes) cs)) := by
  have hpack := @skPayloadPack_mem (List.replicate skPayloadLen 0) (by simp) seq xMg yMg zMg
  have hlen : ¬ ((skPayloadLen : Nat) : Int) < 0 := by decide
  have hpass : (Slice.mem (accelBytes seq xMg yMg zMg)).pass ((skPayloadLen : Nat) : Int).toNat =
      .ok (.mem (accelBytes seq xMg yMg zMg)) := rfl
  have hfull : overlay (accelBytes seq xMg yMg zMg) (List.replicate skPayloadLen 0) =
      accelBytes seq xMg yMg zMg := overlay_all (by simp [skPayloadLen, skPayloadMax])
  rw [hfull] at hpack
  have hcall : fleetBuildFrame seq xMg yMg zMg (.mem cs) =
      skPayloadPack (.mem (List.replicate skPayloadLen 0)) seq xMg yMg zMg >>= fun r =>
        if r.1 < 0 then pure (r.1, .mem cs)
        else r.2.pass r.1.toNat >>= fun payload => skFrameEncode payload (.mem cs) := rfl
  rw [hcall, hpack, ok_bind, if_neg hlen, hpass, ok_bind]
  exact skFrameEncode_fits (accelPayload seq xMg yMg zMg) h

/-- The frame `fleet_build_frame` writes for the sample of a phase. -/
def fleetFrame (phase : UInt32) : List UInt8 :=
  match fleetSample phase with
  | .ok a =>
      match fleetBuildFrame a.seq a.xMg a.yMg a.zMg (.mem (List.replicate skFrameMax 0)) with
      | .ok (n, out) => out.cells.take n.toNat
      | .error _ => []
  | .error _ => []

theorem fleetFrame_eq (phase : UInt32) : fleetFrame phase = frame (fleetPayload phase).bytes := by
  have hbuild := @fleetBuildFrame_mem (sampleOf phase).seq (sampleOf phase).xMg
    (sampleOf phase).yMg (sampleOf phase).zMg (List.replicate skFrameMax 0) (by simp)
  simp only [fleetFrame, fleetSample_eq, hbuild]
  exact take_overlay _ _

theorem fleetBuildFrame_sample (phase : UInt32) :
    fleetBuildFrame (sampleOf phase).seq (sampleOf phase).xMg (sampleOf phase).yMg
        (sampleOf phase).zMg (.mem (List.replicate skFrameMax 0)) =
      .ok (((fleetFrame phase).length : Int),
        .mem (overlay (fleetFrame phase) (List.replicate skFrameMax 0))) := by
  rw [fleetFrame_eq]
  exact fleetBuildFrame_mem _ _ _ _ (by simp)

theorem fleetFrame_pos (phase : UInt32) : 0 < (fleetFrame phase).length := by
  rw [fleetFrame_eq, length_frame]
  omega

/-! ### Sessions -/

/-- A session whose first phase is `first`: `count` complete frames, then `t`, the start of the
frame of one more phase if that was attempted. -/
structure Session.Streams (c : Session) (first count lost : Nat) (t : List UInt8) : Prop where
  phases : c.phases = (List.range' first (count + lost)).map UInt32.ofNat
  bytes : c.bytes = (List.range' first count).flatMap (fun m => fleetFrame (UInt32.ofNat m)) ++ t
  start : t <+: fleetFrame (UInt32.ofNat (first + count))
  proper : t ≠ fleetFrame (UInt32.ofNat (first + count))
  lost_le : lost ≤ 1
  whole : lost = 0 → t = []

theorem Session.streams_fresh (first : Nat) : Session.Streams ⟨[], []⟩ first 0 0 [] where
  phases := rfl
  bytes := rfl
  start := List.nil_prefix
  proper := fun h => by
    have := fleetFrame_pos (UInt32.ofNat (first + 0))
    rw [← h] at this
    exact absurd this (Nat.lt_irrefl 0)
  lost_le := Nat.zero_le 1
  whole := fun _ => rfl

namespace Session.Streams
variable {c : Session} {first count : Nat}

/-- One more phase is sampled. -/
theorem attempt (h : c.Streams first count 0 []) :
    Session.Streams { c with phases := c.phases ++ [UInt32.ofNat (first + count)] }
      first count 1 [] where
  phases := by
    rw [h.phases, List.range'_1_concat, List.map_append]
    rfl
  bytes := h.bytes
  start := h.start
  proper := h.proper
  lost_le := Nat.le_refl 1
  whole := fun _ => rfl

/-- The client receives `w` more bytes of the frame, and not its last one. -/
theorem receive {k w : Nat}
    (h : c.Streams first count 1 ((fleetFrame (UInt32.ofNat (first + count))).take k))
    (hw : k + w < (fleetFrame (UInt32.ofNat (first + count))).length) :
    Session.Streams
      { c with bytes := c.bytes ++
          ((fleetFrame (UInt32.ofNat (first + count))).drop k).take w }
      first count 1 ((fleetFrame (UInt32.ofNat (first + count))).take (k + w)) where
  phases := h.phases
  bytes := by rw [h.bytes, List.append_assoc, ← List.take_add]
  start := List.take_prefix _ _
  proper := fun he => by
    have hlen := congrArg List.length he
    rw [List.length_take] at hlen
    omega
  lost_le := h.lost_le
  whole := fun h0 => absurd h0 (by decide)

/-- The client receives the last bytes of the frame. -/
theorem complete {k w : Nat}
    (h : c.Streams first count 1 ((fleetFrame (UInt32.ofNat (first + count))).take k))
    (hw : k + w = (fleetFrame (UInt32.ofNat (first + count))).length) :
    Session.Streams
      { c with bytes := c.bytes ++
          ((fleetFrame (UInt32.ofNat (first + count))).drop k).take w }
      first (count + 1) 0 [] where
  phases := h.phases
  bytes := by
    rw [h.bytes, List.append_assoc, ← List.take_add, hw, List.take_length, List.range'_1_concat,
      List.flatMap_append, List.append_nil]
    simp
  start := List.nil_prefix
  proper := (Session.streams_fresh (first + (count + 1))).proper
  lost_le := Nat.zero_le 1
  whole := fun _ => rfl

/-- **A session, at the other end of the line.**  A fresh decoder reports the complete frames in
order, and nothing else. -/
theorem delivered {lost : Nat} {t : List UInt8} (h : c.Streams first count lost t) (st : SkDecoder)
    {out : Slice UInt8} (ho : Roomy out) :
    ∃ r, feedAll (skDecoderInit (some st)) out c.bytes = .ok r ∧
      reports r.calls =
        (List.range' first count).map fun m => (fleetPayload (UInt32.ofNat m)).report := by
  obtain ⟨v, hv⟩ := h.start
  have hne : v ≠ [] := by
    rintro rfl
    exact h.proper (by rw [← hv, List.append_nil])
  have ht : Torn t := torn_of_prefix (fleetPayload (UInt32.ofNat (first + count)))
    (by rw [hv, fleetFrame_eq]) hne
  obtain ⟨r, hr, hrep⟩ := fresh_frames st ho (g := []) (by simp) ht
    ((List.range' first count).map fun m => fleetPayload (UInt32.ofNat m))
  refine ⟨r, ?_, by rw [hrep, List.map_map]; rfl⟩
  rw [h.bytes]
  simpa only [frames, List.flatMap_map, fleetFrame_eq, List.nil_append] using hr

end Session.Streams

/-! ### The invariant -/

/-- What holds of the running session after `attempts` phases. -/
def Pending.Sound (attempts : Nat) : Pending → Prop
  | .accept => True
  | .write c fr n off => ∃ first count : Nat, first + count + 1 = attempts ∧
      c.Streams first count 1 ((fleetFrame (UInt32.ofNat (first + count))).take off.toNat) ∧
      n = (fleetFrame (UInt32.ofNat (first + count))).length ∧
      fr.pass n.toNat = .ok (.mem (fleetFrame (UInt32.ofNat (first + count)))) ∧
      0 ≤ off ∧ off < n
  | .usleep c => ∃ first count : Nat, first + count = attempts ∧ c.Streams first count 0 []
  | .exited => True

/-- The server after `attempts` phases. -/
structure Server.Sound (s : Server) (attempts : Nat) : Prop where
  phase : s.phase = UInt32.ofNat attempts
  clean : s.encodeErrors = []
  phases : s.sessions.flatMap Session.phases = (List.range attempts).map UInt32.ofNat
  served : ∀ c ∈ s.served, ∃ first count t, c.Streams first count 1 t
  pending : s.pending.Sound attempts

theorem sound_start : Server.start.Sound 0 where
  phase := rfl
  clean := rfl
  phases := rfl
  served := fun _ hc => absurd hc List.not_mem_nil
  pending := trivial

/-- The client of a write leaves. -/
theorem sound_disconnect {s : Server} {attempts : Nat} {c : Session} (h : s.Sound attempts)
    (hc : s.pending.client = some c) {first count : Nat} {t : List UInt8}
    (hs : c.Streams first count 1 t) : (s.disconnect c).Sound attempts where
  phase := h.phase
  clean := h.clean
  phases := by
    have hp := h.phases
    rw [Server.sessions, hc] at hp
    rw [← hp]
    simp [Server.sessions, Server.disconnect, Pending.client]
  served := fun d hd => by
    rcases List.mem_append.mp hd with hd | hd
    · exact h.served d hd
    · obtain rfl := List.mem_singleton.mp hd
      exact ⟨first, count, t, hs⟩
  pending := trivial

/-- A turn of the stream loop attempts the next phase. -/
theorem stream_sound {s : Server} {attempts : Nat} {c : Session} {first count : Nat}
    (hphase : s.phase = UInt32.ofNat attempts) (hclean : s.encodeErrors = [])
    (hphases : (s.served ++ [c]).flatMap Session.phases = (List.range attempts).map UInt32.ofNat)
    (hserved : ∀ d ∈ s.served, ∃ first count t, d.Streams first count 1 t)
    (hsum : first + count = attempts) (hc : c.Streams first count 0 []) :
    ∃ s', s.stream c = .ok s' ∧ s'.Sound (attempts + 1) := by
  have hpos := fleetFrame_pos (UInt32.ofNat attempts)
  have hbuild := fleetBuildFrame_sample (UInt32.ofNat attempts)
  have hfit := length_frame_le (fleetPayload (UInt32.ofNat attempts)).le_max
  rw [← fleetFrame_eq] at hfit
  have hn : ¬ ((fleetFrame (UInt32.ofNat attempts)).length : Int) < 0 := by omega
  have hloop : (0 : Int) < (fleetFrame (UInt32.ofNat attempts)).length := by omega
  refine ⟨⟨s.phase + 1, s.served, .write { c with phases := c.phases ++ [s.phase] }
    (.mem (overlay (fleetFrame (UInt32.ofNat attempts)) (List.replicate skFrameMax 0)))
    (fleetFrame (UInt32.ofNat attempts)).length 0, s.encodeErrors⟩, ?_, ?_⟩
  · simp only [Server.stream, hphase, fleetSample_eq, ok_bind, hbuild, if_neg hn,
      Server.writeLoop, if_pos hloop, pure_ok]
  · refine ⟨?_, hclean, ?_, hserved, first, count, by omega, ?_, ?_, ?_, Int.le_refl 0, ?_⟩
    · rw [hphase]
      exact (UInt32.ofNat_add attempts 1).symm
    · rw [List.range_succ, List.map_append, ← hphases, hphase]
      simp [Server.sessions, Pending.client]
    · rw [hphase, ← hsum]
      exact hc.attempt
    · rw [hsum]
    · rw [hsum, Int.toNat_natCast, Slice.pass_mem, take_overlay]
      rw [length_overlay (by simpa using hfit)]
      simpa using hfit
    · exact hloop

/-- A `write` returns. -/
theorem step_write_sound {phase : UInt32} {served : List Session} {c : Session} {fr : Slice UInt8}
    {n off : Int} {errors : List Int} {attempts : Nat}
    (h : Server.Sound ⟨phase, served, .write c fr n off, errors⟩ attempts) {ret : Ret}
    (hw : ret.value ≤ n - off) :
    ∃ s', Server.step ⟨phase, served, .write c fr n off, errors⟩ ret = .ok s' ∧
      s'.Sound attempts := by
  obtain ⟨first, count, hsum, hc, hn, hpass, hoff, hlt⟩ := h.pending
  by_cases hv : ret.value ≤ 0
  · refine ⟨_, ?_, sound_disconnect h rfl hc⟩
    simp only [Server.step, if_pos hv, pure_ok]
    rfl
  have hadd : (off + ret.value).toNat = off.toNat + ret.value.toNat := by omega
  have hphases := h.phases
  refine ⟨Server.writeLoop ⟨phase, served, .write c fr n off, errors⟩
    { c with bytes := c.bytes ++ ((fleetFrame (UInt32.ofNat (first + count))).drop
        off.toNat).take ret.value.toNat } fr n (off + ret.value), ?_, ?_⟩
  · simp only [Server.step, if_neg hv, hpass, ok_bind, pure_ok, Slice.cells_mem]
  -- the bytes taken end the frame, or they do not
  by_cases hmore : off + ret.value < n
  · have hr := @Session.Streams.receive c first count off.toNat ret.value.toNat hc (by omega)
    rw [Server.writeLoop, if_pos hmore]
    refine ⟨h.phase, h.clean, ?_, h.served, first, count, hsum, ?_, hn, hpass, by omega, hmore⟩
    · rw [← hphases]
      simp [Server.sessions, Pending.client]
    · rw [hadd]
      exact hr
  · have hr := @Session.Streams.complete c first count off.toNat ret.value.toNat hc (by omega)
    rw [Server.writeLoop, if_neg hmore, Server.sent, if_neg (by omega)]
    refine ⟨h.phase, h.clean, ?_, h.served, first, count + 1, by omega, hr⟩
    rw [← hphases]
    simp [Server.sessions, Pending.client]

/-- `accept` returns. -/
theorem step_accept_sound {phase : UInt32} {served : List Session} {errors : List Int}
    {attempts : Nat} (h : Server.Sound ⟨phase, served, .accept, errors⟩ attempts) (ret : Ret) :
    ∃ s' attempts', Server.step ⟨phase, served, .accept, errors⟩ ret = .ok s' ∧
      s'.Sound attempts' := by
  by_cases hv : ret.value < 0
  · by_cases he : ret.errno = eintr
    · refine ⟨⟨phase, served, .accept, errors⟩, attempts, ?_, h⟩
      simp only [Server.step, if_pos hv, if_pos he, pure_ok]
    · refine ⟨⟨phase, served, .exited, errors⟩, attempts, ?_,
        ⟨h.phase, h.clean, h.phases, h.served, trivial⟩⟩
      simp only [Server.step, if_pos hv, if_neg he, pure_ok]
  · have hphases : (served ++ [(⟨[], []⟩ : Session)]).flatMap Session.phases =
        (List.range attempts).map UInt32.ofNat := by
      rw [← h.phases]
      simp [Server.sessions, Pending.client]
    obtain ⟨s', hs, hsound⟩ := @stream_sound ⟨phase, served, .accept, errors⟩ attempts ⟨[], []⟩
      attempts 0 h.phase h.clean hphases h.served rfl (Session.streams_fresh attempts)
    refine ⟨s', attempts + 1, ?_, hsound⟩
    simpa only [Server.step, if_neg hv] using hs

/-- **One system call.** -/
theorem step_sound {s : Server} {attempts : Nat} (h : s.Sound attempts) {ret : Ret}
    (ha : s.Allows ret) : ∃ s' attempts', s.step ret = .ok s' ∧ s'.Sound attempts' := by
  obtain ⟨phase, served, pending, errors⟩ := s
  cases pending with
  | accept => exact step_accept_sound h ret
  | write c fr n off =>
      obtain ⟨s', hs, hsound⟩ := step_write_sound h ha
      exact ⟨s', attempts, hs, hsound⟩
  | usleep c =>
      obtain ⟨first, count, hsum, hc⟩ := h.pending
      obtain ⟨s', hs, hsound⟩ := stream_sound h.phase h.clean h.phases h.served hsum hc
      exact ⟨s', attempts + 1, hs, hsound⟩
  | exited => exact ⟨_, attempts, rfl, h⟩

theorem run_sound {s : Server} {attempts : Nat} (h : s.Sound attempts) {rets : List Ret}
    (hl : s.Lawful rets) : ∃ s' attempts', s.run rets = .ok s' ∧ s'.Sound attempts' := by
  induction rets generalizing s attempts with
  | nil => exact ⟨s, attempts, rfl, h⟩
  | cons ret rets ih =>
      obtain ⟨s₁, a₁, hstep, h₁⟩ := step_sound h hl.1
      obtain ⟨s₂, a₂, hrun, h₂⟩ := ih h₁ (hl.2 s₁ hstep)
      exact ⟨s₂, a₂, by rw [Server.run, hstep, ok_bind, hrun], h₂⟩

theorem Server.Sound.session {s : Server} {attempts : Nat} (h : s.Sound attempts) {c : Session}
    (hc : c ∈ s.sessions) : ∃ first count lost t, c.Streams first count lost t := by
  rcases List.mem_append.mp hc with hc | hc
  · obtain ⟨first, count, t, hs⟩ := h.served c hc
    exact ⟨first, count, 1, t, hs⟩
  · have hp := h.pending
    cases hpend : s.pending with
    | accept => simp [hpend, Pending.client] at hc
    | exited => simp [hpend, Pending.client] at hc
    | usleep d =>
        obtain rfl : c = d := by simpa [hpend, Pending.client] using hc
        rw [hpend] at hp
        obtain ⟨first, count, -, hs⟩ := hp
        exact ⟨first, count, 0, [], hs⟩
    | write d fr n off =>
        obtain rfl : c = d := by simpa [hpend, Pending.client] using hc
        rw [hpend] at hp
        obtain ⟨first, count, -, hs, -⟩ := hp
        exact ⟨first, count, 1, _, hs⟩

/-- **The sessions of the server**, for every run of system calls.  No encode error is reported;
the phases of the sessions, one behind the other, are all phases in order; each client has received
complete frames of consecutive phases and the torn start of one more; and a fresh decoder fed its
bytes reports the payloads of the complete frames and nothing else. -/
theorem fleet_sessions (rets : List Ret) (hl : Server.start.Lawful rets) (st : SkDecoder)
    (out : List UInt8) (ho : skPayloadMax ≤ out.length) :
    ∃ s attempts, Server.start.run rets = .ok s ∧ s.encodeErrors = [] ∧
      s.sessions.flatMap Session.phases = (List.range attempts).map UInt32.ofNat ∧
      ∀ c ∈ s.sessions, ∃ first count lost t, c.Streams first count lost t ∧
        ∃ (ps : List (List UInt8)) (r : Fed),
          feedAll (skDecoderInit (some st)) (.mem out) c.bytes = .ok r ∧
          reports r.calls = ps.map (fun p => ((16 : Int), p)) ∧ ps.length = count ∧
          ∀ k (_ : k < count), ∃ p ∈ ps[k]?, skFrame p = fleetFrame (UInt32.ofNat (first + k)) ∧
            ∃ a, fleetSample (UInt32.ofNat (first + k)) = .ok a ∧
              a.seq.toNat = (first + k) % 65536 ∧
              ∀ ver type seq x y z,
                skPayloadUnpack (.mem p) ⟨⟨some ver, some type, some seq⟩, some x, some y, some z⟩ =
                  .ok (0, ⟨⟨some 1, some skTypeAccel, some a.seq⟩, some a.xMg, some a.yMg,
                    some a.zMg⟩) := by
  obtain ⟨s, attempts, hrun, hs⟩ := run_sound sound_start hl
  refine ⟨s, attempts, hrun, hs.clean, hs.phases, ?_⟩
  intro c hc
  obtain ⟨first, count, lost, t, hst⟩ := hs.session hc
  obtain ⟨r, hr, hrep⟩ := hst.delivered st (.of_mem ho)
  refine ⟨first, count, lost, t, hst,
    (List.range' first count).map fun m => (fleetPayload (UInt32.ofNat m)).bytes, r, hr, ?_,
    by simp, ?_⟩
  · rw [hrep, List.map_map]
    rfl
  · intro k hk
    refine ⟨(fleetPayload (UInt32.ofNat (first + k))).bytes, by simp [hk], ?_,
      sampleOf (UInt32.ofNat (first + k)), fleetSample_eq _, sampleOf_seq _, ?_⟩
    · rw [skFrame_eq, fleetFrame_eq]
    · intro ver type seq x y z
      exact skPayloadUnpack_accel _ _ _ _ _

/-- One client takes a whole frame in two writes and leaves in the second frame; the next takes six
bytes. -/
def twoClients : List Ret :=
  [⟨3, 0⟩, ⟨5, 0⟩, ⟨15, 0⟩, ⟨0, 0⟩, ⟨4, 0⟩, ⟨-1, 32⟩, ⟨3, 0⟩, ⟨6, 0⟩]

theorem fleet_sessions_two :
    Server.start.Lawful twoClients ∧ skPayloadMax ≤ (List.replicate 16 (0 : UInt8)).length ∧
      ∃ s attempts, Server.start.run twoClients = .ok s ∧ s.encodeErrors = [] ∧
        s.sessions.flatMap Session.phases = (List.range attempts).map UInt32.ofNat ∧
        ∀ c ∈ s.sessions, ∃ first count lost t, c.Streams first count lost t ∧
          ∃ (ps : List (List UInt8)) (r : Fed),
            feedAll (skDecoderInit (some ⟨1, 1, 1, 99, Vector.replicate skFrameInner 0x7E⟩))
              (.mem (List.replicate 16 0)) c.bytes = .ok r ∧
            reports r.calls = ps.map (fun p => ((16 : Int), p)) ∧ ps.length = count ∧
            ∀ k (_ : k < count), ∃ p ∈ ps[k]?, skFrame p = fleetFrame (UInt32.ofNat (first + k)) := by
  have hl : Server.start.Lawful twoClients := by decide +kernel
  obtain ⟨s, attempts, hrun, hclean, hphases, hclients⟩ := fleet_sessions _ hl
    ⟨1, 1, 1, 99, Vector.replicate skFrameInner 0x7E⟩ (List.replicate 16 0) (by decide)
  refine ⟨hl, by decide, s, attempts, hrun, hclean, hphases, ?_⟩
  intro c hc
  obtain ⟨first, count, lost, t, hst, ps, r, hr, hrep, hlen, hframes⟩ := hclients c hc
  refine ⟨first, count, lost, t, hst, ps, r, hr, hrep, hlen, ?_⟩
  intro k hk
  obtain ⟨p, hp, hframe, -⟩ := hframes k hk
  exact ⟨p, hp, hframe⟩

end Sharak
