import Sharak.Firmware.Uart
import Sharak.Protocol.Windows

/-!
# Firmware — the node on the line

`main` with UART0 at its registers follows `main` with UART0 as a list of bytes, turn by turn
(`turn_follows`): the traffic on the registers is what the list holds.  So on a line every byte of
the node goes out, in order, and whoever listens for a while hears the frames of the turns that lie
wholly in that while (`node_line`).
-/

namespace Sharak
open Memory

/-! ### The super-loop at the registers -/

/-- The statics of `main`, its `seq`, and the accesses to UART0 so far. -/
structure UartNode where
  sim : I2cSim
  sample : Adxl345Accel
  payload : Slice UInt8
  frame : Slice UInt8
  seq : UInt16
  uart : List UartAccess

/-- `main` between two turns of its loop, or in a halt loop for good. -/
inductive UartNodeRun where
  | running (n : UartNode)
  | halted (uart : List UartAccess)

namespace Uart0
variable (hw : Uart0)

/-- `main` up to its loop, behind `uart_init`. -/
def nodeBoot : Checked UartNodeRun := do
  let uart := hw.uartPuts [] nodeOnline
  let sim := i2cSimInit (some ⟨Vector.replicate i2cSimNregs 0, 0, 0⟩)
  let (rc, sim) ← adxl345Init nodeBus sim
  if rc ≠ adxl345Ok then pure (.halted (hw.uartPuts uart nodeInitFailed))
  else do
    let sim ← deref sim
    pure (.running ⟨sim, ⟨0, 0, 0⟩, .mem (List.replicate skPayloadLen 0),
      .mem (List.replicate skFrameMax 0), 0, uart⟩)

def nodeSend (plen : Int) (payload frame : Slice UInt8) (uart : List UartAccess) :
    Checked (Slice UInt8 × List UartAccess) :=
  if plen = skPayloadLen then do
    let (flen, frame) ← skFrameEncode (← payload.pass plen.toNat) frame
    if flen > 0 then do pure (frame, ← hw.uartWrite uart (← frame.pass flen.toNat))
    else pure (frame, uart)
  else pure (frame, uart)

/-- One turn of the loop. -/
def nodeTurn : UartNodeRun → Checked UartNodeRun
  | .halted uart => pure (.halted uart)
  | .running n => do
      let (rc, sample, sim) ← adxl345Read nodeBus (some n.sim) (some n.sample)
      if rc ≠ adxl345Ok then pure (.halted (hw.uartPuts n.uart nodeReadFailed))
      else do
        let sim ← deref sim
        let sample ← deref sample
        let (plen, payload) ← skPayloadPack n.payload n.seq sample.xMg sample.yMg sample.zMg
        let (frame, uart) ← hw.nodeSend plen payload n.frame n.uart
        pure (.running ⟨sim, sample, payload, frame, n.seq + 1, uart⟩)

/-- `main`, for `N` turns of its loop. -/
def nodeMain (N : Nat) : Checked UartNodeRun := do
  let run ← hw.nodeBoot
  upto N (fun _ => hw.nodeTurn) run

/-! ### Turn by turn -/

/-- The same statics, and traffic that sends the bytes of the list. -/
inductive Follows : NodeRun → UartNodeRun → Prop where
  | running {n : Node} {uart : List UartAccess} (t : hw.Traffic [] n.tx [] uart) :
      Follows (.running n) (.running ⟨n.sim, n.sample, n.payload, n.frame, n.seq, uart⟩)
  | halted {tx : List UInt8} {uart : List UartAccess} (t : hw.Traffic [] tx [] uart) :
      Follows (.halted tx) (.halted uart)

variable {hw} {tx tx' : List UInt8} {uart : List UartAccess}

theorem uartPuts_eq (tx s : List UInt8) : Sharak.uartPuts tx s = tx ++ s.takeWhile (· ≠ 0) := by
  induction s generalizing tx with
  | nil => exact (List.append_nil _).symm
  | cons c s ih =>
      by_cases hc : c = 0
      · rw [Sharak.uartPuts, if_pos hc, List.takeWhile_cons_of_neg (by simpa using hc),
          List.append_nil]
      · rw [Sharak.uartPuts, if_neg hc, List.takeWhile_cons_of_pos (by simpa using hc), ih,
          Sharak.uartPutc, List.append_assoc, List.singleton_append]

theorem puts_follows (s : List UInt8) (t : hw.Traffic [] tx [] uart) :
    hw.Traffic [] (Sharak.uartPuts tx s) [] (hw.uartPuts uart s) := by
  rw [uartPuts_eq]
  exact uartPuts_traffic s t

/-- What is passed on is memory. -/
theorem pass_eq_mem {s q : Slice UInt8} {k : Nat} (h : s.pass k = .ok q) : ∃ cs, q = .mem cs := by
  unfold Slice.pass at h
  split at h
  · cases h
    exact ⟨_, rfl⟩
  · cases h

theorem send_follows {plen : Int} {payload frame frame' : Slice UInt8}
    (h : Sharak.nodeSend plen payload frame tx = .ok (frame', tx'))
    (t : hw.Traffic [] tx [] uart) :
    ∃ uart', hw.nodeSend plen payload frame uart = .ok (frame', uart') ∧
      hw.Traffic [] tx' [] uart' := by
  unfold Sharak.nodeSend at h
  unfold nodeSend
  by_cases hp : plen = skPayloadLen
  · rw [if_pos hp] at h ⊢
    obtain ⟨p, hpass, h⟩ := bind_eq_ok h
    obtain ⟨⟨flen, fr⟩, henc, h⟩ := bind_eq_ok h
    rw [hpass, ok_bind, henc, ok_bind]
    dsimp only at h ⊢
    by_cases hf : flen > 0
    · rw [if_pos hf] at h ⊢
      obtain ⟨q, hq, h⟩ := bind_eq_ok h
      obtain ⟨tx₁, htx, h⟩ := bind_eq_ok h
      obtain ⟨cs, rfl⟩ := pass_eq_mem hq
      rw [uartWrite_mem] at htx
      cases htx
      cases h
      obtain ⟨uart', hw', t'⟩ := uartWrite_traffic cs t
      rw [hq, ok_bind, hw', ok_bind]
      exact ⟨uart', rfl, t'⟩
    · rw [if_neg hf] at h ⊢
      cases h
      exact ⟨uart, rfl, t⟩
  · rw [if_neg hp] at h ⊢
    cases h
    exact ⟨uart, rfl, t⟩

theorem boot_follows {run : NodeRun} (h : Sharak.nodeBoot = .ok run) :
    ∃ run', hw.nodeBoot = .ok run' ∧ hw.Follows run run' := by
  have t : hw.Traffic [] (Sharak.uartPuts [] nodeOnline) [] (hw.uartPuts [] nodeOnline) :=
    puts_follows nodeOnline .start
  unfold Sharak.nodeBoot at h
  unfold nodeBoot
  dsimp only at h ⊢
  obtain ⟨⟨rc, sim⟩, hinit, h⟩ := bind_eq_ok h
  rw [hinit, ok_bind]
  dsimp only at h ⊢
  by_cases hrc : rc ≠ adxl345Ok
  · rw [if_pos hrc] at h ⊢
    cases h
    exact ⟨_, rfl, .halted (puts_follows _ t)⟩
  · rw [if_neg hrc] at h ⊢
    obtain ⟨s, hs, h⟩ := bind_eq_ok h
    rw [hs, ok_bind]
    cases h
    exact ⟨_, rfl, .running t⟩

/-- **One turn.** -/
theorem turn_follows {run run₁ : NodeRun} {run' : UartNodeRun} (hf : hw.Follows run run')
    (h : Sharak.nodeTurn run = .ok run₁) :
    ∃ run₁', hw.nodeTurn run' = .ok run₁' ∧ hw.Follows run₁ run₁' := by
  cases hf with
  | halted t =>
      cases h
      exact ⟨_, rfl, .halted t⟩
  | @running n uart t =>
      unfold Sharak.nodeTurn at h
      unfold nodeTurn
      dsimp only at h ⊢
      obtain ⟨⟨rc, sample, sim⟩, hread, h⟩ := bind_eq_ok h
      rw [hread, ok_bind]
      dsimp only at h ⊢
      by_cases hrc : rc ≠ adxl345Ok
      · rw [if_pos hrc] at h ⊢
        cases h
        exact ⟨_, rfl, .halted (puts_follows _ t)⟩
      · rw [if_neg hrc] at h ⊢
        obtain ⟨s, hs, h⟩ := bind_eq_ok h
        obtain ⟨a, ha, h⟩ := bind_eq_ok h
        obtain ⟨⟨plen, payload⟩, hpack, h⟩ := bind_eq_ok h
        obtain ⟨⟨frame, tx⟩, hsend, h⟩ := bind_eq_ok h
        obtain ⟨uart', hsend', t'⟩ := send_follows hsend t
        cases h
        rw [hs, ok_bind, ha, ok_bind, hpack, ok_bind]
        dsimp only
        rw [hsend', ok_bind]
        exact ⟨_, rfl, .running t'⟩

/-- **A run of `main`.** -/
theorem main_follows {N : Nat} {run : NodeRun} (h : Sharak.nodeMain N = .ok run) :
    ∃ run', hw.nodeMain N = .ok run' ∧ hw.Follows run run' := by
  obtain ⟨run₀, hboot, hturns⟩ := bind_eq_ok h
  obtain ⟨run₀', hboot', h₀⟩ := @boot_follows hw _ hboot
  have hrun : ∀ (N : Nat) (run : NodeRun), upto N (fun _ => Sharak.nodeTurn) run₀ = .ok run →
      ∃ run', upto N (fun _ => hw.nodeTurn) run₀' = .ok run' ∧ hw.Follows run run' := by
    intro N
    induction N with
    | zero =>
        intro run hr
        cases hr
        exact ⟨run₀', rfl, h₀⟩
    | succ N ih =>
        intro run hr
        obtain ⟨mid, hmid, hlast⟩ := bind_eq_ok hr
        obtain ⟨mid', hmid', hf⟩ := ih mid hmid
        obtain ⟨run', hrun', hf'⟩ := turn_follows hf hlast
        refine ⟨run', ?_, hf'⟩
        rw [upto, hmid', ok_bind, hrun']
  obtain ⟨run', hr, hf⟩ := hrun N run hturns
  refine ⟨run', ?_, hf⟩
  rw [nodeMain, hboot', ok_bind, hr]

end Uart0

/-! ### Whoever listens -/

/-- **The node on a line**, whatever the line does and when.  After any number of turns the node is
running and has lost no byte: the transmit FIFO has taken in the banner and one frame a turn, and all
but the last `depth` bytes have gone out at least.  A fresh decoder fed what goes out in any while
reports the payloads of the frames that go out wholly in that while, in order, and nothing else. -/
theorem node_line {hw : Uart0} {depth : Nat} {l : Line depth}
    {events : List UartAccess → List LineEvent} (hl : OnLine hw l events)
    (hfresh : l.tx.taken = []) (N : Nat) :
    ∃ (n : UartNode) (ps : List Payload), hw.nodeMain N = .ok (.running n) ∧
      ps = (List.range N).map nodePayload ∧
      (l.behind events n.uart).tx.lost = l.tx.lost ∧
      (l.behind events n.uart).tx.taken = nodeOnline ++ ps.flatMap (fun p => skFrame p.bytes) ∧
      (l.behind events n.uart).tx.gone <+: (l.behind events n.uart).tx.taken ∧
      (l.behind events n.uart).tx.taken.length ≤
        (l.behind events n.uart).tx.gone.length + depth ∧
      ∀ u w v, (l.behind events n.uart).tx.gone = u ++ (w ++ v) →
        ∀ (st : SkDecoder) (out : List UInt8), skPayloadMax ≤ out.length →
          ∃ r as bs cs, ps = as ++ (bs ++ cs) ∧
            feedAll (skDecoderInit (some st)) (.mem out) w = .ok r ∧
            reports r.calls = bs.map (fun p => ((p.bytes.length : Int), p.bytes)) ∧
            ∀ k < N, as.length ≤ k ∧ k < as.length + bs.length ↔
              u.length ≤ nodeOnline.length +
                  ((ps.take k).flatMap fun p => skFrame p.bytes).length ∧
                nodeOnline.length + ((ps.take (k + 1)).flatMap fun p => skFrame p.bytes).length ≤
                  u.length + w.length := by
  obtain ⟨n, hmain, ha⟩ := nodeMain_after N
  obtain ⟨run', hmain', hf⟩ := @Uart0.main_follows hw _ _ hmain
  cases hf with
  | @running n uart t =>
      obtain ⟨hlost, htaken, -⟩ := hl.traffic t
      rw [hfresh, List.nil_append, ha.tx] at htaken
      obtain ⟨hgone, hdepth⟩ := Fifo.Queue.gone_prefix (l.behind events uart).tx
      refine ⟨_, _, hmain', rfl, hlost, ?_, hgone, hdepth, ?_⟩
      · rw [← frames_eq_skFrames]
        exact htaken
      · intro u w v huwv st out ho
        obtain ⟨rest, hrest⟩ := hgone
        rw [htaken, huwv, List.append_assoc, List.append_assoc] at hrest
        obtain ⟨r, as, bs, cs, hps, hr, hrep, hiff⟩ :=
          window_stream st (.of_mem ho) (by decide) hrest.symm
        refine ⟨r, as, bs, cs, hps, hr, hrep, ?_⟩
        intro k hk
        simp only [← frames_eq_skFrames]
        exact hiff k (by rw [List.length_map, List.length_range]; exact hk)

/-- Three turns on the slow line, through FIFOs of sixteen bytes. -/
theorem node_line_three :
    OnLine (slowUart 16 (by decide)) (⟨.empty, .empty⟩ : Line 16) slowEvents ∧
      (⟨.empty, .empty⟩ : Line 16).tx.taken = [] ∧
      ∃ (n : UartNode) (ps : List Payload) (l : Line 16),
        l = (⟨.empty, .empty⟩ : Line 16).behind slowEvents n.uart ∧
        (slowUart 16 (by decide)).nodeMain 3 = .ok (.running n) ∧
        ps = (List.range 3).map nodePayload ∧ l.tx.lost = [] ∧
        l.tx.taken = nodeOnline ++ ps.flatMap (fun p => skFrame p.bytes) ∧
        l.tx.gone <+: l.tx.taken ∧ l.tx.taken.length ≤ l.tx.gone.length + 16 ∧
        ∀ u w v, l.tx.gone = u ++ (w ++ v) →
          ∃ r as bs cs, ps = as ++ (bs ++ cs) ∧
            feedAll (skDecoderInit (some ⟨1, 1, 1, 99, Vector.replicate skFrameInner 0x7E⟩))
              (.mem (List.replicate 16 0)) w = .ok r ∧
            reports r.calls = bs.map (fun p => ((p.bytes.length : Int), p.bytes)) ∧
            ∀ k < 3, as.length ≤ k ∧ k < as.length + bs.length ↔
              u.length ≤ nodeOnline.length +
                  ((ps.take k).flatMap fun p => skFrame p.bytes).length ∧
                nodeOnline.length + ((ps.take (k + 1)).flatMap fun p => skFrame p.bytes).length ≤
                  u.length + w.length := by
  obtain ⟨n, ps, hrun, hps, hlost, htaken, hgone, hdepth, hwindows⟩ :=
    node_line (slowUart_onLine 16 (by decide)) rfl 3
  exact ⟨slowUart_onLine 16 (by decide), rfl, n, ps, _, rfl, hrun, hps, hlost, htaken, hgone,
    hdepth, fun u w v huwv => hwindows u w v huwv _ _ (by decide)⟩

end Sharak
