import Sharak.Firmware.Decoding
import Sharak.Firmware.Simulator
import Sharak.Protocol.RoundTrip

/-!
# Firmware — the whole node

The super-loop on the simulated chip.  Between two turns the chip measures, its phase and `seq`
have counted the turns, each at its own width, and UART0 has transmitted the banner and one frame
a turn (`Node.After`).  So what it transmits reports the samples of the simulator in order, for any
number of turns (`node_run`).
-/

namespace Sharak
open Memory

/-! ### Readings -/

/-- The reading the driver makes of three raw values. -/
def scaled (x y z : Int16) : Adxl345Accel :=
  ⟨x.toInt32 * adxl345MgNum / adxl345MgDen, y.toInt32 * adxl345MgNum / adxl345MgDen,
    z.toInt32 * adxl345MgNum / adxl345MgDen⟩

/-- The reading of sample `m`. -/
def reading (m : Nat) : Adxl345Accel := scaled (wobbleAt m) (wobbleAt (m + 4)) 256

theorem adxl345Decode_sampleBytes (m : Nat) :
    adxl345Decode (.mem (sampleBytes m)) = .ok (reading m) := by
  have hx : getLe16 (.mem (sampleBytes m)) 0 = .ok (wobbleAt m).toUInt16 :=
    @getLe16_bytes [] (le16Bytes (wobbleAt (m + 4)).toUInt16 ++ le16Bytes (256 : Int16).toUInt16) _
  have hy : getLe16 (.mem (sampleBytes m)) 2 = .ok (wobbleAt (m + 4)).toUInt16 :=
    @getLe16_bytes (le16Bytes (wobbleAt m).toUInt16) (le16Bytes (256 : Int16).toUInt16) _
  have hz : getLe16 (.mem (sampleBytes m)) 4 = .ok (256 : Int16).toUInt16 :=
    @getLe16_bytes (le16Bytes (wobbleAt m).toUInt16 ++ le16Bytes (wobbleAt (m + 4)).toUInt16) [] _
  rw [adxl345Decode, hx, hy, hz]
  rfl

/-! ### The driver on the simulator -/

/-- The chip with a fresh sample, and the pointer in front of it. -/
def I2cSim.sampled (s : I2cSim) : I2cSim := { s with ptr := adxl345RegDatax0 }.refreshed

theorem sampled_ptr (s : I2cSim) : s.sampled.ptr.toNat = simRegDatax0 := rfl

theorem sampled_inside (s : I2cSim) : s.sampled.Inside := by
  rw [I2cSim.Inside, sampled_ptr]
  decide

theorem sampled_data (s : I2cSim) {k : Nat} (hk : k < (sampleBytes s.phase.toNat).length) :
    s.sampled.reg (simRegDatax0 + k) = (sampleBytes s.phase.toNat)[k] :=
  refreshed_data { s with ptr := adxl345RegDatax0 } hk

theorem sampled_powerCtl (s : I2cSim) : s.sampled.reg simRegPowerCtl = s.reg simRegPowerCtl :=
  refreshed_other { s with ptr := adxl345RegDatax0 } (by decide)

theorem sampled_serve (s : I2cSim) : s.sampled.serve 6 = sampleBytes s.phase.toNat := by
  have hn : s.sampled.ptr.toNat + (sampleBytes s.phase.toNat).length ≤ i2cSimNregs := by
    rw [sampled_ptr, length_sampleBytes]
    decide
  exact serve_eq hn fun k hk => sampled_data s hk

/-- A read of the six data registers of a measuring chip takes a fresh sample. -/
theorem snapshot_sampled {s : I2cSim} (h : s.Measuring) :
    (s.written [adxl345RegDatax0]).snapshot 6 = s.sampled := by
  have htouch : 6 > 0 ∧ simTouchesData adxl345RegDatax0 6 = true := by decide
  exact if_pos ⟨htouch, h⟩

/-- The chip once its six data registers have been read. -/
def I2cSim.afterRead (s : I2cSim) : I2cSim := I2cSim.next^[6] s.sampled

theorem afterRead_phase (s : I2cSim) : s.afterRead.phase = s.phase + 1 := nexts_phase s.sampled 6

theorem afterRead_measuring {s : I2cSim} (h : s.Measuring) : s.afterRead.Measuring := by
  have hreg : s.afterRead.reg simRegPowerCtl = s.reg simRegPowerCtl := by
    rw [I2cSim.afterRead, I2cSim.reg, nexts_regs, ← sampled_powerCtl s, I2cSim.reg]
  rw [I2cSim.Measuring, hreg]
  exact h

theorem afterRead_inside (s : I2cSim) : s.afterRead.Inside := inside_nexts (sampled_inside s) 6

/-- **`adxl345_read` on a measuring chip** is the chip's next sample. -/
theorem adxl345Read_sim {s : I2cSim} (hs : s.Inside) (hm : s.Measuring) (out : Adxl345Accel) :
    adxl345Read nodeBus (some s) (some out) =
      .ok (adxl345Ok, some (reading s.phase.toNat), some s.afterRead) := by
  have hbus : ¬ (busOk nodeBus = false ∨ (some out).isNone = true) := by
    simp [busOk, nodeBus, i2cSimBind]
  have hover : overlay (sampleBytes s.phase.toNat) (List.replicate 6 0) =
      sampleBytes s.phase.toNat := overlay_all (by simp)
  have hwr : simWriteRead (some s) simAddr (.mem [adxl345RegDatax0])
      (.mem (List.replicate 6 0)) =
        .ok (i2cOk, .mem (sampleBytes s.phase.toNat), some s.afterRead) := by
    have hp : ∀ b ∈ (Slice.mem [adxl345RegDatax0]).cells.head?, b.toNat < i2cSimNregs := by
      rintro b ⟨⟩
      decide
    rw [simWriteRead_ok hs (by simp [Readable]) (by simp [Readable]) hp]
    simp only [Slice.cells_mem, Slice.size_mem, List.length_replicate, snapshot_sampled hm,
      sampled_serve, Slice.put_mem, hover, I2cSim.afterRead]
  have hcall : adxl345Read nodeBus (some s) (some out) =
      simWriteRead (some s) simAddr (.mem [adxl345RegDatax0]) (.mem (List.replicate 6 0)) >>=
        fun r => if r.1 ≠ i2cOk then pure (adxl345EBus, some out, r.2.2)
          else adxl345Decode r.2.1 >>= fun a => pure (adxl345Ok, some a, r.2.2) := if_neg hbus
  have hok : ¬ i2cOk ≠ i2cOk := not_not.mpr rfl
  rw [hcall, hwr, ok_bind, if_neg hok, adxl345Decode_sampleBytes]
  rfl

/-! ### Packing and sending -/

theorem uartWrite_mem (tx cs : List UInt8) : uartWrite tx (.mem cs) = .ok (tx ++ cs) := by
  obtain ⟨t, ht, hP⟩ := upto_ok (n := cs.length) (s := tx)
    (f := fun i tx => do pure (uartPutc tx (← (Slice.mem cs).read i)))
    (fun i t => t = tx ++ cs.take i) (by simp) (fun i t hi ht => by
      refine ⟨_, by rw [Slice.read_mem hi]; rfl, ?_⟩
      rw [ht, uartPutc, List.append_assoc, List.take_append_getElem hi])
  rw [List.take_length] at hP
  rw [uartWrite, Slice.size_mem, ht, hP]

/-- The frame of a sample goes out as it is. -/
theorem nodeSend_accel (seq : UInt16) (a : Adxl345Accel) {fs : List UInt8}
    (hf : fs.length = skFrameMax) (tx : List UInt8) :
    ∃ fs', nodeSend skPayloadLen (.mem (accelBytes seq a.xMg a.yMg a.zMg)) (.mem fs) tx =
        .ok (.mem fs', tx ++ frame (accelBytes seq a.xMg a.yMg a.zMg)) ∧
      fs'.length = skFrameMax := by
  have henc := skFrameEncode_fits (accelPayload seq a.xMg a.yMg a.zMg) (Nat.le_of_eq hf.symm)
  have hle := length_frame_le (accelPayload seq a.xMg a.yMg a.zMg).le_max
  have hpos : ((frame (accelPayload seq a.xMg a.yMg a.zMg).bytes).length : Int) > 0 := by
    rw [length_frame]
    omega
  generalize hF : frame (accelPayload seq a.xMg a.yMg a.zMg).bytes = F at henc hle hpos
  have hl : (overlay F fs).length = skFrameMax := by
    rw [length_overlay (by omega), hf]
  have hpass : (Slice.mem (overlay F fs)).pass (F.length : Int).toNat = .ok (.mem F) := by
    rw [Int.toNat_natCast, Slice.pass_mem (by omega), take_overlay]
  have hpay : (Slice.mem (accelBytes seq a.xMg a.yMg a.zMg)).pass
      ((skPayloadLen : Nat) : Int).toNat = .ok (.mem (accelBytes seq a.xMg a.yMg a.zMg)) := rfl
  refine ⟨overlay F fs, ?_, hl⟩
  rw [nodeSend, if_pos rfl, hpay, ok_bind]
  refine (congrArg (fun r => r >>= _) henc).trans ?_
  refine (if_pos hpos).trans ?_
  rw [hpass, ok_bind, uartWrite_mem]
  exact congrArg (fun f => Except.ok (Slice.mem (overlay F fs), tx ++ f)) hF.symm

/-! ### Turns -/

/-- The payload of turn `k`. -/
def nodePayload (k : Nat) : Payload :=
  accelPayload (UInt16.ofNat k) (reading k).xMg (reading k).yMg (reading k).zMg

/-- `main` after `k` turns. -/
structure Node.After (n : Node) (k : Nat) : Prop where
  inside : n.sim.Inside
  measuring : n.sim.Measuring
  phase : n.sim.phase = UInt32.ofNat k
  seq : n.seq = UInt16.ofNat k
  payload : ∃ cs, n.payload = .mem cs ∧ cs.length = skPayloadLen
  frame : ∃ cs, n.frame = .mem cs ∧ cs.length = skFrameMax
  tx : n.tx = nodeOnline ++ frames ((List.range k).map nodePayload)

/-- The chip as `adxl345_init` leaves it. -/
def simStarted : I2cSim :=
  { simPowerOn with
    regs := ((simPowerOn.regs.setIfInBounds 0x31 0x0B).setIfInBounds 0x2C 0x0A).setIfInBounds
      0x2D 0x08
    ptr := 0x2E }

theorem nodeBoot_after : ∃ n, nodeBoot = .ok (.running n) ∧ n.After 0 := by
  refine ⟨⟨simStarted, ⟨0, 0, 0⟩, .mem (List.replicate skPayloadLen 0),
    .mem (List.replicate skFrameMax 0), 0, nodeOnline⟩, rfl, ?_⟩
  exact
    { inside := show (0x2E : UInt8).toNat < i2cSimNregs by decide
      measuring := by decide
      phase := rfl
      seq := rfl
      payload := ⟨_, rfl, rfl⟩
      frame := ⟨_, rfl, rfl⟩
      tx := (List.append_nil _).symm }

theorem reading_wrap (k : Nat) : reading (UInt32.ofNat k).toNat = reading k := by
  have h₀ : wobbleAt (UInt32.ofNat k).toNat = wobbleAt k := wobbleAt_wrap k 0
  rw [reading, h₀, wobbleAt_wrap, reading]

theorem nodeTurn_after {n : Node} {k : Nat} (h : n.After k) :
    ∃ n', nodeTurn (.running n) = .ok (.running n') ∧ n'.After (k + 1) := by
  obtain ⟨ps, hps, hpl⟩ := h.payload
  obtain ⟨fs, hfs, hfl⟩ := h.frame
  have hread := adxl345Read_sim h.inside h.measuring n.sample
  rw [h.phase, reading_wrap] at hread
  have hpack := skPayloadPack_mem (Nat.le_of_eq hpl.symm) n.seq (reading k).xMg (reading k).yMg
    (reading k).zMg
  have hover : overlay (accelBytes n.seq (reading k).xMg (reading k).yMg (reading k).zMg) ps =
      accelBytes n.seq (reading k).xMg (reading k).yMg (reading k).zMg :=
    overlay_all (Nat.le_of_eq hpl)
  obtain ⟨fs', hsend, hfl'⟩ := nodeSend_accel n.seq (reading k) hfl n.tx
  rw [hover] at hpack
  refine ⟨⟨n.sim.afterRead, reading k,
    .mem (accelBytes n.seq (reading k).xMg (reading k).yMg (reading k).zMg), .mem fs', n.seq + 1,
    n.tx ++ Sharak.frame (accelBytes n.seq (reading k).xMg (reading k).yMg (reading k).zMg)⟩,
    ?_, ?_⟩
  · have hok : ¬ adxl345Ok ≠ adxl345Ok := not_not.mpr rfl
    simp only [nodeTurn, hread, ok_bind, if_neg hok, deref_some, hps, hpack, hfs, hsend, pure_ok]
  · exact
      { inside := afterRead_inside _
        measuring := afterRead_measuring h.measuring
        phase := by rw [afterRead_phase, h.phase]; exact (UInt32.ofNat_add k 1).symm
        seq := by rw [h.seq]; exact (UInt16.ofNat_add k 1).symm
        payload := ⟨_, rfl, rfl⟩
        frame := ⟨fs', rfl, hfl'⟩
        tx := by
          rw [h.tx, h.seq, List.range_succ, List.map_append, frames_append, List.append_assoc]
          simp [frames, nodePayload, accelPayload] }

theorem nodeMain_after (N : Nat) : ∃ n, nodeMain N = .ok (.running n) ∧ n.After N := by
  obtain ⟨n₀, hboot, h₀⟩ := nodeBoot_after
  obtain ⟨run, hrun, n, rfl, hn⟩ := upto_ok (n := N) (f := fun _ => nodeTurn) (s := .running n₀)
    (fun k run => ∃ n, run = .running n ∧ n.After k) ⟨n₀, rfl, h₀⟩ (fun k run _ hk => by
      obtain ⟨n, rfl, hn⟩ := hk
      obtain ⟨n', hturn, hn'⟩ := nodeTurn_after hn
      exact ⟨_, hturn, n', rfl, hn'⟩)
  exact ⟨n, by rw [nodeMain, hboot, ok_bind, hrun], hn⟩

/-! ### What a gateway sees -/

/-- **A whole-node run.**  After any number of turns the node is running, UART0 has transmitted
the banner and one frame a turn, and a fresh decoder reports one payload a turn and no error. -/
theorem node_run (N : Nat) (st : SkDecoder) (out : List UInt8) (ho : skPayloadMax ≤ out.length) :
    ∃ (n : Node) (ps : List (List UInt8)) (r : Fed), nodeMain N = .ok (.running n) ∧
      n.tx = nodeOnline ++ ps.flatMap skFrame ∧ ps.length = N ∧
      feedAll (skDecoderInit (some st)) (.mem out) n.tx = .ok r ∧
      reports r.calls = ps.map (fun p => ((16 : Int), p)) ∧
      ∀ k (_ : k < N), ∃ p ∈ ps[k]?, ∀ ver type seq x y z, ∃ seq' x' y' z',
        skPayloadUnpack (.mem p) ⟨⟨some ver, some type, some seq⟩, some x, some y, some z⟩ =
          .ok (0, ⟨⟨some 1, some skTypeAccel, some seq'⟩, some x', some y', some z'⟩) ∧
        seq'.toNat = k % 65536 ∧ x'.toInt = ((wobbleAt k).toInt * 125).tdiv 32 ∧
        y'.toInt = ((wobbleAt (k + 4)).toInt * 125).tdiv 32 ∧ z'.toInt = 1000 := by
  obtain ⟨n, hn, ha⟩ := nodeMain_after N
  obtain ⟨r, hr, hrep⟩ := fresh_frames st (.of_mem ho) (g := nodeOnline) (by decide) (Or.inl rfl)
    ((List.range N).map nodePayload)
  refine ⟨n, (List.range N).map fun k => (nodePayload k).bytes, r, hn, ?_, by simp, ?_, ?_, ?_⟩
  · rw [ha.tx, frames, List.flatMap_map, List.flatMap_map]
    simp only [skFrame_eq]
  · rw [ha.tx]
    simpa using hr
  · rw [hrep, List.map_map, List.map_map]
    rfl
  · intro k hk
    refine ⟨(nodePayload k).bytes, by simp [hk], ?_⟩
    intro ver type seq x y z
    refine ⟨UInt16.ofNat k, (reading k).xMg, (reading k).yMg, (reading k).zMg, ?_, ?_,
      toInt_scaled _, toInt_scaled _, toInt_scaled 256⟩
    · exact skPayloadUnpack_accel _ _ _ _ _
    · exact UInt16.toNat_ofNat'

/-- Two turns, into a buffer of sixteen bytes. -/
theorem node_run_two :
    skPayloadMax ≤ (List.replicate 16 (0 : UInt8)).length ∧
      ∃ (n : Node) (p p' : List UInt8) (r : Fed), nodeMain 2 = .ok (.running n) ∧
        n.tx = nodeOnline ++ skFrame p ++ skFrame p' ∧
        feedAll (skDecoderInit (some ⟨1, 1, 1, 99, Vector.replicate skFrameInner 0x7E⟩))
          (.mem (List.replicate 16 0)) n.tx = .ok r ∧
        reports r.calls = [(16, p), (16, p')] ∧
        ∃ seq x y z, skPayloadUnpack (.mem p') ⟨⟨some 0, some 0, some 0⟩, some 0, some 0, some 0⟩ =
            .ok (0, ⟨⟨some 1, some skTypeAccel, some seq⟩, some x, some y, some z⟩) ∧
          seq.toNat = 1 ∧ x.toInt = 15 ∧ y.toInt = 46 ∧ z.toInt = 1000 := by
  obtain ⟨n, ps, r, hrun, htx, hlen, hr, hrep, hpayloads⟩ :=
    node_run 2 ⟨1, 1, 1, 99, Vector.replicate skFrameInner 0x7E⟩ (List.replicate 16 0) (by decide)
  obtain ⟨p, p', rfl⟩ := List.length_eq_two.mp hlen
  obtain ⟨q, hq, hunpack⟩ := hpayloads 1 (by decide)
  obtain rfl : p' = q := Option.some.inj hq
  refine ⟨by decide, n, p, p', r, hrun, ?_, hr, hrep, hunpack 0 0 0 0 0 0⟩
  rw [htx, List.append_assoc]
  simp

end Sharak
