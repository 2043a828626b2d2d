import Sharak.Firmware.Node
import Sharak.Firmware.Portability

/-!
# Firmware — the sensor

What the driver and the chip are for: readings one after another, once the sensor has been started
(`Sensor`).  The driver on the simulated chip is that, over any calls from power-on
(`driver_sensor`), and so is the driver on the I2C0 master with such a chip on its wires
(`master_sensor`).
-/

namespace Sharak
open Memory Lockstep

/-! ### The sensor -/

/-- Whether it has been started, and how many samples it has taken. -/
structure Sensor where
  started : Bool
  samples : Nat
deriving DecidableEq, Repr

/-- What a call answers. -/
def Sensor.call (x : Sensor) : DriverCall → (Int × Option Adxl345Accel) × Sensor
  | .init => ((adxl345Ok, none), { x with started := true })
  | .read none => ((adxl345EParam, none), x)
  | .read (some _) =>
      if x.started then ((adxl345Ok, some (reading x.samples)), { x with samples := x.samples + 1 })
      else ((adxl345Ok, some ⟨0, 0, 0⟩), x)
  | .selftest => ((adxl345Ok, none), x)

/-- The sensor, as a component that never fails. -/
def Sensor.step (x : Sensor) (call : DriverCall) :
    Checked ((Int × Option Adxl345Accel) × Sensor) := .ok (x.call call)

/-- The chip behind the driver shows the sensor: its phase has counted the samples, and until it
is started its data registers are zero. -/
structure Sensor.Shown (x : Sensor) (s : I2cSim) : Prop where
  inside : s.Inside
  devid : s.reg simRegDevid = simDevidValue
  started : x.started = true → s.Measuring
  asleep : x.started = false → ¬ s.Measuring ∧ ∀ i, IsData i → s.reg i = 0
  phase : s.phase = UInt32.ofNat x.samples

theorem shown_powerOn : Sensor.Shown ⟨false, 0⟩ simPowerOn where
  inside := inside_powerOn
  devid := rfl
  started := nofun
  asleep := fun _ => by
    have hzero : ∀ i < i2cSimNregs, IsData i → simPowerOn.reg i = 0 := by decide
    exact ⟨by decide, fun i hi => hzero i (Nat.lt_of_le_of_lt hi.2 (by decide)) hi⟩
  phase := rfl

/-- The register pointer is not shown. -/
theorem Sensor.Shown.of_regs {x : Sensor} {s s' : I2cSim} (h : x.Shown s) (hs : s'.Inside)
    (hregs : s'.regs = s.regs) (hphase : s'.phase = s.phase) : x.Shown s' := by
  have hreg : ∀ i, s'.reg i = s.reg i := fun i => by rw [I2cSim.reg, hregs, I2cSim.reg]
  refine ⟨hs, (hreg _).trans h.devid, fun hx => ?_, fun hx => ⟨?_, fun i hi => ?_⟩,
    hphase.trans h.phase⟩
  · rw [I2cSim.Measuring, hreg]
    exact h.started hx
  · rw [I2cSim.Measuring, hreg]
    exact (h.asleep hx).1
  · rw [hreg]
    exact (h.asleep hx).2 i hi

/-! ### The driver on the simulated chip -/

/-- The chip once DEVID has been read. -/
def I2cSim.identified (s : I2cSim) : I2cSim := I2cSim.next { s with ptr := adxl345RegDevid }

theorem regRead_sim {s : I2cSim} (hs : s.Inside) :
    regRead simBus (some s) adxl345RegDevid 0 =
      .ok (adxl345Ok, s.reg simRegDevid, some s.identified) := by
  have hp : ∀ b ∈ (Slice.mem [adxl345RegDevid]).cells.head?, b.toNat < i2cSimNregs := by
    rintro b ⟨⟩
    decide
  have hno : ¬ simTouchesData adxl345RegDevid 1 = true := by decide
  have hsnap : (s.written [adxl345RegDevid]).snapshot 1 = s.written [adxl345RegDevid] :=
    if_neg fun h => hno h.1.2
  have hcall := @simWriteRead_ok s hs (.mem [adxl345RegDevid]) (.mem [0]) (by simp [Readable])
    (by simp [Readable]) hp
  simp only [Slice.cells_mem, Slice.size_mem, List.length_singleton, hsnap] at hcall
  have hrun : regRead simBus (some s) adxl345RegDevid 0 =
      simWriteRead (some s) simAddr (.mem [adxl345RegDevid]) (.mem [0]) >>= fun r =>
        r.2.1.read 0 >>= fun val =>
          .ok (if r.1 = i2cOk then adxl345Ok else adxl345EBus, val, r.2.2) := rfl
  rw [hrun, hcall]
  rfl

/-- The chip once a register has been written. -/
def I2cSim.configured (s : I2cSim) (reg val : UInt8) : I2cSim := I2cSim.put { s with ptr := reg } val

theorem regWrite_sim {reg : UInt8} (hreg : reg.toNat < i2cSimNregs) (s : I2cSim) (val : UInt8) :
    regWrite simBus (some s) reg val = .ok (adxl345Ok, some (s.configured reg val)) := by
  have hp : ∀ b ∈ (Slice.mem [reg, val]).cells.head?, b.toNat < i2cSimNregs := by
    rintro b ⟨⟩
    exact hreg
  have hrun : regWrite simBus (some s) reg val =
      simWrite (some s) simAddr (.mem [reg, val]) >>= fun r =>
        .ok (if r.1 = i2cOk then adxl345Ok else adxl345EBus, r.2) := rfl
  rw [hrun, simWrite_ok (by simp [Readable]) hp]
  rfl

theorem reg_configured {reg : UInt8} (hreg : reg.toNat < i2cSimNregs) (s : I2cSim) (val : UInt8)
    (i : Nat) : (s.configured reg val).reg i = if i = reg.toNat then val else s.reg i :=
  @reg_put { s with ptr := reg } hreg val i

/-- The chip once `adxl345_init` has returned. -/
def I2cSim.initialised (s : I2cSim) : I2cSim :=
  ((s.identified.configured adxl345RegDataFormat adxl345DataFormatConfig).configured
    adxl345RegBwRate adxl345Rate100hz).configured adxl345RegPowerCtl adxl345PowerCtlMeasure

theorem shown_initialised {x : Sensor} {s : I2cSim} (h : x.Shown s) :
    Sensor.Shown { x with started := true } s.initialised := by
  have hreg : ∀ i, s.initialised.reg i = if i = 0x2D then 0x08 else if i = 0x2C then 0x0A
      else if i = 0x31 then 0x0B else s.reg i := by
    intro i
    rw [I2cSim.initialised, reg_configured (by decide), reg_configured (by decide),
      reg_configured (by decide)]
    rfl
  have hpower : s.initialised.reg simRegPowerCtl = 0x08 := (hreg _).trans (if_pos rfl)
  refine ⟨inside_put _ _, (hreg _).trans h.devid, fun _ => ?_, nofun, h.phase⟩
  rw [I2cSim.Measuring, hpower]
  decide

theorem adxl345Init_sim {s : I2cSim} (hs : s.Inside) (hd : s.reg simRegDevid = simDevidValue) :
    adxl345Init (some simBus) (some s) = .ok (adxl345Ok, some s.initialised) := by
  have hdev : ¬ simDevidValue ≠ adxl345DevidValue := by decide
  have hok : ¬ adxl345Ok ≠ adxl345Ok := by decide
  rw [adxl345Init, if_neg (by decide), deref_some, ok_bind, regRead_sim hs, hd]
  simp only [ok_bind, if_neg hok, if_neg hdev, regWrite_sim (show adxl345RegDataFormat.toNat <
    i2cSimNregs by decide), regWrite_sim (show adxl345RegBwRate.toNat < i2cSimNregs by decide),
    regWrite_sim (show adxl345RegPowerCtl.toNat < i2cSimNregs by decide), pure_ok]
  rfl

theorem adxl345Selftest_sim {s : I2cSim} (hs : s.Inside)
    (hd : s.reg simRegDevid = simDevidValue) :
    adxl345Selftest (some simBus) (some s) = .ok (adxl345Ok, some s.identified) := by
  rw [adxl345Selftest, if_neg (by decide), deref_some, ok_bind, regRead_sim hs, hd]
  rfl

/-- A read of a chip that does not measure: what its data registers hold. -/
theorem adxl345Read_asleep {s : I2cSim} (hs : s.Inside) (hm : ¬ s.Measuring)
    (hzero : ∀ i, IsData i → s.reg i = 0) (out : Adxl345Accel) :
    adxl345Read (some simBus) (some s) (some out) =
      .ok (adxl345Ok, some ⟨0, 0, 0⟩,
        some (I2cSim.next^[6] { s with ptr := adxl345RegDatax0 })) := by
  have hp : ∀ b ∈ (Slice.mem [adxl345RegDatax0]).cells.head?, b.toNat < i2cSimNregs := by
    rintro b ⟨⟩
    decide
  have hsnap : (s.written [adxl345RegDatax0]).snapshot 6 = { s with ptr := adxl345RegDatax0 } :=
    if_neg fun h => hm h.2
  have hserve : I2cSim.serve { s with ptr := adxl345RegDatax0 } 6 = List.replicate 6 0 := by
    have hn : adxl345RegDatax0.toNat + (List.replicate 6 (0 : UInt8)).length ≤ i2cSimNregs := by
      decide
    refine @serve_eq { s with ptr := adxl345RegDatax0 } _ hn fun k hk => ?_
    rw [List.getElem_replicate]
    exact hzero _ ⟨Nat.le_add_right _ _, Nat.le_of_lt_succ (Nat.add_lt_add_left hk _)⟩
  have hcall := @simWriteRead_ok s hs (.mem [adxl345RegDatax0]) (.mem (List.replicate 6 0))
    (by simp [Readable]) (by simp [Readable]) hp
  simp only [Slice.cells_mem, Slice.size_mem, List.length_replicate, hsnap, hserve, Slice.put_mem]
    at hcall
  have hrun : adxl345Read (some simBus) (some s) (some out) =
      simWriteRead (some s) simAddr (.mem [adxl345RegDatax0]) (.mem (List.replicate 6 0)) >>=
        fun r => if r.1 ≠ i2cOk then pure (adxl345EBus, some out, r.2.2)
          else adxl345Decode r.2.1 >>= fun a => pure (adxl345Ok, some a, r.2.2) := rfl
  rw [hrun, hcall]
  rfl

/-! ### Refinement -/

/-- The sensor, and the simulator that shows it. -/
def Shows (x : Sensor) (o : Option I2cSim) : Prop := ∃ s, o = some s ∧ x.Shown s

theorem afterRead_shown {x : Sensor} {s : I2cSim} (h : x.Shown s) (hx : x.started = true) :
    Sensor.Shown { x with samples := x.samples + 1 } s.afterRead := by
  have hdevid : s.afterRead.reg simRegDevid = s.reg simRegDevid := by
    rw [I2cSim.afterRead, I2cSim.reg, nexts_regs]
    exact refreshed_other { s with ptr := adxl345RegDatax0 } (by decide)
  refine ⟨afterRead_inside s, hdevid.trans h.devid, fun _ => afterRead_measuring (h.started hx),
    fun hx' => ?_, ?_⟩
  · cases hx.symm.trans hx'
  · rw [afterRead_phase, h.phase]
    exact (UInt32.ofNat_add x.samples 1).symm

theorem read_shown {x : Sensor} {s : I2cSim} (h : x.Shown s) (out : Adxl345Accel) :
    Both (Same Shows) (x.step (.read (some out)))
      ((DriverCall.read (some out)).on (some simBus) (some s)) := by
  have hon : ∀ {rc o c}, adxl345Read (some simBus) (some s) (some out) = .ok (rc, o, c) →
      (DriverCall.read (some out)).on (some simBus) (some s) = .ok ((rc, o), c) := by
    intro rc o c hread
    rw [DriverCall.on, hread]
    rfl
  by_cases hx : x.started = true
  · have hread : adxl345Read (some simBus) (some s) (some out) = _ :=
      adxl345Read_sim h.inside (h.started hx) out
    rw [h.phase, reading_wrap] at hread
    rw [Sensor.step, Sensor.call, if_pos hx, hon hread]
    exact both_ok ⟨rfl, _, rfl, afterRead_shown h hx⟩
  · obtain ⟨hm, hzero⟩ := h.asleep (Bool.not_eq_true _ ▸ hx)
    rw [Sensor.step, Sensor.call, if_neg hx, hon (adxl345Read_asleep h.inside hm hzero out)]
    refine both_ok ⟨rfl, _, rfl, h.of_regs (inside_nexts ?_ 6) (nexts_regs _ 6) (nexts_phase _ 6)⟩
    exact show adxl345RegDatax0.toNat < i2cSimNregs by decide

/-- One call. -/
theorem call_shown (call : DriverCall) (x : Sensor) (o : Option I2cSim) (h : Shows x o) :
    Both (Same Shows) (x.step call) (call.on (some simBus) o) := by
  obtain ⟨s, rfl, h⟩ := h
  cases call with
  | init =>
      rw [DriverCall.on, adxl345Init_sim h.inside h.devid]
      exact both_ok ⟨rfl, _, rfl, shown_initialised h⟩
  | read out =>
      cases out with
      | none =>
          have hon : (DriverCall.read none).on (some simBus) (some s) =
              .ok ((adxl345EParam, none), some s) := rfl
          rw [hon]
          exact both_ok ⟨rfl, s, rfl, h⟩
      | some out => exact read_shown h out
  | selftest =>
      rw [DriverCall.on, adxl345Selftest_sim h.inside h.devid]
      exact both_ok ⟨rfl, _, rfl, h.of_regs (inside_next _) rfl rfl⟩

/-- **The driver on the simulated chip.**  Over any calls from `i2c_sim_init`, the return codes and
the readings are those of the sensor: zero before the first start, and from then on one sample after
another, whatever calls come between. -/
theorem driver_sensor (sim : I2cSim) (calls : List DriverCall) :
    ∃ answers x s', run Sensor.step ⟨false, 0⟩ calls = .ok (answers, x) ∧
      run (DriverCall.on nodeBus) (i2cSimInit (some sim)) calls = .ok (answers, some s') ∧
      s'.phase = UInt32.ofNat x.samples := by
  obtain ⟨p, q, hp, hq, hpq, s', hs', h⟩ :=
    run_same call_shown calls ⟨simPowerOn, rfl, shown_powerOn⟩
  refine ⟨p.1, p.2, s', hp, ?_, h.phase⟩
  rw [hpq, ← hs']
  exact hq

/-- **The driver on the master.**  On the bus `i2c_stellaris_init` fills, with a chip at power-on on
the wires, over any calls, the return codes and the readings are those of the sensor. -/
theorem master_sensor {hw : Hardware} (hc : Wired hw simPowerOn) (bus : I2cBus (List Access))
    (board : Board) (calls : List DriverCall) :
    ∃ answers x h', run Sensor.step ⟨false, 0⟩ calls = .ok (answers, x) ∧
      run (DriverCall.on (i2cStellarisInit hw (some bus) board).1) [] calls = .ok (answers, h') ∧
      (wires simPowerOn h').slave.chip.phase = UInt32.ofNat x.samples := by
  have hsensor := run_same call_shown calls ⟨simPowerOn, rfl, shown_powerOn⟩
  have hsame : SameChip simPowerOn (some simPowerOn) [] := ⟨rfl, inside_powerOn⟩
  have hbuses := run_same (fun call s u h => call_same (interchangeable_wired hc) h call) calls hsame
  obtain ⟨p, q, hp, hq, hpq, o, ⟨s, rfl, hs⟩, hchip, -⟩ := hsensor.trans hbuses
  refine ⟨p.1, p.2, q.2, hp, ?_, ?_⟩
  · rw [hpq]
    exact hq
  · rw [← Option.some.inj hchip]
    exact hs.phase

/-- A reading before the start and two behind it. -/
theorem master_sensor_two : ∃ answers x h', run Sensor.step ⟨false, 0⟩
      [.read (some ⟨1, 1, 1⟩), .init, .read (some ⟨0, 0, 0⟩), .selftest, .read (some ⟨0, 0, 0⟩)] =
        .ok (answers, x) ∧
    run (DriverCall.on (i2cStellarisInit (chipOnly simPowerOn) (some ⟨none, none⟩)
      ⟨fun _ => 0, []⟩).1) []
      [.read (some ⟨1, 1, 1⟩), .init, .read (some ⟨0, 0, 0⟩), .selftest, .read (some ⟨0, 0, 0⟩)] =
        .ok (answers, h') ∧
    (wires simPowerOn h').slave.chip.phase = UInt32.ofNat x.samples :=
  master_sensor (wired_chipOnly simPowerOn) _ _ _

end Sharak
