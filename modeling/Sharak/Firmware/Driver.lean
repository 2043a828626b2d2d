import Mathlib.Logic.Function.Basic
import Sharak.Firmware.Definitions

/-!
# Firmware — the driver on a faulty bus

The driver on a bus that may fail at any transaction, with or without effect, and that fills every
read as it likes.  The chip remembers each register file it has had and each register it was sent
(`Chip`), so an invariant of it (`Disciplined`) speaks of every intermediate state.  The driver
sets Measure last, behind two writes that succeeded, and no later call undoes what they wrote
(`driver_disciplined`).
-/

namespace Sharak
open Memory

/-! ### The chip and the bus -/

/-- What a transaction comes to: it works, it returns an error and has no effect, or it returns an
error and has its effect all the same. -/
inductive Fate where
  | works
  | fails (code : Int) (h : code ≠ i2cOk)
  | lies (code : Int) (h : code ≠ i2cOk)

def Fate.lands : Fate → Bool
  | .works => true
  | .fails _ _ => false
  | .lies _ _ => true

def Fate.code : Fate → Int
  | .works => i2cOk
  | .fails code _ => code
  | .lies code _ => code

/-- What the bus does to the `n`-th transaction: its fate, and the bytes it serves. -/
structure Schedule where
  fate : Nat → Fate
  data : Nat → List UInt8

abbrev RegFile := UInt8 → UInt8

/-- The chip, with the register files it has had, newest first, the register bytes it was sent,
and the number of transactions so far. -/
structure Chip where
  regs : RegFile
  past : List RegFile
  sent : List (UInt8 × UInt8)
  count : Nat

/-- All registers are zero at power-on, but for DEVID. -/
def Chip.powerOn : Chip :=
  let regs := Function.update (fun _ => 0) adxl345RegDevid adxl345DevidValue
  ⟨regs, [regs], [], 0⟩

/-- Register bytes arrive at `reg` and up, and land or do not. -/
def Chip.receive (lands : Bool) : UInt8 → List UInt8 → Chip → Chip
  | _, [], c => c
  | reg, b :: bs, c =>
      let regs := if lands then Function.update c.regs reg b else c.regs
      receive lands (reg + 1) bs
        { c with regs, past := if lands then regs :: c.past else c.past,
                 sent := (reg, b) :: c.sent }

/-- The write phase of a transaction. -/
def Chip.transact (c : Chip) (f : Fate) (bytes : List UInt8) : Chip :=
  let c := { c with count := c.count + 1 }
  match bytes with
  | [] => c
  | reg :: bs => c.receive f.lands reg bs

/-- The chip behind a bus that follows a schedule; it answers at its own address only. -/
def faultyBus (sch : Schedule) : I2cBus Chip where
  write := some fun c addr data =>
    if addr ≠ adxl345I2cAddr then pure (i2cErrNack, c)
    else pure ((sch.fate c.count).code, c.transact (sch.fate c.count) data.cells)
  writeRead := some fun c addr wdata rdata =>
    if addr ≠ adxl345I2cAddr then pure (i2cErrNack, rdata, c)
    else pure ((sch.fate c.count).code, rdata.put ((sch.data c.count).take rdata.size),
      c.transact (sch.fate c.count) wdata.cells)

/-! ### What holds of every register file -/

def Measure (R : RegFile) : Prop := R adxl345RegPowerCtl &&& adxl345PowerCtlMeasure ≠ 0

/-- DATA_FORMAT and BW_RATE are as the driver sets them. -/
def Formatted (R : RegFile) : Prop := R adxl345RegDataFormat = 0x0B ∧ R adxl345RegBwRate = 0x0A

/-- The chip measures only when it is configured. -/
def Ordered (R : RegFile) : Prop := Measure R → Formatted R

/-- The registers the driver writes. -/
def Configures (reg : UInt8) : Prop :=
  reg = adxl345RegBwRate ∨ reg = adxl345RegPowerCtl ∨ reg = adxl345RegDataFormat

/-- The chip has never measured half-configured, and was sent configuration registers only. -/
structure Disciplined (c : Chip) : Prop where
  now : Ordered c.regs
  past : ∀ R ∈ c.past, Ordered R
  sent : ∀ p ∈ c.sent, Configures p.1

theorem disciplined_powerOn : Disciplined Chip.powerOn where
  now := fun h => absurd rfl h
  past := by
    intro R hR
    obtain rfl := List.mem_singleton.mp hR
    exact fun h => absurd rfl h
  sent := by simp [Chip.powerOn]

/-! ### One register -/

/-- The chip behind a transaction that sends it nothing to store. -/
def Chip.tick (c : Chip) : Chip := { c with count := c.count + 1 }

theorem disciplined_tick {c : Chip} (h : Disciplined c) : Disciplined c.tick :=
  ⟨h.now, h.past, h.sent⟩

/-- A register write that succeeds has landed; one that fails may have. -/
theorem regWrite_faulty (sch : Schedule) (c : Chip) (reg val : UInt8) :
    ∃ rc c', regWrite (faultyBus sch) c reg val = .ok (rc, c') ∧
      c'.sent = (reg, val) :: c.sent ∧
      ((rc ≠ adxl345Ok ∧ c'.regs = c.regs ∧ c'.past = c.past) ∨
        (c'.regs = Function.update c.regs reg val ∧ c'.past = c'.regs :: c.past)) := by
  have hrun : regWrite (faultyBus sch) c reg val =
      .ok (if (sch.fate c.count).code = i2cOk then adxl345Ok else adxl345EBus,
        c.transact (sch.fate c.count) [reg, val]) := rfl
  refine ⟨_, _, hrun, rfl, ?_⟩
  generalize sch.fate c.count = f
  cases f with
  | works => exact Or.inr ⟨rfl, rfl⟩
  | fails code h =>
      refine Or.inl ⟨?_, rfl, rfl⟩
      rw [Fate.code, if_neg h]
      decide
  | lies code h => exact Or.inr ⟨rfl, rfl⟩

/-- A write of a configuration register keeps the discipline if the register file it makes is
ordered. -/
theorem regWrite_disciplined (sch : Schedule) {c : Chip} (h : Disciplined c) {reg val : UInt8}
    (hreg : Configures reg) (ho : Ordered (Function.update c.regs reg val)) :
    ∃ rc c', regWrite (faultyBus sch) c reg val = .ok (rc, c') ∧ Disciplined c' ∧
      (rc = adxl345Ok → c'.regs = Function.update c.regs reg val) := by
  obtain ⟨rc, c', hrun, hsent, hc⟩ := regWrite_faulty sch c reg val
  have hs : ∀ p ∈ c'.sent, Configures p.1 := by
    intro p hp
    rw [hsent] at hp
    rcases List.mem_cons.mp hp with rfl | hp
    · exact hreg
    · exact h.sent p hp
  refine ⟨rc, c', hrun, ?_⟩
  rcases hc with ⟨hrc, hr, hp⟩ | ⟨hr, hp⟩
  · exact ⟨⟨hr ▸ h.now, hp ▸ h.past, hs⟩, fun hok => absurd hok hrc⟩
  · refine ⟨⟨hr ▸ ho, ?_, hs⟩, fun _ => hr⟩
    intro R hR
    rw [hp] at hR
    rcases List.mem_cons.mp hR with rfl | hR
    · exact hr ▸ ho
    · exact h.past R hR

/-- The DEVID the chip's next transaction reads back is the one of an ADXL345. -/
def ReadsDevid (sch : Schedule) (c : Chip) : Prop :=
  (sch.fate c.count).code = i2cOk ∧ (sch.data c.count).head? = some adxl345DevidValue

/-- A register read changes nothing. -/
theorem regRead_faulty (sch : Schedule) (c : Chip) (reg : UInt8) :
    ∃ rc devid, regRead (faultyBus sch) c reg 0 = .ok (rc, devid, c.tick) ∧
      (rc = adxl345Ok ∧ devid = adxl345DevidValue → ReadsDevid sch c) := by
  have hput : ∃ v, (Slice.put ((sch.data c.count).take 1) (.mem [(0 : UInt8)])) = .mem [v] ∧
      (v = adxl345DevidValue → (sch.data c.count).head? = some adxl345DevidValue) := by
    cases sch.data c.count with
    | nil => exact ⟨0, rfl, fun h => absurd h (by decide)⟩
    | cons v vs => exact ⟨v, rfl, fun h => congrArg some h⟩
  obtain ⟨v, hv, hdev⟩ := hput
  refine ⟨if (sch.fate c.count).code = i2cOk then adxl345Ok else adxl345EBus, v, ?_, ?_⟩
  · have hrun : regRead (faultyBus sch) c reg 0 =
        (Slice.put ((sch.data c.count).take 1) (.mem [0])).read 0 >>= fun val =>
          .ok (if (sch.fate c.count).code = i2cOk then adxl345Ok else adxl345EBus, val, c.tick) :=
      rfl
    rw [hrun, hv]
    rfl
  · rintro ⟨hrc, hval⟩
    refine ⟨?_, hdev hval⟩
    by_contra hne
    rw [if_neg hne] at hrc
    cases hrc

/-! ### The calls -/

theorem ordered_dataFormat {R : RegFile} (h : Ordered R) :
    Ordered (Function.update R adxl345RegDataFormat adxl345DataFormatConfig) := by
  intro hm
  have hm' : Measure R := by simpa [Measure, adxl345RegPowerCtl, adxl345RegDataFormat] using hm
  exact ⟨rfl, (h hm').2⟩

theorem ordered_bwRate {R : RegFile} (h : Ordered R) :
    Ordered (Function.update R adxl345RegBwRate adxl345Rate100hz) := by
  intro hm
  have hm' : Measure R := by simpa [Measure, adxl345RegPowerCtl, adxl345RegBwRate] using hm
  exact ⟨(h hm').1, rfl⟩

theorem ordered_powerCtl {R : RegFile} (h : Formatted R) :
    Ordered (Function.update R adxl345RegPowerCtl adxl345PowerCtlMeasure) := fun _ => h

/-- The chip is as `adxl345_init` is to leave it. -/
def Configured (R : RegFile) : Prop := Formatted R ∧ R adxl345RegPowerCtl = 0x08

theorem busOk_faulty (sch : Schedule) : ¬ busOk (some (faultyBus sch)) = false := by
  simp [busOk, faultyBus]

/-- **`adxl345_init` on a faulty bus.** -/
theorem init_faulty (sch : Schedule) {c : Chip} (hc : Disciplined c) :
    ∃ rc c', adxl345Init (some (faultyBus sch)) c = .ok (rc, c') ∧ Disciplined c' ∧
      (rc = adxl345Ok → Configured c'.regs) ∧
      (¬ ReadsDevid sch c → c'.regs = c.regs ∧ c'.past = c.past) := by
  -- each early return leaves the chip disciplined; only the last return says OK
  obtain ⟨rc₀, devid, h₀, hdev⟩ := regRead_faulty sch c adxl345RegDevid
  simp only [adxl345Init, if_neg (busOk_faulty sch), deref_some, ok_bind, h₀]
  by_cases e₀ : rc₀ = adxl345Ok
  swap
  · exact ⟨rc₀, c.tick, if_pos e₀, disciplined_tick hc, fun h => absurd h e₀, fun _ => ⟨rfl, rfl⟩⟩
  rw [if_neg (not_not.mpr e₀)]
  by_cases ed : devid = adxl345DevidValue
  swap
  · exact ⟨_, c.tick, if_pos ed, disciplined_tick hc, fun h => absurd h (by decide),
      fun _ => ⟨rfl, rfl⟩⟩
  have hread : ReadsDevid sch c := hdev ⟨e₀, ed⟩
  obtain ⟨rc₁, c₁, h₁, d₁, f₁⟩ := regWrite_disciplined sch (disciplined_tick hc)
    (Or.inr (Or.inr rfl)) (ordered_dataFormat hc.now)
  simp only [if_neg (not_not.mpr ed), h₁, ok_bind]
  by_cases e₁ : rc₁ = adxl345Ok
  swap
  · exact ⟨rc₁, c₁, if_pos e₁, d₁, fun h => absurd h e₁, fun h => absurd hread h⟩
  obtain ⟨rc₂, c₂, h₂, d₂, f₂⟩ := regWrite_disciplined sch d₁ (Or.inl rfl) (ordered_bwRate d₁.now)
  simp only [if_neg (not_not.mpr e₁), h₂, ok_bind]
  by_cases e₂ : rc₂ = adxl345Ok
  swap
  · exact ⟨rc₂, c₂, if_pos e₂, d₂, fun h => absurd h e₂, fun h => absurd hread h⟩
  have hform : Formatted c₂.regs := by
    rw [f₂ e₂, f₁ e₁]
    exact ⟨rfl, rfl⟩
  obtain ⟨rc₃, c₃, h₃, d₃, f₃⟩ := regWrite_disciplined sch d₂ (Or.inr (Or.inl rfl))
    (ordered_powerCtl hform)
  simp only [if_neg (not_not.mpr e₂), h₃, ok_bind]
  by_cases e₃ : rc₃ = adxl345Ok
  swap
  · exact ⟨rc₃, c₃, if_pos e₃, d₃, fun h => absurd h e₃, fun h => absurd hread h⟩
  refine ⟨_, c₃, if_neg (not_not.mpr e₃), d₃, fun _ => ?_, fun h => absurd hread h⟩
  rw [f₃ e₃]
  exact ⟨hform, rfl⟩

theorem getLe16_ok {cs : List UInt8} {off : Nat} (h : off + 1 < cs.length) :
    ∃ u, getLe16 (.mem cs) off = .ok u := by
  rw [getLe16, Slice.read_mem (by omega), Slice.read_mem h]
  exact ⟨_, rfl⟩

theorem adxl345Decode_ok {raw : List UInt8} (h : raw.length = 6) :
    ∃ a, adxl345Decode (.mem raw) = .ok a := by
  obtain ⟨x, hx⟩ := @getLe16_ok raw 0 (by omega)
  obtain ⟨y, hy⟩ := @getLe16_ok raw 2 (by omega)
  obtain ⟨z, hz⟩ := @getLe16_ok raw 4 (by omega)
  rw [adxl345Decode, hx, hy, hz]
  exact ⟨_, rfl⟩

/-- **`adxl345_read` on a faulty bus.** -/
theorem read_faulty (sch : Schedule) {c : Chip} (hc : Disciplined c) (out : Option Adxl345Accel) :
    ∃ rc out' c', adxl345Read (some (faultyBus sch)) c out = .ok (rc, out', c') ∧
      Disciplined c' ∧ (rc ≠ adxl345Ok → out' = out) := by
  cases out with
  | none => exact ⟨adxl345EParam, none, c, rfl, hc, fun _ => rfl⟩
  | some a =>
      have hbus : ¬ (busOk (some (faultyBus sch)) = false ∨ (some a).isNone = true) :=
        not_or.mpr ⟨busOk_faulty sch, nofun⟩
      -- the bus fills `raw` as it likes, but `raw` keeps its six bytes
      have hraw : (overlay ((sch.data c.count).take 6) (List.replicate 6 0)).length = 6 := by
        rw [length_overlay (List.length_take_le 6 _), List.length_replicate]
      obtain ⟨b, hb⟩ := adxl345Decode_ok hraw
      by_cases hcode : (sch.fate c.count).code = i2cOk
      · refine ⟨adxl345Ok, some b, c.tick, ?_, disciplined_tick hc, fun h => absurd rfl h⟩
        rw [adxl345Read, if_neg hbus]
        refine (if_neg (not_not.mpr hcode)).trans ?_
        exact congrArg (fun r => r >>= fun b => .ok (adxl345Ok, some b, c.tick)) hb
      · refine ⟨adxl345EBus, some a, c.tick, ?_, disciplined_tick hc, fun _ => rfl⟩
        rw [adxl345Read, if_neg hbus]
        exact if_pos hcode

/-- **`adxl345_selftest` on a faulty bus.** -/
theorem selftest_faulty (sch : Schedule) {c : Chip} (hc : Disciplined c) :
    ∃ rc, adxl345Selftest (some (faultyBus sch)) c = .ok (rc, c.tick) ∧ Disciplined c.tick := by
  obtain ⟨rc, devid, h, -⟩ := regRead_faulty sch c adxl345RegDevid
  rw [adxl345Selftest, if_neg (busOk_faulty sch), deref_some, ok_bind, h, ok_bind]
  by_cases e : rc = adxl345Ok
  · exact ⟨_, if_neg (not_not.mpr e), disciplined_tick hc⟩
  · exact ⟨_, if_pos e, disciplined_tick hc⟩

/-! ### Runs -/

/-- A call of the driver; `read` names the object behind `out`. -/
inductive DriverCall where
  | init
  | read (out : Option Adxl345Accel)
  | selftest

/-- A call that has returned: the chip on either side of it, its return code, and `*out` behind
it. -/
structure Done where
  call : DriverCall
  before : Chip
  ret : Int
  out : Option Adxl345Accel
  after : Chip

def runCall (sch : Schedule) (c : Chip) : DriverCall → Checked Done
  | .init => do
      let (ret, c') ← adxl345Init (some (faultyBus sch)) c
      pure ⟨.init, c, ret, none, c'⟩
  | .read out => do
      let (ret, out', c') ← adxl345Read (some (faultyBus sch)) c out
      pure ⟨.read out, c, ret, out', c'⟩
  | .selftest => do
      let (ret, c') ← adxl345Selftest (some (faultyBus sch)) c
      pure ⟨.selftest, c, ret, none, c'⟩

/-- The calls in order, each on the chip the one before has left. -/
def runCalls (sch : Schedule) (c : Chip) : List DriverCall → Checked (List Done × Chip)
  | [] => pure ([], c)
  | call :: calls => do
      let done ← runCall sch c call
      let (rest, c') ← runCalls sch done.after calls
      pure (done :: rest, c')

/-- What a call guarantees on whatever bus. -/
structure Sound (sch : Schedule) (d : Done) : Prop where
  /-- An `init` that did not read DEVID back changes no register. -/
  untouched : d.call = .init → ¬ ReadsDevid sch d.before →
    d.after.regs = d.before.regs ∧ d.after.past = d.before.past
  configured : d.call = .init → d.ret = adxl345Ok → Configured d.after.regs
  kept : ∀ out, d.call = .read out → d.ret ≠ adxl345Ok → d.out = out

theorem runCall_disciplined (sch : Schedule) {c : Chip} (hc : Disciplined c) (call : DriverCall) :
    ∃ d, runCall sch c call = .ok d ∧ Sound sch d ∧ Disciplined d.after := by
  cases call with
  | init =>
      obtain ⟨rc, c', h, hd, hok, hdev⟩ := init_faulty sch hc
      refine ⟨⟨.init, c, rc, none, c'⟩, ?_, ⟨fun _ => hdev, fun _ => hok, nofun⟩, hd⟩
      rw [runCall, h]
      rfl
  | read out =>
      obtain ⟨rc, out', c', h, hd, hout⟩ := read_faulty sch hc out
      refine ⟨⟨.read out, c, rc, out', c'⟩, ?_, ⟨nofun, nofun, ?_⟩, hd⟩
      · rw [runCall, h]
        rfl
      · rintro _ ⟨⟩
        exact hout
  | selftest =>
      obtain ⟨rc, h, hd⟩ := selftest_faulty sch hc
      refine ⟨⟨.selftest, c, rc, none, c.tick⟩, ?_, ⟨nofun, nofun, nofun⟩, hd⟩
      rw [runCall, h]
      rfl

theorem runCalls_disciplined (sch : Schedule) (calls : List DriverCall) {c : Chip}
    (hc : Disciplined c) :
    ∃ ds c', runCalls sch c calls = .ok (ds, c') ∧ (∀ d ∈ ds, Sound sch d) ∧ Disciplined c' := by
  induction calls generalizing c with
  | nil => exact ⟨[], c, rfl, by simp, hc⟩
  | cons call calls ih =>
      obtain ⟨d, hrun, hs, hd⟩ := runCall_disciplined sch hc call
      obtain ⟨ds, c', hrest, hss, hc'⟩ := ih hd
      refine ⟨d :: ds, c', ?_, ?_, hc'⟩
      · rw [runCalls, hrun, ok_bind, hrest]
        rfl
      · intro e he
        rcases List.mem_cons.mp he with rfl | he
        · exact hs
        · exact hss e he

/-- **The driver on a faulty bus.**  From power-on, whatever the bus does and whatever is called:
every register file the chip has had measures only when configured, and only the three
configuration registers were written. -/
theorem driver_disciplined (sch : Schedule) (calls : List DriverCall) :
    ∃ ds chip, runCalls sch Chip.powerOn calls = .ok (ds, chip) ∧
      (∀ R ∈ chip.past, Measure R → R adxl345RegDataFormat = 0x0B ∧ R adxl345RegBwRate = 0x0A) ∧
      (∀ p ∈ chip.sent, p.1 = 0x2C ∨ p.1 = 0x2D ∨ p.1 = 0x31) ∧
      (∀ d ∈ ds, d.call = .init → ¬ ReadsDevid sch d.before →
        d.after.regs = d.before.regs ∧ d.after.past = d.before.past) ∧
      (∀ d ∈ ds, d.call = .init → d.ret = adxl345Ok →
        d.after.regs adxl345RegDataFormat = 0x0B ∧ d.after.regs adxl345RegBwRate = 0x0A ∧
          d.after.regs adxl345RegPowerCtl = 0x08) ∧
      (∀ d ∈ ds, ∀ out, d.call = .read out → d.ret ≠ adxl345Ok → d.out = out) := by
  obtain ⟨ds, chip, hrun, hs, hc⟩ := runCalls_disciplined sch calls disciplined_powerOn
  refine ⟨ds, chip, hrun, hc.past, hc.sent, fun d hd => (hs d hd).untouched, ?_,
    fun d hd => (hs d hd).kept⟩
  intro d hd hcall hret
  obtain ⟨⟨hfmt, hrate⟩, hpow⟩ := (hs d hd).configured hcall hret
  exact ⟨hfmt, hrate, hpow⟩

end Sharak
