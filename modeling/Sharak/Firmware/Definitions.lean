import Sharak.Protocol.Definitions

/-!
# Firmware — Definitions

The node's firmware, function by function: the bus interface of `i2c.h`, the simulated chip behind
it (`i2c_sim.c`), the I2C0 master (`i2c_stellaris.c`), the accelerometer driver (`adxl345.c`) and
the super-loop (`main.c`).  A backend's private state, what `ctx` points to, is passed along
explicitly, so the driver is generic in it; for the I2C0 master it is the accesses to its registers
so far.  The bytes pushed out of UART0 are a list, in order.
-/

namespace Sharak
open Memory

/-! ### The bus interface -/

def i2cOk : Int := 0
def i2cErrNack : Int := -1
def i2cErrBus : Int := -2
def i2cErrParam : Int := -3

/-- `i2c_bus_t` over a backend with private state `σ`; `none` is a `NULL` function pointer. -/
structure I2cBus (σ : Type) where
  write : Option (σ → UInt8 → Slice UInt8 → Checked (Int × σ))
  writeRead : Option (σ → UInt8 → Slice UInt8 → Slice UInt8 → Checked (Int × Slice UInt8 × σ))

/-! ### The simulated chip -/

def i2cSimNregs : Nat := 0x3A

/-- `i2c_sim_t`. -/
structure I2cSim where
  regs : Vector UInt8 i2cSimNregs
  ptr : UInt8
  phase : UInt32
deriving DecidableEq, Repr

def simAddr : UInt8 := 0x53
def simRegDevid : Nat := 0x00
def simRegPowerCtl : Nat := 0x2D
def simRegDatax0 : Nat := 0x32
def simRegDataz1 : Nat := 0x37
def simDevidValue : UInt8 := 0xE5
def simPowerCtlMeasure : UInt8 := 0x08

/-- The triangle wave. -/
def wobble : Vector Int16 16 := #v[0, 4, 8, 12, 16, 12, 8, 4, 0, -4, -8, -12, -16, -12, -8, -4]

def simNextPtr (ptr : UInt8) : UInt8 :=
  let ptr := ptr + 1
  if ptr.toNat ≥ i2cSimNregs then 0 else ptr

def simRefreshSample (s : I2cSim) : Checked I2cSim := do
  let x ← load wobble (s.phase &&& 15).toNat
  let y ← load wobble ((s.phase + 4) &&& 15).toNat
  let z : Int16 := 256
  let regs ← store s.regs (simRegDatax0 + 0) (x.toUInt16 &&& 0xFF).toUInt8
  let regs ← store regs (simRegDatax0 + 1) ((x.toUInt16 >>> 8) &&& 0xFF).toUInt8
  let regs ← store regs (simRegDatax0 + 2) (y.toUInt16 &&& 0xFF).toUInt8
  let regs ← store regs (simRegDatax0 + 3) ((y.toUInt16 >>> 8) &&& 0xFF).toUInt8
  let regs ← store regs (simRegDatax0 + 4) (z.toUInt16 &&& 0xFF).toUInt8
  let regs ← store regs (simRegDatax0 + 5) ((z.toUInt16 >>> 8) &&& 0xFF).toUInt8
  pure { s with regs, phase := s.phase + 1 }

/-- The `uint32_t` cast of `rlen` and the addition wrap. -/
def simTouchesData (ptr : UInt8) (rlen : Nat) : Bool :=
  ptr.toNat ≤ simRegDataz1 ∧ (ptr.toUInt32 + rlen.toUInt32).toNat > simRegDatax0

/-- The loop of the write phases: `data[i] …` into the registers from the pointer on. -/
def simWriteLoop (data : Slice UInt8) : (todo i : Nat) → I2cSim → Checked I2cSim
  | 0, _, s => pure s
  | todo + 1, i, s => do
      let b ← data.read i
      let regs ← store s.regs s.ptr.toNat b
      simWriteLoop data todo (i + 1) { s with regs, ptr := simNextPtr s.ptr }

/-- The loop of the read phase: the registers from the pointer on into `rdata[i] …`. -/
def simReadLoop : (todo i : Nat) → Slice UInt8 → I2cSim → Checked (Slice UInt8 × I2cSim)
  | 0, _, rdata, s => pure (rdata, s)
  | todo + 1, i, rdata, s => do
      let b ← load s.regs s.ptr.toNat
      let rdata ← rdata.write i b
      simReadLoop todo (i + 1) rdata { s with ptr := simNextPtr s.ptr }

/-- The write phase, if there is one: the first byte sets the register pointer, the rest are
register writes.  `sim_write` has returned when there is none. -/
def simWritePhase (s : I2cSim) (data : Slice UInt8) : Checked I2cSim :=
  if data.size > 0 then do
    let ptr ← data.read 0
    simWriteLoop data (data.size - 1) 1 { s with ptr }
  else pure s

/-- The fresh sample a read of measured data takes, before any byte is served. -/
def simSamplePhase (s : I2cSim) (rlen : Nat) : Checked I2cSim :=
  if rlen > 0 ∧ simTouchesData s.ptr rlen then do
    let powerCtl ← load s.regs simRegPowerCtl
    if powerCtl &&& simPowerCtlMeasure ≠ 0 then simRefreshSample s else pure s
  else pure s

def simWrite (ctx : Option I2cSim) (addr : UInt8) (data : Slice UInt8) :
    Checked (Int × Option I2cSim) :=
  match ctx with
  | none => pure (i2cErrParam, none)
  | some s =>
      if addr ≠ simAddr then pure (i2cErrNack, some s)
      else if data.size = 0 then pure (i2cOk, some s)
      else if data.isNull then pure (i2cErrParam, some s)
      else do
        let s ← simWritePhase s data
        pure (i2cOk, some s)

def simWriteRead (ctx : Option I2cSim) (addr : UInt8) (wdata rdata : Slice UInt8) :
    Checked (Int × Slice UInt8 × Option I2cSim) :=
  match ctx with
  | none => pure (i2cErrParam, rdata, none)
  | some s =>
      if addr ≠ simAddr then pure (i2cErrNack, rdata, some s)
      else if (wdata.size > 0 ∧ wdata.isNull) ∨ (rdata.size > 0 ∧ rdata.isNull) then
        pure (i2cErrParam, rdata, some s)
      else do
        let s ← simWritePhase s wdata
        let s ← simSamplePhase s rdata.size
        let (rdata, s) ← simReadLoop rdata.size 0 rdata s
        pure (i2cOk, rdata, some s)

/-- The registers after `i2c_sim_init`: zero, but for DEVID. -/
def simPowerOn : I2cSim :=
  ⟨(Vector.replicate i2cSimNregs 0).set simRegDevid simDevidValue (by decide), 0, 0⟩

def i2cSimInit (sim : Option I2cSim) : Option I2cSim := sim.map fun _ => simPowerOn

/-- `bus->ctx` is the simulator's state, which is passed along. -/
def i2cSimBind (bus : Option (I2cBus (Option I2cSim))) : Option (I2cBus (Option I2cSim)) :=
  bus.map fun _ => ⟨some simWrite, some simWriteRead⟩

/-! ### The I2C0 master -/

/-- The registers of the master a transfer touches. -/
inductive Reg where
  | msa
  | mcs
  | mdr
deriving DecidableEq, Repr

/-- An access to a `volatile` register: a store, or a load and the word it gave. -/
inductive Access where
  | wrote (r : Reg) (v : UInt32)
  | read (r : Reg) (v : UInt32)
deriving DecidableEq, Repr

def mcsRun : UInt32 := 0x01
def mcsStart : UInt32 := 0x02
def mcsStop : UInt32 := 0x04
def mcsAck : UInt32 := 0x08
def mcsBusy : UInt32 := 0x01
def mcsError : UInt32 := 0x02
def mcsAdrack : UInt32 := 0x04
def mcsDatack : UInt32 := 0x08
def mcsArblst : UInt32 := 0x10
def msaReceive : UInt32 := 0x01

/-- The accesses of `k` polls of I2CMCS behind `h`. -/
def polled (word : List Access → Reg → UInt32) : (k : Nat) → (h : List Access) → List Access
  | 0, h => h
  | k + 1, h => polled word k (h ++ [.read .mcs (word h .mcs)])

/-- The peripheral and what is on its wires: the word a load gives behind the accesses so far.
However often BUSY is set, some poll finds it clear. -/
structure Hardware where
  word : List Access → Reg → UInt32
  patience : List Access → Nat
  clears : ∀ h, ∃ k ≤ patience h, word (polled word k h) .mcs &&& mcsBusy = 0

def mcsToStatus (status : UInt32) : Int :=
  if status &&& mcsArblst ≠ 0 then i2cErrBus
  else if status &&& (mcsError ||| mcsAdrack ||| mcsDatack) ≠ 0 then i2cErrNack
  else i2cOk

section
variable (hw : Hardware)

/-- `while (I2C_MCS & MCS_BUSY)`, for at most `fuel` polls. -/
def i2cSpin : (fuel : Nat) → List Access → List Access
  | 0, h => h
  | fuel + 1, h =>
      let status := hw.word h .mcs
      let h := h ++ [.read .mcs status]
      if status &&& mcsBusy ≠ 0 then i2cSpin fuel h else h

/-- The status is loaded once more behind the poll that found BUSY clear. -/
def i2cWait (h : List Access) : Int × List Access :=
  let h := i2cSpin hw (hw.patience h + 1) h
  let status := hw.word h .mcs
  (mcsToStatus status, h ++ [.read .mcs status])

/-- I2CMSA for a transmission to a 7-bit address. -/
def msaTransmit (addr : UInt8) : UInt32 := (addr.toUInt32 <<< 1) &&& 0xFE

/-- The byte loop of the two write phases, which differ in their commands. -/
def transmitLoop (cmd : Nat → UInt32) (data : Slice UInt8) :
    (todo i : Nat) → List Access → Checked (Int × List Access)
  | 0, _, h => pure (i2cOk, h)
  | todo + 1, i, h => do
      let b ← data.read i
      let h := h ++ [.wrote .mdr b.toUInt32]
      let h := h ++ [.wrote .mcs (cmd i)]
      let (st, h) := i2cWait hw h
      if st ≠ i2cOk then pure (st, h ++ [.wrote .mcs mcsStop])
      else transmitLoop cmd data todo (i + 1) h

/-- The commands of `stellaris_write`. -/
def writeCmd (len i : Nat) : UInt32 :=
  let cmd := mcsRun
  let cmd := if i = 0 then cmd ||| mcsStart else cmd
  if i = len - 1 then cmd ||| mcsStop else cmd

/-- The commands of the write phase of `stellaris_write_read`: no STOP. -/
def pointerCmd (i : Nat) : UInt32 :=
  let cmd := mcsRun
  if i = 0 then cmd ||| mcsStart else cmd

/-- The commands of its read phase. -/
def readCmd (rlen i : Nat) : UInt32 :=
  let cmd := mcsRun
  let cmd := if i = 0 then cmd ||| mcsStart else cmd
  if i = rlen - 1 then cmd ||| mcsStop else cmd ||| mcsAck

/-- The byte loop of the read phase. -/
def receiveLoop (cmd : Nat → UInt32) :
    (todo i : Nat) → Slice UInt8 → List Access → Checked (Int × Slice UInt8 × List Access)
  | 0, _, rdata, h => pure (i2cOk, rdata, h)
  | todo + 1, i, rdata, h => do
      let h := h ++ [.wrote .mcs (cmd i)]
      let (st, h) := i2cWait hw h
      if st ≠ i2cOk then pure (st, rdata, h ++ [.wrote .mcs mcsStop])
      else do
        let v := hw.word h .mdr
        let h := h ++ [.read .mdr v]
        let rdata ← rdata.write i (v &&& 0xFF).toUInt8
        receiveLoop cmd todo (i + 1) rdata h

def stellarisWrite (h : List Access) (addr : UInt8) (data : Slice UInt8) :
    Checked (Int × List Access) :=
  if data.isNull ∨ data.size = 0 then pure (i2cErrParam, h)
  else
    let h := h ++ [.wrote .msa (msaTransmit addr)]
    transmitLoop hw (writeCmd data.size) data data.size 0 h

def stellarisWriteRead (h : List Access) (addr : UInt8) (wdata rdata : Slice UInt8) :
    Checked (Int × Slice UInt8 × List Access) :=
  if wdata.isNull ∨ wdata.size = 0 ∨ rdata.isNull ∨ rdata.size = 0 then
    pure (i2cErrParam, rdata, h)
  else do
    let h := h ++ [.wrote .msa (msaTransmit addr)]
    let (st, h) ← transmitLoop hw pointerCmd wdata wdata.size 0 h
    -- the write phase has returned on an error
    if st ≠ i2cOk then pure (st, rdata, h)
    else do
      let h := h ++ [.wrote .msa (msaTransmit addr ||| msaReceive)]
      receiveLoop hw (readCmd rdata.size) rdata.size 0 rdata h

end

/-! ### The accelerometer driver -/

def adxl345I2cAddr : UInt8 := 0x53
def adxl345RegDevid : UInt8 := 0x00
def adxl345RegBwRate : UInt8 := 0x2C
def adxl345RegPowerCtl : UInt8 := 0x2D
def adxl345RegDataFormat : UInt8 := 0x31
def adxl345RegDatax0 : UInt8 := 0x32

def adxl345DevidValue : UInt8 := 0xE5
def adxl345PowerCtlMeasure : UInt8 := 0x08
def adxl345DataFormatFullRes : UInt8 := 0x08
def adxl345Range16g : UInt8 := 0x03
def adxl345Rate100hz : UInt8 := 0x0A
def adxl345DataFormatConfig : UInt8 := adxl345DataFormatFullRes ||| adxl345Range16g

def adxl345MgNum : Int32 := 125
def adxl345MgDen : Int32 := 32

def adxl345Ok : Int := 0
def adxl345EParam : Int := -1
def adxl345EBus : Int := -2
def adxl345EWrongDevid : Int := -3

/-- `adxl345_accel_t`. -/
structure Adxl345Accel where
  xMg : Int32
  yMg : Int32
  zMg : Int32
deriving DecidableEq, Repr

/-- The three assignments fill all of `*out`. -/
def adxl345Decode (raw : Slice UInt8) : Checked Adxl345Accel := do
  let x ← getLe16 raw 0
  let y ← getLe16 raw 2
  let z ← getLe16 raw 4
  pure { xMg := x.toInt16.toInt32 * adxl345MgNum / adxl345MgDen,
         yMg := y.toInt16.toInt32 * adxl345MgNum / adxl345MgDen,
         zMg := z.toInt16.toInt32 * adxl345MgNum / adxl345MgDen }

section
variable {σ : Type}

def busOk : Option (I2cBus σ) → Bool
  | none => false
  | some bus => bus.write.isSome ∧ bus.writeRead.isSome

def regWrite (bus : I2cBus σ) (s : σ) (reg val : UInt8) : Checked (Int × σ) := do
  let write ← deref bus.write
  let (rc, s) ← write s adxl345I2cAddr (.mem [reg, val])
  pure (if rc = i2cOk then adxl345Ok else adxl345EBus, s)

def regRead (bus : I2cBus σ) (s : σ) (reg val : UInt8) : Checked (Int × UInt8 × σ) := do
  let writeRead ← deref bus.writeRead
  let (rc, rdata, s) ← writeRead s adxl345I2cAddr (.mem [reg]) (.mem [val])
  let val ← rdata.read 0
  pure (if rc = i2cOk then adxl345Ok else adxl345EBus, val, s)

def adxl345Init (bus : Option (I2cBus σ)) (s : σ) : Checked (Int × σ) :=
  if busOk bus = false then pure (adxl345EParam, s)
  else do
    let bus ← deref bus
    let (rc, devid, s) ← regRead bus s adxl345RegDevid 0
    if rc ≠ adxl345Ok then pure (rc, s)
    else if devid ≠ adxl345DevidValue then pure (adxl345EWrongDevid, s)
    else do
      let (rc, s) ← regWrite bus s adxl345RegDataFormat adxl345DataFormatConfig
      if rc ≠ adxl345Ok then pure (rc, s)
      else do
        let (rc, s) ← regWrite bus s adxl345RegBwRate adxl345Rate100hz
        if rc ≠ adxl345Ok then pure (rc, s)
        else do
          let (rc, s) ← regWrite bus s adxl345RegPowerCtl adxl345PowerCtlMeasure
          if rc ≠ adxl345Ok then pure (rc, s) else pure (adxl345Ok, s)

def adxl345Read (bus : Option (I2cBus σ)) (s : σ) (out : Option Adxl345Accel) :
    Checked (Int × Option Adxl345Accel × σ) :=
  if busOk bus = false ∨ out.isNone then pure (adxl345EParam, out, s)
  else do
    let bus ← deref bus
    let writeRead ← deref bus.writeRead
    -- `raw` is indeterminate at entry; it is read only when the bus reports success
    let (rc, raw, s) ← writeRead s adxl345I2cAddr (.mem [adxl345RegDatax0])
      (.mem (List.replicate 6 0))
    if rc ≠ i2cOk then pure (adxl345EBus, out, s)
    else do pure (adxl345Ok, assign out (← adxl345Decode raw), s)

def adxl345Selftest (bus : Option (I2cBus σ)) (s : σ) : Checked (Int × σ) :=
  if busOk bus = false then pure (adxl345EParam, s)
  else do
    let bus ← deref bus
    let (rc, devid, s) ← regRead bus s adxl345RegDevid 0
    if rc ≠ adxl345Ok then pure (rc, s)
    else pure (if devid = adxl345DevidValue then adxl345Ok else adxl345EWrongDevid, s)

end

/-! ### UART0 -/

/-- One more transmitted byte; the polling loop of `uart_putc` has exited. -/
def uartPutc (tx : List UInt8) (c : UInt8) : List UInt8 := tx ++ [c]

/-- `s` up to its terminating NUL. -/
def uartPuts (tx : List UInt8) : (s : List UInt8) → List UInt8
  | [] => tx
  | c :: s => if c = 0 then tx else uartPuts (uartPutc tx c) s

def uartWrite (tx : List UInt8) (data : Slice UInt8) : Checked (List UInt8) :=
  upto data.size (fun i tx => do pure (uartPutc tx (← data.read i))) tx

/-- The bytes of an ASCII string literal. -/
def ascii (s : String) : List UInt8 := s.toList.map fun c => c.toNat.toUInt8

/-! ### The super-loop -/

/-- The statics of `main`, its `seq`, and what UART0 has transmitted. -/
structure Node where
  sim : I2cSim
  sample : Adxl345Accel
  payload : Slice UInt8
  frame : Slice UInt8
  seq : UInt16
  tx : List UInt8

/-- `main` between two turns of its loop, or in a halt loop for good. -/
inductive NodeRun where
  | running (n : Node)
  | halted (tx : List UInt8)

def nodeOnline : List UInt8 := ascii "Sharak node online\r\n"
def nodeInitFailed : List UInt8 := ascii "ERROR: ADXL345 init failed; halting\r\n"
def nodeReadFailed : List UInt8 := ascii "ERROR: ADXL345 read failed; halting\r\n"

/-- `bus`, a zeroed static, once `i2c_sim_bind` has filled it. -/
def nodeBus : Option (I2cBus (Option I2cSim)) := i2cSimBind (some ⟨none, none⟩)

/-- `main` up to its loop; the statics are zero before. -/
def nodeBoot : Checked NodeRun := do
  let tx := uartPuts [] nodeOnline
  let sim := i2cSimInit (some ⟨Vector.replicate i2cSimNregs 0, 0, 0⟩)
  let (rc, sim) ← adxl345Init nodeBus sim
  if rc ≠ adxl345Ok then pure (.halted (uartPuts tx nodeInitFailed))
  else do
    let sim ← deref sim
    pure (.running ⟨sim, ⟨0, 0, 0⟩, .mem (List.replicate skPayloadLen 0),
      .mem (List.replicate skFrameMax 0), 0, tx⟩)

/-- The two tests between packing and the next turn: what `frame` and UART0 are left with. -/
def nodeSend (plen : Int) (payload frame : Slice UInt8) (tx : List UInt8) :
    Checked (Slice UInt8 × List UInt8) :=
  if plen = skPayloadLen then do
    let (flen, frame) ← skFrameEncode (← payload.pass plen.toNat) frame
    if flen > 0 then do pure (frame, ← uartWrite tx (← frame.pass flen.toNat))
    else pure (frame, tx)
  else pure (frame, tx)

/-- One turn of the loop. -/
def nodeTurn : NodeRun → Checked NodeRun
  | .halted tx => pure (.halted tx)
  | .running n => do
      let (rc, sample, sim) ← adxl345Read nodeBus (some n.sim) (some n.sample)
      if rc ≠ adxl345Ok then pure (.halted (uartPuts n.tx nodeReadFailed))
      else do
        let sim ← deref sim
        let sample ← deref sample
        let (plen, payload) ← skPayloadPack n.payload n.seq sample.xMg sample.yMg sample.zMg
        let (frame, tx) ← nodeSend plen payload n.frame n.tx
        pure (.running ⟨sim, sample, payload, frame, n.seq + 1, tx⟩)

/-- `main`, for `N` turns of its loop. -/
def nodeMain (N : Nat) : Checked NodeRun := do
  let run ← nodeBoot
  upto N (fun _ => nodeTurn) run

end Sharak
