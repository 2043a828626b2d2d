import Sharak.Firmware.Bringup
import Sharak.Firmware.Driver
import Sharak.Firmware.Wire

/-!
# Firmware — the driver on any bus

The driver reaches the chip through the two methods of the bus alone, and asks for few transactions
(`Drives`).  Two buses that answer each of these alike, from states that a relation ties together,
are interchangeable (`Interchangeable`): over any calls the driver returns the same codes and the
same readings on both (`driver_interchangeable`).  The simulator and the I2C0 master with the same
chip on its wires are two such buses (`interchangeable_wired`).
-/

namespace Sharak
open Memory Lockstep

/-! ### Transactions of the driver -/

section
variable {σ τ : Type}

/-- A transaction on a bus, with its status and the buffer of its read phase behind it. -/
def Transaction.on (bus : I2cBus σ) (s : σ) : Transaction → Checked ((Int × Slice UInt8) × σ)
  | .write addr data => do
      let write ← deref bus.write
      let (st, s) ← write s addr data
      pure ((st, .mem []), s)
  | .writeRead addr wdata rdata => do
      let writeRead ← deref bus.writeRead
      let (st, rdata, s) ← writeRead s addr wdata rdata
      pure ((st, rdata), s)

/-- What the driver asks for: a configuration register is written, DEVID is read, or the six data
registers are. -/
inductive Drives : Transaction → Prop where
  | configure {reg : UInt8} (h : Configures reg) (val : UInt8) :
      Drives (.write adxl345I2cAddr (.mem [reg, val]))
  | identify (val : UInt8) :
      Drives (.writeRead adxl345I2cAddr (.mem [adxl345RegDevid]) (.mem [val]))
  | sample : Drives (.writeRead adxl345I2cAddr (.mem [adxl345RegDatax0]) (.mem (List.replicate 6 0)))

/-- On the transactions of the driver, two buses give the same answers from related states and
leave related states; and their reads keep the size of the buffer. -/
structure Interchangeable (R : σ → τ → Prop) (bus : I2cBus σ) (bus' : I2cBus τ) : Prop where
  bound : busOk (some bus) = true ∧ busOk (some bus') = true
  same : ∀ t s u, Drives t → R s u →
    Both (fun p q => Same R p q ∧ p.1.2.isNull = false ∧ p.1.2.size = t.rdata.size)
      (t.on bus s) (t.on bus' u)

/-! ### The parts of the driver -/

theorem regWrite_on (bus : I2cBus σ) (s : σ) (reg val : UInt8) :
    regWrite bus s reg val =
      (Transaction.write adxl345I2cAddr (.mem [reg, val])).on bus s >>= fun r =>
        .ok (if r.1.1 = i2cOk then adxl345Ok else adxl345EBus, r.2) := by
  rw [regWrite, Transaction.on]
  cases bus.write with
  | none => rfl
  | some write =>
      simp only [deref_some, ok_bind]
      cases write s adxl345I2cAddr (.mem [reg, val]) <;> rfl

theorem regRead_on (bus : I2cBus σ) (s : σ) (reg val : UInt8) :
    regRead bus s reg val =
      (Transaction.writeRead adxl345I2cAddr (.mem [reg]) (.mem [val])).on bus s >>= fun r =>
        r.1.2.read 0 >>= fun val =>
          .ok (if r.1.1 = i2cOk then adxl345Ok else adxl345EBus, val, r.2) := by
  rw [regRead, Transaction.on]
  cases bus.writeRead with
  | none => rfl
  | some writeRead =>
      simp only [deref_some, ok_bind]
      cases writeRead s adxl345I2cAddr (.mem [reg]) (.mem [val]) <;> rfl

theorem adxl345Read_on {bus : I2cBus σ} (hbus : busOk (some bus) = true) (s : σ)
    (out : Adxl345Accel) :
    adxl345Read (some bus) s (some out) =
      (Transaction.writeRead adxl345I2cAddr (.mem [adxl345RegDatax0])
          (.mem (List.replicate 6 0))).on bus s >>= fun r =>
        if r.1.1 ≠ i2cOk then .ok (adxl345EBus, some out, r.2)
        else adxl345Decode r.1.2 >>= fun a => .ok (adxl345Ok, some a, r.2) := by
  have hargs : ¬ (busOk (some bus) = false ∨ (some out).isNone = true) := by simp [hbus]
  rw [adxl345Read, if_neg hargs, Transaction.on, deref_some, ok_bind]
  cases bus.writeRead with
  | none => rfl
  | some writeRead =>
      simp only [deref_some, ok_bind]
      cases writeRead s adxl345I2cAddr (.mem [adxl345RegDatax0]) (.mem (List.replicate 6 0)) <;> rfl

/-- A call of the driver on a bus: its return code, and `*out` behind it. -/
def DriverCall.on (bus : Option (I2cBus σ)) (s : σ) :
    DriverCall → Checked ((Int × Option Adxl345Accel) × σ)
  | .init => do
      let (rc, s) ← adxl345Init bus s
      pure ((rc, none), s)
  | .read out => do
      let (rc, out, s) ← adxl345Read bus s out
      pure ((rc, out), s)
  | .selftest => do
      let (rc, s) ← adxl345Selftest bus s
      pure ((rc, none), s)

/-! ### Interchangeable buses -/

section
variable {R : σ → τ → Prop} {bus : I2cBus σ} {bus' : I2cBus τ}
  (hi : Interchangeable R bus bus') {s : σ} {u : τ} (hR : R s u)
include hi hR

theorem regWrite_same {reg : UInt8} (hreg : Configures reg) (val : UInt8) :
    Both (Same R) (regWrite bus s reg val) (regWrite bus' u reg val) := by
  rw [regWrite_on, regWrite_on]
  refine (hi.same _ s u (.configure hreg val) hR).bind ?_
  rintro ⟨⟨st, r⟩, s'⟩ ⟨⟨st', r'⟩, u'⟩ ⟨⟨heq, hR'⟩, -⟩
  cases heq
  exact both_ok ⟨rfl, hR'⟩

theorem regRead_same :
    Both (fun p q => (p.1, p.2.1) = (q.1, q.2.1) ∧ R p.2.2 q.2.2)
      (regRead bus s adxl345RegDevid 0) (regRead bus' u adxl345RegDevid 0) := by
  rw [regRead_on, regRead_on]
  refine (hi.same _ s u (.identify 0) hR).bind ?_
  rintro ⟨⟨st, r⟩, s'⟩ ⟨⟨st', r'⟩, u'⟩ ⟨⟨heq, hR'⟩, hmem, hsize⟩
  cases heq
  -- the buffer has its one byte
  obtain ⟨cs, rfl⟩ : ∃ cs, r = .mem cs := ⟨_, Slice.eq_mem hmem⟩
  have hlen : 0 < cs.length := Nat.lt_of_lt_of_eq Nat.one_pos hsize.symm
  rw [Slice.read_mem hlen]
  exact both_ok ⟨rfl, hR'⟩

theorem adxl345Init_same :
    Both (Same R) (adxl345Init (some bus) s) (adxl345Init (some bus') u) := by
  rw [adxl345Init, adxl345Init, if_neg (by simp [hi.bound.1]), if_neg (by simp [hi.bound.2])]
  refine (regRead_same hi hR).bind ?_
  rintro ⟨rc, devid, s₁⟩ ⟨rc', devid', u₁⟩ ⟨heq, h₁⟩
  cases heq
  refine both_ite (fun _ => both_ok ⟨rfl, h₁⟩) fun _ => ?_
  refine both_ite (fun _ => both_ok ⟨rfl, h₁⟩) fun _ => ?_
  refine (regWrite_same hi h₁ (.inr (.inr rfl)) _).bind ?_
  rintro ⟨rc₂, s₂⟩ ⟨rc₂', u₂⟩ ⟨heq, h₂⟩
  cases heq
  refine both_ite (fun _ => both_ok ⟨rfl, h₂⟩) fun _ => ?_
  refine (regWrite_same hi h₂ (.inl rfl) _).bind ?_
  rintro ⟨rc₃, s₃⟩ ⟨rc₃', u₃⟩ ⟨heq, h₃⟩
  cases heq
  refine both_ite (fun _ => both_ok ⟨rfl, h₃⟩) fun _ => ?_
  refine (regWrite_same hi h₃ (.inr (.inl rfl)) _).bind ?_
  rintro ⟨rc₄, s₄⟩ ⟨rc₄', u₄⟩ ⟨heq, h₄⟩
  cases heq
  exact both_ite (fun _ => both_ok ⟨rfl, h₄⟩) fun _ => both_ok ⟨rfl, h₄⟩

theorem adxl345Selftest_same :
    Both (Same R) (adxl345Selftest (some bus) s) (adxl345Selftest (some bus') u) := by
  rw [adxl345Selftest, adxl345Selftest, if_neg (by simp [hi.bound.1]),
    if_neg (by simp [hi.bound.2])]
  refine (regRead_same hi hR).bind ?_
  rintro ⟨rc, devid, s₁⟩ ⟨rc', devid', u₁⟩ ⟨heq, h₁⟩
  cases heq
  exact both_ite (fun _ => both_ok ⟨rfl, h₁⟩) fun _ => both_ok ⟨rfl, h₁⟩

theorem adxl345Read_same (out : Adxl345Accel) :
    Both (fun p q => (p.1, p.2.1) = (q.1, q.2.1) ∧ R p.2.2 q.2.2)
      (adxl345Read (some bus) s (some out)) (adxl345Read (some bus') u (some out)) := by
  rw [adxl345Read_on hi.bound.1, adxl345Read_on hi.bound.2]
  refine (hi.same _ s u .sample hR).bind ?_
  rintro ⟨⟨st, r⟩, s'⟩ ⟨⟨st', r'⟩, u'⟩ ⟨⟨heq, hR'⟩, hmem, hsize⟩
  cases heq
  obtain ⟨cs, rfl⟩ : ∃ cs, r = .mem cs := ⟨_, Slice.eq_mem hmem⟩
  obtain ⟨a, ha⟩ := @adxl345Decode_ok cs hsize
  refine both_ite (fun _ => both_ok ⟨rfl, hR'⟩) fun _ => ?_
  rw [ha]
  exact both_ok ⟨rfl, hR'⟩

/-- One call of the driver. -/
theorem call_same (call : DriverCall) :
    Both (Same R) (call.on (some bus) s) (call.on (some bus') u) := by
  cases call with
  | init =>
      refine (adxl345Init_same hi hR).bind ?_
      rintro ⟨rc, s'⟩ ⟨rc', u'⟩ ⟨heq, hR'⟩
      cases heq
      exact both_ok ⟨rfl, hR'⟩
  | read out =>
      cases out with
      | none => exact ⟨((adxl345EParam, none), s), ((adxl345EParam, none), u), by
          simp [DriverCall.on, adxl345Read], by simp [DriverCall.on, adxl345Read], rfl, hR⟩
      | some out =>
          refine (adxl345Read_same hi hR out).bind ?_
          rintro ⟨rc, o, s'⟩ ⟨rc', o', u'⟩ ⟨heq, hR'⟩
          cases heq
          exact both_ok ⟨rfl, hR'⟩
  | selftest =>
      refine (adxl345Selftest_same hi hR).bind ?_
      rintro ⟨rc, s'⟩ ⟨rc', u'⟩ ⟨heq, hR'⟩
      cases heq
      exact both_ok ⟨rfl, hR'⟩

/-- **The driver cannot tell its buses apart.**  Over any calls, on two buses that answer its
transactions alike, it returns the same codes and leaves the same readings behind `out`. -/
theorem driver_interchangeable (calls : List DriverCall) :
    ∃ answers s' u', run (DriverCall.on (some bus)) s calls = .ok (answers, s') ∧
      run (DriverCall.on (some bus')) u calls = .ok (answers, u') ∧ R s' u' := by
  obtain ⟨p, q, hp, hq, hpq, hR'⟩ :=
    run_same (fun call s u h => call_same hi h call) calls hR
  exact ⟨p.1, p.2, q.2, hp, by rw [hq, hpq], hR'⟩

end

end

/-! ### The two backends -/

/-- The bus `i2c_sim_bind` fills. -/
def simBus : I2cBus (Option I2cSim) := ⟨some simWrite, some simWriteRead⟩

/-- The bus `i2c_stellaris_init` fills. -/
def masterBus (hw : Hardware) : I2cBus (List Access) :=
  ⟨some (stellarisWrite hw), some (stellarisWriteRead hw)⟩

theorem on_simBus (t : Transaction) (o : Option I2cSim) : t.on simBus o = t.simulated o := by
  cases t with
  | write addr data =>
      simp only [Transaction.on, Transaction.simulated, Transaction.exec, simBus, deref_some, ok_bind]
      cases simWrite o addr data <;> rfl
  | writeRead addr wdata rdata =>
      simp only [Transaction.on, Transaction.simulated, Transaction.exec, simBus, deref_some, ok_bind]

theorem on_masterBus (hw : Hardware) (t : Transaction) (h : List Access) :
    t.on (masterBus hw) h = t.master hw h := by
  cases t <;> rfl

/-- The simulated chip is the one on the wires. -/
def SameChip (chip : I2cSim) (o : Option I2cSim) (h : List Access) : Prop :=
  o = some (wires chip h).slave.chip ∧ (wires chip h).slave.chip.Inside

/-- The transactions of the driver are full, aimed and foreseen. -/
theorem Drives.plain {t : Transaction} (ht : Drives t) (s : I2cSim) :
    t.addr.toNat < 128 ∧ t.Full ∧ t.Aimed ∧ Foreseen (t.start s) t.rdata.size := by
  have haddr : adxl345I2cAddr.toNat < 128 := by decide
  cases ht with
  | @configure reg hreg val =>
      have hin : reg.toNat < i2cSimNregs := by
        rcases hreg with rfl | rfl | rfl <;> decide
      refine ⟨haddr, ⟨_, rfl, by simp⟩, aimed_of_first rfl hin, ?_⟩
      have hstart : (simNextPtr reg).toNat ≤ simRegDataz1 := by
        rcases hreg with rfl | rfl | rfl <;> decide
      exact .inl ⟨hstart, .inl (by
        have := (simNextPtr reg).toNat_lt
        exact Nat.lt_trans this (by decide))⟩
  | identify val =>
      have hfore : Foreseen adxl345RegDevid 1 := .inl ⟨by decide, .inl (by decide)⟩
      exact ⟨haddr, ⟨⟨_, rfl, by simp⟩, _, rfl, by simp⟩, aimed_of_first rfl (by decide), hfore⟩
  | sample =>
      have hfore : Foreseen adxl345RegDatax0 6 := .inl ⟨by decide, .inl (by decide)⟩
      exact ⟨haddr, ⟨⟨_, rfl, by simp⟩, _, rfl, by simp⟩, aimed_of_first rfl (by decide), hfore⟩

theorem Drives.accepted {t : Transaction} (ht : Drives t) : t.Accepted := by
  cases ht with
  | configure hreg val => exact ⟨rfl, by simp [Readable, Transaction.wdata], by
      simp [Readable, Transaction.rdata]⟩
  | identify val => exact ⟨rfl, by simp [Readable, Transaction.wdata], by
      simp [Readable, Transaction.rdata]⟩
  | sample => exact ⟨rfl, by simp [Readable, Transaction.wdata], by
      simp [Readable, Transaction.rdata]⟩

theorem Drives.buffer {t : Transaction} (ht : Drives t) : t.rdata.isNull = false := by
  cases ht <;> rfl

/-- The simulator keeps the size of the buffer. -/
theorem simulated_size {s : I2cSim} (hs : s.Inside) {t : Transaction} (ht : Drives t)
    {st : Int} {r : Slice UInt8} {o : Option I2cSim}
    (h : t.simulated (some s) = .ok ((st, r), o)) : r.isNull = false ∧ r.size = t.rdata.size := by
  obtain ⟨-, -, haimed, -⟩ := ht.plain s
  have ha := ht.accepted
  cases (simulated_accepted ha haimed hs).symm.trans h
  exact ⟨(Slice.isNull_put _ _).trans ht.buffer,
    Slice.size_put (Nat.le_of_eq (length_serve _ _))⟩

/-- **The two backends are interchangeable.** -/
theorem interchangeable_wired {hw : Hardware} {chip : I2cSim} (hc : Wired hw chip) :
    Interchangeable (SameChip chip) simBus (masterBus hw) := by
  refine ⟨⟨rfl, rfl⟩, ?_⟩
  rintro t o h ht ⟨rfl, hin⟩
  obtain ⟨haddr, hfull, haimed, hfore⟩ := ht.plain (wires chip h).slave.chip
  have halike : Alike chip [t] (some (wires chip h).slave.chip) h :=
    ⟨rfl, hin, List.forall_mem_singleton.mpr ⟨haddr, hfull, haimed⟩, fun _ _ => hfore,
      fun _ _ => trivial⟩
  rw [on_simBus, on_masterBus]
  obtain ⟨⟨⟨st, r⟩, o'⟩, ⟨a, h'⟩, hsim, hmaster, hsame⟩ := exec_alike hc t [] _ h halike
  exact ⟨_, _, hsim, hmaster, ⟨hsame.1, hsame.2.same, hsame.2.inside⟩, simulated_size hin ht hsim⟩

/-- The simulator, and the master with the same chip on its wires: a selftest, a start and a
reading. -/
theorem driver_interchangeable_wired :
    ∃ answers s' u', run (DriverCall.on (some simBus)) (some simPowerOn)
        [.selftest, .init, .read (some ⟨0, 0, 0⟩)] = .ok (answers, s') ∧
      run (DriverCall.on (some (masterBus (chipOnly simPowerOn)))) []
        [.selftest, .init, .read (some ⟨0, 0, 0⟩)] = .ok (answers, u') ∧
      SameChip simPowerOn s' u' := by
  have hsame : SameChip simPowerOn (some simPowerOn) [] := ⟨rfl, inside_powerOn⟩
  exact driver_interchangeable (interchangeable_wired (wired_chipOnly simPowerOn)) hsame _

end Sharak
