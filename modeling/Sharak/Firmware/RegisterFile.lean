import Sharak.Firmware.Wire

/-!
# Firmware — the register file

The chip without its array: what has landed on the registers so far, the samples counted, and the
pointer (`Ledger`).  A register holds the last byte to land on it, the bytes of a transaction land on
a ring, and a sample is the chip landing six bytes of its own.  Over any aimed transactions from
power-on the simulator answers as the ledger does (`register_file`).
-/

namespace Sharak
open Memory Lockstep

/-! ### The ledger -/

/-- What has landed on the registers, first to last, how many samples have been taken, and the
register the pointer is at. -/
structure Ledger where
  landed : List (Nat × UInt8)
  samples : Nat
  place : Nat
deriving DecidableEq, Repr

namespace Ledger

def powerOn : Ledger := ⟨[(simRegDevid, simDevidValue)], 0, 0⟩

/-- The last byte to land on a register. -/
def holds (l : Ledger) (i : Nat) : UInt8 := (lastAt i l.landed).getD 0

/-- Bytes land one behind the other from the pointer on; behind the last register comes the
first. -/
def put (l : Ledger) (bs : List UInt8) : Ledger :=
  { l with
    landed := l.landed ++ bs.mapIdx fun k b => ((l.place + k) % i2cSimNregs, b)
    place := (l.place + bs.length) % i2cSimNregs }

def write (l : Ledger) : List UInt8 → Ledger
  | [] => l
  | b :: bs => { l with place := b.toNat }.put bs

/-- The chip lands its next sample on the data registers. -/
def sample (l : Ledger) : Ledger :=
  { l with
    landed := l.landed ++ (sampleBytes l.samples).mapIdx fun j b => (simRegDatax0 + j, b)
    samples := l.samples + 1 }

/-- A read of `n` bytes is due a sample: Measure is set, and it starts no later than the last data
register and ends behind the first.  Its end is counted modulo `2 ^ 32`, and not on the ring. -/
def Due (l : Ledger) (n : Nat) : Prop :=
  0 < n ∧ (l.place ≤ simRegDataz1 ∧ simRegDatax0 < (l.place + n) % 2 ^ 32) ∧
    l.holds simRegPowerCtl &&& simPowerCtlMeasure ≠ 0

instance (l : Ledger) (n : Nat) : Decidable (l.Due n) := inferInstanceAs (Decidable (_ ∧ _ ∧ _))

def read (l : Ledger) (n : Nat) : List UInt8 × Ledger :=
  let l := if l.Due n then l.sample else l
  ((List.range n).map fun k => l.holds ((l.place + k) % i2cSimNregs),
    { l with place := (l.place + n) % i2cSimNregs })

/-- A transaction's status and the buffer of its read phase. -/
def call (l : Ledger) (t : Transaction) : (Int × Slice UInt8) × Ledger :=
  if t.Accepted then
    let (bs, l) := (l.write t.wdata.cells).read t.rdata.size
    ((i2cOk, t.rdata.put bs), l)
  else ((if t.addr = simAddr then i2cErrParam else i2cErrNack, t.rdata), l)

/-- The ledger, as a component that never fails. -/
def step (l : Ledger) (t : Transaction) : Checked ((Int × Slice UInt8) × Ledger) := .ok (l.call t)

/-- The chip is where the ledger says. -/
structure Logs (l : Ledger) (s : I2cSim) : Prop where
  inside : s.Inside
  place : s.ptr.toNat = l.place
  phase : s.phase = UInt32.ofNat l.samples
  holds : ∀ i < i2cSimNregs, s.reg i = l.holds i

theorem logs_powerOn : powerOn.Logs simPowerOn where
  inside := inside_powerOn
  place := rfl
  phase := rfl
  holds := by decide

/-! ### Landing -/

/-- The registers bytes land on are counted on the ring. -/
theorem landings_eq {ptr : UInt8} (h : ptr.toNat < i2cSimNregs) (bs : List UInt8) :
    landings ptr bs = bs.mapIdx fun k b => ((ptr.toNat + k) % i2cSimNregs, b) := by
  induction bs generalizing ptr with
  | nil => rfl
  | cons b bs ih =>
      have hnext : (simNextPtr ptr).toNat = (ptr.toNat + 1) % i2cSimNregs := by
        rw [toNat_simNextPtr, Ring.next_eq_mod h]
      rw [landings, ih (simNextPtr_lt ptr), List.mapIdx_cons, Nat.add_zero, Nat.mod_eq_of_lt h,
        hnext]
      simp only [Nat.mod_add_mod, Nat.add_assoc, Nat.add_comm 1]

/-- Bytes in a row: register `i` has the one at its distance. -/
theorem lastAt_row (a i : Nat) (bs : List UInt8) :
    lastAt i (bs.mapIdx fun k b => (a + k, b)) = if a ≤ i then bs[i - a]? else none := by
  induction bs generalizing a with
  | nil =>
      rw [List.mapIdx_nil, List.getElem?_nil, ite_self]
      rfl
  | cons b bs ih =>
      have hrest : (fun k (b : UInt8) => (a + (k + 1), b)) = fun k b => (a + 1 + k, b) := by
        funext k b
        rw [Nat.add_comm k, Nat.add_assoc]
      rw [List.mapIdx_cons, lastAt_cons, hrest, ih, Nat.add_zero]
      rcases Nat.lt_trichotomy i a with hlow | rfl | hhigh
      · rw [if_neg (by omega), if_neg (by omega), if_neg (by omega)]
        rfl
      · rw [if_neg (by omega), if_pos (Nat.add_zero i).symm, if_pos (Nat.le_refl i), Nat.sub_self]
        rfl
      · have hsub : i - a = (i - (a + 1)) + 1 := by omega
        rw [if_pos (by omega), if_neg (by omega), if_pos (by omega), hsub,
          List.getElem?_cons_succ, Option.or_none]

theorem holds_append (l : Ledger) (ls : List (Nat × UInt8)) (i : Nat) :
    { l with landed := l.landed ++ ls }.holds i = (lastAt i ls).getD (l.holds i) := by
  rw [holds, lastAt_append, Option.getD_or, holds]

section
variable {l : Ledger} {s : I2cSim} (h : l.Logs s)
include h

/-- A write phase. -/
theorem Logs.write {bs : List UInt8} (hp : ∀ b ∈ bs.head?, b.toNat < i2cSimNregs) :
    (l.write bs).Logs (s.written bs) := by
  cases bs with
  | nil => exact h
  | cons b bs =>
      have hb : b.toNat < i2cSimNregs := hp b rfl
      refine ⟨inside_written h.inside hp, ?_, ?_, fun i hi => ?_⟩
      · rw [I2cSim.written, stored_ptr, toNat_simNextPtrs, Ring.iterate_next hb]
        rfl
      · rw [written_phase, h.phase]
        rfl
      · rw [reg_written hp, h.holds i hi, stores, landings_eq hb]
        exact (holds_append l _ i).symm

/-- A sample, which is the next one of the wave. -/
theorem Logs.sample : l.sample.Logs s.refreshed := by
  have hbytes : sampleBytes s.phase.toNat = sampleBytes l.samples := by
    rw [h.phase, sampleBytes_wrap]
  refine ⟨?_, ?_, ?_, fun i hi => ?_⟩
  · rw [I2cSim.Inside, refreshed_ptr]
    exact h.inside
  · rw [refreshed_ptr, h.place]
    rfl
  · rw [refreshed_phase, h.phase]
    exact (UInt32.ofNat_add l.samples 1).symm
  · have hsample : l.sample.holds i = (lastAt i ((sampleBytes l.samples).mapIdx fun j b =>
        (simRegDatax0 + j, b))).getD (l.holds i) := holds_append l _ i
    rw [hsample, lastAt_row]
    by_cases hdata : IsData i
    · obtain ⟨j, rfl⟩ := Nat.exists_eq_add_of_le hdata.1
      have hj : j < 6 := by
        have hlast := hdata.2
        simp only [simRegDatax0, simRegDataz1] at hlast
        omega
      have hlen : j < (sampleBytes l.samples).length := hj
      rw [refreshed_byte s hj, hbytes, if_pos hdata.1, Nat.add_sub_cancel_left,
        List.getD_eq_getElem?_getD, List.getElem?_eq_getElem hlen]
      rfl
    · rw [refreshed_other s hdata, h.holds i hi]
      by_cases hlow : simRegDatax0 ≤ i
      -- behind the last data register the row has ended
      · have hend : (sampleBytes l.samples).length ≤ i - simRegDatax0 := by
          have hhigh : ¬ i ≤ simRegDataz1 := fun hle => hdata ⟨hlow, hle⟩
          simp only [simRegDatax0, simRegDataz1] at hlow hhigh
          rw [length_sampleBytes, simRegDatax0]
          omega
        rw [if_pos hlow, List.getElem?_eq_none hend, Option.getD_none]
      · rw [if_neg hlow, Option.getD_none]

/-- The chip's own test for a sample. -/
theorem Logs.due_iff (n : Nat) :
    l.Due n ↔ (n > 0 ∧ simTouchesData s.ptr n = true) ∧ s.Measuring := by
  rw [Due, ← h.holds simRegPowerCtl (by decide), ← h.place, ← simTouchesData_eq, and_assoc]
  exact Iff.rfl

theorem Logs.snapshot (n : Nat) : (if l.Due n then l.sample else l).Logs (s.snapshot n) := by
  rw [I2cSim.snapshot]
  by_cases hd : l.Due n
  · rw [if_pos hd, if_pos ((h.due_iff n).mp hd)]
    exact h.sample
  · rw [if_neg hd, if_neg fun hs => hd ((h.due_iff n).mpr hs)]
    exact h

/-- What the registers from the pointer on hold, on the ring. -/
theorem Logs.serve (n : Nat) :
    s.serve n = (List.range n).map fun k => l.holds ((l.place + k) % i2cSimNregs) := by
  refine List.ext_getElem (by rw [length_serve, List.length_map, List.length_range]) ?_
  intro k hk hk'
  have hbyte := serve_getElem? s (Nat.lt_of_lt_of_eq hk (length_serve s n))
  rw [List.getElem?_eq_getElem hk, Option.some.injEq, toNat_simNextPtrs,
    Ring.iterate_next h.inside, h.holds _ (Nat.mod_lt _ (by decide)), h.place] at hbyte
  rw [hbyte, List.getElem_map, List.getElem_range]

theorem Logs.next (n : Nat) :
    Logs { l with place := (l.place + n) % i2cSimNregs } (I2cSim.next^[n] s) := by
  have hptr : (I2cSim.next^[n] s).ptr = simNextPtr^[n] s.ptr :=
    (show Function.Semiconj I2cSim.ptr I2cSim.next simNextPtr from fun _ => rfl).iterate_right n s
  refine ⟨inside_nexts h.inside n, ?_, (nexts_phase s n).trans h.phase, fun i hi => ?_⟩
  · rw [hptr, toNat_simNextPtrs, Ring.iterate_next h.inside, h.place]
  · rw [I2cSim.reg, nexts_regs]
    exact h.holds i hi

/-- A read phase. -/
theorem Logs.read (n : Nat) : (l.read n).1 = (s.snapshot n).serve n ∧
    (l.read n).2.Logs (I2cSim.next^[n] (s.snapshot n)) :=
  ⟨((h.snapshot n).serve n).symm, (h.snapshot n).next n⟩

end

end Ledger

/-! ### Transactions -/

/-- What is not accepted is not acknowledged, or has a buffer missing. -/
theorem simulated_rejected {t : Transaction} (ha : ¬ t.Accepted) (s : I2cSim) :
    t.simulated (some s) =
      .ok ((if t.addr = simAddr then i2cErrParam else i2cErrNack, t.rdata), some s) := by
  by_cases haddr : t.addr = simAddr
  · rw [if_pos haddr]
    cases t with
    | write addr data =>
        obtain rfl : addr = simAddr := haddr
        have hd : ¬ Readable data := fun hd => ha ⟨rfl, hd, by simp [Readable, Transaction.rdata]⟩
        obtain ⟨h0, hn⟩ := not_not.mp hd
        rw [Transaction.simulated, Transaction.exec, simWrite, if_neg (not_not.mpr rfl),
          if_neg (Nat.ne_of_gt h0), if_pos hn]
        rfl
    | writeRead addr wdata rdata =>
        obtain rfl : addr = simAddr := haddr
        have hn : (wdata.size > 0 ∧ wdata.isNull = true) ∨
            (rdata.size > 0 ∧ rdata.isNull = true) := by
          by_contra hbufs
          exact ha ⟨rfl, not_or.mp hbufs⟩
        rw [Transaction.simulated, Transaction.exec, simWriteRead, if_neg (not_not.mpr rfl),
          if_pos hn]
        rfl
  · rw [if_neg haddr]
    cases t with
    | write addr data =>
        have hother : addr ≠ simAddr := haddr
        rw [Transaction.simulated, Transaction.exec, simWrite, if_pos hother]
        rfl
    | writeRead addr wdata rdata =>
        have hother : addr ≠ simAddr := haddr
        rw [Transaction.simulated, Transaction.exec, simWriteRead, if_pos hother]
        rfl

/-- The ledger, and the simulator it is the ledger of, in front of aimed transactions. -/
def LedgerOf (ts : List Transaction) (l : Ledger) (o : Option I2cSim) : Prop :=
  (∀ t ∈ ts, t.Aimed) ∧ ∃ s, o = some s ∧ l.Logs s

/-- One transaction. -/
theorem call_logs (t : Transaction) (ts : List Transaction) (l : Ledger) (o : Option I2cSim)
    (h : LedgerOf (t :: ts) l o) : Both (Same (LedgerOf ts)) (l.step t) (t.simulated o) := by
  obtain ⟨hts, s, rfl, h⟩ := h
  obtain ⟨ht, hts⟩ := List.forall_mem_cons.mp hts
  by_cases ha : t.Accepted
  · have hp := (aimed_iff ha).mp ht
    obtain ⟨hbytes, hlogs⟩ := (h.write hp).read t.rdata.size
    rw [simulated_accepted ha ht h.inside, Ledger.step, Ledger.call, if_pos ha, Transaction.front]
    refine both_ok ⟨?_, hts, _, rfl, hlogs⟩
    rw [← hbytes]
  · rw [simulated_rejected ha, Ledger.step, Ledger.call, if_neg ha]
    exact both_ok ⟨rfl, hts, s, rfl, h⟩

/-- **The register file.**  Over any aimed transactions from `i2c_sim_init`, of any lengths, the
simulator returns the statuses and the bytes of the ledger, and its registers, its pointer and its
phase are what the ledger says at the end. -/
theorem register_file (sim : I2cSim) {ts : List Transaction} (hts : ∀ t ∈ ts, t.Aimed) :
    ∃ answers l s', run Ledger.step .powerOn ts = .ok (answers, l) ∧
      run (fun o t => t.simulated o) (i2cSimInit (some sim)) ts = .ok (answers, some s') ∧
      l.Logs s' := by
  obtain ⟨p, q, hp, hq, hpq, -, s', hs', hlogs⟩ := run_lockstep (R := LedgerOf) call_logs ts
    ⟨hts, simPowerOn, rfl, Ledger.logs_powerOn⟩
  refine ⟨p.1, p.2, s', hp, ?_, hlogs⟩
  rw [hpq, ← hs']
  exact hq

/-- Two bytes land on the last register and on DEVID behind it; then both are read, and a missing
buffer and another slave are asked for. -/
def wrapAround : List Transaction :=
  [.write simAddr (.mem [0x39, 0x11, 0x22]), .writeRead simAddr (.mem [0x39]) (.mem [0, 0, 0]),
    .write simAddr (.null 1), .writeRead 0x1D (.mem []) (.mem [7])]

theorem register_file_wrap :
    ∃ s', run (fun o t => t.simulated o)
      (i2cSimInit (some ⟨Vector.replicate i2cSimNregs 0xAA, 3, 9⟩)) wrapAround =
        .ok ([(i2cOk, .mem []), (i2cOk, .mem [0x11, 0x22, 0x00]), (i2cErrParam, .mem []),
          (i2cErrNack, .mem [7])], some s') := by
  have haimed : ∀ t ∈ wrapAround, t.Aimed :=
    List.forall_mem_cons.mpr ⟨aimed_of_first rfl (by decide),
      List.forall_mem_cons.mpr ⟨aimed_of_first rfl (by decide),
        List.forall_mem_cons.mpr ⟨aimed_rejected (by decide),
          List.forall_mem_singleton.mpr (aimed_rejected (by decide))⟩⟩⟩
  have hledger : (run Ledger.step .powerOn wrapAround).map Prod.fst =
      .ok [(i2cOk, .mem []), (i2cOk, .mem [0x11, 0x22, 0x00]), (i2cErrParam, .mem []),
        (i2cErrNack, .mem [7])] := by decide
  obtain ⟨answers, l, s', hl, hs, -⟩ :=
    register_file ⟨Vector.replicate i2cSimNregs 0xAA, 3, 9⟩ haimed
  rw [hl] at hledger
  obtain rfl := Except.ok.inj hledger
  exact ⟨s', hs⟩

end Sharak
