import Sharak.Firmware.Transactions

/-!
# Firmware — fresh samples

The chip's test for a read of data is on the ends of the read, and the read loop goes around: from
behind the data registers a long read comes back to them unseen, and the end of a very long one
wraps (`visits_data_iff`, `touches_data_misses`).  The test is right, and a read of a measuring chip
serves no stale sample, exactly on the reads it foresees (`touches_data_iff`).
-/

namespace Sharak
open Memory

/-! ### The property -/

/-- Measure is set behind the write phase, and some byte of the read phase comes from a data
register. -/
def Transaction.Measures (s : I2cSim) (t : Transaction) : Prop :=
  (s.written t.wdata.cells).Measuring ∧ ∃ i, IsData i ∧ t.Reads s i

/-- The transaction takes a sample, and what it serves from the data registers is of it. -/
structure Transaction.Fresh (s : I2cSim) (t : Transaction) (r : Slice UInt8) (s' : I2cSim) :
    Prop where
  phase : s'.phase = s.phase + 1
  data : ∀ k j, k < t.rdata.size → j < 6 →
    (simNextPtr^[k] (t.start s)).toNat = simRegDatax0 + j →
      r.cells[k]? = some ((sampleBytes s.phase.toNat).getD j 0)

/-- Every transaction of the run from `s` comes to an end, and serves no stale sample. -/
def NeverStale : I2cSim → List Transaction → Prop
  | _, [] => True
  | s, t :: ts => ∃ st r s', t.exec (some s) = .ok (st, r, some s') ∧
      (t.Measures s → t.Fresh s r s') ∧ NeverStale s' ts

/-! ### The condition -/

/-- From within or in front of the data registers, the sum in the test does not wrap to one that
ends in front of them; from behind them, the read does not come around to them. -/
def Foreseen (ptr : UInt8) (rlen : Nat) : Prop :=
  (ptr.toNat ≤ simRegDataz1 ∧
      (ptr.toNat + rlen < 2 ^ 32 ∨ simRegDatax0 < (ptr.toNat + rlen) % 2 ^ 32)) ∨
    (simRegDataz1 < ptr.toNat ∧ ptr.toNat + rlen ≤ i2cSimNregs + simRegDatax0)

/-- Every read of the run from `s` with Measure set behind its write phase is foreseen. -/
def AllForeseen : I2cSim → List Transaction → Prop
  | _, [] => True
  | s, t :: ts =>
      (t.Accepted → (s.written t.wdata.cells).Measuring → Foreseen (t.start s) t.rdata.size) ∧
        ∀ s', t.run (some s) = .ok (some s') → AllForeseen s' ts

/-! ### The test and the loop -/

/-- What the read loop visits. -/
theorem visits_data_iff {ptr : UInt8} {n : Nat} (hp : ptr.toNat < i2cSimNregs) (hn : 0 < n) :
    (∃ k < n, IsData (simNextPtr^[k] ptr).toNat) ↔
      (ptr.toNat ≤ simRegDataz1 ∧ simRegDatax0 < ptr.toNat + n) ∨
        i2cSimNregs + simRegDatax0 < ptr.toNat + n := by
  have hring := Ring.visits_iff hp hn (show simRegDatax0 ≤ simRegDataz1 by decide)
    (show simRegDataz1 < i2cSimNregs by decide)
  simp only [IsData, toNat_simNextPtrs]
  exact hring

/-- The test is never wrong the other way. -/
theorem visits_of_touches {ptr : UInt8} {n : Nat} (hp : ptr.toNat < i2cSimNregs) (hn : 0 < n)
    (h : simTouchesData ptr n = true) : ∃ k < n, IsData (simNextPtr^[k] ptr).toNat := by
  obtain ⟨hle, hlt⟩ := (simTouchesData_eq ptr n).mp h
  have hmod := Nat.mod_le (ptr.toNat + n) (2 ^ 32)
  exact (visits_data_iff hp hn).mpr (Or.inl ⟨hle, Nat.lt_of_lt_of_le hlt hmod⟩)

theorem touches_of_foreseen {ptr : UInt8} {n : Nat} (hp : ptr.toNat < i2cSimNregs) (hn : 0 < n)
    (hf : Foreseen ptr n) (hv : ∃ k < n, IsData (simNextPtr^[k] ptr).toNat) :
    simTouchesData ptr n = true := by
  rw [visits_data_iff hp hn] at hv
  rw [simTouchesData_eq]
  rcases hf with ⟨hle, hshort | hsum⟩ | ⟨hgt, hend⟩
  · have hreach : simRegDatax0 < ptr.toNat + n := by
      rcases hv with ⟨-, hreach⟩ | haround
      · exact hreach
      -- a read that comes around has gone past them
      · exact Nat.lt_of_le_of_lt (Nat.le_add_left _ _) haround
    rw [Nat.mod_eq_of_lt hshort]
    exact ⟨hle, hreach⟩
  · exact ⟨hle, hsum⟩
  · rcases hv with ⟨hle, -⟩ | haround
    · exact absurd hle (Nat.not_le.mpr hgt)
    · exact absurd haround (Nat.not_lt.mpr hend)

/-- What is not foreseen does visit them. -/
theorem visits_of_not_foreseen {ptr : UInt8} {n : Nat} (hp : ptr.toNat < i2cSimNregs)
    (hf : ¬ Foreseen ptr n) :
    0 < n ∧ (∃ k < n, IsData (simNextPtr^[k] ptr).toNat) ∧ simTouchesData ptr n = false := by
  rw [Foreseen] at hf
  simp only [simRegDatax0, simRegDataz1, i2cSimNregs] at hf hp
  have hn : 0 < n := by omega
  refine ⟨hn, ?_, ?_⟩
  · rw [visits_data_iff hp hn]
    simp only [simRegDatax0, simRegDataz1, i2cSimNregs]
    omega
  · rw [← Bool.not_eq_true, simTouchesData_eq]
    simp only [simRegDatax0, simRegDataz1]
    omega

/-! ### One transaction -/

section
variable {s : I2cSim} {t : Transaction}

/-- A foreseen read of data takes its sample first. -/
theorem fresh_of_foreseen (hs : s.Inside) (ha : t.Accepted) (ht : t.Aimed)
    (hf : Foreseen (t.start s) t.rdata.size) (hm : t.Measures s) {r : Slice UInt8}
    (hserved : ∀ k < t.rdata.size,
      r.cells[k]? = some ((t.front s).reg (simNextPtr^[k] (t.start s)).toNat)) :
    t.Fresh s r (t.after s) := by
  obtain ⟨hmeasuring, i, hi, -, k, hk, rfl⟩ := hm
  have hpos : 0 < t.rdata.size := by omega
  have htouch := touches_of_foreseen (start_lt hs ha ht) hpos hf ⟨k, hk, hi⟩
  have hfront : t.front s = (s.written t.wdata.cells).refreshed := by
    rw [front_eq, if_pos ⟨⟨hpos, htouch⟩, hmeasuring⟩]
  refine ⟨?_, ?_⟩
  · rw [phase_after ha, hfront, refreshed_phase, written_phase]
  · intro k j hk hj heq
    rw [hserved k hk, heq, hfront, refreshed_byte _ hj, written_phase]

/-- One that is not foreseen serves what is there. -/
theorem not_fresh_of_not_foreseen (hs : s.Inside) (ha : t.Accepted) (ht : t.Aimed)
    (hm : (s.written t.wdata.cells).Measuring) (hf : ¬ Foreseen (t.start s) t.rdata.size)
    (r : Slice UInt8) : t.Measures s ∧ ¬ t.Fresh s r (t.after s) := by
  obtain ⟨-, ⟨k, hk, hi⟩, htouch⟩ := visits_of_not_foreseen (start_lt hs ha ht) hf
  refine ⟨⟨hm, _, hi, ha, k, hk, rfl⟩, ?_⟩
  intro hfresh
  have hphase := hfresh.phase
  rw [phase_after ha, front_eq, if_neg fun h => by simp [htouch] at h, written_phase] at hphase
  exact absurd (UInt32.left_eq_add.mp hphase) (by decide)

theorem exec_fresh_iff (hs : s.Inside) (ht : t.Aimed) :
    ∃ st r, t.exec (some s) = .ok (st, r, some (t.after s)) ∧
      ((t.Measures s → t.Fresh s r (t.after s)) ↔
        (t.Accepted → (s.written t.wdata.cells).Measuring →
          Foreseen (t.start s) t.rdata.size)) := by
  by_cases ha : t.Accepted
  · obtain ⟨r, hr, hserved⟩ := exec_aimed hs ha ht
    refine ⟨_, r, hr, ?_⟩
    constructor
    · intro hfresh _ hm
      by_contra hf
      obtain ⟨hmeasures, hstale⟩ := not_fresh_of_not_foreseen hs ha ht hm hf r
      exact hstale (hfresh hmeasures)
    · intro hf hm
      exact fresh_of_foreseen hs ha ht (hf ha hm.1) hm hserved
  · obtain ⟨st, -, hr⟩ := exec_rejected ha s
    rw [after_rejected ha]
    refine ⟨st, _, hr, iff_of_true ?_ fun ha' => absurd ha' ha⟩
    rintro ⟨-, i, -, ha', -⟩
    exact absurd ha' ha

end

/-! ### Runs -/

theorem never_stale_iff {s : I2cSim} (hs : s.Inside) {ts : List Transaction}
    (hts : ∀ t ∈ ts, t.Aimed) : NeverStale s ts ↔ AllForeseen s ts := by
  induction ts generalizing s with
  | nil => exact Iff.rfl
  | cons t ts ih =>
      obtain ⟨ht, hts⟩ := List.forall_mem_cons.mp hts
      obtain ⟨st, r, hexec, hone⟩ := exec_fresh_iff hs ht
      exact exec_then_iff hexec hone (ih (inside_after hs ht) hts)

/-- **The test and the read loop.**  The test for a read of data agrees with the registers the loop
visits exactly on the foreseen reads; and a run from `i2c_sim_init` with its pointer bytes inside
serves no stale sample while Measure is set exactly if the reads that find it set are foreseen. -/
theorem touches_data_iff {ptr : UInt8} {rlen : Nat} (hp : ptr.toNat < i2cSimNregs)
    (hn : 1 ≤ rlen) {sim s : I2cSim} (hs : i2cSimInit (some sim) = some s)
    {ts : List Transaction} (hts : ∀ t ∈ ts, t.Aimed) :
    ((simTouchesData ptr rlen = true ↔ ∃ k < rlen, IsData (simNextPtr^[k] ptr).toNat) ↔
      Foreseen ptr rlen) ∧ (NeverStale s ts ↔ AllForeseen s ts) := by
  constructor
  · constructor
    · intro hiff
      by_contra hf
      obtain ⟨-, hv, htouch⟩ := visits_of_not_foreseen hp hf
      rw [hiff.mpr hv] at htouch
      cases htouch
    · intro hf
      exact ⟨visits_of_touches hp hn, touches_of_foreseen hp hn hf⟩
  · obtain rfl := Option.some.inj hs
    exact never_stale_iff inside_powerOn hts

/-- Measure is set, and all six data registers are read. -/
def readBurst : List Transaction :=
  [.write simAddr (.mem [0x2D, 0x08]), .writeRead simAddr (.mem [0x32]) (.mem (List.replicate 6 0))]

theorem touches_data_burst :
    (simTouchesData 0x32 6 = true ↔ ∃ k < 6, IsData (simNextPtr^[k] 0x32).toNat) ∧
      NeverStale simPowerOn readBurst := by
  have hburst : Foreseen 0x32 6 := Or.inl ⟨by decide, Or.inl (by decide)⟩
  have haimed : ∀ t ∈ readBurst, t.Aimed :=
    List.forall_mem_cons.mpr ⟨aimed_of_first rfl (by decide),
      List.forall_mem_singleton.mpr (aimed_of_first rfl (by decide))⟩
  obtain ⟨htest, hrun⟩ := @touches_data_iff 0x32 6 (by decide) (by decide) simPowerOn _ rfl _ haimed
  refine ⟨htest.mpr hburst, hrun.mpr ⟨?_, ?_⟩⟩
  · intro _ _
    exact Or.inl ⟨by decide, Or.inl (by decide)⟩
  · intro s _
    exact ⟨fun _ _ => hburst, fun _ _ => trivial⟩

/-- Measure is set, and 53 registers are read from `38` on: the last of them is DATAX0. -/
def readAround : List Transaction :=
  [.write simAddr (.mem [0x2D, 0x08]),
    .writeRead simAddr (.mem [0x38]) (.mem (List.replicate 53 0))]

/-- The test misses such a read, which takes no sample; and it misses one of `2 ^ 32 - 1` registers
from DATAX0 on, whose end wraps to `31`. -/
theorem touches_data_misses :
    ¬ (simTouchesData 0x38 53 = true ↔ ∃ k < 53, IsData (simNextPtr^[k] 0x38).toNat) ∧
      ¬ (simTouchesData 0x32 4294967295 = true ↔
        ∃ k < 4294967295, IsData (simNextPtr^[k] 0x32).toNat) ∧
      (∀ t ∈ readAround, t.Aimed) ∧ ¬ NeverStale simPowerOn readAround := by
  have haround : simTouchesData 0x38 53 = false := by decide
  have hwraps : simTouchesData 0x32 4294967295 = false := by decide
  have haimed : ∀ t ∈ readAround, t.Aimed :=
    List.forall_mem_cons.mpr ⟨aimed_of_first rfl (by decide),
      List.forall_mem_singleton.mpr (aimed_of_first rfl (by decide))⟩
  refine ⟨?_, ?_, haimed, ?_⟩
  · intro hiff
    rw [hiff.mpr ((visits_data_iff (by decide) (by decide)).mpr (Or.inr (by decide)))] at haround
    cases haround
  · intro hiff
    rw [hiff.mpr ((visits_data_iff (by decide) (by decide)).mpr (Or.inl (by decide)))] at hwraps
    cases hwraps
  · rw [never_stale_iff inside_powerOn haimed]
    rintro ⟨-, hall⟩
    obtain ⟨hf, -⟩ := hall _ (run_aimed inside_powerOn (haimed _ (List.mem_cons_self ..)))
    rcases hf (by decide) (by decide) with ⟨hle, -⟩ | ⟨-, hend⟩
    · exact absurd hle (by decide)
    · exact absurd hend (by decide)

end Sharak
