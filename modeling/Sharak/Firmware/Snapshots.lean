import Sharak.Firmware.Transactions

/-!
# Firmware — snapshots

In a run that stores nothing into the data registers and reads past no end, they show the latest
sample: zero before the first, and sample `m` once `m + 1` of them have been taken (`Shows`).  A
read takes one exactly when it overlaps the data registers of a measuring chip (`samples_iff`),
before it serves a byte, so all data bytes of a read are of one sample (`snapshot_semantics`).
-/

namespace Sharak
open Memory

/-! ### The samples of a run -/

/-- A read of data registers, with Measure set behind the write phase. -/
def Transaction.Samples (s : I2cSim) (t : Transaction) : Prop :=
  t.Accepted ∧ (∃ k < t.rdata.size, IsData ((t.start s).toNat + k)) ∧
    (s.written t.wdata.cells).Measuring

theorem overlaps_iff {p n : Nat} : (∃ k < n, IsData (p + k)) ↔
    0 < n ∧ p ≤ simRegDataz1 ∧ simRegDatax0 < p + n := by
  simp only [IsData, simRegDatax0, simRegDataz1]
  constructor
  · rintro ⟨k, hk, h⟩
    omega
  -- the first data register of the read is DATAX0, or the one it starts at
  · intro h
    exact ⟨0x32 - p, by omega, by omega⟩

instance (s : I2cSim) (t : Transaction) : Decidable (t.Samples s) :=
  decidable_of_iff _ (and_congr_right fun _ => and_congr_left' overlaps_iff.symm)

/-- The samples taken up to and with `t`, when there were `n` before. -/
def Transaction.counted (s : I2cSim) (t : Transaction) (n : Nat) : Nat :=
  if t.Samples s then n + 1 else n

/-- Data byte `j` once `n` samples have been taken. -/
def dataByte : (n j : Nat) → UInt8
  | 0, _ => 0
  | m + 1, j => (sampleBytes m).getD j 0

/-- The pointer byte is inside, no byte lands on a data register, and the read ends in front of the
end of the register file. -/
structure Transaction.Regular (s : I2cSim) (t : Transaction) : Prop where
  aimed : t.Aimed
  clear : ∀ l ∈ t.stores, ¬ IsData l.1
  fits : t.Accepted → (t.start s).toNat + t.rdata.size ≤ i2cSimNregs

/-- The chip after a run of such transactions from `i2c_sim_init`, and how many samples it has
taken. -/
inductive Sampled : I2cSim → Nat → Prop where
  | init {sim s : I2cSim} : i2cSimInit (some sim) = some s → Sampled s 0
  | step {s s' : I2cSim} {n : Nat} {t : Transaction} : Sampled s n → t.Regular s →
      t.run (some s) = .ok (some s') → Sampled s' (t.counted s n)

/-! ### When a sample is taken -/

theorem simTouchesData_iff {ptr : UInt8} {n : Nat} (h : ptr.toNat + n ≤ i2cSimNregs) :
    simTouchesData ptr n = true ↔ ptr.toNat ≤ simRegDataz1 ∧ simRegDatax0 < ptr.toNat + n := by
  -- so short a read wraps nowhere
  have hsmall : (ptr.toNat + n) % 2 ^ 32 = ptr.toNat + n := by
    simp only [i2cSimNregs] at h
    exact Nat.mod_eq_of_lt (by omega)
  rw [simTouchesData_eq, hsmall]

/-- The chip's own test for a sample. -/
theorem samples_iff {s : I2cSim} {t : Transaction} (ha : t.Accepted) (ht : t.Regular s) :
    t.Samples s ↔ (t.rdata.size > 0 ∧ simTouchesData (t.start s) t.rdata.size = true) ∧
      (s.written t.wdata.cells).Measuring := by
  rw [Transaction.Samples, overlaps_iff, simTouchesData_iff (ht.fits ha)]
  exact and_iff_right ha

theorem front_samples {s : I2cSim} {t : Transaction} (ha : t.Accepted) (ht : t.Regular s) :
    t.front s =
      if t.Samples s then (s.written t.wdata.cells).refreshed else s.written t.wdata.cells := by
  rw [front_eq]
  exact if_congr (samples_iff ha ht).symm rfl rfl

/-! ### What the data registers show -/

/-- The chip has taken `n` samples, and shows the last of them. -/
structure I2cSim.Shows (s : I2cSim) (n : Nat) : Prop where
  inside : s.Inside
  phase : s.phase = UInt32.ofNat n
  data : ∀ j < 6, s.reg (simRegDatax0 + j) = dataByte n j

theorem shows_powerOn : simPowerOn.Shows 0 where
  inside := inside_powerOn
  phase := rfl
  data := by decide

namespace I2cSim.Shows

variable {s : I2cSim} {n : Nat} (h : s.Shows n)
include h

theorem written {t : Transaction} (ha : t.Accepted) (ht : t.Regular s) :
    (s.written t.wdata.cells).Shows n where
  inside := inside_written h.inside ((aimed_iff ha).mp ht.aimed)
  phase := by rw [written_phase, h.phase]
  data := by
    intro j hj
    have hnone : lastAt (simRegDatax0 + j) (Sharak.stores t.wdata.cells) = none := by
      refine lastAt_eq_none fun l hl heq => ?_
      rw [← stores_accepted ha] at hl
      refine ht.clear l hl ?_
      rw [heq, IsData]
      simp only [simRegDatax0, simRegDataz1]
      omega
    rw [reg_written ((aimed_iff ha).mp ht.aimed), hnone, Option.getD_none, h.data j hj]

/-- A fresh sample is the next one. -/
theorem refreshed : s.refreshed.Shows (n + 1) where
  inside := by
    rw [I2cSim.Inside, refreshed_ptr]
    exact h.inside
  phase := by
    rw [refreshed_phase, h.phase, UInt32.ofNat_add]
    rfl
  data := by
    intro j hj
    -- the phase counts modulo `2 ^ 32`, which the period of the wave divides
    have hsample : sampleBytes s.phase.toNat = sampleBytes n := by
      rw [h.phase, sampleBytes_wrap]
    rw [refreshed_byte s hj, dataByte, hsample]

theorem nexts (k : Nat) : (I2cSim.next^[k] s).Shows n where
  inside := inside_nexts h.inside k
  phase := by rw [nexts_phase, h.phase]
  data := by
    intro j hj
    rw [I2cSim.reg, nexts_regs, ← h.data j hj, I2cSim.reg]

/-- In front of the read phase, the data registers show the sample its bytes are taken from. -/
theorem front {t : Transaction} (ha : t.Accepted) (ht : t.Regular s) :
    (t.front s).Shows (t.counted s n) := by
  have hw := h.written ha ht
  rw [front_samples ha ht, Transaction.counted]
  by_cases hs : t.Samples s
  · rw [if_pos hs, if_pos hs]
    exact hw.refreshed
  · rw [if_neg hs, if_neg hs]
    exact hw

theorem after {t : Transaction} (ht : t.Regular s) : (t.after s).Shows (t.counted s n) := by
  by_cases ha : t.Accepted
  · rw [after_accepted ha]
    exact (h.front ha ht).nexts _
  · have hs : ¬ t.Samples s := fun hs => ha hs.1
    rw [after_rejected ha, Transaction.counted, if_neg hs]
    exact h

end I2cSim.Shows

theorem Sampled.shows {s : I2cSim} {n : Nat} (h : Sampled s n) : s.Shows n := by
  induction h with
  | init h =>
      obtain rfl := Option.some.inj h
      exact shows_powerOn
  | step _ ht hrun ih =>
      obtain rfl := Option.some.inj (Except.ok.inj ((run_aimed ih.inside ht.aimed).symm.trans hrun))
      exact ih.after ht

/-- **Snapshots.**  After any run, a further transaction comes to an end, and every byte it serves
from a data register is of the one sample that the samples taken so far, its own included, lead
to. -/
theorem snapshot_semantics {s : I2cSim} {n : Nat} (h : Sampled s n) {t : Transaction}
    (ht : t.Regular s) :
    ∃ st r s', t.exec (some s) = .ok (st, r, some s') ∧ Sampled s' (t.counted s n) ∧
      (t.Accepted → st = i2cOk ∧ ∀ k j, k < t.rdata.size → j < 6 →
        (t.start s).toNat + k = simRegDatax0 + j →
          r.cells[k]? = some (dataByte (t.counted s n) j)) := by
  have hshows := h.shows
  have hnext : Sampled (t.after s) (t.counted s n) :=
    h.step ht (run_aimed hshows.inside ht.aimed)
  by_cases ha : t.Accepted
  · obtain ⟨r, hr, hserved⟩ := exec_aimed hshows.inside ha ht.aimed
    refine ⟨_, r, _, hr, hnext, fun _ => ⟨rfl, ?_⟩⟩
    intro k j hk hj heq
    have hfits := ht.fits ha
    rw [hserved k hk, toNat_nextPtrs (by omega), heq, (hshows.front ha ht).data j hj]
  · obtain ⟨st, -, hr⟩ := exec_rejected ha s
    rw [after_rejected ha] at hnext
    exact ⟨st, _, _, hr, hnext, fun h => absurd h ha⟩

/-- A write of POWER_CTL in front of a burst of all six data registers. -/
theorem snapshot_semantics_burst :
    ∃ s, Sampled s 0 ∧
      (Transaction.writeRead simAddr (.mem [0x32]) (.mem (List.replicate 6 0))).Regular s ∧
      ∃ r s', (Transaction.writeRead simAddr (.mem [0x32]) (.mem (List.replicate 6 0))).exec
          (some s) = .ok (i2cOk, r, some s') ∧ Sampled s' 1 ∧ r.cells[2]? = some 0x10 := by
  have hwrite : (Transaction.write simAddr (.mem [0x2D, 0x08])).Regular simPowerOn :=
    ⟨aimed_of_first rfl (by decide), by decide, by decide⟩
  have hmeasure := (@Sampled.init simPowerOn _ rfl).step hwrite rfl
  have hburst : (Transaction.writeRead simAddr (.mem [0x32]) (.mem (List.replicate 6 0))).Regular
      ((Transaction.write simAddr (.mem [0x2D, 0x08])).after simPowerOn) :=
    ⟨aimed_of_first rfl (by decide), by decide, by decide⟩
  obtain ⟨st, r, s', hexec, hnext, hserved⟩ := snapshot_semantics hmeasure hburst
  obtain ⟨rfl, hbytes⟩ := hserved (by decide)
  exact ⟨_, hmeasure, hburst, r, s', hexec, hnext, hbytes 2 2 (by decide) (by decide) rfl⟩

end Sharak
