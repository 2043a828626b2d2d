import Sharak.Firmware.Transactions

/-!
# Firmware — read-only registers

The write phases store wherever the pointer goes: DEVID and the data registers are protected by
nothing (`not_read_only`).  A run therefore finds the identity byte in DEVID exactly as long as the
last byte that landed there, if one did, is that byte, and standby freezes the data registers
exactly as long as what lands on them is what they hold (`read_only_iff`).
-/

namespace Sharak
open Memory

/-! ### The property -/

/-- Measure is clear in front of the transaction and behind each byte of its write phase. -/
def Transaction.Standby (s : I2cSim) (t : Transaction) : Prop :=
  ∀ k, ¬ (s.written (t.wdata.cells.take k)).Measuring

/-- DEVID is served as the identity byte, and standby freezes the data registers. -/
structure Transaction.Protects (s : I2cSim) (t : Transaction) (r : Slice UInt8) (s' : I2cSim) :
    Prop where
  devid : t.Accepted → ∀ k < t.rdata.size, (simNextPtr^[k] (t.start s)).toNat = simRegDevid →
    r.cells[k]? = some simDevidValue
  data : t.Standby s → ∀ i, IsData i → s'.reg i = s.reg i

/-- Every transaction of the run from `s` comes to an end, and keeps the read-only registers so. -/
def ReadOnly : I2cSim → List Transaction → Prop
  | _, [] => True
  | s, t :: ts => ∃ st r s', t.exec (some s) = .ok (st, r, some s') ∧ t.Protects s r s' ∧
      ReadOnly s' ts

/-! ### The condition -/

/-- Measure is clear, and no byte that lands on POWER_CTL sets it. -/
def Transaction.StaysClear (s : I2cSim) (t : Transaction) : Prop :=
  ¬ s.Measuring ∧ ∀ l ∈ t.stores, l.1 = simRegPowerCtl → l.2 &&& simPowerCtlMeasure = 0

/-- Behind the stores `ls` of a run: a read of DEVID finds no other byte to have landed there
last, and what lands on a data register in standby is what it holds. -/
structure Transaction.Spares (ls : List (Nat × UInt8)) (s : I2cSim) (t : Transaction) : Prop where
  devid : t.Reads s simRegDevid → ∀ b ∈ lastAt simRegDevid (ls ++ t.stores), b = simDevidValue
  data : t.StaysClear s → ∀ i, IsData i → ∀ b ∈ lastAt i t.stores, b = s.reg i

/-- Every transaction of the run from `s` does, behind the stores `ls`. -/
def Spared : List (Nat × UInt8) → I2cSim → List Transaction → Prop
  | _, _, [] => True
  | ls, s, t :: ts => t.Spares ls s ∧
      ∀ s', t.run (some s) = .ok (some s') → Spared (ls ++ t.stores) s' ts

/-! ### Standby -/

theorem measuring_put {s : I2cSim} (h : s.Inside) (b : UInt8) (hs : ¬ s.Measuring) :
    ¬ (s.put b).Measuring ↔ (s.ptr.toNat = simRegPowerCtl → b &&& simPowerCtlMeasure = 0) := by
  rw [I2cSim.Measuring, not_not, reg_put h]
  by_cases hp : simRegPowerCtl = s.ptr.toNat
  -- the byte is the new POWER_CTL
  · rw [if_pos hp]
    exact ⟨fun hb _ => hb, fun hb => hb hp.symm⟩
  · rw [if_neg hp]
    exact ⟨fun _ hp' => absurd hp'.symm hp, fun _ => not_not.mp hs⟩

theorem standby_stored {s : I2cSim} (h : s.Inside) (bs : List UInt8) :
    (∀ k, ¬ ((bs.take k).foldl I2cSim.put s).Measuring) ↔
      ¬ s.Measuring ∧
        ∀ l ∈ landings s.ptr bs, l.1 = simRegPowerCtl → l.2 &&& simPowerCtlMeasure = 0 := by
  induction bs generalizing s with
  | nil => simp [landings]
  | cons b bs ih =>
      rw [landings, List.forall_mem_cons]
      have hrest := ih (inside_put s b)
      constructor
      · intro hall
        have hs : ¬ s.Measuring := hall 0
        obtain ⟨hput, hls⟩ := hrest.mp fun k => hall (k + 1)
        exact ⟨hs, (measuring_put h b hs).mp hput, hls⟩
      · rintro ⟨hs, hb, hls⟩ k
        cases k with
        | zero => exact hs
        | succ k => exact hrest.mpr ⟨(measuring_put h b hs).mpr hb, hls⟩ k

/-- Standby, said of the bytes that land on POWER_CTL. -/
theorem standby_iff {s : I2cSim} {t : Transaction} (ha : t.Accepted) (ht : t.Aimed) :
    t.Standby s ↔ t.StaysClear s := by
  have hp := (aimed_iff ha).mp ht
  rw [Transaction.Standby, Transaction.StaysClear, stores_accepted ha]
  generalize t.wdata.cells = bs at hp ⊢
  cases bs with
  | nil => simp [I2cSim.written, stores]
  | cons b bs =>
      have hstored := standby_stored (s := { s with ptr := b }) (hp b rfl) bs
      refine Iff.trans ⟨fun hall k => hall (k + 1), fun hall k => ?_⟩ hstored
      cases k with
      | zero => exact hall 0
      | succ k => exact hall k

/-! ### One transaction -/

theorem getD_eq_iff {o : Option UInt8} {b : UInt8} : o.getD b = b ↔ ∀ a ∈ o, a = b := by
  cases o with
  | none => simp
  | some a => simp

/-- DEVID, from what it holds at the start and all stores since. -/
def I2cSim.Holds (ls : List (Nat × UInt8)) (s : I2cSim) : Prop :=
  s.reg simRegDevid = (lastAt simRegDevid ls).getD simDevidValue

section
variable {ls : List (Nat × UInt8)} {s : I2cSim} {t : Transaction}

theorem front_devid (h : s.Holds ls) (ha : t.Accepted) (ht : t.Aimed) :
    (t.front s).reg simRegDevid = (lastAt simRegDevid (ls ++ t.stores)).getD simDevidValue := by
  rw [reg_front ha ht (Or.inl (by decide)), h, lastAt_append, Option.getD_or]

theorem holds_powerOn : simPowerOn.Holds [] := show simPowerOn.reg 0 = simDevidValue by decide

theorem holds_after (h : s.Holds ls) (ht : t.Aimed) : (t.after s).Holds (ls ++ t.stores) := by
  rw [I2cSim.Holds]
  by_cases ha : t.Accepted
  · rw [reg_after ha, front_devid h ha ht]
  · rw [after_rejected ha, stores_rejected ha, List.append_nil]
    exact h

/-- A data register behind a transaction that took no sample. -/
theorem data_kept_iff (ha : t.Accepted) (ht : t.Aimed) (hst : t.Standby s) (i : Nat) :
    (t.after s).reg i = s.reg i ↔ ∀ b ∈ lastAt i t.stores, b = s.reg i := by
  have hclear : ¬ (s.written t.wdata.cells).Measuring := by
    -- the last of the moments in which Measure is clear is the one in front of the read phase
    have hall := hst t.wdata.cells.length
    rwa [List.take_length] at hall
  rw [reg_after ha, reg_front ha ht (Or.inr hclear), getD_eq_iff]

/-- One transaction, behind the stores `ls`. -/
theorem exec_protects (hs : s.Inside) (h : s.Holds ls) (ht : t.Aimed) :
    ∃ st r, t.exec (some s) = .ok (st, r, some (t.after s)) ∧
      (t.Protects s r (t.after s) ↔ t.Spares ls s) := by
  by_cases ha : t.Accepted
  · obtain ⟨r, hr, hserved⟩ := exec_aimed hs ha ht
    refine ⟨_, r, hr, ?_⟩
    have hdevid : ∀ k < t.rdata.size, (simNextPtr^[k] (t.start s)).toNat = simRegDevid →
        (r.cells[k]? = some simDevidValue ↔
          ∀ b ∈ lastAt simRegDevid (ls ++ t.stores), b = simDevidValue) := by
      intro k hk heq
      rw [hserved k hk, heq, front_devid h ha ht, Option.some.injEq, getD_eq_iff]
    constructor
    · intro hp
      refine ⟨?_, ?_⟩
      · rintro ⟨-, k, hk, heq⟩
        exact (hdevid k hk heq).mp (hp.devid ha k hk heq)
      · intro hclear i hi
        have hst := (standby_iff ha ht).mpr hclear
        exact (data_kept_iff ha ht hst i).mp (hp.data hst i hi)
    · intro hp
      refine ⟨?_, ?_⟩
      · intro _ k hk heq
        exact (hdevid k hk heq).mpr (hp.devid ⟨ha, k, hk, heq⟩)
      · intro hst i hi
        exact (data_kept_iff ha ht hst i).mpr (hp.data ((standby_iff ha ht).mp hst) i hi)
  -- nothing is stored and nothing is served
  · obtain ⟨st, -, hr⟩ := exec_rejected ha s
    rw [after_rejected ha]
    refine ⟨st, _, hr, iff_of_true ⟨fun ha' => absurd ha' ha, fun _ i _ => rfl⟩
      ⟨fun hreads => absurd hreads.1 ha, ?_⟩⟩
    intro _ i _ b hb
    rw [stores_rejected ha] at hb
    cases hb

end

/-! ### Runs -/

theorem read_only_from_iff {s : I2cSim} {ls : List (Nat × UInt8)} (hs : s.Inside)
    (h : s.Holds ls) {ts : List Transaction} (hts : ∀ t ∈ ts, t.Aimed) :
    ReadOnly s ts ↔ Spared ls s ts := by
  induction ts generalizing s ls with
  | nil => exact Iff.rfl
  | cons t ts ih =>
      obtain ⟨ht, hts⟩ := List.forall_mem_cons.mp hts
      obtain ⟨st, r, hexec, hone⟩ := exec_protects hs h ht
      exact exec_then_iff hexec hone (ih (inside_after hs ht) (holds_after h ht) hts)

/-- **Read-only registers**, over every run from `i2c_sim_init` with its pointer bytes inside: they
stay so exactly as long as nothing but what they are to hold lands on them. -/
theorem read_only_iff {sim s : I2cSim} (hs : i2cSimInit (some sim) = some s)
    {ts : List Transaction} (hts : ∀ t ∈ ts, t.Aimed) : ReadOnly s ts ↔ Spared [] s ts := by
  obtain rfl := Option.some.inj hs
  exact read_only_from_iff inside_powerOn holds_powerOn hts

/-- In standby, a zero lands on DATAX0, which is zero; `E5` lands on DEVID behind the last register,
and DEVID is read; then Measure is set, and `7F` lands on DATAX0. -/
def harmlessWrites : List Transaction :=
  [.write simAddr (.mem [0x31, 0x0B, 0x00]), .write simAddr (.mem [0x39, 0x01, 0xE5]),
    .writeRead simAddr (.mem [0x00]) (.mem [0x00]), .write simAddr (.mem [0x2D, 0x08]),
    .write simAddr (.mem [0x32, 0x7F])]

theorem spares_of_stores {ls : List (Nat × UInt8)} {s : I2cSim} {t : Transaction}
    (hdevid : (lastAt simRegDevid (ls ++ t.stores)).getD simDevidValue = simDevidValue)
    (hdata : t.StaysClear s →
      ∀ i < i2cSimNregs, IsData i → (lastAt i t.stores).getD (s.reg i) = s.reg i) :
    t.Spares ls s :=
  ⟨fun _ => getD_eq_iff.mp hdevid, fun hclear i hi =>
    getD_eq_iff.mp (hdata hclear i (Nat.lt_of_le_of_lt hi.2 (by decide)) hi)⟩

theorem spared_cons {ls : List (Nat × UInt8)} {s s₁ : I2cSim} {t : Transaction}
    {ts : List Transaction} (h : t.Spares ls s) (hrun : t.run (some s) = .ok (some s₁))
    (hrest : Spared (ls ++ t.stores) s₁ ts) : Spared ls s (t :: ts) := by
  refine ⟨h, fun s' hrun' => ?_⟩
  cases hrun.symm.trans hrun'
  exact hrest

theorem read_only_writes : (∀ t ∈ harmlessWrites, t.Aimed) ∧ ReadOnly simPowerOn harmlessWrites := by
  have haimed : ∀ t ∈ harmlessWrites, t.Aimed := by
    intro t ht
    simp only [harmlessWrites, List.mem_cons, List.not_mem_nil, or_false] at ht
    rcases ht with rfl | rfl | rfl | rfl | rfl <;> exact aimed_of_first rfl (by decide)
  refine ⟨haimed, (@read_only_iff simPowerOn _ rfl _ haimed).mpr ?_⟩
  refine spared_cons (spares_of_stores (by decide) fun _ => by decide) rfl ?_
  refine spared_cons (spares_of_stores (by decide) fun _ => by decide) rfl ?_
  refine spared_cons (spares_of_stores (by decide) fun _ => by decide) rfl ?_
  refine spared_cons (spares_of_stores (by decide) fun _ => by decide) rfl ?_
  -- Measure is set by now, and nothing is asked of what lands on DATAX0
  exact spared_cons (spares_of_stores (by decide) fun hclear => absurd hclear.1 (by decide)) rfl
    trivial

/-- `11` is stored in DEVID, and then read from it. -/
def overwriteDevid : List Transaction :=
  [.write simAddr (.mem [0x00, 0x11]), .writeRead simAddr (.mem [0x00]) (.mem [0x00])]

/-- `7F` is stored in DATAX0, in standby. -/
def overwriteData : List Transaction := [.write simAddr (.mem [0x32, 0x7F])]

/-- Neither DEVID nor a data register is protected. -/
theorem not_read_only :
    ((∀ t ∈ overwriteDevid, t.Aimed) ∧ ¬ ReadOnly simPowerOn overwriteDevid) ∧
      (∀ t ∈ overwriteData, t.Aimed) ∧ ¬ ReadOnly simPowerOn overwriteData := by
  refine ⟨⟨List.forall_mem_cons.mpr ⟨aimed_of_first rfl (by decide),
    List.forall_mem_singleton.mpr (aimed_of_first rfl (by decide))⟩, ?_⟩,
    List.forall_mem_singleton.mpr (aimed_of_first rfl (by decide)), ?_⟩
  · rintro ⟨st₁, r₁, s₁, h₁, -, st₂, r₂, s₂, h₂, hp, -⟩
    have hwrite : (Transaction.write simAddr (.mem [0x00, 0x11])).exec (some simPowerOn) =
        .ok (i2cOk, .mem [], some (simPowerOn.written [0x00, 0x11])) := rfl
    cases hwrite.symm.trans h₁
    have hread : (Transaction.writeRead simAddr (.mem [0x00]) (.mem [0x00])).exec
        (some (simPowerOn.written [0x00, 0x11])) =
          .ok (i2cOk, .mem [0x11], some (simPowerOn.written [0x00, 0x11])) := rfl
    cases hread.symm.trans h₂
    exact absurd (hp.devid (by decide) 0 (by decide) rfl) (by decide)
  · rintro ⟨st, r, s', h, hp, -⟩
    have hwrite : (Transaction.write simAddr (.mem [0x32, 0x7F])).exec (some simPowerOn) =
        .ok (i2cOk, .mem [], some (simPowerOn.written [0x32, 0x7F])) := rfl
    cases hwrite.symm.trans h
    have hstandby : (Transaction.write simAddr (.mem [0x32, 0x7F])).Standby simPowerOn :=
      (standby_iff (by decide) (aimed_of_first rfl (by decide))).mpr ⟨by decide, by decide⟩
    exact absurd (hp.data hstandby 0x32 (by decide)) (by decide)

end Sharak
