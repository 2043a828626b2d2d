import Sharak.Firmware.Simulator

/-!
# Firmware — transactions

Runs of the simulated chip, one transaction of the bus after another.  What the chip does not
accept leaves it as it is; on what it accepts both methods go through the same three phases
(`exec_accepted`), and with the pointer byte inside the register file they come to an end
(`exec_aimed`).  Nothing checks that byte: a run stays inside the register file exactly as long as
every pointer byte is inside (`safe_iff`).
-/

namespace Sharak
open Memory

/-! ### Transactions -/

/-- A transaction of the bus, as the master asks for it. -/
inductive Transaction where
  | write (addr : UInt8) (data : Slice UInt8)
  | writeRead (addr : UInt8) (wdata rdata : Slice UInt8)
deriving DecidableEq, Repr

/-- The chip after a transaction. -/
def Transaction.run (s : Option I2cSim) : Transaction → Checked (Option I2cSim)
  | .write addr data => do
      let (_, s) ← simWrite s addr data
      pure s
  | .writeRead addr wdata rdata => do
      let (_, _, s) ← simWriteRead s addr wdata rdata
      pure s

/-- The byte a transaction sets the register pointer to, if it gets that far. -/
def Transaction.pointer : Transaction → Option UInt8
  | .write addr data => if addr = simAddr then data.cells.head? else none
  | .writeRead addr wdata rdata =>
      if addr = simAddr ∧ ¬ (rdata.size > 0 ∧ rdata.isNull) then wdata.cells.head? else none

/-- The transaction does not move the register pointer out of the register file. -/
def Transaction.Aimed (t : Transaction) : Prop := ∀ b ∈ t.pointer, b.toNat < i2cSimNregs

/-- The slave a transaction is for. -/
def Transaction.addr : Transaction → UInt8
  | .write addr _ => addr
  | .writeRead addr _ _ => addr

/-- The bytes of its write phase. -/
def Transaction.wdata : Transaction → Slice UInt8
  | .write _ data => data
  | .writeRead _ wdata _ => wdata

/-- The buffer of its read phase; `sim_write` has none. -/
def Transaction.rdata : Transaction → Slice UInt8
  | .write _ _ => .mem []
  | .writeRead _ _ rdata => rdata

/-- A transaction's status, the buffer of its read phase behind it, and the chip. -/
def Transaction.exec (s : Option I2cSim) :
    Transaction → Checked (Int × Slice UInt8 × Option I2cSim)
  | .write addr data => do
      let (st, s) ← simWrite s addr data
      pure (st, .mem [], s)
  | .writeRead addr wdata rdata => simWriteRead s addr wdata rdata

/-- The chip is addressed, and no buffer is missing. -/
def Transaction.Accepted (t : Transaction) : Prop :=
  t.addr = simAddr ∧ Readable t.wdata ∧ Readable t.rdata

instance (t : Transaction) : Decidable t.Accepted := inferInstanceAs (Decidable (_ ∧ _))

/-- The stores of a transaction: register and byte. -/
def Transaction.stores (t : Transaction) : List (Nat × UInt8) :=
  if t.Accepted then Sharak.stores t.wdata.cells else []

/-- The register its read phase starts at. -/
def Transaction.start (s : I2cSim) (t : Transaction) : UInt8 :=
  match t.wdata.cells with
  | [] => s.ptr
  | b :: bs => simNextPtr^[bs.length] b

/-- A byte of the read phase comes from register `i`. -/
def Transaction.Reads (s : I2cSim) (t : Transaction) (i : Nat) : Prop :=
  t.Accepted ∧ ∃ k < t.rdata.size, (simNextPtr^[k] (t.start s)).toNat = i

/-- The chip in front of its read phase. -/
def Transaction.front (s : I2cSim) (t : Transaction) : I2cSim :=
  (s.written t.wdata.cells).snapshot t.rdata.size

/-- The chip behind it. -/
def Transaction.after (s : I2cSim) (t : Transaction) : I2cSim :=
  if t.Accepted then I2cSim.next^[t.rdata.size] (t.front s) else s

/-! ### One transaction -/

theorem run_exec (s : Option I2cSim) (t : Transaction) :
    t.run s = t.exec s >>= fun r => pure r.2.2 := by
  cases t with
  | write addr data =>
      rw [Transaction.run, Transaction.exec]
      cases simWrite s addr data <;> rfl
  | writeRead addr wdata rdata => rfl

/-- What is not accepted is answered with an error, and nothing else happens. -/
theorem exec_rejected {t : Transaction} (ha : ¬ t.Accepted) (s : I2cSim) :
    ∃ st, st ≠ i2cOk ∧ t.exec (some s) = .ok (st, t.rdata, some s) := by
  have hnack : i2cErrNack ≠ i2cOk := by decide
  have hparam : i2cErrParam ≠ i2cOk := by decide
  cases t with
  | write addr data =>
      by_cases haddr : addr = simAddr
      · have hd : ¬ Readable data := fun hd => ha ⟨haddr, hd, by simp [Readable, Transaction.rdata]⟩
        obtain ⟨h0, hn⟩ := not_not.mp hd
        refine ⟨_, hparam, ?_⟩
        rw [Transaction.exec, simWrite, if_neg (not_not.mpr haddr), if_neg (Nat.ne_of_gt h0),
          if_pos hn]
        rfl
      · refine ⟨_, hnack, ?_⟩
        rw [Transaction.exec, simWrite, if_pos haddr]
        rfl
  | writeRead addr wdata rdata =>
      by_cases haddr : addr = simAddr
      · have hn : (wdata.size > 0 ∧ wdata.isNull = true) ∨
            (rdata.size > 0 ∧ rdata.isNull = true) := by
          by_contra h
          exact ha ⟨haddr, not_or.mp h⟩
        refine ⟨_, hparam, ?_⟩
        rw [Transaction.exec, simWriteRead, if_neg (not_not.mpr haddr), if_pos hn]
        rfl
      · refine ⟨_, hnack, ?_⟩
        rw [Transaction.exec, simWriteRead, if_pos haddr]
        rfl

/-- The three phases of what is accepted; `sim_write` has only the first. -/
theorem exec_accepted {t : Transaction} (ha : t.Accepted) (s : I2cSim) :
    t.exec (some s) = simWritePhase s t.wdata >>= fun s => simSamplePhase s t.rdata.size >>=
      fun s => simReadLoop t.rdata.size 0 t.rdata s >>= fun r => pure (i2cOk, r.1, some r.2) := by
  cases t with
  | write addr data =>
      obtain ⟨rfl, hw, -⟩ : addr = simAddr ∧ Readable data ∧ _ := ha
      rw [Transaction.exec, simWrite, if_neg (not_not.mpr rfl)]
      by_cases h0 : data.size = 0
      -- `sim_write` has returned, and an empty write phase does nothing
      · have hphase : simWritePhase s data = .ok s := if_neg (by omega)
        rw [if_pos h0, Transaction.wdata, hphase]
        rfl
      · have hn : ¬ data.isNull = true := fun hn => hw ⟨Nat.pos_of_ne_zero h0, hn⟩
        rw [if_neg h0, if_neg hn, Transaction.wdata]
        cases simWritePhase s data <;> rfl
  | writeRead addr wdata rdata =>
      obtain ⟨rfl, hbufs⟩ : addr = simAddr ∧ Readable wdata ∧ Readable rdata := ha
      rw [Transaction.exec, simWriteRead, if_neg (not_not.mpr rfl), if_neg (not_or.mpr hbufs)]
      rfl

theorem pointer_accepted {t : Transaction} (ha : t.Accepted) :
    t.pointer = t.wdata.cells.head? := by
  obtain ⟨haddr, -, hr⟩ := ha
  cases t with
  | write addr data => exact if_pos haddr
  | writeRead addr wdata rdata => exact if_pos ⟨haddr, hr⟩

theorem pointer_rejected {t : Transaction} (ha : ¬ t.Accepted) : t.pointer = none := by
  have hnull : ∀ d : Slice UInt8, ¬ Readable d → d.cells.head? = none := by
    intro d hd
    cases d with
    | null k => rfl
    | mem bs => exact absurd (by simp [Readable]) hd
  cases t with
  | write addr data =>
      by_cases haddr : addr = simAddr
      · rw [Transaction.pointer, if_pos haddr]
        exact hnull data fun hd => ha ⟨haddr, hd, by simp [Readable, Transaction.rdata]⟩
      · exact if_neg haddr
  | writeRead addr wdata rdata =>
      by_cases h : addr = simAddr ∧ ¬ (rdata.size > 0 ∧ rdata.isNull = true)
      · rw [Transaction.pointer, if_pos h]
        exact hnull wdata fun hw => ha ⟨h.1, hw, h.2⟩
      · exact if_neg h

theorem aimed_iff {t : Transaction} (ha : t.Accepted) :
    t.Aimed ↔ ∀ b ∈ t.wdata.cells.head?, b.toNat < i2cSimNregs := by
  rw [Transaction.Aimed, pointer_accepted ha]

theorem aimed_rejected {t : Transaction} (ha : ¬ t.Accepted) : t.Aimed := by
  rw [Transaction.Aimed, pointer_rejected ha]
  intro b hb
  cases hb

theorem aimed_of_first {t : Transaction} {b : UInt8} {bs : List UInt8}
    (h : t.wdata = .mem (b :: bs)) (hb : b.toNat < i2cSimNregs) : t.Aimed := by
  by_cases ha : t.Accepted
  · rw [aimed_iff ha, h]
    rintro c ⟨⟩
    exact hb
  · exact aimed_rejected ha

theorem written_ptr (s : I2cSim) (t : Transaction) : (s.written t.wdata.cells).ptr = t.start s := by
  rw [Transaction.start]
  cases t.wdata.cells with
  | nil => rfl
  | cons b bs => exact stored_ptr { s with ptr := b } bs

theorem front_ptr (s : I2cSim) (t : Transaction) : (t.front s).ptr = t.start s := by
  rw [Transaction.front, snapshot_ptr, written_ptr]

/-- Whether there is a sample in front of the read phase. -/
theorem front_eq (s : I2cSim) (t : Transaction) : t.front s =
    if (t.rdata.size > 0 ∧ simTouchesData (t.start s) t.rdata.size = true) ∧
        (s.written t.wdata.cells).Measuring then
      (s.written t.wdata.cells).refreshed
    else s.written t.wdata.cells := by
  rw [Transaction.front, I2cSim.snapshot, written_ptr]

theorem after_accepted {t : Transaction} (ha : t.Accepted) (s : I2cSim) :
    t.after s = I2cSim.next^[t.rdata.size] (t.front s) := if_pos ha

theorem after_rejected {t : Transaction} (ha : ¬ t.Accepted) (s : I2cSim) : t.after s = s :=
  if_neg ha

section
variable {s : I2cSim} (hs : s.Inside) {t : Transaction}
include hs

theorem inside_front (ha : t.Accepted) (ht : t.Aimed) : (t.front s).Inside := by
  rw [I2cSim.Inside, Transaction.front, snapshot_ptr]
  exact inside_written hs ((aimed_iff ha).mp ht)

theorem start_lt (ha : t.Accepted) (ht : t.Aimed) : (t.start s).toNat < i2cSimNregs := by
  rw [← front_ptr]
  exact inside_front hs ha ht

theorem inside_after (ht : t.Aimed) : (t.after s).Inside := by
  by_cases ha : t.Accepted
  · rw [after_accepted ha]
    exact inside_nexts (inside_front hs ha ht) _
  · rw [after_rejected ha]
    exact hs

/-- **What the chip answers**: byte `k` of a read phase is what the `k`-th register from its start
on holds, once all stores are done and the sample is taken. -/
theorem exec_aimed (ha : t.Accepted) (ht : t.Aimed) :
    ∃ r, t.exec (some s) = .ok (i2cOk, r, some (t.after s)) ∧ ∀ k < t.rdata.size,
      r.cells[k]? = some ((t.front s).reg (simNextPtr^[k] (t.start s)).toNat) := by
  refine ⟨t.rdata.put ((t.front s).serve t.rdata.size), ?_, ?_⟩
  · rw [exec_accepted ha, simWritePhase_ok ha.2.1 ((aimed_iff ha).mp ht), ok_bind,
      simSamplePhase_ok, ok_bind, after_accepted ha]
    exact congrArg (fun r => r >>= _) (simReadLoop_ok (inside_front hs ha ht) ha.2.2)
  · intro k hk
    rw [cells_put ha.2.2 (length_serve _ _), serve_getElem? _ hk, front_ptr]

theorem run_aimed (ht : t.Aimed) : t.run (some s) = .ok (some (t.after s)) := by
  by_cases ha : t.Accepted
  · obtain ⟨r, hr, -⟩ := exec_aimed hs ha ht
    rw [run_exec, hr]
    rfl
  · obtain ⟨st, -, hr⟩ := exec_rejected ha s
    rw [run_exec, hr, after_rejected ha]
    rfl

end

/-- A transaction that has an outcome, in front of a run: `P` of the outcome and `R` of the rest
come to `C` and `R'`. -/
theorem exec_then_iff {s s₁ : I2cSim} {t : Transaction} {st : Int} {r : Slice UInt8}
    (hexec : t.exec (some s) = .ok (st, r, some s₁)) {P : Slice UInt8 → I2cSim → Prop} {C : Prop}
    {R R' : I2cSim → Prop} (hone : P r s₁ ↔ C) (hrest : R s₁ ↔ R' s₁) :
    (∃ st r s', t.exec (some s) = .ok (st, r, some s') ∧ P r s' ∧ R s') ↔
      C ∧ ∀ s', t.run (some s) = .ok (some s') → R' s' := by
  have hrun : t.run (some s) = .ok (some s₁) := by
    rw [run_exec, hexec]
    rfl
  constructor
  · rintro ⟨st', r', s', hexec', hP, hR⟩
    cases hexec.symm.trans hexec'
    refine ⟨hone.mp hP, ?_⟩
    intro s' hrun'
    cases hrun.symm.trans hrun'
    exact hrest.mp hR
  · rintro ⟨hC, hall⟩
    exact ⟨st, r, s₁, hexec, hone.mpr hC, hrest.mpr (hall s₁ hrun)⟩

/-! ### Registers behind a transaction -/

theorem stores_accepted {t : Transaction} (ha : t.Accepted) :
    t.stores = Sharak.stores t.wdata.cells := if_pos ha

theorem stores_rejected {t : Transaction} (ha : ¬ t.Accepted) : t.stores = [] := if_neg ha

theorem reg_front {s : I2cSim} {t : Transaction} (ha : t.Accepted) (ht : t.Aimed) {i : Nat}
    (h : ¬ IsData i ∨ ¬ (s.written t.wdata.cells).Measuring) :
    (t.front s).reg i = (lastAt i t.stores).getD (s.reg i) := by
  rw [Transaction.front, reg_snapshot h, reg_written ((aimed_iff ha).mp ht), stores_accepted ha]

theorem phase_after {s : I2cSim} {t : Transaction} (ha : t.Accepted) :
    (t.after s).phase = (t.front s).phase := by
  rw [after_accepted ha, nexts_phase]

theorem reg_after {s : I2cSim} {t : Transaction} (ha : t.Accepted) (i : Nat) :
    (t.after s).reg i = (t.front s).reg i := by
  rw [after_accepted ha, I2cSim.reg, nexts_regs, I2cSim.reg]

/-! ### The register file is safe -/

/-- The run from `s` accesses no register outside the register file and has the pointer inside
after every transaction. -/
def Safe : Option I2cSim → List Transaction → Prop
  | _, [] => True
  | s, t :: ts => ∃ s', t.run s = .ok (some s') ∧ s'.Inside ∧ Safe (some s') ts

/-- A write phase with its pointer byte outside leaves the pointer outside, or has faulted. -/
theorem not_inside_writePhase {s s₁ : I2cSim} {d : Slice UInt8} {b : UInt8}
    (hb : b ∈ d.cells.head?) (hw : ¬ b.toNat < i2cSimNregs)
    (h : simWritePhase s d = .ok s₁) : ¬ s₁.Inside := by
  cases d with
  | null k => cases hb
  | mem ds =>
      cases ds with
      | nil => cases hb
      | cons c bs =>
          obtain rfl : c = b := Option.some.inj hb
          cases bs with
          | nil => exact Except.ok.inj h ▸ hw
          | cons a bs =>
              have hf := @simWriteLoop_fault (c :: a :: bs) bs.length 1 { s with ptr := c }
                (by simp; omega) hw
              cases hf.symm.trans h

/-- A read with the pointer outside leaves it outside, or has faulted. -/
theorem not_inside_readLoop {s s₁ : I2cSim} {r r₁ : Slice UInt8} {k : Nat} (hs : ¬ s.Inside)
    (h : simReadLoop k 0 r s = .ok (r₁, s₁)) : ¬ s₁.Inside := by
  cases k with
  | zero => exact (Prod.mk.inj (Except.ok.inj h)).2 ▸ hs
  | succ k =>
      rw [simReadLoop, load_fault hs] at h
      cases h

/-- The pointer a transaction leaves inside was aimed there. -/
theorem aimed_of_run {s s' : I2cSim} {t : Transaction} (h : t.run (some s) = .ok (some s'))
    (hs' : s'.Inside) : t.Aimed := by
  by_cases ha : t.Accepted
  · intro b hb
    rw [pointer_accepted ha] at hb
    by_contra hwild
    rw [run_exec, exec_accepted ha] at h
    obtain ⟨⟨st, r, c⟩, hexec, hc⟩ := bind_eq_ok h
    obtain ⟨s₁, hwrite, h₁⟩ := bind_eq_ok hexec
    obtain ⟨s₂, hsample, h₂⟩ := bind_eq_ok h₁
    obtain ⟨⟨r₃, s₃⟩, hread, h₃⟩ := bind_eq_ok h₂
    cases h₃
    cases hc
    -- once outside, the pointer stays there: a sample does not move it, and no byte is served
    obtain rfl := Except.ok.inj ((simSamplePhase_ok _ _).symm.trans hsample)
    refine not_inside_readLoop ?_ hread hs'
    rw [I2cSim.Inside, snapshot_ptr]
    exact not_inside_writePhase hb hwild hwrite
  · exact aimed_rejected ha

/-- **The register file is safe exactly as long as every pointer byte is in it.** -/
theorem safe_iff {s : I2cSim} (hs : s.Inside) (ts : List Transaction) :
    Safe (some s) ts ↔ ∀ t ∈ ts, t.Aimed := by
  induction ts generalizing s with
  | nil => simp [Safe]
  | cons t ts ih =>
      rw [List.forall_mem_cons]
      constructor
      · rintro ⟨s', hrun, hs', hsafe⟩
        exact ⟨aimed_of_run hrun hs', (ih hs').mp hsafe⟩
      · rintro ⟨ht, hts⟩
        have hs' := inside_after hs ht
        exact ⟨t.after s, run_aimed hs ht, hs', (ih hs').mpr hts⟩

/-- **From `i2c_sim_init`**, no access leaves the register file and the pointer stays inside it,
exactly as long as every transaction for the chip that has a write phase points inside. -/
theorem power_on_safe_iff (sim : I2cSim) (ts : List Transaction) :
    Safe (i2cSimInit (some sim)) ts ↔ ∀ t ∈ ts, t.Aimed :=
  safe_iff inside_powerOn ts

/-- A write of `01` at `FF`: it is stored outside the register file. -/
theorem write_ff_unsafe :
    ¬ Safe (i2cSimInit (some ⟨Vector.replicate i2cSimNregs 0, 0, 0⟩))
        [.write simAddr (.mem [0xFF, 0x01])] ∧
      (Transaction.write simAddr (.mem [0xFF, 0x01])).run
        (i2cSimInit (some ⟨Vector.replicate i2cSimNregs 0, 0, 0⟩)) =
          .error ⟨0xFF, i2cSimNregs⟩ := by
  have hrun : (Transaction.write simAddr (.mem [0xFF, 0x01])).run
      (i2cSimInit (some ⟨Vector.replicate i2cSimNregs 0, 0, 0⟩)) =
        .error ⟨0xFF, i2cSimNregs⟩ := rfl
  refine ⟨?_, hrun⟩
  rintro ⟨s', h, -⟩
  cases hrun.symm.trans h

end Sharak
