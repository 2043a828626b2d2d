import Sharak.Firmware.Simulator
import Sharak.Firmware.Stellaris

/-!
# Firmware — the two backends

The driver sees a bus through the status of its two methods.  `OneSlave` says what the I2C0 master
answers when there is one slave on the wires, the accelerometer; with it the status of both methods
of both backends is computed from the arguments alone (`simWrite_status`, `stellarisWrite_status`
and so on), and `backends_agree_iff` compares them.  They differ where an argument is empty, which
the master refuses and the simulator accepts, and where a pointer is `NULL` in a transfer to another
address, which the simulator refuses as not acknowledged.
-/

namespace Sharak
open Memory Attempts

/-! ### What the wires see -/

/-- I2CMSA, once it has been written, and the commands issued since. -/
structure View where
  msa : Option UInt32
  cmds : List UInt32
deriving DecidableEq, Repr

def View.step (v : View) : Access → View
  | .wrote .msa a => ⟨some a, []⟩
  | .wrote .mcs c => ⟨v.msa, v.cmds ++ [c]⟩
  | _ => v

def view (h : List Access) : View := h.foldl View.step ⟨none, []⟩

/-- Commands that open a phase with START and keep the master running. -/
def Started (cmds : List UInt32) : Prop :=
  (∃ c ∈ cmds.head?, c &&& mcsStart ≠ 0) ∧ ∀ c ∈ cmds, c &&& mcsRun ≠ 0

/-- One slave on the wires, which acknowledges address `0x53` and every byte sent to it, and one
master, which never loses arbitration.  The status of a started phase, loaded behind a poll with
BUSY clear, shows the missing acknowledgement of any other address. -/
structure OneSlave (hw : Hardware) : Prop where
  noLoss : ∀ h a cmds idle, view h = ⟨some a, cmds⟩ → Started cmds → idle &&& mcsBusy = 0 →
    hw.word (h ++ [.read .mcs idle]) .mcs &&& mcsArblst = 0
  acked : ∀ h a cmds idle, view h = ⟨some a, cmds⟩ → Started cmds → idle &&& mcsBusy = 0 →
    a >>> 1 = 0x53 →
      hw.word (h ++ [.read .mcs idle]) .mcs &&& (mcsError ||| mcsAdrack ||| mcsDatack) = 0
  refused : ∀ h a c idle, view h = ⟨some a, [c]⟩ → Started [c] → idle &&& mcsBusy = 0 →
    a >>> 1 ≠ 0x53 →
      hw.word (h ++ [.read .mcs idle]) .mcs &&& (mcsError ||| mcsAdrack ||| mcsDatack) ≠ 0

theorem view_append (h log : List Access) : view (h ++ log) = log.foldl View.step (view h) :=
  List.foldl_append

theorem view_polls (v : View) (vs : List UInt32) : (polls vs).foldl View.step v = v := by
  induction vs with
  | nil => rfl
  | cons w vs ih => exact ih

theorem Started.of_append {xs ys : List UInt32} (h : Started (xs ++ ys)) (hx : xs ≠ []) :
    Started xs := by
  obtain ⟨⟨c, hc, hstart⟩, hrun⟩ := h
  rw [List.head?_append_of_ne_nil _ hx] at hc
  exact ⟨⟨c, hc, hstart⟩, fun x hx' => hrun x (List.mem_append_left ys hx')⟩

/-- The byte of a command does not change the view. -/
theorem view_byte (v : View) (byte : Option UInt8) :
    (byte.toList.map fun b => Access.wrote .mdr b.toUInt32).foldl View.step v = v := by
  cases byte <;> rfl

/-! ### The status of a turn -/

section
variable {hw : Hardware} {receive : Bool} {h : List Access} {a : UInt32} {cmds : List UInt32}

/-- Before its status is loaded, a turn has issued its command and found BUSY clear. -/
theorem turn_status {t : Turn} (hv : view h = ⟨some a, cmds⟩) (ha : Answered hw h t.log) :
    ∃ h', view h' = ⟨some a, cmds ++ [t.1.mcs]⟩ ∧
      t.2.status = hw.word (h' ++ [.read .mcs t.2.idle]) .mcs := by
  have hlog : t.log = ((t.1.byte.toList.map fun b => Access.wrote .mdr b.toUInt32) ++
      .wrote .mcs t.1.mcs :: polls t.2.busy) ++ ([.read .mcs t.2.idle] ++
        (.read .mcs t.2.status :: t.2.taken.toList.map (.read .mdr))) := by
    simp [Turn.log, polls]
  rw [hlog, answered_append, answered_append] at ha
  refine ⟨_, ?_, ha.2.2.1⟩
  rw [view_append, List.foldl_append, view_byte, hv, List.foldl_cons, view_polls]
  rfl

theorem view_turn (t : Turn) (hv : view h = ⟨some a, cmds⟩) :
    view (h ++ t.log) = ⟨some a, cmds ++ [t.1.mcs]⟩ := by
  have hback : ∀ v : View, (t.2.taken.toList.map (.read .mdr)).foldl View.step v = v := by
    intro v
    cases t.2.taken <;> rfl
  rw [view_append, Turn.log, List.foldl_append, List.foldl_append, view_byte, hv, List.foldl_cons,
    view_polls, hback]
  rfl

/-- Every turn of a phase for the slave has a good status. -/
theorem clean_of_acked (hs : OneSlave hw) (ha : a >>> 1 = 0x53) {ts : List Turn} :
    ∀ {h : List Access} {cmds : List UInt32}, view h = ⟨some a, cmds⟩ →
      (∀ t ∈ ts, t.Proper receive) → Answered hw h (logs ts) →
      Started (cmds ++ ts.map fun t => t.1.mcs) → Clean Reply.Good ts := by
  induction ts with
  | nil =>
      intro h cmds _ _ _ _
      exact clean_nil
  | cons t ts ih =>
      intro h cmds hv hp hans hst
      rw [logs_cons, answered_append] at hans
      rw [List.map_cons, List.append_cons] at hst
      obtain ⟨h', hv', hstatus⟩ := turn_status hv hans.1
      have hst' : Started (cmds ++ [t.1.mcs]) := hst.of_append (by simp)
      have hidle := (hp t (List.mem_cons_self ..)).idle
      have hgood : t.2.Good := by
        rw [Reply.Good, hstatus]
        exact ⟨hs.noLoss h' a _ _ hv' hst' hidle, hs.acked h' a _ _ hv' hst' hidle ha⟩
      exact clean_cons.mpr ⟨hgood, ih (view_turn t hv)
        (fun u hu => hp u (List.mem_cons_of_mem t hu)) hans.2 hst⟩

/-- The first turn of a phase for another address. -/
theorem refused_turn (hs : OneSlave hw) (ha : a >>> 1 ≠ 0x53) {t : Turn}
    (hp : t.Proper receive) (hv : view h = ⟨some a, []⟩) (hans : Answered hw h t.log)
    (hst : Started [t.1.mcs]) : ¬ t.2.Good ∧ mcsToStatus t.2.status = i2cErrNack := by
  obtain ⟨h', hv', hstatus⟩ := turn_status hv hans
  have hloss := hs.noLoss h' a _ _ hv' hst hp.idle
  have hnack := hs.refused h' a _ _ hv' hst hp.idle ha
  rw [← hstatus] at hloss hnack
  refine ⟨fun hgood => hnack hgood.2, ?_⟩
  rw [mcsToStatus, if_neg (not_not.mpr hloss), if_pos hnack]

/-- A phase for another address ends with its first command. -/
theorem outcome_of_refused (hs : OneSlave hw) (ha : a >>> 1 ≠ 0x53) {plan : List Command}
    {ts : List Turn} (hc : Carried hw receive h plan ts) (hv : view h = ⟨some a, []⟩)
    (hst : Started (plan.map Command.mcs)) : outcome ts = i2cErrNack := by
  obtain ⟨run, proper, answered⟩ := hc
  cases run with
  | done =>
      obtain ⟨⟨c, hc, -⟩, -⟩ := hst
      cases hc
  | @failed c r as hbad =>
      have hst' : Started [c.mcs] := @Started.of_append [c.mcs] (as.map Command.mcs) hst (by simp)
      rw [logs_singleton] at answered
      exact (refused_turn hs ha (proper (c, r) (List.mem_cons_self ..)) hv answered hst').2
  | @next c r as rs hgood t =>
      have hst' : Started [c.mcs] := @Started.of_append [c.mcs] (as.map Command.mcs) hst (by simp)
      rw [logs_cons, answered_append] at answered
      have hbad := refused_turn hs ha (proper (c, r) (List.mem_cons_self ..)) hv answered.1 hst'
      exact absurd hgood hbad.1

end

theorem started_plan {plan : List Command} (h₀ : ∃ c ∈ plan.head?, c.start = true)
    (hrun : ∀ c ∈ plan, c.run = true) : Started (plan.map Command.mcs) := by
  obtain ⟨c, hc, hstart⟩ := h₀
  refine ⟨⟨c.mcs, ?_, (mcs_bits c).2.1.mpr hstart⟩, ?_⟩
  · rw [List.head?_map]
    exact Option.mem_map_of_mem _ hc
  · intro w hw
    obtain ⟨d, hd, rfl⟩ := List.mem_map.mp hw
    exact (mcs_bits d).1.mpr (hrun d hd)

/-- One command a byte, the first with START and all with RUN. -/
theorem started_mapIdx {data : List UInt8} (hd : data ≠ []) {f : Nat → UInt8 → Command}
    (h₀ : ∀ b, (f 0 b).start = true) (hrun : ∀ i b, (f i b).run = true) :
    Started ((data.mapIdx f).map Command.mcs) := by
  obtain ⟨b, bs, rfl⟩ := List.exists_cons_of_ne_nil hd
  refine started_plan ⟨f 0 b, by rw [List.mapIdx_cons]; rfl, h₀ b⟩ ?_
  intro c hc
  obtain ⟨i, hi, rfl⟩ := List.mem_mapIdx.mp hc
  exact hrun i _

theorem started_writeCommands {data : List UInt8} (hd : data ≠ []) :
    Started ((writeCommands data).map Command.mcs) :=
  started_mapIdx hd (fun _ => rfl) fun _ _ => rfl

theorem started_pointerCommands {wdata : List UInt8} (hd : wdata ≠ []) :
    Started ((pointerCommands wdata).map Command.mcs) :=
  started_mapIdx hd (fun _ => rfl) fun _ _ => rfl

theorem started_readCommands {n : Nat} (hn : 0 < n) :
    Started ((readCommands n).map Command.mcs) := by
  obtain ⟨k, rfl⟩ := Nat.exists_eq_succ_of_ne_zero (Nat.ne_of_gt hn)
  refine started_plan ⟨_, by rw [readCommands, List.range_succ_eq_map]; rfl, rfl⟩ ?_
  intro c hc
  obtain ⟨i, hi, rfl⟩ := List.mem_map.mp hc
  rfl

/-! ### The status of a call -/

theorem msaWord_addressed {addr : UInt8} (haddr : addr.toNat < 128) (receive : Bool) :
    msaWord addr receive >>> 1 = 0x53 ↔ addr = simAddr := by
  have hr : receive.toNat < 2 := Bool.toNat_lt receive
  have hword : (msaWord addr receive >>> 1).toNat = addr.toNat := by
    rw [msaWord, UInt32.toNat_shiftRight, UInt32.toNat_ofNat']
    show ((2 * (addr.toNat % 128) + receive.toNat) % 2 ^ 32) >>> 1 = _
    rw [Nat.shiftRight_eq_div_pow]
    omega
  rw [← UInt32.toNat_inj, ← UInt8.toNat_inj, hword]
  rfl

section
variable {hw : Hardware} (hs : OneSlave hw) (h : List Access) {addr : UInt8}
  (haddr : addr.toNat < 128)
include hs haddr

/-- A phase that is opened for the slave is clean, and one that is opened for another address ends
at once. -/
theorem phase_status {receive : Bool} {h : List Access} {plan : List Command} {ts : List Turn}
    (hc : Carried hw receive (h ++ [.wrote .msa (msaWord addr receive)]) plan ts)
    (hst : Started (plan.map Command.mcs)) :
    (addr = simAddr → Clean Reply.Good ts) ∧ (addr ≠ simAddr → outcome ts = i2cErrNack) := by
  have hv : view (h ++ [.wrote .msa (msaWord addr receive)]) =
      ⟨some (msaWord addr receive), []⟩ := by
    rw [view_append]
    rfl
  constructor
  · intro ha
    by_cases hts : ts = []
    · rw [hts]
      exact clean_nil
    · obtain ⟨rest, hrest⟩ := hc.run.front
      refine clean_of_acked hs ((msaWord_addressed haddr receive).mpr ha) hv hc.proper
        hc.answered ?_
      rw [← hrest, List.map_append, List.map_map] at hst
      exact hst.of_append (by simpa using hts)
  · intro ha
    exact outcome_of_refused hs (mt (msaWord_addressed haddr receive).mp ha) hc hv hst

theorem stellarisWrite_status (data : Slice UInt8) :
    ∃ h', stellarisWrite hw h addr data =
      .ok (if data.isNull ∨ data.size = 0 then i2cErrParam
        else if addr = simAddr then i2cOk else i2cErrNack, h') := by
  by_cases hargs : data.isNull ∨ data.size = 0
  · rw [if_pos hargs]
    exact ⟨h, if_pos hargs⟩
  · rw [if_neg hargs]
    obtain ⟨ds, rfl⟩ : ∃ ds, data = .mem ds :=
      ⟨_, Slice.eq_mem (by simpa using (not_or.mp hargs).1)⟩
    have hd : ds ≠ [] := fun h0 => hargs (.inr (by rw [h0]; rfl))
    obtain ⟨ts, hc, hcall⟩ := stellarisWrite_run hw h addr hd
    obtain ⟨hown, hother⟩ := phase_status hs haddr hc (started_writeCommands hd)
    have hst : outcome ts = if addr = simAddr then i2cOk else i2cErrNack := by
      by_cases ha : addr = simAddr
      · rw [if_pos ha, (outcome_eq_ok hc.run).mpr (hown ha)]
      · rw [if_neg ha, hother ha]
    rw [← hst]
    exact ⟨_, hcall⟩

theorem stellarisWriteRead_status (wdata rdata : Slice UInt8) :
    ∃ r' h', stellarisWriteRead hw h addr wdata rdata =
      .ok (if wdata.isNull ∨ wdata.size = 0 ∨ rdata.isNull ∨ rdata.size = 0 then i2cErrParam
        else if addr = simAddr then i2cOk else i2cErrNack, r', h') := by
  by_cases hargs : wdata.isNull ∨ wdata.size = 0 ∨ rdata.isNull ∨ rdata.size = 0
  · rw [if_pos hargs]
    exact ⟨rdata, h, if_pos hargs⟩
  · rw [if_neg hargs]
    simp only [not_or, Bool.not_eq_true] at hargs
    obtain ⟨hwn, hw0, hrn, hr0⟩ := hargs
    obtain ⟨ws, rfl⟩ : ∃ ws, wdata = .mem ws := ⟨_, Slice.eq_mem hwn⟩
    obtain ⟨cs, rfl⟩ : ∃ cs, rdata = .mem cs := ⟨_, Slice.eq_mem hrn⟩
    have hwd : ws ≠ [] := fun h0 => hw0 (by rw [h0]; rfl)
    have hrd : cs ≠ [] := fun h0 => hr0 (by rw [h0]; rfl)
    obtain ⟨ts, hc, hcases⟩ := stellarisWriteRead_run hw h addr hwd hrd
    obtain ⟨hown, hother⟩ := phase_status hs haddr hc (started_pointerCommands hwd)
    rcases hcases with ⟨hfail, hcall⟩ | ⟨hclean, us, hc', hcall⟩
    -- a write phase fails at another address only, and then there is no read phase
    · have ha : addr ≠ simAddr := mt hown hfail
      rw [if_neg ha, ← hother ha]
      exact ⟨_, _, hcall⟩
    · have ha : addr = simAddr := by
        by_contra hne
        have hok := (outcome_eq_ok hc.run).mpr hclean
        rw [hother hne] at hok
        exact absurd hok (by decide)
      have hgood := (phase_status hs haddr hc'
        (started_readCommands (List.length_pos_iff.mpr hrd))).1 ha
      rw [if_pos ha, ← (outcome_eq_ok hc'.run).mpr hgood]
      exact ⟨_, _, hcall⟩

end

section
variable {s : I2cSim} {addr : UInt8}

theorem simWrite_status {data : Slice UInt8} (hp : ∀ b ∈ data.cells.head?, b.toNat < i2cSimNregs) :
    ∃ s', simWrite (some s) addr data =
      .ok (if addr ≠ simAddr then i2cErrNack
        else if data.size > 0 ∧ data.isNull then i2cErrParam else i2cOk, s') := by
  by_cases ha : addr = simAddr
  · subst ha
    rw [if_neg (not_not.mpr rfl)]
    by_cases hd : data.size > 0 ∧ data.isNull
    · refine ⟨some s, ?_⟩
      rw [if_pos hd, simWrite, if_neg (by simp), if_neg (Nat.ne_of_gt hd.1), if_pos hd.2]
      rfl
    · rw [if_neg hd]
      exact ⟨_, simWrite_ok hd hp⟩
  · rw [if_pos ha]
    exact ⟨_, if_pos ha⟩

theorem simWriteRead_status (hin : s.Inside) {wdata rdata : Slice UInt8}
    (hp : ∀ b ∈ wdata.cells.head?, b.toNat < i2cSimNregs) :
    ∃ r' s', simWriteRead (some s) addr wdata rdata =
      .ok (if addr ≠ simAddr then i2cErrNack
        else if (wdata.size > 0 ∧ wdata.isNull) ∨ (rdata.size > 0 ∧ rdata.isNull) then i2cErrParam
        else i2cOk, r', s') := by
  by_cases ha : addr = simAddr
  · subst ha
    rw [if_neg (not_not.mpr rfl)]
    by_cases hd : (wdata.size > 0 ∧ wdata.isNull) ∨ (rdata.size > 0 ∧ rdata.isNull)
    · refine ⟨rdata, some s, ?_⟩
      rw [if_pos hd, simWriteRead, if_neg (by simp), if_pos hd]
      rfl
    · rw [if_neg hd]
      obtain ⟨hw, hr⟩ := not_or.mp hd
      exact ⟨_, _, simWriteRead_ok hin hw hr hp⟩
  · rw [if_pos ha]
    exact ⟨_, _, if_pos ha⟩

end

/-! ### The two compared -/

/-- The statuses compared, with `W` that a `NULL` pointer has a length, `A` that an argument is
`NULL` or empty, and `own` that the slave is addressed. -/
theorem statuses_agree_iff {W A own : Prop} [Decidable W] [Decidable A] [Decidable own]
    (hWA : W → A) :
    ((if ¬ own then i2cErrNack else if W then i2cErrParam else i2cOk) =
        (if A then i2cErrParam else if own then i2cOk else i2cErrNack) ∧
      (W → (if ¬ own then i2cErrNack else if W then i2cErrParam else i2cOk) = i2cErrParam ∧
        (if A then i2cErrParam else if own then i2cOk else i2cErrNack) = i2cErrParam)) ↔
      ¬ A ∨ (own ∧ W) := by
  by_cases hA : A
  · by_cases hown : own
    · by_cases hW : W
      · simp [hA, hown, hW]
      · simp [hA, hown, hW, i2cOk, i2cErrParam]
    · simp [hA, hown, i2cErrNack, i2cErrParam]
  · have hW : ¬ W := mt hWA hA
    by_cases hown : own
    · simp [hA, hown, hW]
    · simp [hA, hown, hW]

/-- **Where the backends are interchangeable.**  A write gets the same status from both, and
`I2C_ERR_PARAM` from both for a `NULL` pointer with a length, exactly if it has a length and, with a
`NULL` pointer, is for the slave; a combined transfer exactly if all its arguments are there, or it
is for the slave and has a `NULL` pointer with a length. -/
theorem backends_agree_iff {hw : Hardware} (hone : OneSlave hw) (h : List Access) {s : I2cSim}
    (hin : s.Inside) {addr : UInt8} (haddr : addr.toNat < 128) :
    (∀ data : Slice UInt8, (∀ b ∈ data.cells.head?, b.toNat < i2cSimNregs) →
      ∃ rc s' rc' h', simWrite (some s) addr data = .ok (rc, s') ∧
        stellarisWrite hw h addr data = .ok (rc', h') ∧
        ((rc = rc' ∧
            (data.size > 0 ∧ data.isNull → rc = i2cErrParam ∧ rc' = i2cErrParam)) ↔
          data.size > 0 ∧ (data.isNull = false ∨ addr = simAddr))) ∧
    ∀ wdata rdata : Slice UInt8, (∀ b ∈ wdata.cells.head?, b.toNat < i2cSimNregs) →
      ∃ rc r s' rc' r' h', simWriteRead (some s) addr wdata rdata = .ok (rc, r, s') ∧
        stellarisWriteRead hw h addr wdata rdata = .ok (rc', r', h') ∧
        ((rc = rc' ∧
            ((wdata.size > 0 ∧ wdata.isNull) ∨ (rdata.size > 0 ∧ rdata.isNull) →
              rc = i2cErrParam ∧ rc' = i2cErrParam)) ↔
          (wdata.isNull = false ∧ wdata.size > 0 ∧ rdata.isNull = false ∧ rdata.size > 0) ∨
            (addr = simAddr ∧
              ((wdata.size > 0 ∧ wdata.isNull) ∨ (rdata.size > 0 ∧ rdata.isNull)))) := by
  have hpos : ∀ n : Nat, ¬ n = 0 ↔ n > 0 := fun n => Nat.pos_iff_ne_zero.symm
  constructor
  · intro data hp
    obtain ⟨s', hsim⟩ := @simWrite_status s addr data hp
    obtain ⟨h', hhw⟩ := stellarisWrite_status hone h haddr data
    refine ⟨_, s', _, h', hsim, hhw, (statuses_agree_iff fun hW => .inl hW.2).trans ?_⟩
    rw [not_or, Bool.not_eq_true, hpos]
    constructor
    · rintro (⟨hn, h0⟩ | ⟨hown, h0, hn⟩)
      · exact ⟨h0, .inl hn⟩
      · exact ⟨h0, .inr hown⟩
    · rintro ⟨h0, hn⟩
      by_cases hnull : data.isNull = true
      · exact .inr ⟨hn.resolve_left (by simp [hnull]), h0, hnull⟩
      · exact .inl ⟨by simpa using hnull, h0⟩
  · intro wdata rdata hp
    obtain ⟨r, s', hsim⟩ := @simWriteRead_status s addr hin wdata rdata hp
    obtain ⟨r', h', hhw⟩ := stellarisWriteRead_status hone h haddr wdata rdata
    have hWA : (wdata.size > 0 ∧ wdata.isNull) ∨ (rdata.size > 0 ∧ rdata.isNull) →
        wdata.isNull ∨ wdata.size = 0 ∨ rdata.isNull ∨ rdata.size = 0 := by
      rintro (hW | hR)
      · exact .inl hW.2
      · exact .inr (.inr (.inl hR.2))
    refine ⟨_, r, s', _, r', h', hsim, hhw, (statuses_agree_iff hWA).trans ?_⟩
    rw [not_or, not_or, not_or, Bool.not_eq_true, Bool.not_eq_true, hpos, hpos]

/-- The word a load gives with the accelerometer alone on the wires. -/
def slaveWord (h : List Access) : Reg → UInt32
  | .mcs =>
      match (view h).msa with
      | some a => if a >>> 1 = 0x53 then 0 else mcsError ||| mcsAdrack
      | none => 0
  | _ => 0

theorem slaveWord_idle (h : List Access) :
    ∃ k ≤ 0, slaveWord (polled slaveWord k h) .mcs &&& mcsBusy = 0 := by
  refine ⟨0, Nat.le_refl 0, ?_⟩
  rw [polled, slaveWord]
  split
  · split <;> decide
  · decide

/-- A peripheral with the accelerometer alone on its wires. -/
def adxlOnly : Hardware where
  word := slaveWord
  patience _ := 0
  clears := slaveWord_idle

theorem slaveWord_poll {h : List Access} {a : UInt32} {cmds : List UInt32} (idle : UInt32)
    (hv : view h = ⟨some a, cmds⟩) :
    slaveWord (h ++ [.read .mcs idle]) .mcs =
      if a >>> 1 = 0x53 then 0 else mcsError ||| mcsAdrack := by
  have hv' : view (h ++ [.read .mcs idle]) = ⟨some a, cmds⟩ := by
    rw [view_append, hv]
    rfl
  rw [slaveWord, hv']

theorem oneSlave_adxlOnly : OneSlave adxlOnly := by
  refine ⟨?_, ?_, ?_⟩
  · intro h a cmds idle hv _ _
    show slaveWord _ _ &&& _ = 0
    rw [slaveWord_poll idle hv]
    split <;> decide
  · intro h a cmds idle hv _ _ ha
    show slaveWord _ _ &&& _ = 0
    rw [slaveWord_poll idle hv, if_pos ha]
    decide
  · intro h a c idle hv _ _ ha
    show slaveWord _ _ &&& _ ≠ 0
    rw [slaveWord_poll idle hv, if_neg ha]
    decide

/-- With the accelerometer alone on the wires: a write and a read of the data registers at its
address, the same at another, and a read into `NULL`. -/
theorem backends_agree_adxlOnly :
    (∀ addr ∈ [(0x53 : UInt8), 0x1D],
      (∃ rc s' rc' h', simWrite (some simPowerOn) addr (.mem [0x2D, 0x08]) = .ok (rc, s') ∧
        stellarisWrite adxlOnly [] addr (.mem [0x2D, 0x08]) = .ok (rc', h') ∧ rc = rc') ∧
      ∃ rc r s' rc' r' h',
        simWriteRead (some simPowerOn) addr (.mem [0x32]) (.mem (List.replicate 6 0)) =
          .ok (rc, r, s') ∧
        stellarisWriteRead adxlOnly [] addr (.mem [0x32]) (.mem (List.replicate 6 0)) =
          .ok (rc', r', h') ∧ rc = rc') ∧
    ∃ rc r s' rc' r' h',
      simWriteRead (some simPowerOn) 0x53 (.mem [0x32]) (.null 6) = .ok (rc, r, s') ∧
      stellarisWriteRead adxlOnly [] 0x53 (.mem [0x32]) (.null 6) = .ok (rc', r', h') ∧
      rc = i2cErrParam ∧ rc' = i2cErrParam := by
  have hpower : ∀ b ∈ (Slice.mem [0x2D, 0x08] : Slice UInt8).cells.head?, b.toNat < i2cSimNregs := by
    rintro b ⟨⟩
    decide
  have hdata : ∀ b ∈ (Slice.mem [0x32] : Slice UInt8).cells.head?, b.toNat < i2cSimNregs := by
    rintro b ⟨⟩
    decide
  constructor
  · intro addr haddr
    have h7 : addr.toNat < 128 := by
      simp only [List.mem_cons, List.not_mem_nil, or_false] at haddr
      rcases haddr with rfl | rfl <;> decide
    obtain ⟨hwrite, hread⟩ :=
      @backends_agree_iff adxlOnly oneSlave_adxlOnly [] simPowerOn inside_powerOn addr h7
    constructor
    · obtain ⟨rc, s', rc', h', hsim, hhw, hiff⟩ := hwrite (.mem [0x2D, 0x08]) hpower
      exact ⟨rc, s', rc', h', hsim, hhw, (hiff.mpr ⟨by decide, .inl rfl⟩).1⟩
    · obtain ⟨rc, r, s', rc', r', h', hsim, hhw, hiff⟩ :=
        hread (.mem [0x32]) (.mem (List.replicate 6 0)) hdata
      exact ⟨rc, r, s', rc', r', h', hsim, hhw, (hiff.mpr (.inl ⟨rfl, by decide, rfl, by decide⟩)).1⟩
  · obtain ⟨rc, r, s', rc', r', h', hsim, hhw, hiff⟩ :=
      (@backends_agree_iff adxlOnly oneSlave_adxlOnly [] simPowerOn inside_powerOn 0x53
        (by decide)).2 (.mem [0x32]) (.null 6) hdata
    have hnull : (Slice.null 6 : Slice UInt8).size > 0 ∧ (Slice.null 6 : Slice UInt8).isNull = true :=
      ⟨by decide, rfl⟩
    obtain ⟨hrc, hrc'⟩ := (hiff.mpr (.inr ⟨rfl, .inr hnull⟩)).2 (.inr hnull)
    exact ⟨rc, r, s', rc', r', h', hsim, hhw, hrc, hrc'⟩

/-- An empty write to the slave, and a write through `NULL` to another address. -/
theorem backends_disagree :
    (simWrite (some simPowerOn) 0x53 (.mem []) = .ok (i2cOk, some simPowerOn) ∧
      stellarisWrite adxlOnly [] 0x53 (.mem []) = .ok (i2cErrParam, [])) ∧
    (simWrite (some simPowerOn) 0x1D (.null 1) = .ok (i2cErrNack, some simPowerOn) ∧
      stellarisWrite adxlOnly [] 0x1D (.null 1) = .ok (i2cErrParam, [])) ∧
    i2cOk ≠ i2cErrParam ∧ i2cErrNack ≠ i2cErrParam :=
  ⟨⟨rfl, rfl⟩, ⟨rfl, rfl⟩, by decide, by decide⟩

end Sharak
