import Sharak.Firmware.Definitions
import Sharak.Support.Attempts

/-!
# Firmware — the I2C0 master

A transfer is a plan of commands, each answered by the peripheral: BUSY set for some polls, then
clear, then a status.  The byte loops carry out the plan up to the first bad status
(`transmitLoop_run`, `receiveLoop_run`), so the accesses of a call are those of the commands it got
to, in order, and behind a bad status one bare STOP (`master_protocol`).  The peripheral is any: the
words it gives may depend on all accesses so far.
-/

namespace Sharak
open Memory Attempts

/-! ### Waiting -/

/-- Every load of `log` gives what the peripheral has behind `h` and the accesses before it. -/
def Answered (hw : Hardware) : (h log : List Access) → Prop
  | _, [] => True
  | h, .wrote r v :: log => Answered hw (h ++ [.wrote r v]) log
  | h, .read r v :: log => v = hw.word h r ∧ Answered hw (h ++ [.read r v]) log

theorem answered_append {hw : Hardware} {log log' : List Access} :
    ∀ {h : List Access}, Answered hw h (log ++ log') ↔
      Answered hw h log ∧ Answered hw (h ++ log) log' := by
  induction log with
  | nil =>
      intro h
      simp [Answered]
  | cons a log ih =>
      intro h
      cases a with
      | wrote r v => rw [List.cons_append, Answered, Answered, ih, List.append_assoc]; rfl
      | read r v =>
          rw [List.cons_append, Answered, Answered, ih, List.append_assoc, and_assoc]; rfl

/-- The loads of I2CMCS that give `vs`. -/
def polls (vs : List UInt32) : List Access := vs.map (.read .mcs)

/-- The spin loop polls until BUSY is clear. -/
theorem i2cSpin_polls (hw : Hardware) :
    ∀ (fuel : Nat) (h : List Access),
      (∃ k < fuel, hw.word (polled hw.word k h) .mcs &&& mcsBusy = 0) →
      ∃ busy idle, i2cSpin hw fuel h = h ++ polls (busy ++ [idle]) ∧
        (∀ v ∈ busy, v &&& mcsBusy ≠ 0) ∧ idle &&& mcsBusy = 0 ∧
        Answered hw h (polls (busy ++ [idle]))
  | 0, h, hc => by
      obtain ⟨k, hk, -⟩ := hc
      exact absurd hk (Nat.not_lt_zero k)
  | fuel + 1, h, hc => by
      rw [i2cSpin]
      by_cases hb : hw.word h .mcs &&& mcsBusy = 0
      · rw [if_neg (not_not.mpr hb)]
        refine ⟨[], hw.word h .mcs, rfl, ?_, hb, rfl, trivial⟩
        intro v hv
        cases hv
      · rw [if_pos hb]
        obtain ⟨k, hk, hclear⟩ := hc
        cases k with
        | zero => exact absurd hclear hb
        | succ k =>
            -- one poll is spent, and BUSY is clear `k` polls on
            have hclear' : hw.word (polled hw.word k (h ++ [.read .mcs (hw.word h .mcs)])) .mcs &&&
                mcsBusy = 0 := hclear
            obtain ⟨busy, idle, hspin, hbusy, hidle, ha⟩ :=
              i2cSpin_polls hw fuel _ ⟨k, Nat.lt_of_succ_lt_succ hk, hclear'⟩
            refine ⟨hw.word h .mcs :: busy, idle, ?_, ?_, hidle, rfl, ha⟩
            · rw [hspin, List.append_assoc]
              rfl
            · intro v hv
              rcases List.mem_cons.mp hv with rfl | hv'
              · exact hb
              · exact hbusy v hv'

theorem i2cWait_polls (hw : Hardware) (h : List Access) :
    ∃ busy idle status, i2cWait hw h =
        (mcsToStatus status, h ++ polls (busy ++ [idle, status])) ∧
      (∀ v ∈ busy, v &&& mcsBusy ≠ 0) ∧ idle &&& mcsBusy = 0 ∧
      Answered hw h (polls (busy ++ [idle, status])) := by
  obtain ⟨k, hk, hclear⟩ := hw.clears h
  obtain ⟨busy, idle, hspin, hbusy, hidle, ha⟩ :=
    i2cSpin_polls hw (hw.patience h + 1) h ⟨k, Nat.lt_succ_of_le hk, hclear⟩
  have hsplit : ∀ status, polls (busy ++ [idle, status]) =
      polls (busy ++ [idle]) ++ [.read .mcs status] := by
    intro status
    simp [polls]
  refine ⟨busy, idle, hw.word (h ++ polls (busy ++ [idle])) .mcs, ?_, hbusy, hidle, ?_⟩
  · rw [i2cWait, hspin, hsplit, List.append_assoc]
  · rw [hsplit, answered_append]
    exact ⟨ha, rfl, trivial⟩

/-! ### Turns -/

/-- A command for the master: the bits of I2CMCS, and the byte in I2CMDR for it, if one is put
there. -/
structure Command where
  byte : Option UInt8
  run : Bool
  start : Bool
  stop : Bool
  ack : Bool
deriving DecidableEq, Repr

/-- The word for I2CMCS. -/
def Command.mcs (c : Command) : UInt32 :=
  (if c.run then mcsRun else 0) ||| (if c.start then mcsStart else 0) |||
    (if c.stop then mcsStop else 0) ||| (if c.ack then mcsAck else 0)

/-- The bits of the word are those of the command. -/
theorem mcs_bits (c : Command) : (c.mcs &&& mcsRun ≠ 0 ↔ c.run = true) ∧
    (c.mcs &&& mcsStart ≠ 0 ↔ c.start = true) ∧ (c.mcs &&& mcsStop ≠ 0 ↔ c.stop = true) := by
  obtain ⟨byte, run, start, stop, ack⟩ := c
  cases run <;> cases start <;> cases stop <;> cases ack <;> simp [Command.mcs] <;> decide

/-- What comes of a command: the words of the polls, the last of which has BUSY clear, the status
behind them, and the word then taken from I2CMDR, if one is. -/
structure Reply where
  busy : List UInt32
  idle : UInt32
  status : UInt32
  taken : Option UInt32
deriving DecidableEq, Repr

/-- No arbitration loss and no missing acknowledgement. -/
def Reply.Good (r : Reply) : Prop :=
  r.status &&& mcsArblst = 0 ∧ r.status &&& (mcsError ||| mcsAdrack ||| mcsDatack) = 0

instance (r : Reply) : Decidable r.Good := inferInstanceAs (Decidable (_ ∧ _))

theorem mcsToStatus_eq_ok {r : Reply} : mcsToStatus r.status = i2cOk ↔ r.Good := by
  unfold mcsToStatus Reply.Good
  by_cases h₁ : r.status &&& mcsArblst = 0
  · by_cases h₂ : r.status &&& (mcsError ||| mcsAdrack ||| mcsDatack) = 0
    · simp [h₁, h₂]
    · simp [h₁, h₂, i2cErrNack, i2cOk]
  · simp [h₁, i2cErrBus, i2cOk]

/-- A command and what came of it. -/
abbrev Turn := Command × Reply

/-- The polls end with BUSY clear, and a word is taken from I2CMDR behind a good status of a
reception and nowhere else. -/
structure Turn.Proper (receive : Bool) (t : Turn) : Prop where
  busy : ∀ v ∈ t.2.busy, v &&& mcsBusy ≠ 0
  idle : t.2.idle &&& mcsBusy = 0
  taken : t.2.taken.isSome ↔ receive = true ∧ t.2.Good

/-- The accesses of a turn. -/
def Turn.log (t : Turn) : List Access :=
  (t.1.byte.toList.map fun b => .wrote .mdr b.toUInt32) ++ .wrote .mcs t.1.mcs ::
    polls (t.2.busy ++ [t.2.idle, t.2.status]) ++ t.2.taken.toList.map (.read .mdr)

/-- The accesses of turns in a row. -/
def logs (ts : List Turn) : List Access := ts.flatMap Turn.log

theorem logs_cons (t : Turn) (ts : List Turn) : logs (t :: ts) = t.log ++ logs ts := rfl

/-- The status of the last turn, which is the only one that can be bad. -/
def outcome (ts : List Turn) : Int :=
  match ts.getLast? with
  | some t => mcsToStatus t.2.status
  | none => i2cOk

/-- The error path: one bare STOP. -/
def release (st : Int) : List Access := if st = i2cOk then [] else [.wrote .mcs mcsStop]

theorem logs_singleton (t : Turn) : logs [t] = t.log := by simp [logs]

theorem outcome_singleton (t : Turn) : outcome [t] = mcsToStatus t.2.status := rfl

theorem release_bad {st : Int} (h : st ≠ i2cOk) : release st = [.wrote .mcs mcsStop] := if_neg h

theorem outcome_cons {t : Turn} (hg : t.2.Good) (ts : List Turn) :
    outcome (t :: ts) = outcome ts := by
  cases ts with
  | nil => exact mcsToStatus_eq_ok.mpr hg
  | cons u ts => rw [outcome, List.getLast?_cons_cons, outcome]

theorem outcome_eq_ok {plan : List Command} {ts : List Turn} (h : Run Reply.Good plan ts) :
    outcome ts = i2cOk ↔ Clean Reply.Good ts := by
  induction h with
  | done => exact ⟨fun _ => clean_nil, fun _ => rfl⟩
  | failed as h =>
      rw [clean_cons]
      exact ⟨fun ho => absurd (mcsToStatus_eq_ok.mp ho) h, fun hc => absurd hc.1 h⟩
  | next h t ih => rw [outcome_cons h, ih, clean_cons, and_iff_right h]

/-! ### The byte loops -/

/-- Behind `h`, the plan was carried out by `ts`. -/
structure Carried (hw : Hardware) (receive : Bool) (h : List Access) (plan : List Command)
    (ts : List Turn) : Prop where
  run : Run Reply.Good plan ts
  proper : ∀ t ∈ ts, t.Proper receive
  answered : Answered hw h (logs ts)

section
variable {hw : Hardware} {receive : Bool} {h : List Access} {plan : List Command}

theorem carried_nil : Carried hw receive h [] [] := by
  refine ⟨.done, ?_, trivial⟩
  intro t ht
  cases ht

theorem Carried.failed {t : Turn} (hp : t.Proper receive) (hb : ¬ t.2.Good)
    (ha : Answered hw h t.log) : Carried hw receive h (t.1 :: plan) [t] := by
  refine ⟨.failed _ hb, ?_, ?_⟩
  · intro u hu
    rw [List.mem_singleton.mp hu]
    exact hp
  · rw [logs_cons, answered_append]
    exact ⟨ha, trivial⟩

theorem Carried.next {t : Turn} {ts : List Turn} (hp : t.Proper receive) (hg : t.2.Good)
    (ha : Answered hw h t.log) (hc : Carried hw receive (h ++ t.log) plan ts) :
    Carried hw receive h (t.1 :: plan) (t :: ts) := by
  refine ⟨.next hg hc.run, ?_, ?_⟩
  · intro u hu
    rcases List.mem_cons.mp hu with rfl | hu'
    · exact hp
    · exact hc.proper u hu'
  · rw [logs_cons, answered_append]
    exact ⟨ha, hc.answered⟩

end

/-- A byte of a write phase. -/
theorem transmit_turn (hw : Hardware) (h : List Access) {c : Command} {b : UInt8}
    (hb : c.byte = some b) :
    ∃ r : Reply, i2cWait hw (h ++ [.wrote .mdr b.toUInt32] ++ [.wrote .mcs c.mcs]) =
        (mcsToStatus r.status, h ++ Turn.log (c, r)) ∧
      Turn.Proper false (c, r) ∧ Answered hw h (Turn.log (c, r)) := by
  obtain ⟨busy, idle, status, hwait, hbusy, hidle, ha⟩ :=
    i2cWait_polls hw (h ++ [.wrote .mdr b.toUInt32] ++ [.wrote .mcs c.mcs])
  have hlog : Turn.log (c, ⟨busy, idle, status, none⟩) =
      [.wrote .mdr b.toUInt32] ++ ([.wrote .mcs c.mcs] ++ polls (busy ++ [idle, status])) := by
    simp [Turn.log, hb]
  refine ⟨⟨busy, idle, status, none⟩, ?_, ⟨hbusy, hidle, by simp⟩, ?_⟩
  · rw [hwait, hlog, List.append_assoc, List.append_assoc]
  · rw [hlog, answered_append, answered_append]
    exact ⟨trivial, trivial, ha⟩

theorem transmitLoop_run (hw : Hardware) {cmd : Nat → UInt32} {plan : List Command}
    {ds : List UInt8} (hl : plan.length = ds.length)
    (hplan : ∀ i c b, plan[i]? = some c → ds[i]? = some b → c.byte = some b ∧ c.mcs = cmd i) :
    ∀ (todo i : Nat) (h : List Access), i + todo = ds.length →
      ∃ ts, Carried hw false h (plan.drop i) ts ∧
        transmitLoop hw cmd (.mem ds) todo i h =
          .ok (outcome ts, h ++ logs ts ++ release (outcome ts))
  | 0, i, h, hi => by
      rw [List.drop_of_length_le (by omega)]
      refine ⟨[], carried_nil, ?_⟩
      rw [transmitLoop, logs, release, outcome]
      simp
  | todo + 1, i, h, hi => by
      have hd : i < ds.length := by omega
      have hc : i < plan.length := by omega
      obtain ⟨hbyte, hmcs⟩ := hplan i plan[i] ds[i] (List.getElem?_eq_getElem hc)
        (List.getElem?_eq_getElem hd)
      obtain ⟨r, hwait, hproper, ha⟩ := transmit_turn hw h hbyte
      rw [List.drop_eq_getElem_cons hc, transmitLoop, Slice.read_mem hd, ok_bind, ← hmcs]
      simp only [hwait]
      by_cases hg : r.Good
      -- the rest of the plan is carried out behind this turn
      · obtain ⟨ts, hcarried, hrun⟩ := transmitLoop_run hw hl hplan todo (i + 1)
          (h ++ Turn.log (plan[i], r)) (by omega)
        refine ⟨(plan[i], r) :: ts, hcarried.next hproper hg ha, ?_⟩
        rw [if_neg (not_not.mpr (mcsToStatus_eq_ok.mpr hg)), hrun, outcome_cons hg, logs_cons,
          List.append_assoc h]
      -- the loop has returned behind the release
      · refine ⟨[(plan[i], r)], .failed hproper hg ha, ?_⟩
        have hbad : mcsToStatus r.status ≠ i2cOk := mt mcsToStatus_eq_ok.mp hg
        rw [if_pos hbad, outcome_singleton, release_bad hbad, logs_singleton]
        rfl

/-- A byte of a read phase, before it is taken. -/
theorem receive_turn (hw : Hardware) (h : List Access) {c : Command} (hb : c.byte = none) :
    ∃ busy idle status, i2cWait hw (h ++ [.wrote .mcs c.mcs]) =
        (mcsToStatus status, h ++ Turn.log (c, ⟨busy, idle, status, none⟩)) ∧
      (∀ v ∈ busy, v &&& mcsBusy ≠ 0) ∧ idle &&& mcsBusy = 0 ∧
      Answered hw h (Turn.log (c, ⟨busy, idle, status, none⟩)) := by
  obtain ⟨busy, idle, status, hwait, hbusy, hidle, ha⟩ :=
    i2cWait_polls hw (h ++ [.wrote .mcs c.mcs])
  have hlog : Turn.log (c, ⟨busy, idle, status, none⟩) =
      [.wrote .mcs c.mcs] ++ polls (busy ++ [idle, status]) := by
    simp [Turn.log, hb]
  refine ⟨busy, idle, status, ?_, hbusy, hidle, ?_⟩
  · rw [hwait, hlog, List.append_assoc]
  · rw [hlog, answered_append]
    exact ⟨trivial, ha⟩

/-- A word taken from I2CMDR is the last access of the turn. -/
theorem log_taken (c : Command) (busy : List UInt32) (idle status v : UInt32) :
    Turn.log (c, ⟨busy, idle, status, some v⟩) =
      Turn.log (c, ⟨busy, idle, status, none⟩) ++ [.read .mdr v] := by
  simp [Turn.log]

/-- The bytes taken. -/
def takenBytes (ts : List Turn) : List UInt8 :=
  ts.filterMap fun t => t.2.taken.map fun v => (v &&& 0xFF).toUInt8

theorem receiveLoop_run (hw : Hardware) {cmd : Nat → UInt32} {plan : List Command}
    {cs : List UInt8} (hl : plan.length = cs.length)
    (hplan : ∀ i c, plan[i]? = some c → c.byte = none ∧ c.mcs = cmd i) :
    ∀ (todo : Nat) (xs : List UInt8) (h : List Access), xs.length + todo = cs.length →
      ∃ ts, Carried hw true h (plan.drop xs.length) ts ∧
        receiveLoop hw cmd todo xs.length (.mem (overlay xs cs)) h =
          .ok (outcome ts, .mem (overlay (xs ++ takenBytes ts) cs),
            h ++ logs ts ++ release (outcome ts))
  | 0, xs, h, hi => by
      rw [List.drop_of_length_le (by omega)]
      refine ⟨[], carried_nil, ?_⟩
      rw [receiveLoop, logs, release, outcome, takenBytes]
      simp
  | todo + 1, xs, h, hi => by
      have hc : xs.length < plan.length := by omega
      obtain ⟨hbyte, hmcs⟩ := hplan xs.length plan[xs.length] (List.getElem?_eq_getElem hc)
      obtain ⟨busy, idle, status, hwait, hbusy, hidle, ha⟩ := receive_turn hw h hbyte
      rw [List.drop_eq_getElem_cons hc, receiveLoop, ← hmcs]
      simp only [hwait]
      by_cases hg : mcsToStatus status = i2cOk
      -- only behind a good status is the word taken
      · let v := hw.word (h ++ Turn.log (plan[xs.length], ⟨busy, idle, status, none⟩)) .mdr
        let t : Turn := (plan[xs.length], ⟨busy, idle, status, some v⟩)
        have hgood : t.2.Good := mcsToStatus_eq_ok.mp hg
        have hlog : t.log = Turn.log (plan[xs.length], ⟨busy, idle, status, none⟩) ++
            [.read .mdr v] := log_taken _ _ _ _ _
        have hproper : t.Proper true := ⟨hbusy, hidle, by simpa [t] using hgood⟩
        have ha' : Answered hw h t.log := by
          rw [hlog, answered_append]
          exact ⟨ha, rfl, trivial⟩
        obtain ⟨ts, hcarried, hrun⟩ := receiveLoop_run hw hl hplan todo
          (xs ++ [(v &&& 0xFF).toUInt8]) (h ++ t.log) (by simp; omega)
        rw [List.length_append, List.length_singleton] at hcarried hrun
        refine ⟨t :: ts, hcarried.next hproper hgood ha', ?_⟩
        rw [if_neg (not_not.mpr hg), Slice.write_overlay _ (by omega), ok_bind]
        rw [hlog, ← List.append_assoc h] at hrun
        rw [hrun, outcome_cons hgood, logs_cons, hlog]
        simp [takenBytes, t, v]
      · let t : Turn := (plan[xs.length], ⟨busy, idle, status, none⟩)
        have hbad : ¬ t.2.Good := mt mcsToStatus_eq_ok.mpr hg
        refine ⟨[t], .failed ⟨hbusy, hidle, by simp [t]; exact hbad⟩ hbad ha, ?_⟩
        rw [if_pos hg, outcome_singleton, release_bad hg, logs_singleton]
        simp [takenBytes, t]

/-! ### The plans -/

/-- A write: the bytes in order, START with the first, STOP with the last. -/
def writeCommands (data : List UInt8) : List Command :=
  data.mapIdx fun i b =>
    { byte := some b, run := true, start := i = 0, stop := i + 1 = data.length, ack := false }

/-- The write phase of a combined transfer: no STOP. -/
def pointerCommands (wdata : List UInt8) : List Command :=
  wdata.mapIdx fun i b =>
    { byte := some b, run := true, start := i = 0, stop := false, ack := false }

/-- The read phase: a START again, ACK with every command but the last, which has STOP. -/
def readCommands (n : Nat) : List Command :=
  (List.range n).map fun i =>
    { byte := none, run := true, start := i = 0, stop := i + 1 = n, ack := i + 1 ≠ n }

@[simp] theorem length_writeCommands (data : List UInt8) :
    (writeCommands data).length = data.length := by simp [writeCommands]

@[simp] theorem length_pointerCommands (wdata : List UInt8) :
    (pointerCommands wdata).length = wdata.length := by simp [pointerCommands]

@[simp] theorem length_readCommands (n : Nat) : (readCommands n).length = n := by
  simp [readCommands]

section
variable (byte : Option UInt8) (p q : Prop) [Decidable p] [Decidable q]

theorem mcs_transmit : Command.mcs { byte, run := true, start := p, stop := q, ack := false } =
    (if q then (if p then mcsRun ||| mcsStart else mcsRun) ||| mcsStop
      else if p then mcsRun ||| mcsStart else mcsRun) := by
  by_cases hp : p
  · by_cases hq : q
    · simp [Command.mcs, hp, hq]
    · simp [Command.mcs, hp, hq]
  · by_cases hq : q
    · simp [Command.mcs, hp, hq]
    · simp [Command.mcs, hp, hq]

theorem mcs_receive :
    Command.mcs { byte, run := true, start := p, stop := q, ack := decide (¬ q) } =
      (if q then (if p then mcsRun ||| mcsStart else mcsRun) ||| mcsStop
        else (if p then mcsRun ||| mcsStart else mcsRun) ||| mcsAck) := by
  by_cases hp : p
  · by_cases hq : q
    · simp [Command.mcs, hp, hq]
    · simp [Command.mcs, hp, hq]
  · by_cases hq : q
    · simp [Command.mcs, hp, hq]
    · simp [Command.mcs, hp, hq]

end

theorem writeCommands_mcs {data : List UInt8} (i : Nat) (c : Command) (b : UInt8)
    (hc : (writeCommands data)[i]? = some c) (hb : data[i]? = some b) :
    c.byte = some b ∧ c.mcs = writeCmd data.length i := by
  rw [writeCommands, List.getElem?_mapIdx, hb] at hc
  cases hc
  have hlast : i = data.length - 1 ↔ i + 1 = data.length := by
    have := (List.getElem?_eq_some_iff.mp hb).1
    omega
  refine ⟨rfl, (mcs_transmit (some b) (i = 0) (i + 1 = data.length)).trans ?_⟩
  rw [writeCmd]
  simp only [hlast]

theorem pointerCommands_mcs {wdata : List UInt8} (i : Nat) (c : Command) (b : UInt8)
    (hc : (pointerCommands wdata)[i]? = some c) (hb : wdata[i]? = some b) :
    c.byte = some b ∧ c.mcs = pointerCmd i := by
  rw [pointerCommands, List.getElem?_mapIdx, hb] at hc
  cases hc
  exact ⟨rfl, mcs_transmit (some b) (i = 0) False⟩

theorem readCommands_mcs {n : Nat} (i : Nat) (c : Command) (hc : (readCommands n)[i]? = some c) :
    c.byte = none ∧ c.mcs = readCmd n i := by
  have hi : i < n := by simpa using (List.getElem?_eq_some_iff.mp hc).1
  rw [readCommands, List.getElem?_map, List.getElem?_range hi] at hc
  cases hc
  have hlast : i = n - 1 ↔ i + 1 = n := by omega
  refine ⟨rfl, (mcs_receive none (i = 0) (i + 1 = n)).trans ?_⟩
  rw [readCmd]
  simp only [hlast]

/-! ### Transfers -/

/-- The address register for a phase: the 7-bit address, and R/W in bit 0. -/
def msaWord (addr : UInt8) (receive : Bool) : UInt32 :=
  UInt32.ofNat (2 * (addr.toNat % 128) + receive.toNat)

theorem toNat_msaTransmit (addr : UInt8) : (msaTransmit addr).toNat = (addr.toNat % 128) <<< 1 := by
  have ha := addr.toNat_lt
  have hmask : addr.toNat <<< 1 &&& 254 = (addr.toNat &&& 127) <<< 1 := by
    rw [Nat.shiftLeft_and_distrib]
    rfl
  have hmod : addr.toNat &&& 127 = addr.toNat % 128 := Nat.and_two_pow_sub_one_eq_mod _ 7
  have hlt : addr.toNat <<< 1 < 2 ^ 32 := by
    rw [Nat.shiftLeft_eq]
    omega
  rw [msaTransmit, UInt32.toNat_and, UInt32.toNat_shiftLeft, UInt8.toNat_toUInt32]
  show addr.toNat <<< 1 % 2 ^ 32 &&& 254 = _
  rw [Nat.mod_eq_of_lt hlt, hmask, hmod]

theorem msaTransmit_eq (addr : UInt8) : msaTransmit addr = msaWord addr false := by
  have hmod : addr.toNat % 128 < 128 := Nat.mod_lt _ (by decide)
  apply UInt32.toNat_inj.mp
  rw [toNat_msaTransmit, msaWord, UInt32.toNat_ofNat', Nat.shiftLeft_eq, Bool.toNat_false]
  omega

theorem msaReceive_eq (addr : UInt8) :
    msaTransmit addr ||| msaReceive = msaWord addr true := by
  have hmod : addr.toNat % 128 < 128 := Nat.mod_lt _ (by decide)
  apply UInt32.toNat_inj.mp
  rw [UInt32.toNat_or, toNat_msaTransmit, msaWord, UInt32.toNat_ofNat', Bool.toNat_true]
  show (addr.toNat % 128) <<< 1 ||| 1 = _
  rw [← Nat.shiftLeft_add_eq_or_of_lt (by decide : 1 < 2 ^ 1), Nat.shiftLeft_eq]
  omega

/-- The accesses of a phase: I2CMSA first, and then for all of the phase as it is. -/
def phase (addr : UInt8) (receive : Bool) (ts : List Turn) : List Access :=
  .wrote .msa (msaWord addr receive) :: logs ts

/-- A plan was carried out as far as the first bad status, and `st` is returned. -/
structure Conducted (plan : List Command) (ts : List Turn) (st : Int) : Prop where
  commands : ts.map Prod.fst <+: plan
  ok : (∀ t ∈ ts, t.2.Good) → ts.map Prod.fst = plan ∧ st = i2cOk
  /-- Behind a bad status there is no turn. -/
  bad : ∀ t ∈ ts, ¬ t.2.Good → ts.getLast? = some t ∧
    st = if t.2.status &&& mcsArblst ≠ 0 then i2cErrBus else i2cErrNack

theorem conducted_of_run {plan : List Command} {ts : List Turn} (h : Run Reply.Good plan ts) :
    Conducted plan ts (outcome ts) := by
  refine ⟨h.front, ?_, ?_⟩
  · intro hc
    exact ⟨h.complete hc, (outcome_eq_ok h).mpr hc⟩
  · intro t ht hb
    obtain ⟨init, rfl, -⟩ := h.eq_last_of_bad ht hb
    have hlast : (init ++ [t]).getLast? = some t := by simp
    refine ⟨hlast, ?_⟩
    rw [outcome, hlast]
    have hb' : ¬ (t.2.status &&& mcsArblst = 0 ∧
        t.2.status &&& (mcsError ||| mcsAdrack ||| mcsDatack) = 0) := hb
    show mcsToStatus t.2.status = _
    unfold mcsToStatus
    by_cases h₁ : t.2.status &&& mcsArblst ≠ 0
    · rw [if_pos h₁, if_pos h₁]
    · rw [if_neg h₁, if_neg h₁, if_pos fun h₂ => hb' ⟨not_not.mp h₁, h₂⟩]

theorem length_takenBytes {us : List Turn} (h : ∀ u ∈ us, u.2.taken.isSome) :
    (takenBytes us).length = us.length := by
  induction us with
  | nil => rfl
  | cons u us ih =>
      obtain ⟨v, hv⟩ := Option.isSome_iff_exists.mp (h u (List.mem_cons_self ..))
      have hu : takenBytes (u :: us) = (v &&& 0xFF).toUInt8 :: takenBytes us := by
        simp [takenBytes, hv]
      rw [hu, List.length_cons, List.length_cons, ih fun w hw => h w (List.mem_cons_of_mem _ hw)]

/-- `stellaris_write` with valid arguments. -/
theorem stellarisWrite_run (hw : Hardware) (h : List Access) (addr : UInt8) {data : List UInt8}
    (hd : data ≠ []) :
    ∃ ts, Carried hw false (h ++ [.wrote .msa (msaWord addr false)]) (writeCommands data) ts ∧
      stellarisWrite hw h addr (.mem data) =
        .ok (outcome ts, h ++ phase addr false ts ++ release (outcome ts)) := by
  have hargs : ¬ ((Slice.mem data).isNull = true ∨ (Slice.mem data).size = 0) := by simpa using hd
  obtain ⟨ts, hcarried, hrun⟩ := transmitLoop_run hw (length_writeCommands data)
    writeCommands_mcs data.length 0 (h ++ [.wrote .msa (msaWord addr false)]) (by simp)
  refine ⟨ts, hcarried, ?_⟩
  rw [stellarisWrite, if_neg hargs, msaTransmit_eq]
  simpa [phase] using hrun

/-- `stellaris_write_read` with valid arguments: the read phase is entered behind a good write
phase. -/
theorem stellarisWriteRead_run (hw : Hardware) (h : List Access) (addr : UInt8)
    {wdata rdata : List UInt8} (hwd : wdata ≠ []) (hrd : rdata ≠ []) :
    ∃ ts, Carried hw false (h ++ [.wrote .msa (msaWord addr false)]) (pointerCommands wdata) ts ∧
      ((¬ Clean Reply.Good ts ∧ stellarisWriteRead hw h addr (.mem wdata) (.mem rdata) =
          .ok (outcome ts, .mem rdata, h ++ phase addr false ts ++ release (outcome ts))) ∨
        (Clean Reply.Good ts ∧ ∃ us,
          Carried hw true (h ++ phase addr false ts ++ [.wrote .msa (msaWord addr true)])
            (readCommands rdata.length) us ∧
          stellarisWriteRead hw h addr (.mem wdata) (.mem rdata) =
            .ok (outcome us, .mem (overlay (takenBytes us) rdata),
              h ++ phase addr false ts ++ phase addr true us ++ release (outcome us)))) := by
  have hargs : ¬ ((Slice.mem wdata).isNull = true ∨ (Slice.mem wdata).size = 0 ∨
      (Slice.mem rdata).isNull = true ∨ (Slice.mem rdata).size = 0) := by
    simpa using ⟨hwd, hrd⟩
  obtain ⟨ts, hcarried, hrun⟩ := transmitLoop_run hw (length_pointerCommands wdata)
    pointerCommands_mcs wdata.length 0 (h ++ [.wrote .msa (msaWord addr false)]) (by simp)
  have hcall : stellarisWriteRead hw h addr (.mem wdata) (.mem rdata) =
      (transmitLoop hw pointerCmd (.mem wdata) wdata.length 0
          (h ++ [.wrote .msa (msaTransmit addr)]) >>= fun r =>
        if r.1 ≠ i2cOk then pure (r.1, .mem rdata, r.2)
        else receiveLoop hw (readCmd rdata.length) rdata.length 0 (.mem rdata)
          (r.2 ++ [.wrote .msa (msaTransmit addr ||| msaReceive)])) := by
    rw [stellarisWriteRead, if_neg hargs]
    rfl
  refine ⟨ts, hcarried, ?_⟩
  rw [hcall, msaReceive_eq, msaTransmit_eq, hrun, ok_bind]
  have hfront : h ++ [.wrote .msa (msaWord addr false)] ++ logs ts = h ++ phase addr false ts := by
    rw [phase, List.append_assoc, List.singleton_append]
  by_cases hclean : Clean Reply.Good ts
  · have hok : outcome ts = i2cOk := (outcome_eq_ok hcarried.run).mpr hclean
    obtain ⟨us, hcarried', hrun'⟩ := receiveLoop_run hw (length_readCommands rdata.length)
      readCommands_mcs rdata.length []
      (h ++ phase addr false ts ++ [.wrote .msa (msaWord addr true)]) (by simp)
    refine .inr ⟨hclean, us, hcarried', ?_⟩
    rw [if_neg (not_not.mpr hok), hok, release, if_pos rfl, List.append_nil, hfront]
    simpa [phase] using hrun'
  · have hbad : outcome ts ≠ i2cOk := mt (outcome_eq_ok hcarried.run).mp hclean
    refine .inl ⟨hclean, ?_⟩
    rw [if_pos hbad, hfront]
    rfl

/-- The accesses of a transfer: a write phase, and a read phase if there is a turn of one. -/
def transcript (addr : UInt8) (ts us : List Turn) : List Access :=
  phase addr false ts ++ if us = [] then [] else phase addr true us

/-- A transfer of a write phase `ts` and a read phase `us`, planned as `plan` and `plan'`. -/
structure Transfer (hw : Hardware) (h : List Access) (addr : UInt8) (plan plan' : List Command)
    (ts us : List Turn) (st : Int) : Prop where
  conducted : Conducted (plan ++ plan') (ts ++ us) st
  write : ts.map Prod.fst <+: plan
  read : us ≠ [] → ts.map Prod.fst = plan
  write_proper : ∀ t ∈ ts, t.Proper false
  read_proper : ∀ u ∈ us, u.Proper true
  /-- The words in the turns are those the peripheral gave. -/
  answered : Answered hw h (transcript addr ts us)

section
variable {hw : Hardware} {h : List Access} {addr : UInt8} {plan plan' : List Command}
  {ts us : List Turn}

theorem answered_phase {receive : Bool}
    (hc : Carried hw receive (h ++ [.wrote .msa (msaWord addr receive)]) plan ts) :
    Answered hw h (phase addr receive ts) := hc.answered

/-- A transfer that does not come to a read phase. -/
theorem transfer_write (hc : Carried hw false (h ++ [.wrote .msa (msaWord addr false)]) plan ts)
    (hrun : Run Reply.Good (plan ++ plan') ts) :
    Transfer hw h addr plan plan' ts [] (outcome ts) := by
  refine ⟨?_, hc.run.front, fun hne => absurd rfl hne, hc.proper, ?_, ?_⟩
  · rw [List.append_nil]
    exact conducted_of_run hrun
  · intro u hu
    cases hu
  · rw [transcript, if_pos rfl, List.append_nil]
    exact answered_phase hc

theorem outcome_append (hus : us ≠ []) : outcome (ts ++ us) = outcome us := by
  rw [outcome, outcome, List.getLast?_append, List.getLast?_eq_some_getLast hus]
  rfl

theorem transfer_both (hc : Carried hw false (h ++ [.wrote .msa (msaWord addr false)]) plan ts)
    (hclean : Clean Reply.Good ts)
    (hc' : Carried hw true (h ++ phase addr false ts ++ [.wrote .msa (msaWord addr true)]) plan' us)
    (hus : us ≠ []) : Transfer hw h addr plan plan' ts us (outcome us) := by
  refine ⟨?_, hc.run.front, fun _ => hc.run.complete hclean, hc.proper, hc'.proper, ?_⟩
  · rw [← outcome_append hus]
    exact conducted_of_run (hc.run.append hclean hc'.run)
  · rw [transcript, if_neg hus, answered_append]
    exact ⟨answered_phase hc, answered_phase hc'⟩

end

/-- `stellaris_write` with valid arguments is a transfer of one phase. -/
theorem stellarisWrite_transfer (hw : Hardware) (h : List Access) (addr : UInt8)
    {data : List UInt8} (hd : data ≠ []) :
    ∃ ts st, Transfer hw h addr (writeCommands data) [] ts [] st ∧
      stellarisWrite hw h addr (.mem data) =
        .ok (st, h ++ transcript addr ts [] ++ release st) := by
  obtain ⟨ts, hc, hcall⟩ := stellarisWrite_run hw h addr hd
  refine ⟨ts, outcome ts, transfer_write hc (by rw [List.append_nil]; exact hc.run), ?_⟩
  rw [hcall, transcript, if_pos rfl, List.append_nil]

/-- `stellaris_write_read` with valid arguments is a transfer of two phases. -/
theorem stellarisWriteRead_transfer (hw : Hardware) (h : List Access) (addr : UInt8)
    {wdata rdata : List UInt8} (hwd : wdata ≠ []) (hrd : rdata ≠ []) :
    ∃ ts us st,
      Transfer hw h addr (pointerCommands wdata) (readCommands rdata.length) ts us st ∧
      stellarisWriteRead hw h addr (.mem wdata) (.mem rdata) =
        .ok (st, .mem (overlay (takenBytes us) rdata),
          h ++ transcript addr ts us ++ release st) ∧
      (st = i2cOk → (takenBytes us).length = rdata.length) := by
  have hplan : readCommands rdata.length ≠ [] := by
    intro h0
    have := congrArg List.length h0
    rw [length_readCommands] at this
    exact hrd (List.length_eq_zero_iff.mp this)
  obtain ⟨ts, hc, ⟨hfail, hcall⟩ | ⟨hclean, us, hc', hcall⟩⟩ :=
    stellarisWriteRead_run hw h addr hwd hrd
  · refine ⟨ts, [], outcome ts, transfer_write hc (hc.run.given_up hfail _), ?_, ?_⟩
    · rw [hcall, transcript, if_pos rfl, List.append_nil]
      rfl
    · intro hok
      exact absurd ((outcome_eq_ok hc.run).mp hok) hfail
  · have hus := hc'.run.ne_nil hplan
    refine ⟨ts, us, outcome us, transfer_both hc hclean hc' hus, ?_, ?_⟩
    · rw [hcall, transcript, if_neg hus, List.append_assoc h]
    · intro hok
      have hgood := (outcome_eq_ok hc'.run).mp hok
      have hall : us.map Prod.fst = readCommands rdata.length := hc'.run.complete hgood
      have hlen := congrArg List.length hall
      rw [List.length_map, length_readCommands] at hlen
      rw [length_takenBytes, hlen]
      intro u hu
      exact (hc'.proper u hu).taken.mpr ⟨rfl, hgood u hu⟩

/-- **The master's command protocol.**  With valid arguments, whatever the peripheral answers: the
commands are the first of the plan, I2CMSA holds the address with R/W clear for the write phase and
set for the read phase, a call that gets only good statuses carries out the whole plan and fills
`rdata` in order, and one that gets a bad status issues one more command, a bare STOP. -/
theorem master_protocol (hw : Hardware) (h : List Access) (addr : UInt8) :
    (∀ data : List UInt8, data ≠ [] →
      ∃ ts st, Transfer hw h addr (writeCommands data) [] ts [] st ∧
        stellarisWrite hw h addr (.mem data) =
          .ok (st, h ++ transcript addr ts [] ++ release st)) ∧
    ∀ wdata rdata : List UInt8, wdata ≠ [] → rdata ≠ [] →
      ∃ ts us st,
        Transfer hw h addr (pointerCommands wdata) (readCommands rdata.length) ts us st ∧
        stellarisWriteRead hw h addr (.mem wdata) (.mem rdata) =
          .ok (st, .mem (overlay (takenBytes us) rdata),
            h ++ transcript addr ts us ++ release st) ∧
        (st = i2cOk → (takenBytes us).length = rdata.length) := by
  constructor
  · intro data hd
    exact stellarisWrite_transfer hw h addr hd
  · intro wdata rdata hwd hrd
    exact stellarisWriteRead_transfer hw h addr hwd hrd

theorem clears_constantly {w : UInt32} (hw : w &&& mcsBusy = 0) (h : List Access) :
    ∃ k ≤ 0,
      (fun (_ : List Access) (_ : Reg) => w) (polled (fun _ _ => w) k h) .mcs &&& mcsBusy = 0 :=
  ⟨0, Nat.le_refl 0, hw⟩

/-- A peripheral that gives one word at every load. -/
def constantly (w : UInt32) (hw : w &&& mcsBusy = 0) : Hardware where
  word _ _ := w
  patience _ := 0
  clears := clears_constantly hw

/-- A read of two bytes from a peripheral whose every word is `E0`, a good status and a byte. -/
theorem master_protocol_read :
    ∃ ts us, Transfer (constantly 0xE0 (by decide)) [] 0x53 (pointerCommands [0x32])
        (readCommands 2) ts us i2cOk ∧
      stellarisWriteRead (constantly 0xE0 (by decide)) [] 0x53 (.mem [0x32]) (.mem [0, 0]) =
        .ok (i2cOk, .mem [0xE0, 0xE0], transcript 0x53 ts us) ∧ takenBytes us = [0xE0, 0xE0] := by
  obtain ⟨ts, us, st, ht, hcall, hall⟩ :=
    (master_protocol (constantly 0xE0 (by decide)) [] 0x53).2 [0x32] [0, 0] (by decide) (by decide)
  obtain rfl : st = i2cOk := (congrArg Prod.fst (Except.ok.inj hcall)).symm
  have hfull : overlay (takenBytes us) [0, 0] = takenBytes us :=
    overlay_all (Nat.le_of_eq (hall rfl).symm)
  have hlog : [] ++ transcript 0x53 ts us ++ release i2cOk = transcript 0x53 ts us := by
    rw [List.nil_append, release, if_pos rfl, List.append_nil]
  rw [hfull, hlog] at hcall
  have htaken : takenBytes us = [0xE0, 0xE0] :=
    (Slice.mem.inj (congrArg (fun p => p.2.1) (Except.ok.inj hcall))).symm
  refine ⟨ts, us, ht, ?_, htaken⟩
  rw [hcall, htaken]

end Sharak
