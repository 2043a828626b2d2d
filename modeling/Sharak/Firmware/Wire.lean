import Sharak.Firmware.Backends
import Sharak.Firmware.Freshness
import Sharak.Support.Lockstep

/-!
# Firmware — the chip on the wires

The simulator answers a transaction at once; on the wires a chip sees one byte after another, and
does not know how long a read will be.  `Wires` is such a chip at the other end of the I2C0 master:
the first byte of a write phase sets the register pointer and the others are stored, and a read
phase serves the registers from the pointer on, with a sample taken in front of the first data
register it comes to.  What the master receives of it byte by byte is what the simulator serves at
once, as long as the simulator foresees the reads of data (`received_eq`).
-/

namespace Sharak
open Memory Attempts Lockstep

/-! ### A chip, byte by byte -/

/-- The chip, and whether it has taken a sample in this read phase. -/
structure Slave where
  chip : I2cSim
  fresh : Bool

/-- A byte of a write phase arrives. -/
def Slave.accept (d : Slave) (first : Bool) (b : UInt8) : Slave :=
  { d with chip := if first then { d.chip with ptr := b } else d.chip.put b }

/-- The chip in front of a byte of a read phase. -/
def Slave.poised (d : Slave) : Slave :=
  if d.fresh = false ∧ IsData d.chip.ptr.toNat ∧ d.chip.Measuring then ⟨d.chip.refreshed, true⟩
  else d

/-- The byte it serves. -/
def Slave.byte (d : Slave) : UInt8 := d.poised.chip.reg d.poised.chip.ptr.toNat

/-- The chip behind that byte. -/
def Slave.serve (d : Slave) : Slave := { d.poised with chip := d.poised.chip.next }

/-- The chip, and what I2CMSA and I2CMDR hold. -/
structure Wires where
  slave : Slave
  msa : UInt32
  mdr : UInt8

/-- A command with RUN, with the chip addressed, carries one byte. -/
def Wires.command (w : Wires) (c : UInt32) : Wires :=
  if c &&& mcsRun = 0 ∨ w.msa >>> 1 ≠ 0x53 then w
  else if w.msa &&& msaReceive = 0 then
    { w with slave := w.slave.accept (c &&& mcsStart ≠ 0) w.mdr }
  else
    let d := if c &&& mcsStart ≠ 0 then { w.slave with fresh := false } else w.slave
    { w with slave := d.serve, mdr := d.byte }

def Wires.step (w : Wires) : Access → Wires
  | .wrote .msa a => { w with msa := a }
  | .wrote .mdr v => { w with mdr := (v &&& 0xFF).toUInt8 }
  | .wrote .mcs c => w.command c
  | .read _ _ => w

/-- The wires behind the accesses `h`, with `chip` on them at the start. -/
def wires (chip : I2cSim) (h : List Access) : Wires := h.foldl Wires.step ⟨⟨chip, false⟩, 0, 0⟩

/-- `chip` is the one slave on the wires, and a started reception leaves the byte it served in
I2CMDR. -/
structure Wired (hw : Hardware) (chip : I2cSim) : Prop extends OneSlave hw where
  served : ∀ h a cmds, view h = ⟨some a, cmds⟩ → Started cmds → a >>> 1 = 0x53 →
    a &&& msaReceive ≠ 0 → (hw.word h .mdr &&& 0xFF).toUInt8 = (wires chip h).mdr

/-! ### Turns on the wires -/

theorem wires_append (chip : I2cSim) (h log : List Access) :
    wires chip (h ++ log) = log.foldl Wires.step (wires chip h) := List.foldl_append

/-- Loads are not seen on the wires. -/
theorem wire_reads (w : Wires) (r : Reg) (vs : List UInt32) :
    (vs.map (Access.read r)).foldl Wires.step w = w := by
  induction vs with
  | nil => rfl
  | cons v vs ih => exact ih

/-- A byte in I2CMDR, if the command has one, and the command. -/
def Wires.turn (w : Wires) (c : Command) : Wires :=
  Wires.command { w with mdr := c.byte.getD w.mdr } c.mcs

theorem low_byte (b : UInt8) : (b.toUInt32 &&& 0xFF).toUInt8 = b := by
  apply UInt8.toNat_inj.mp
  have hb := b.toNat_lt
  rw [UInt32.toNat_toUInt8, UInt32.toNat_and, UInt8.toNat_toUInt32]
  show (b.toNat &&& 255) % 256 = b.toNat
  rw [Nat.and_two_pow_sub_one_eq_mod _ 8]
  omega

theorem wire_turn (w : Wires) (t : Turn) : t.log.foldl Wires.step w = w.turn t.1 := by
  have hbyte : (t.1.byte.toList.map fun b => Access.wrote .mdr b.toUInt32).foldl Wires.step w =
      { w with mdr := t.1.byte.getD w.mdr } := by
    cases t.1.byte with
    | none => rfl
    | some b => exact congrArg (fun m => { w with mdr := m }) (low_byte b)
  rw [Turn.log, List.foldl_append, List.foldl_append, hbyte, List.foldl_cons, polls, wire_reads,
    wire_reads]
  rfl

theorem wire_logs (w : Wires) (ts : List Turn) :
    (logs ts).foldl Wires.step w = (ts.map Prod.fst).foldl Wires.turn w := by
  induction ts generalizing w with
  | nil => rfl
  | cons t ts ih => rw [logs_cons, List.foldl_append, wire_turn, ih]; rfl

/-- The bare STOP of the error path moves nothing. -/
theorem wire_release (w : Wires) (st : Int) : (release st).foldl Wires.step w = w := by
  unfold release
  by_cases h : st = i2cOk
  · rw [if_pos h]
    rfl
  · rw [if_neg h]
    show w.command mcsStop = w
    exact if_pos (Or.inl rfl)

/-- A phase for another address passes the chip by. -/
theorem turn_elsewhere {w : Wires} (hm : w.msa >>> 1 ≠ 0x53) (c : Command) :
    (w.turn c).slave = w.slave ∧ (w.turn c).msa = w.msa := by
  have h : w.turn c = { w with mdr := c.byte.getD w.mdr } := if_pos (Or.inr hm)
  rw [h]
  exact ⟨rfl, rfl⟩

theorem turns_elsewhere {w : Wires} (hm : w.msa >>> 1 ≠ 0x53) (cs : List Command) :
    (cs.foldl Wires.turn w).slave = w.slave := by
  induction cs generalizing w with
  | nil => rfl
  | cons c cs ih =>
      obtain ⟨hslave, hmsa⟩ := turn_elsewhere hm c
      rw [List.foldl_cons, ih (by rw [hmsa]; exact hm), hslave]

/-! ### Write phases -/

section
variable {w : Wires} {c : Command}

theorem turn_transmit (hm : w.msa = msaWord simAddr false) (hrun : c.run = true) {b : UInt8}
    (hb : c.byte = some b) : w.turn c = { w with slave := w.slave.accept c.start b, mdr := b } := by
  have hbus : ¬ (c.mcs &&& mcsRun = 0 ∨ w.msa >>> 1 ≠ 0x53) := by
    rw [hm]
    exact not_or.mpr ⟨(mcs_bits c).1.mpr hrun, by decide⟩
  have hsend : w.msa &&& msaReceive = 0 := by
    rw [hm]
    decide
  have hstart : decide (c.mcs &&& mcsStart ≠ 0) = c.start :=
    Bool.eq_iff_iff.mpr (decide_eq_true_iff.trans (mcs_bits c).2.1)
  rw [Wires.turn, hb, Option.getD_some, Wires.command, if_neg hbus, if_pos hsend, hstart]

end

/-- Bytes behind the first are stored. -/
theorem turns_store {w : Wires} (hm : w.msa = msaWord simAddr false) {bs : List UInt8}
    {f : Nat → UInt8 → Command} (hbyte : ∀ i b, (f i b).byte = some b)
    (hrun : ∀ i b, (f i b).run = true) (hstart : ∀ i b, (f i b).start = false) :
    ((bs.mapIdx f).foldl Wires.turn w).slave.chip = bs.foldl I2cSim.put w.slave.chip := by
  induction bs generalizing w f with
  | nil => rfl
  | cons b bs ih =>
      have hturn := turn_transmit hm (hrun 0 b) (hbyte 0 b)
      have hm' : (w.turn (f 0 b)).msa = msaWord simAddr false := by
        rw [hturn]
        exact hm
      rw [List.mapIdx_cons, List.foldl_cons, ih hm' (fun i => hbyte (i + 1))
        (fun i => hrun (i + 1)) (fun i => hstart (i + 1)), hturn, hstart]
      rfl

/-- One command a byte, the first with START, is a write phase of the chip. -/
theorem turns_transmit {w : Wires} (hm : w.msa = msaWord simAddr false) {data : List UInt8}
    {f : Nat → UInt8 → Command} (hbyte : ∀ i b, (f i b).byte = some b)
    (hrun : ∀ i b, (f i b).run = true) (hstart : ∀ i b, (f i b).start = decide (i = 0)) :
    ((data.mapIdx f).foldl Wires.turn w).slave.chip = w.slave.chip.written data := by
  cases data with
  | nil => rfl
  | cons b bs =>
      have hturn := turn_transmit hm (hrun 0 b) (hbyte 0 b)
      have hm' : (w.turn (f 0 b)).msa = msaWord simAddr false := by
        rw [hturn]
        exact hm
      have hrest : ∀ i b, (f (i + 1) b).start = false := fun i b => hstart (i + 1) b
      rw [List.mapIdx_cons, List.foldl_cons, turns_store hm' (fun i => hbyte (i + 1))
        (fun i => hrun (i + 1)) hrest, hturn, hstart]
      rfl

/-! ### Read phases -/

/-- What I2CMDR holds behind each of the commands. -/
def Wires.received (w : Wires) : List Command → List UInt8
  | [] => []
  | c :: cs => (w.turn c).mdr :: (w.turn c).received cs

/-- The chip that serves a read of `n` bytes from here: with its sample, if it comes to take
one. -/
def Slave.settled (d : Slave) (n : Nat) : I2cSim :=
  if d.fresh = false ∧ d.chip.Measuring ∧ ∃ k < n, IsData (simNextPtr^[k] d.chip.ptr).toNat then
    d.chip.refreshed
  else d.chip

theorem refreshed_next (s : I2cSim) : s.next.refreshed = s.refreshed.next := by
  rw [I2cSim.refreshed, I2cSim.next, I2cSim.next, I2cSim.refreshed]

/-- The registers of a read: the first, and those of the rest. -/
theorem visits_succ (ptr : UInt8) (n : Nat) :
    (∃ k < n + 1, IsData (simNextPtr^[k] ptr).toNat) ↔
      IsData ptr.toNat ∨ ∃ k < n, IsData (simNextPtr^[k] (simNextPtr ptr)).toNat :=
  Nat.exists_lt_succ_left (p := fun k => IsData (simNextPtr^[k] ptr).toNat)

/-- A chip with its sample, and one that does not measure, serve what they hold. -/
theorem settled_held {d : Slave} (h : ¬ (d.fresh = false ∧ d.chip.Measuring)) (n : Nat) :
    d.settled n = d.chip := if_neg fun hc => h ⟨hc.1, hc.2.1⟩

/-- A byte is the one of the settled chip, which is the settled chip for the rest of the read. -/
theorem settled_byte (d : Slave) (n : Nat) :
    d.byte = (d.settled (n + 1)).reg (d.settled (n + 1)).ptr.toNat ∧
      d.serve.settled n = (d.settled (n + 1)).next := by
  by_cases ha : d.fresh = false ∧ d.chip.Measuring
  · by_cases hd : IsData d.chip.ptr.toNat
    -- the sample is taken here
    · have hp : d.poised = ⟨d.chip.refreshed, true⟩ := if_pos ⟨ha.1, hd, ha.2⟩
      have hs : d.settled (n + 1) = d.chip.refreshed :=
        if_pos ⟨ha.1, ha.2, (visits_succ _ n).mpr (.inl hd)⟩
      rw [Slave.byte, Slave.serve, hp, hs]
      exact ⟨rfl, settled_held (by simp) n⟩
    · have hp : d.poised = d := if_neg fun h => hd h.2.1
      have hrest : (∃ k < n + 1, IsData (simNextPtr^[k] d.chip.ptr).toNat) ↔
          ∃ k < n, IsData (simNextPtr^[k] d.chip.next.ptr).toNat :=
        (visits_succ _ n).trans (or_iff_right hd)
      rw [Slave.byte, Slave.serve, hp]
      by_cases hv : ∃ k < n, IsData (simNextPtr^[k] d.chip.next.ptr).toNat
      -- it is taken later, and does not change this register
      · have hs : d.settled (n + 1) = d.chip.refreshed := if_pos ⟨ha.1, ha.2, hrest.mpr hv⟩
        have hs' : ({ d with chip := d.chip.next } : Slave).settled n = d.chip.next.refreshed :=
          if_pos ⟨ha.1, ha.2, hv⟩
        rw [hs, hs', refreshed_ptr, refreshed_other _ hd]
        exact ⟨rfl, refreshed_next _⟩
      · have hs : d.settled (n + 1) = d.chip := if_neg fun h => hv (hrest.mp h.2.2)
        have hs' : ({ d with chip := d.chip.next } : Slave).settled n = d.chip.next :=
          if_neg fun h => hv h.2.2
        rw [hs, hs']
        exact ⟨rfl, rfl⟩
  · have hp : d.poised = d := if_neg fun h => ha ⟨h.1, h.2.2⟩
    rw [Slave.byte, Slave.serve, hp, settled_held ha]
    exact ⟨rfl, @settled_held { d with chip := d.chip.next } ha n⟩

theorem turn_receive {w : Wires} {c : Command} (hm : w.msa = msaWord simAddr true)
    (hrun : c.run = true) :
    w.turn c =
      let d := if c.start = true then { w.slave with fresh := false } else w.slave
      { w with slave := d.serve, mdr := d.byte } := by
  have hbus : ¬ (c.mcs &&& mcsRun = 0 ∨ w.msa >>> 1 ≠ 0x53) := by
    rw [hm]
    exact not_or.mpr ⟨(mcs_bits c).1.mpr hrun, by decide⟩
  have hrecv : ¬ w.msa &&& msaReceive = 0 := by
    rw [hm]
    decide
  rw [Wires.turn, Wires.command, if_neg hbus, if_neg hrecv]
  simp only [(mcs_bits c).2.1]

/-- Behind START, the bytes received are those the settled chip serves. -/
theorem received_settled {w : Wires} (hm : w.msa = msaWord simAddr true) {cs : List Command}
    (hcs : ∀ c ∈ cs, c.run = true ∧ c.start = false) :
    w.received cs = (w.slave.settled cs.length).serve cs.length ∧
      (cs.foldl Wires.turn w).slave.chip = I2cSim.next^[cs.length] (w.slave.settled cs.length) := by
  induction cs generalizing w with
  | nil =>
      have hs : w.slave.settled 0 = w.slave.chip := if_neg fun h => by
        obtain ⟨k, hk, -⟩ := h.2.2
        exact absurd hk (Nat.not_lt_zero k)
      exact ⟨rfl, hs.symm⟩
  | cons c cs ih =>
      obtain ⟨⟨hr, hs⟩, hrest⟩ := List.forall_mem_cons.mp hcs
      have hturn : w.turn c = { w with slave := w.slave.serve, mdr := w.slave.byte } := by
        rw [turn_receive hm hr, hs]
        rfl
      obtain ⟨hbyte, hsettled⟩ := settled_byte w.slave cs.length
      obtain ⟨hbytes, hchip⟩ := @ih (w.turn c) (by rw [hturn]; exact hm) hrest
      rw [Wires.received, List.foldl_cons, hbytes, hchip, hturn, hsettled]
      exact ⟨by rw [List.length_cons, I2cSim.serve, hbyte], rfl⟩

/-- A chip whose test for a read of data is right settles as the simulator does. -/
theorem settled_snapshot {s : I2cSim} (hs : s.Inside) {n : Nat} (hn : 0 < n)
    (hf : s.Measuring → Foreseen s.ptr n) (fresh : Bool) (h0 : fresh = false) :
    (⟨s, fresh⟩ : Slave).settled n = s.snapshot n := by
  rw [I2cSim.snapshot, Slave.settled]
  by_cases hm : s.Measuring
  · have htest : (∃ k < n, IsData (simNextPtr^[k] s.ptr).toNat) ↔ simTouchesData s.ptr n = true :=
      ⟨touches_of_foreseen hs hn (hf hm), visits_of_touches hs hn⟩
    simp only [htest, h0, hm, hn, true_and, and_true]
  · rw [if_neg fun h => hm h.2.1, if_neg fun h => hm h.2]

/-- A read phase opens with START, and START comes once. -/
theorem readCommands_succ (m : Nat) : ∃ c cs, readCommands (m + 1) = c :: cs ∧ c.run = true ∧
    c.start = true ∧ cs.length = m ∧ ∀ d ∈ cs, d.run = true ∧ d.start = false := by
  rw [readCommands, List.range_succ_eq_map, List.map_cons, List.map_map]
  refine ⟨_, _, rfl, rfl, rfl, by simp, ?_⟩
  intro d hd
  obtain ⟨i, -, rfl⟩ := List.mem_map.mp hd
  exact ⟨rfl, rfl⟩

/-- START in front of a byte received is a chip that has taken no sample. -/
theorem turn_restart {w : Wires} {c : Command} (hm : w.msa = msaWord simAddr true)
    (hrun : c.run = true) (hstart : c.start = true) :
    w.turn c = Wires.turn { w with slave := { w.slave with fresh := false } }
      { c with start := false } := by
  rw [turn_receive hm hrun, hstart, @turn_receive { w with slave := { w.slave with fresh := false } }
    { c with start := false } hm hrun]
  rfl

/-- **A read phase, byte by byte.**  With the read foreseen, the master receives what the simulator
serves at once, and the chip is left the same. -/
theorem received_eq {w : Wires} (hm : w.msa = msaWord simAddr true) (hs : w.slave.chip.Inside)
    {n : Nat} (hn : 0 < n) (hf : w.slave.chip.Measuring → Foreseen w.slave.chip.ptr n) :
    w.received (readCommands n) = (w.slave.chip.snapshot n).serve n ∧
      ((readCommands n).foldl Wires.turn w).slave.chip =
        I2cSim.next^[n] (w.slave.chip.snapshot n) := by
  obtain ⟨m, rfl⟩ := Nat.exists_eq_succ_of_ne_zero (Nat.ne_of_gt hn)
  obtain ⟨c, cs, hplan, hrun, hstart, hlen, hrest⟩ := readCommands_succ m
  have hall : ∀ d ∈ ({ c with start := false } : Command) :: cs, d.run = true ∧ d.start = false :=
    List.forall_mem_cons.mpr ⟨⟨hrun, rfl⟩, hrest⟩
  obtain ⟨hbytes, hchip⟩ :=
    @received_settled { w with slave := { w.slave with fresh := false } } hm _ hall
  rw [List.length_cons, hlen, settled_snapshot hs hn hf _ rfl] at hbytes hchip
  rw [hplan, Wires.received, List.foldl_cons, turn_restart hm hrun hstart]
  exact ⟨hbytes, hchip⟩

/-! ### The calls of the master -/

/-- The bytes taken from I2CMDR in a phase are those the chip served in it. -/
theorem takenBytes_received {hw : Hardware} {chip : I2cSim} (hc : Wired hw chip) {us : List Turn} :
    ∀ {h : List Access} {cmds : List UInt32}, view h = ⟨some (msaWord simAddr true), cmds⟩ →
      (∀ u ∈ us, u.Proper true) → Clean Reply.Good us → Answered hw h (logs us) →
      Started (cmds ++ us.map fun u => u.1.mcs) →
      takenBytes us = (wires chip h).received (us.map Prod.fst) := by
  induction us with
  | nil =>
      intro h cmds _ _ _ _ _
      rfl
  | cons u us ih =>
      intro h cmds hv hp hg hans hst
      obtain ⟨hgood, hgoods⟩ := clean_cons.mp hg
      obtain ⟨hprop, hprops⟩ := List.forall_mem_cons.mp hp
      obtain ⟨v, hu⟩ := Option.isSome_iff_exists.mp (hprop.taken.mpr ⟨rfl, hgood⟩)
      rw [logs_cons, answered_append] at hans
      rw [List.map_cons, List.append_cons] at hst
      -- the last access of the turn loads I2CMDR behind a turn that is otherwise the same
      let u₀ : Turn := (u.1, { u.2 with taken := none })
      have hlog : u.log = u₀.log ++ [.read .mdr v] := by
        rw [← log_taken, ← hu]
      have hword := hans.1
      rw [hlog, answered_append] at hword
      have hbyte : (v &&& 0xFF).toUInt8 = ((wires chip h).turn u.1).mdr := by
        rw [hword.2.1, hc.served _ _ _ (view_turn u₀ hv) (hst.of_append (by simp)) (by decide)
          (by decide), wires_append, wire_turn]
      have htaken : takenBytes (u :: us) = (v &&& 0xFF).toUInt8 :: takenBytes us := by
        simp [takenBytes, hu]
      rw [htaken, ih (view_turn u hv) hprops hgoods hans.2 hst, hbyte, wires_append, wire_turn]
      rfl

section
variable {hw : Hardware} {chip : I2cSim} {h : List Access} {addr : UInt8}

/-- The wires behind a phase. -/
theorem wires_phase (receive : Bool) (ts : List Turn) (st : Int) :
    wires chip (h ++ phase addr receive ts ++ release st) =
      (ts.map Prod.fst).foldl Wires.turn { wires chip h with msa := msaWord addr receive } := by
  rw [wires_append, wire_release, wires_append, phase, List.foldl_cons, wire_logs, Wires.step]

/-- The chip is passed by in a phase for another address. -/
theorem wires_elsewhere (haddr : addr.toNat < 128) (ha : addr ≠ simAddr) (receive : Bool)
    (ts : List Turn) (st : Int) :
    (wires chip (h ++ phase addr receive ts ++ release st)).slave = (wires chip h).slave := by
  rw [wires_phase, turns_elsewhere]
  exact mt (msaWord_addressed haddr receive).mp ha

end

section
variable {hw : Hardware} {chip : I2cSim} (hc : Wired hw chip) (h : List Access)
include hc

theorem stellarisWrite_wired {data : List UInt8} (hd : data ≠ []) :
    ∃ h', stellarisWrite hw h simAddr (.mem data) = .ok (i2cOk, h') ∧
      (wires chip h').slave.chip = (wires chip h).slave.chip.written data := by
  obtain ⟨ts, hcar, hcall⟩ := stellarisWrite_run hw h simAddr hd
  have hclean := (phase_status hc.toOneSlave (by decide) hcar (started_writeCommands hd)).1 rfl
  refine ⟨_, ((outcome_eq_ok hcar.run).mpr hclean) ▸ hcall, ?_⟩
  rw [wires_phase, hcar.run.complete hclean]
  exact turns_transmit rfl (fun _ _ => rfl) (fun _ _ => rfl) fun _ _ => rfl

theorem stellarisWrite_elsewhere {addr : UInt8} (haddr : addr.toNat < 128) (ha : addr ≠ simAddr)
    {data : List UInt8} (hd : data ≠ []) :
    ∃ h', stellarisWrite hw h addr (.mem data) = .ok (i2cErrNack, h') ∧
      (wires chip h').slave.chip = (wires chip h).slave.chip := by
  obtain ⟨ts, hcar, hcall⟩ := stellarisWrite_run hw h addr hd
  have hnack := (phase_status hc.toOneSlave haddr hcar (started_writeCommands hd)).2 ha
  exact ⟨_, hnack ▸ hcall, congrArg Slave.chip (wires_elsewhere haddr ha _ _ _)⟩

theorem stellarisWriteRead_wired {wdata rdata : List UInt8} (hwd : wdata ≠ []) (hrd : rdata ≠ [])
    {s : I2cSim} (hs : s = (wires chip h).slave.chip.written wdata) (hin : s.Inside)
    (hf : s.Measuring → Foreseen s.ptr rdata.length) :
    ∃ h', stellarisWriteRead hw h simAddr (.mem wdata) (.mem rdata) =
        .ok (i2cOk, .mem ((s.snapshot rdata.length).serve rdata.length), h') ∧
      (wires chip h').slave.chip = I2cSim.next^[rdata.length] (s.snapshot rdata.length) := by
  obtain ⟨ts, hcar, hcases⟩ := stellarisWriteRead_run hw h simAddr hwd hrd
  have hclean := (phase_status hc.toOneSlave (by decide) hcar (started_pointerCommands hwd)).1 rfl
  obtain ⟨hfail, -⟩ | ⟨-, us, hcar', hcall⟩ := hcases
  · exact absurd hclean hfail
  have hlen := List.length_pos_iff.mpr hrd
  have hst := started_readCommands hlen
  have hclean' := (phase_status hc.toOneSlave (by decide) hcar' hst).1 rfl
  have hplan := hcar'.run.complete hclean'
  -- the write phase, and the chip it leaves
  have hfront : (wires chip (h ++ phase simAddr false ts)).slave.chip = s := by
    have hw := @wires_phase chip h simAddr false ts i2cOk
    rw [release, if_pos rfl, List.append_nil] at hw
    rw [hw, hcar.run.complete hclean, hs]
    exact turns_transmit rfl (fun _ _ => rfl) (fun _ _ => rfl) fun _ _ => rfl
  have hopen : wires chip (h ++ phase simAddr false ts ++ [.wrote .msa (msaWord simAddr true)]) =
      { wires chip (h ++ phase simAddr false ts) with msa := msaWord simAddr true } :=
    wires_append _ _ _
  subst hfront
  obtain ⟨hbytes, hchip⟩ := @received_eq { wires chip (h ++ phase simAddr false ts) with
    msa := msaWord simAddr true } rfl hin rdata.length hlen hf
  have htaken : takenBytes us = (((wires chip (h ++ phase simAddr false ts)).slave.chip.snapshot
      rdata.length).serve rdata.length) := by
    rw [takenBytes_received hc (view_append _ _) hcar'.proper hclean' hcar'.answered, hplan, hopen,
      hbytes]
    rw [← hplan, List.map_map] at hst
    exact hst
  refine ⟨h ++ phase simAddr false ts ++ phase simAddr true us ++ release (outcome us), ?_, ?_⟩
  · rw [hcall, (outcome_eq_ok hcar'.run).mpr hclean', htaken,
      overlay_all (Nat.le_of_eq (length_serve _ _).symm)]
  · rw [wires_phase, hplan]
    exact hchip

theorem stellarisWriteRead_elsewhere {addr : UInt8} (haddr : addr.toNat < 128)
    (ha : addr ≠ simAddr) {wdata rdata : List UInt8} (hwd : wdata ≠ []) (hrd : rdata ≠ []) :
    ∃ h', stellarisWriteRead hw h addr (.mem wdata) (.mem rdata) =
        .ok (i2cErrNack, .mem rdata, h') ∧
      (wires chip h').slave.chip = (wires chip h).slave.chip := by
  obtain ⟨ts, hcar, hcases⟩ := stellarisWriteRead_run hw h addr hwd hrd
  have hnack := (phase_status hc.toOneSlave haddr hcar (started_pointerCommands hwd)).2 ha
  obtain ⟨-, hcall⟩ | ⟨hclean, -⟩ := hcases
  · exact ⟨_, hnack ▸ hcall, congrArg Slave.chip (wires_elsewhere haddr ha _ _ _)⟩
  · have hok := (outcome_eq_ok hcar.run).mpr hclean
    rw [hnack] at hok
    exact absurd hok (by decide)

end

/-! ### Runs -/

/-- A transaction of the master, and what it returns. -/
def Transaction.master (hw : Hardware) (h : List Access) :
    Transaction → Checked ((Int × Slice UInt8) × List Access)
  | .write addr data => do
      let (st, h) ← stellarisWrite hw h addr data
      pure ((st, .mem []), h)
  | .writeRead addr wdata rdata => do
      let (st, rdata, h) ← stellarisWriteRead hw h addr wdata rdata
      pure ((st, rdata), h)

/-- The same transaction of the simulator. -/
def Transaction.simulated (s : Option I2cSim) (t : Transaction) :
    Checked ((Int × Slice UInt8) × Option I2cSim) := do
  let (st, rdata, s) ← t.exec s
  pure ((st, rdata), s)

/-- What is accepted is answered with what the registers hold. -/
theorem simulated_accepted {t : Transaction} (ha : t.Accepted) (ht : t.Aimed) {s : I2cSim}
    (hs : s.Inside) : t.simulated (some s) =
      .ok ((i2cOk, t.rdata.put ((t.front s).serve t.rdata.size)),
        some (I2cSim.next^[t.rdata.size] (t.front s))) := by
  rw [Transaction.simulated, exec_accepted ha, simWritePhase_ok ha.2.1 ((aimed_iff ha).mp ht),
    ok_bind, simSamplePhase_ok, ok_bind]
  exact congrArg (fun r => (r >>= _) >>= _) (simReadLoop_ok (inside_front hs ha ht) ha.2.2)

/-- No argument is `NULL` or empty. -/
def Transaction.Full : Transaction → Prop
  | .write _ data => ∃ bs, data = .mem bs ∧ bs ≠ []
  | .writeRead _ wdata rdata =>
      (∃ bs, wdata = .mem bs ∧ bs ≠ []) ∧ ∃ cs, rdata = .mem cs ∧ cs ≠ []

/-- The simulator, and the chip on the wires of the master, in front of the transactions `ts`: all
for 7-bit addresses, full and aimed, and foreseen where they read a measuring chip. -/
structure Alike (chip : I2cSim) (ts : List Transaction) (o : Option I2cSim) (h : List Access) :
    Prop where
  same : o = some (wires chip h).slave.chip
  inside : (wires chip h).slave.chip.Inside
  plain : ∀ t ∈ ts, t.addr.toNat < 128 ∧ t.Full ∧ t.Aimed
  foreseen : AllForeseen (wires chip h).slave.chip ts

section
variable {hw : Hardware} {chip : I2cSim} {t : Transaction} {ts : List Transaction}
  {h h' : List Access} {o : Option I2cSim}

/-- A transaction with the same outcome on both. -/
theorem Alike.step (ha : Alike chip (t :: ts) o h) {st : Int} {r : Slice UInt8} {s' : I2cSim}
    (hexec : t.exec (some (wires chip h).slave.chip) = .ok (st, r, some s'))
    (hm : t.master hw h = .ok ((st, r), h')) (hchip : (wires chip h').slave.chip = s') :
    Both (Same (Alike chip ts)) (t.simulated o) (t.master hw h) := by
  obtain ⟨rfl, hin, hplain, -, hfore⟩ := ha
  obtain ⟨⟨-, -, haimed⟩, hts⟩ := List.forall_mem_cons.mp hplain
  have hrun : t.run (some (wires chip h).slave.chip) = .ok (some s') := by
    rw [run_exec, hexec]
    rfl
  have hafter : s' = t.after (wires chip h).slave.chip := by
    have := hrun.symm.trans (run_aimed hin haimed)
    exact Option.some.inj (Except.ok.inj this)
  refine ⟨((st, r), some s'), ((st, r), h'), ?_, hm, rfl, ?_⟩
  · rw [Transaction.simulated, hexec]
    rfl
  · subst hchip
    exact ⟨rfl, hafter ▸ inside_after hin haimed, hts, hfore _ hrun⟩

/-- A buffer filled by a read. -/
theorem put_serve (s : I2cSim) (cs : List UInt8) :
    Slice.put (s.serve cs.length) (.mem cs) = .mem (s.serve cs.length) :=
  congrArg Slice.mem (overlay_all (Nat.le_of_eq (length_serve _ _).symm))

theorem write_alike (hc : Wired hw chip) {addr : UInt8} {data : Slice UInt8}
    (ha : Alike chip (.write addr data :: ts) o h) :
    Both (Same (Alike chip ts)) ((Transaction.write addr data).simulated o)
      ((Transaction.write addr data).master hw h) := by
  obtain ⟨haddr, ⟨bs, rfl, hbs⟩, haimed⟩ := ha.plain _ (List.mem_cons_self ..)
  have hexec : ∀ {st s'}, simWrite (some (wires chip h).slave.chip) addr (.mem bs) =
      .ok (st, some s') → (Transaction.write addr (.mem bs)).exec
        (some (wires chip h).slave.chip) = .ok (st, .mem [], some s') := by
    intro st s' hsim
    rw [Transaction.exec, hsim]
    rfl
  have hmaster : ∀ {st h'}, stellarisWrite hw h addr (.mem bs) = .ok (st, h') →
      (Transaction.write addr (.mem bs)).master hw h = .ok ((st, .mem []), h') := by
    intro st h' hcall
    rw [Transaction.master, hcall]
    rfl
  by_cases hown : addr = simAddr
  · subst hown
    obtain ⟨h', hcall, hchip⟩ := stellarisWrite_wired hc h hbs
    have hp : ∀ b ∈ (Slice.mem bs).cells.head?, b.toNat < i2cSimNregs := haimed
    exact ha.step (hexec (simWrite_ok (by simp [Readable]) hp)) (hmaster hcall) hchip
  · obtain ⟨h', hcall, hchip⟩ := stellarisWrite_elsewhere hc h haddr hown hbs
    exact ha.step (hexec (if_pos hown)) (hmaster hcall) hchip

theorem writeRead_alike (hc : Wired hw chip) {addr : UInt8} {wdata rdata : Slice UInt8}
    (ha : Alike chip (.writeRead addr wdata rdata :: ts) o h) :
    Both (Same (Alike chip ts)) ((Transaction.writeRead addr wdata rdata).simulated o)
      ((Transaction.writeRead addr wdata rdata).master hw h) := by
  obtain ⟨haddr, ⟨⟨bs, rfl, hbs⟩, cs, rfl, hcs⟩, haimed⟩ := ha.plain _ (List.mem_cons_self ..)
  have hmaster : ∀ {st r h'}, stellarisWriteRead hw h addr (.mem bs) (.mem cs) = .ok (st, r, h') →
      (Transaction.writeRead addr (.mem bs) (.mem cs)).master hw h = .ok ((st, r), h') := by
    intro st r h' hcall
    rw [Transaction.master, hcall]
    rfl
  by_cases hown : addr = simAddr
  · subst hown
    have hacc : (Transaction.writeRead simAddr (.mem bs) (.mem cs)).Accepted :=
      ⟨rfl, by simp [Readable, Transaction.wdata], by simp [Readable, Transaction.rdata]⟩
    have hp := (aimed_iff hacc).mp haimed
    have hfore := ha.foreseen.1 hacc
    rw [← written_ptr] at hfore
    obtain ⟨h', hcall, hchip⟩ := stellarisWriteRead_wired hc h hbs hcs rfl
      (inside_written ha.inside hp) hfore
    have hsim := @simWriteRead_ok _ ha.inside (.mem bs) (.mem cs) hacc.2.1 hacc.2.2 hp
    simp only [Slice.size_mem, Slice.cells_mem, put_serve] at hsim
    exact ha.step hsim (hmaster hcall) hchip
  · obtain ⟨h', hcall, hchip⟩ := stellarisWriteRead_elsewhere hc h haddr hown hbs hcs
    exact ha.step (if_pos hown) (hmaster hcall) hchip

end

/-- One transaction. -/
theorem exec_alike {hw : Hardware} {chip : I2cSim} (hc : Wired hw chip) (t : Transaction)
    (ts : List Transaction) (o : Option I2cSim) (h : List Access) (ha : Alike chip (t :: ts) o h) :
    Both (Same (Alike chip ts)) (t.simulated o) (t.master hw h) := by
  cases t with
  | write addr data => exact write_alike hc ha
  | writeRead addr wdata rdata => exact writeRead_alike hc ha

/-- **The simulator is the chip on the wires.**  Full transactions for 7-bit addresses, aimed and
with their reads foreseen, return the same statuses and the same bytes from the simulator and from
the I2C0 master with that chip on its wires, and leave the two chips the same. -/
theorem wired_runs_agree {hw : Hardware} {chip : I2cSim} (hc : Wired hw chip) {h : List Access}
    (hin : (wires chip h).slave.chip.Inside) {ts : List Transaction}
    (hts : ∀ t ∈ ts, t.addr.toNat < 128 ∧ t.Full ∧ t.Aimed)
    (hf : AllForeseen (wires chip h).slave.chip ts) :
    ∃ answers s' h', run Transaction.simulated (some (wires chip h).slave.chip) ts =
        .ok (answers, some s') ∧
      run (fun h t => t.master hw h) h ts = .ok (answers, h') ∧ (wires chip h').slave.chip = s' := by
  obtain ⟨p, q, hp, hq, hpq, halike⟩ := run_lockstep (R := Alike chip) (fun t ts o h ha =>
    exec_alike hc t ts o h ha) ts ⟨rfl, hin, hts, hf⟩
  refine ⟨p.1, _, q.2, ?_, ?_, rfl⟩
  · rw [hp, ← halike.same]
  · rw [hq, hpq]

/-- The word a load gives with `chip` alone on the wires. -/
def wiredWord (chip : I2cSim) (h : List Access) : Reg → UInt32
  | .mdr => (wires chip h).mdr.toUInt32
  | r => slaveWord h r

theorem wiredWord_idle (chip : I2cSim) (h : List Access) :
    ∃ k ≤ 0, wiredWord chip (polled (wiredWord chip) k h) .mcs &&& mcsBusy = 0 := by
  obtain ⟨k, hk, hidle⟩ := slaveWord_idle h
  obtain rfl := Nat.le_zero.mp hk
  exact ⟨0, hk, hidle⟩

/-- A peripheral with `chip` alone on its wires. -/
def chipOnly (chip : I2cSim) : Hardware where
  word := wiredWord chip
  patience _ := 0
  clears := wiredWord_idle chip

theorem wired_chipOnly (chip : I2cSim) : Wired (chipOnly chip) chip where
  noLoss := oneSlave_adxlOnly.noLoss
  acked := oneSlave_adxlOnly.acked
  refused := oneSlave_adxlOnly.refused
  served := fun h _ _ _ _ _ _ => low_byte (wires chip h).mdr

/-- Measure is set, the six data registers are read, and another slave is asked. -/
theorem wired_runs_agree_burst :
    ∃ answers s' h', run Transaction.simulated (some simPowerOn)
        (readBurst ++ [.write 0x1D (.mem [0x2D, 0x00])]) = .ok (answers, some s') ∧
      run (fun h t => t.master (chipOnly simPowerOn) h) []
        (readBurst ++ [.write 0x1D (.mem [0x2D, 0x00])]) = .ok (answers, h') ∧
      (wires simPowerOn h').slave.chip = s' := by
  have hburst : Foreseen 0x32 6 := Or.inl ⟨by decide, Or.inl (by decide)⟩
  refine wired_runs_agree (wired_chipOnly simPowerOn) (h := []) inside_powerOn ?_ ?_
  · refine List.forall_mem_cons.mpr ⟨⟨by decide, ⟨_, rfl, by decide⟩, aimed_of_first rfl (by decide)⟩,
      List.forall_mem_cons.mpr ⟨⟨by decide, ⟨⟨_, rfl, by decide⟩, _, rfl, by decide⟩,
        aimed_of_first rfl (by decide)⟩, List.forall_mem_singleton.mpr
        ⟨by decide, ⟨_, rfl, by decide⟩, aimed_of_first rfl (by decide)⟩⟩⟩
  · refine ⟨fun _ _ => Or.inl ⟨by decide, Or.inl (by decide)⟩, fun s _ => ⟨fun _ _ => hburst, ?_⟩⟩
    exact fun s _ => ⟨fun ha => absurd ha.1 (by decide), fun _ _ => trivial⟩

end Sharak
