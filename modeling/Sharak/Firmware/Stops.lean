import Mathlib.Data.List.Infix
import Sharak.Firmware.Stellaris

/-!
# Firmware — STOP conditions on the bus

The error path of the I2C0 master releases the bus whatever went wrong: `stops_of_transfer` counts
what that comes to.  A transfer carries one STOP, its last command's or the release, unless it is
the last command that fails, which then has both (`stops_last_byte`); and a release follows a lost
arbitration too.
-/

namespace Sharak
open Memory Attempts

/-- The words stored to I2CMCS. -/
def commands (log : List Access) : List UInt32 :=
  log.filterMap fun
    | .wrote .mcs v => some v
    | _ => none

/-- How many commands carry STOP. -/
def stops (log : List Access) : Nat := (commands log).countP fun v => v &&& mcsStop ≠ 0

theorem commands_append (a b : List Access) : commands (a ++ b) = commands a ++ commands b :=
  List.filterMap_append

theorem commands_polls (vs : List UInt32) : commands (polls vs) = [] := by
  rw [commands, polls, List.filterMap_map, List.filterMap_eq_nil_iff]
  intro v _
  rfl

theorem commands_turn (t : Turn) : commands t.log = [t.1.mcs] := by
  have hfront : commands (t.1.byte.toList.map fun b => .wrote .mdr b.toUInt32) = [] := by
    cases t.1.byte <;> rfl
  have hback : commands (t.2.taken.toList.map (.read .mdr)) = [] := by
    cases t.2.taken <;> rfl
  have hcmd : ∀ log, commands (.wrote .mcs t.1.mcs :: log) = t.1.mcs :: commands log := by
    intro log
    rfl
  rw [Turn.log, commands_append, commands_append, hfront, hcmd, commands_polls, hback]
  rfl

theorem commands_logs (ts : List Turn) : commands (logs ts) = ts.map fun t => t.1.mcs := by
  induction ts with
  | nil => rfl
  | cons t ts ih => rw [logs_cons, commands_append, commands_turn, ih]; rfl

theorem commands_transcript (addr : UInt8) (ts us : List Turn) :
    commands (transcript addr ts us) = (ts ++ us).map fun t => t.1.mcs := by
  have hphase : ∀ receive ts, commands (phase addr receive ts) = commands (logs ts) := by
    intro receive ts
    rfl
  rw [transcript, commands_append, hphase, commands_logs, List.map_append]
  by_cases hus : us = []
  · rw [if_pos hus, hus]
    rfl
  · rw [if_neg hus, hphase, commands_logs]

/-- Exactly the last command of the plan carries STOP. -/
def LastStop (plan : List Command) : Prop :=
  plan ≠ [] ∧ ∀ i c, plan[i]? = some c → (c.stop = true ↔ i + 1 = plan.length)

/-- The first commands of a plan have its STOP only if they are all of it. -/
theorem countP_stop {plan cs : List Command} (hp : LastStop plan) (hcs : cs <+: plan) :
    cs.countP (fun c => c.stop) = if cs.length = plan.length then 1 else 0 := by
  obtain ⟨rest, rfl⟩ := hcs
  have hpos : 0 < (cs ++ rest).length := List.length_pos_iff.mpr hp.1
  have hfront : ∀ i c, i + 1 < (cs ++ rest).length → (cs ++ rest)[i]? = some c →
      c.stop = false := by
    intro i c hi hc
    have hiff := hp.2 i c hc
    rw [← Bool.not_eq_true, hiff]
    omega
  by_cases hall : rest = []
  -- all of the plan: the last command has STOP and those in front of it have not
  · subst hall
    rw [List.append_nil] at hp hpos hfront ⊢
    rw [if_pos rfl]
    have hlast : cs.getLast hp.1 = cs[cs.length - 1] := List.getLast_eq_getElem _
    have hone : (cs.getLast hp.1).stop = true := by
      refine (hp.2 (cs.length - 1) _ ?_).mpr (by omega)
      rw [hlast, List.getElem?_eq_getElem]
    have hnone : cs.dropLast.countP (fun c => c.stop) = 0 := by
      rw [List.countP_eq_zero]
      intro c hc
      obtain ⟨i, hi, rfl⟩ := List.mem_iff_getElem.mp hc
      rw [List.length_dropLast] at hi
      rw [List.getElem_dropLast]
      simpa using hfront i _ (by omega) (List.getElem?_eq_getElem (by omega))
    rw [← List.dropLast_append_getLast hp.1, List.countP_append, hnone, List.countP_singleton, hone]
    rfl
  -- less than that: the last command is in `rest`
  · have hrest := List.length_pos_iff.mpr hall
    rw [List.length_append] at hfront ⊢
    rw [if_neg (by omega), List.countP_eq_zero]
    intro c hc
    obtain ⟨i, hi, rfl⟩ := List.mem_iff_getElem.mp hc
    have hget : (cs ++ rest)[i]? = some cs[i] := by
      rw [List.getElem?_append_left hi, List.getElem?_eq_getElem hi]
    simpa using hfront i _ (by omega) hget

theorem stops_transcript (addr : UInt8) (ts us : List Turn) (st : Int) :
    stops (transcript addr ts us ++ release st) =
      ((ts ++ us).map Prod.fst).countP (fun c => c.stop) + if st = i2cOk then 0 else 1 := by
  have hrelease : (commands (release st)).countP (fun v => v &&& mcsStop ≠ 0) =
      if st = i2cOk then 0 else 1 := by
    unfold release
    by_cases hst : st = i2cOk
    · rw [if_pos hst, if_pos hst]
      rfl
    · rw [if_neg hst, if_neg hst]
      rfl
  rw [stops, commands_append, List.countP_append, hrelease, commands_transcript, List.countP_map,
    List.countP_map]
  congr 1
  apply List.countP_congr
  intro t _
  simpa using (mcs_bits t.1).2.2

/-- One STOP, and a second if the last command fails. -/
theorem Transfer.stops {hw : Hardware} {h : List Access} {addr : UInt8}
    {plan plan' : List Command} {ts us : List Turn} {st : Int}
    (ht : Transfer hw h addr plan plan' ts us st) (hp : LastStop (plan ++ plan')) :
    stops (transcript addr ts us ++ release st) =
      if st ≠ i2cOk ∧ (ts ++ us).length = (plan ++ plan').length then 2 else 1 := by
  rw [stops_transcript, countP_stop hp ht.conducted.commands, List.length_map]
  by_cases hgood : ∀ t ∈ ts ++ us, t.2.Good
  · obtain ⟨hall, hst⟩ := ht.conducted.ok hgood
    have hlen := congrArg List.length hall
    rw [List.length_map] at hlen
    rw [if_pos hlen, if_pos hst, if_neg fun h => h.1 hst]
  -- the release adds one STOP to what the turns have
  · simp only [not_forall] at hgood
    obtain ⟨t, htm, hbad⟩ := hgood
    have hst : st ≠ i2cOk := by
      rw [(ht.conducted.bad t htm hbad).2]
      split <;> decide
    rw [if_neg hst]
    by_cases hlen : (ts ++ us).length = (plan ++ plan').length
    · rw [if_pos hlen, if_pos ⟨hst, hlen⟩]
    · rw [if_neg hlen, if_neg fun h => hlen h.2]

theorem lastStop_writeCommands {data : List UInt8} (hd : data ≠ []) :
    LastStop (writeCommands data ++ []) := by
  rw [List.append_nil]
  refine ⟨?_, ?_⟩
  · rwa [← List.length_pos_iff, length_writeCommands, List.length_pos_iff]
  · intro i c hc
    have hi := (List.getElem?_eq_some_iff.mp hc).1
    rw [length_writeCommands] at hi ⊢
    rw [writeCommands, List.getElem?_mapIdx, List.getElem?_eq_getElem hi] at hc
    cases hc
    exact decide_eq_true_iff

theorem lastStop_readCommands (wdata : List UInt8) {n : Nat} (hn : 0 < n) :
    LastStop (pointerCommands wdata ++ readCommands n) := by
  have hlen : (pointerCommands wdata ++ readCommands n).length = wdata.length + n := by simp
  refine ⟨?_, ?_⟩
  · rw [← List.length_pos_iff]
    omega
  · intro i c hc
    rw [hlen]
    by_cases hi : i < wdata.length
    · rw [List.getElem?_append_left (by simpa using hi), pointerCommands, List.getElem?_mapIdx,
        List.getElem?_eq_getElem hi] at hc
      cases hc
      constructor
      · intro hstop
        cases hstop
      · intro heq
        omega
    · have hlt := (List.getElem?_eq_some_iff.mp hc).1
      rw [List.getElem?_append_right (by simp; omega), length_pointerCommands, readCommands,
        List.getElem?_map, List.getElem?_range (by omega)] at hc
      cases hc
      rw [decide_eq_true_iff]
      omega

/-- A bad status, arbitration loss or not, ends the turns and is followed by the release. -/
theorem Transfer.released {hw : Hardware} {h : List Access} {addr : UInt8}
    {plan plan' : List Command} {ts us : List Turn} {st : Int}
    (ht : Transfer hw h addr plan plan' ts us st) {t : Turn} (htm : t ∈ ts ++ us)
    (hbad : ¬ t.2.Good) : (ts ++ us).getLast? = some t ∧ release st = [.wrote .mcs mcsStop] := by
  obtain ⟨hlast, hst⟩ := ht.conducted.bad t htm hbad
  refine ⟨hlast, release_bad ?_⟩
  rw [hst]
  split <;> decide

/-- **STOP conditions of a transfer.**  A call with valid arguments issues one STOP, or two if the
status behind the last command is bad; and the turn with a bad status, be it an arbitration loss, is
the last, and exactly one more command follows it, a bare STOP. -/
theorem stops_of_transfer (hw : Hardware) (h : List Access) (addr : UInt8) :
    (∀ data : List UInt8, data ≠ [] →
      ∃ ts st, Transfer hw h addr (writeCommands data) [] ts [] st ∧
        stellarisWrite hw h addr (.mem data) =
          .ok (st, h ++ (transcript addr ts [] ++ release st)) ∧
        stops (transcript addr ts [] ++ release st) =
          (if st ≠ i2cOk ∧ ts.length = data.length then 2 else 1) ∧
        ∀ t ∈ ts, ¬ t.2.Good →
          ts.getLast? = some t ∧ release st = [.wrote .mcs mcsStop]) ∧
    ∀ wdata rdata : List UInt8, wdata ≠ [] → rdata ≠ [] →
      ∃ ts us st r,
        Transfer hw h addr (pointerCommands wdata) (readCommands rdata.length) ts us st ∧
        stellarisWriteRead hw h addr (.mem wdata) (.mem rdata) =
          .ok (st, r, h ++ (transcript addr ts us ++ release st)) ∧
        stops (transcript addr ts us ++ release st) =
          (if st ≠ i2cOk ∧ (ts ++ us).length = wdata.length + rdata.length then 2 else 1) ∧
        ∀ t ∈ ts ++ us, ¬ t.2.Good →
          (ts ++ us).getLast? = some t ∧ release st = [.wrote .mcs mcsStop] := by
  constructor
  · intro data hd
    obtain ⟨ts, st, ht, hcall⟩ := stellarisWrite_transfer hw h addr hd
    have hstops := ht.stops (lastStop_writeCommands hd)
    rw [List.append_nil, List.append_nil, length_writeCommands] at hstops
    rw [List.append_assoc] at hcall
    refine ⟨ts, st, ht, hcall, hstops, ?_⟩
    intro t htm hbad
    have hlast := ht.released (List.mem_append_left [] htm) hbad
    rwa [List.append_nil] at hlast
  · intro wdata rdata hwd hrd
    obtain ⟨ts, us, st, ht, hcall, -⟩ := stellarisWriteRead_transfer hw h addr hwd hrd
    have hstops := ht.stops (lastStop_readCommands wdata (List.length_pos_iff.mpr hrd))
    have hlen : (pointerCommands wdata ++ readCommands rdata.length).length =
        wdata.length + rdata.length := by simp
    rw [hlen] at hstops
    rw [List.append_assoc] at hcall
    exact ⟨ts, us, st, _, ht, hcall, hstops, fun t htm hbad => ht.released htm hbad⟩

/-- A read of two bytes: with every status good it has one STOP, its last command's; with a status
that is not, the turn that got it is the last, and the STOP of the release follows. -/
theorem stops_of_transfer_read :
    (∃ r log, stellarisWriteRead (constantly 0xE0 (by decide)) [] 0x53 (.mem [0x32]) (.mem [0, 0]) =
      .ok (i2cOk, r, log) ∧ stops log = 1) ∧
    ∃ ts us t r, t ∈ ts ++ us ∧ ¬ t.2.Good ∧ (ts ++ us).getLast? = some t ∧
      stellarisWriteRead (constantly (mcsError ||| mcsDatack) (by decide)) [] 0x53 (.mem [0x32])
        (.mem [0, 0]) = .ok (i2cErrNack, r, transcript 0x53 ts us ++ [.wrote .mcs mcsStop]) := by
  constructor
  · obtain ⟨ts, us, st, r, -, hcall, hstops, -⟩ :=
      (stops_of_transfer (constantly 0xE0 (by decide)) [] 0x53).2 [0x32] [0, 0] (by decide)
        (by decide)
    obtain rfl : st = i2cOk := (congrArg Prod.fst (Except.ok.inj hcall)).symm
    rw [if_neg fun h => h.1 rfl] at hstops
    exact ⟨r, _, hcall, hstops⟩
  · obtain ⟨ts, us, st, r, ht, hcall, -, hbad⟩ :=
      (stops_of_transfer (constantly (mcsError ||| mcsDatack) (by decide)) [] 0x53).2 [0x32] [0, 0]
        (by decide) (by decide)
    obtain rfl : st = i2cErrNack := (congrArg Prod.fst (Except.ok.inj hcall)).symm
    obtain ⟨t, htm, hnot⟩ : ∃ t ∈ ts ++ us, ¬ t.2.Good := by
      by_contra hgood
      push Not at hgood
      exact absurd (ht.conducted.ok hgood).2 (by decide)
    obtain ⟨hlast, hrelease⟩ := hbad t htm hnot
    rw [hrelease] at hcall
    exact ⟨ts, us, t, r, htm, hnot, hlast, hcall⟩

/-- A write of one byte that is not acknowledged has two STOPs, with no arbitration lost; and one
that loses arbitration has its STOP behind the loss. -/
theorem stops_last_byte :
    (∃ log, stellarisWrite (constantly (mcsError ||| mcsDatack) (by decide)) [] 0x53 (.mem [0x2D]) =
        .ok (i2cErrNack, log) ∧
      stops log = 2 ∧ ∀ v, Access.read .mcs v ∈ log → v &&& mcsArblst = 0) ∧
    ∃ log, stellarisWrite (constantly mcsArblst (by decide)) [] 0x53 (.mem [0x2D, 0x08]) =
      .ok (i2cErrBus, log ++ [.read .mcs mcsArblst] ++ [.wrote .mcs mcsStop]) := by
  refine ⟨⟨[.wrote .msa 0xA6, .wrote .mdr 0x2D, .wrote .mcs (mcsRun ||| mcsStart ||| mcsStop),
    .read .mcs (mcsError ||| mcsDatack), .read .mcs (mcsError ||| mcsDatack),
    .wrote .mcs mcsStop], rfl, by decide, ?_⟩,
    ⟨[.wrote .msa 0xA6, .wrote .mdr 0x2D, .wrote .mcs (mcsRun ||| mcsStart),
      .read .mcs mcsArblst], rfl⟩⟩
  intro v hv
  simp at hv
  rw [hv]
  decide

end Sharak
