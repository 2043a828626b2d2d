import Sharak.Firmware.Definitions
import Sharak.Protocol.Codec
import Sharak.Support.Ring

/-!
# Firmware — the simulated chip

With the register pointer inside the register file, the loops of the simulator store what they are
given and serve what the registers hold, from the pointer on (`simWriteLoop_mem`,
`simReadLoop_mem`), and leave the pointer inside.  Behind a write phase each register holds the last
byte that landed on it, if one did (`reg_written`).
-/

namespace Sharak
open Memory

/-! ### The register pointer -/

/-- The register pointer is inside the register file. -/
def I2cSim.Inside (s : I2cSim) : Prop := s.ptr.toNat < i2cSimNregs

/-- The registers are a ring. -/
theorem toNat_simNextPtr (ptr : UInt8) :
    (simNextPtr ptr).toNat = Ring.next i2cSimNregs ptr.toNat := by
  have hptr : ptr.toNat < 256 := ptr.toNat_lt
  have hadd : (ptr + 1).toNat = (ptr.toNat + 1) % 256 := UInt8.toNat_add ptr 1
  have hnregs : i2cSimNregs = 58 := rfl
  by_cases h : (ptr + 1).toNat ≥ i2cSimNregs
  · have hwrap : simNextPtr ptr = 0 := if_pos h
    have hring : Ring.next i2cSimNregs ptr.toNat = 0 := if_pos (by omega)
    rw [hwrap, hring]
    rfl
  · have hnext : simNextPtr ptr = ptr + 1 := if_neg h
    rw [hnext, hadd]
    by_cases hlast : ptr.toNat + 1 ≥ i2cSimNregs
    -- from `FF` the byte itself wraps
    · have hring : Ring.next i2cSimNregs ptr.toNat = 0 := if_pos hlast
      rw [hring]
      omega
    · have hring : Ring.next i2cSimNregs ptr.toNat = ptr.toNat + 1 := if_neg hlast
      rw [hring]
      omega

theorem simNextPtr_lt (ptr : UInt8) : (simNextPtr ptr).toNat < i2cSimNregs := by
  rw [toNat_simNextPtr]
  exact Ring.next_lt (by decide) ptr.toNat

theorem toNat_simNextPtrs (ptr : UInt8) (k : Nat) :
    (simNextPtr^[k] ptr).toNat = (Ring.next i2cSimNregs)^[k] ptr.toNat :=
  (show Function.Semiconj UInt8.toNat simNextPtr (Ring.next i2cSimNregs) from
    toNat_simNextPtr).iterate_right k ptr

/-- The value of a register. -/
def I2cSim.reg (s : I2cSim) (i : Nat) : UInt8 := s.regs[i]?.getD 0

theorem load_reg (s : I2cSim) {i : Nat} (h : i < i2cSimNregs) : load s.regs i = .ok (s.reg i) := by
  rw [load_ok h, I2cSim.reg, Vector.getElem?_eq_getElem h, Option.getD_some]

/-- The next stored byte: into the register at the pointer, and the pointer on. -/
def I2cSim.put (s : I2cSim) (b : UInt8) : I2cSim :=
  { s with regs := s.regs.setIfInBounds s.ptr.toNat b, ptr := simNextPtr s.ptr }

/-- The pointer moved on by one. -/
def I2cSim.next (s : I2cSim) : I2cSim := { s with ptr := simNextPtr s.ptr }

/-- The bytes the next `k` reads serve. -/
def I2cSim.serve (s : I2cSim) : Nat → List UInt8
  | 0 => []
  | k + 1 => s.reg s.ptr.toNat :: s.next.serve k

theorem length_serve (s : I2cSim) (k : Nat) : (s.serve k).length = k := by
  induction k generalizing s with
  | zero => rfl
  | succ k ih => rw [I2cSim.serve, List.length_cons, ih]

theorem serve_getElem? (s : I2cSim) {n k : Nat} (h : k < n) :
    (s.serve n)[k]? = some (s.reg (simNextPtr^[k] s.ptr).toNat) := by
  induction n generalizing s k with
  | zero => omega
  | succ n ih =>
      cases k with
      | zero => rfl
      | succ k =>
          rw [I2cSim.serve, List.getElem?_cons_succ, ih s.next (by omega),
            Function.iterate_succ_apply]
          rfl

/-- The pointer does not wrap in front of the last register. -/
theorem toNat_nextPtrs {ptr : UInt8} {k : Nat} (h : ptr.toNat + k < i2cSimNregs) :
    (simNextPtr^[k] ptr).toNat = ptr.toNat + k := by
  rw [toNat_simNextPtrs, Ring.iterate_next_of_lt h]

/-- Registers that hold `bs` from the pointer on serve `bs`. -/
theorem serve_eq {s : I2cSim} {bs : List UInt8} (hn : s.ptr.toNat + bs.length ≤ i2cSimNregs)
    (h : ∀ k (hk : k < bs.length), s.reg (s.ptr.toNat + k) = bs[k]) : s.serve bs.length = bs := by
  refine List.ext_getElem (length_serve s _) fun k h₁ h₂ => ?_
  have hk := serve_getElem? s h₂
  rw [toNat_nextPtrs (by omega), h k h₂, List.getElem?_eq_getElem h₁] at hk
  exact Option.some.inj hk

theorem inside_next (s : I2cSim) : s.next.Inside := simNextPtr_lt s.ptr

theorem inside_put (s : I2cSim) (b : UInt8) : (s.put b).Inside := simNextPtr_lt s.ptr

theorem inside_powerOn : simPowerOn.Inside := show (0 : UInt8).toNat < i2cSimNregs by decide

theorem inside_stored {s : I2cSim} (h : s.Inside) (bs : List UInt8) :
    (bs.foldl I2cSim.put s).Inside := by
  induction bs generalizing s with
  | nil => exact h
  | cons b bs ih => exact ih (inside_put s b)

theorem stored_phase (s : I2cSim) (bs : List UInt8) :
    (bs.foldl I2cSim.put s).phase = s.phase := by
  induction bs generalizing s with
  | nil => rfl
  | cons b bs ih => exact ih (s.put b)

theorem stored_ptr (s : I2cSim) (bs : List UInt8) :
    (bs.foldl I2cSim.put s).ptr = simNextPtr^[bs.length] s.ptr := by
  induction bs generalizing s with
  | nil => rfl
  | cons b bs ih => exact ih (s.put b)

theorem inside_nexts {s : I2cSim} (h : s.Inside) (k : Nat) : (I2cSim.next^[k] s).Inside := by
  induction k generalizing s with
  | zero => exact h
  | succ k ih => exact ih (inside_next s)

theorem nexts_regs (s : I2cSim) (k : Nat) : (I2cSim.next^[k] s).regs = s.regs := by
  induction k generalizing s with
  | zero => rfl
  | succ k ih => exact ih s.next

theorem nexts_phase (s : I2cSim) (k : Nat) : (I2cSim.next^[k] s).phase = s.phase := by
  induction k generalizing s with
  | zero => rfl
  | succ k ih => exact ih s.next

/-- The bytes `ds[i] …` stored from the pointer on. -/
theorem simWriteLoop_mem {ds : List UInt8} :
    ∀ {todo i : Nat} {s : I2cSim}, i + todo = ds.length → s.Inside →
      simWriteLoop (.mem ds) todo i s = .ok ((ds.drop i).foldl I2cSim.put s)
  | 0, i, s, hi, _ => by
      rw [List.drop_of_length_le (by omega)]
      rfl
  | todo + 1, i, s, hi, hs => by
      have hlt : i < ds.length := by omega
      rw [simWriteLoop, Slice.read_mem hlt, ok_bind, store_inBounds hs, ok_bind,
        List.drop_eq_getElem_cons hlt, List.foldl_cons]
      exact simWriteLoop_mem (by omega) (inside_put s _)

/-- A byte to store with the pointer outside is stored outside. -/
theorem simWriteLoop_fault {ds : List UInt8} {todo i : Nat} {s : I2cSim}
    (hi : i + (todo + 1) = ds.length) (hs : ¬ s.Inside) :
    simWriteLoop (.mem ds) (todo + 1) i s = .error ⟨s.ptr.toNat, i2cSimNregs⟩ := by
  rw [simWriteLoop, Slice.read_mem (by omega), ok_bind, store_fault hs, error_bind]

/-- The registers from the pointer on, served behind the bytes `xs`. -/
theorem simReadLoop_mem {cs : List UInt8} :
    ∀ {todo : Nat} {xs : List UInt8} {s : I2cSim}, xs.length + todo ≤ cs.length → s.Inside →
      simReadLoop todo xs.length (.mem (overlay xs cs)) s =
        .ok (.mem (overlay (xs ++ s.serve todo) cs), I2cSim.next^[todo] s)
  | 0, xs, s, _, _ => by
      rw [I2cSim.serve, List.append_nil]
      rfl
  | todo + 1, xs, s, hl, hs => by
      have ih := @simReadLoop_mem cs todo (xs ++ [s.reg s.ptr.toNat]) s.next
        (by rw [List.length_append, List.length_singleton]; omega) (inside_next s)
      rw [List.length_append, List.length_singleton, List.append_assoc, List.singleton_append] at ih
      rw [simReadLoop, load_reg s hs, ok_bind, Slice.write_overlay _ (by omega), ok_bind,
        I2cSim.serve, Function.iterate_succ_apply]
      exact ih

/-! ### Snapshots -/

/-- The triangle wave, continued. -/
def wobbleAt (m : Nat) : Int16 := wobble.get ⟨m % 16, Nat.mod_lt _ (by decide)⟩

/-- The six data bytes of sample `m`. -/
def sampleBytes (m : Nat) : List UInt8 :=
  le16Bytes (wobbleAt m).toUInt16 ++ le16Bytes (wobbleAt (m + 4)).toUInt16 ++
    le16Bytes (256 : Int16).toUInt16

@[simp] theorem length_sampleBytes (m : Nat) : (sampleBytes m).length = 6 := rfl

/-- The wobble does not see the phase wrap. -/
theorem wobbleAt_wrap (m j : Nat) :
    wobbleAt ((UInt32.ofNat m).toNat + j) = wobbleAt (m + j) := by
  have h : ((UInt32.ofNat m).toNat + j) % 16 = (m + j) % 16 := by
    rw [UInt32.toNat_ofNat']
    omega
  simp only [wobbleAt, h]

theorem sampleBytes_wrap (m : Nat) : sampleBytes (UInt32.ofNat m).toNat = sampleBytes m := by
  have h₀ : wobbleAt (UInt32.ofNat m).toNat = wobbleAt m := wobbleAt_wrap m 0
  rw [sampleBytes, h₀, wobbleAt_wrap, sampleBytes]

/-- Register `i` is one of the six data registers. -/
def IsData (i : Nat) : Prop := simRegDatax0 ≤ i ∧ i ≤ simRegDataz1

instance (i : Nat) : Decidable (IsData i) := inferInstanceAs (Decidable (_ ∧ _))

/-- The chip with a fresh sample in its data registers. -/
def I2cSim.refreshed (s : I2cSim) : I2cSim :=
  { s with regs := fill s.regs simRegDatax0 (sampleBytes s.phase.toNat), phase := s.phase + 1 }

theorem refreshed_ptr (s : I2cSim) : s.refreshed.ptr = s.ptr := by rw [I2cSim.refreshed]

theorem refreshed_phase (s : I2cSim) : s.refreshed.phase = s.phase + 1 := by
  rw [I2cSim.refreshed]

theorem refreshed_data (s : I2cSim) {k : Nat} (hk : k < (sampleBytes s.phase.toNat).length) :
    s.refreshed.reg (simRegDatax0 + k) = (sampleBytes s.phase.toNat)[k] := by
  have h : (fill s.regs simRegDatax0 (sampleBytes s.phase.toNat))[simRegDatax0 + k]? =
      some (sampleBytes s.phase.toNat)[k] :=
    fill_inside hk (by simp [simRegDatax0, i2cSimNregs])
  rw [I2cSim.reg, I2cSim.refreshed, h, Option.getD_some]

theorem refreshed_byte (s : I2cSim) {j : Nat} (hj : j < 6) :
    s.refreshed.reg (simRegDatax0 + j) = (sampleBytes s.phase.toNat).getD j 0 := by
  have hlen : j < (sampleBytes s.phase.toNat).length := hj
  rw [refreshed_data s hlen, List.getD_eq_getElem?_getD, List.getElem?_eq_getElem hlen,
    Option.getD_some]

/-- A sample changes only the data registers. -/
theorem refreshed_other (s : I2cSim) {i : Nat} (hi : ¬ IsData i) :
    s.refreshed.reg i = s.reg i := by
  have h : (fill s.regs simRegDatax0 (sampleBytes s.phase.toNat))[i]? = s.regs[i]? := by
    rcases Nat.lt_or_ge i simRegDatax0 with hlow | hge
    · exact fill_below hlow
    · exact fill_above (Nat.not_le.mp fun hle => hi ⟨hge, hle⟩)
  rw [I2cSim.reg, I2cSim.refreshed, h, I2cSim.reg]

theorem load_wobble (m : UInt32) (k : Nat) (hk : (UInt32.ofNat k).toNat = k) :
    load wobble ((m + UInt32.ofNat k) &&& 15).toNat = .ok (wobbleAt (m.toNat + k)) := by
  have h : ((m + UInt32.ofNat k) &&& 15).toNat = (m.toNat + k) % 16 := by
    rw [UInt32.toNat_and, UInt32.toNat_add, hk]
    exact (Nat.and_two_pow_sub_one_eq_mod _ 4).trans (by omega)
  rw [h, load_ok (Nat.mod_lt _ (by decide))]
  rfl

theorem store_data (v : Vector UInt8 i2cSimNregs) {k : Nat} (hk : k < 6) (b : UInt8) :
    store v (simRegDatax0 + k) b = .ok (v.setIfInBounds (simRegDatax0 + k) b) :=
  store_inBounds (by simp only [simRegDatax0, i2cSimNregs]; omega)

theorem simRefreshSample_eq (s : I2cSim) : simRefreshSample s = .ok s.refreshed := by
  have hx : load wobble (s.phase &&& 15).toNat = .ok (wobbleAt s.phase.toNat) := by
    simpa using load_wobble s.phase 0 rfl
  have hy : load wobble ((s.phase + 4) &&& 15).toNat = .ok (wobbleAt (s.phase.toNat + 4)) :=
    load_wobble s.phase 4 rfl
  rw [simRefreshSample, hx, ok_bind, hy, ok_bind]
  simp (disch := decide) only [store_data, ok_bind, pure_ok]
  rfl

/-! ### Transactions -/

/-- The bytes of a write phase: the first sets the pointer, the others are stored. -/
def I2cSim.written (s : I2cSim) : List UInt8 → I2cSim
  | [] => s
  | b :: bs => bs.foldl I2cSim.put { s with ptr := b }

@[simp] theorem written_phase (s : I2cSim) (bs : List UInt8) : (s.written bs).phase = s.phase := by
  cases bs with
  | nil => rfl
  | cons b bs => exact stored_phase { s with ptr := b } bs

/-- Measure is set in POWER_CTL. -/
def I2cSim.Measuring (s : I2cSim) : Prop := s.reg simRegPowerCtl &&& simPowerCtlMeasure ≠ 0

instance (s : I2cSim) : Decidable s.Measuring := inferInstanceAs (Decidable (_ ≠ _))

/-- The chip's test for a read of data, with the cast of the length and the addition wrapping. -/
theorem simTouchesData_eq (ptr : UInt8) (n : Nat) : simTouchesData ptr n = true ↔
    ptr.toNat ≤ simRegDataz1 ∧ simRegDatax0 < (ptr.toNat + n) % 2 ^ 32 := by
  have hadd : (ptr.toUInt32 + n.toUInt32).toNat = (ptr.toNat + n) % 2 ^ 32 := by
    rw [UInt32.toNat_add, UInt8.toNat_toUInt32, Nat.toUInt32, UInt32.toNat_ofNat',
      Nat.add_mod_mod]
  rw [simTouchesData, decide_eq_true_iff, hadd]

/-- The chip in front of a read of `k` bytes. -/
def I2cSim.snapshot (s : I2cSim) (k : Nat) : I2cSim :=
  if (k > 0 ∧ simTouchesData s.ptr k) ∧ s.Measuring then s.refreshed else s

theorem snapshot_ptr (s : I2cSim) (k : Nat) : (s.snapshot k).ptr = s.ptr := by
  by_cases h : (k > 0 ∧ simTouchesData s.ptr k = true) ∧ s.Measuring
  · rw [I2cSim.snapshot, if_pos h, I2cSim.refreshed]
  · rw [I2cSim.snapshot, if_neg h]

/-- A register that no sample reaches, or on a chip that takes none. -/
theorem reg_snapshot {s : I2cSim} {i : Nat}
    (h : ¬ IsData i ∨ ¬ s.Measuring) (k : Nat) :
    (s.snapshot k).reg i = s.reg i := by
  by_cases hc : (k > 0 ∧ simTouchesData s.ptr k = true) ∧ s.Measuring
  · rw [I2cSim.snapshot, if_pos hc]
    exact refreshed_other s (h.resolve_right (not_not.mpr hc.2))
  · rw [I2cSim.snapshot, if_neg hc]

theorem inside_written {s : I2cSim} (hs : s.Inside) {bs : List UInt8}
    (hb : ∀ b ∈ bs.head?, b.toNat < i2cSimNregs) : (s.written bs).Inside := by
  cases bs with
  | nil => exact hs
  | cons b bs => exact inside_stored (s := { s with ptr := b }) (hb b rfl) bs

/-! ### Where the bytes land -/

/-- The registers the bytes land on, from the pointer on. -/
def landings : UInt8 → List UInt8 → List (Nat × UInt8)
  | _, [] => []
  | ptr, b :: bs => (ptr.toNat, b) :: landings (simNextPtr ptr) bs

/-- The stores of a write phase. -/
def stores : List UInt8 → List (Nat × UInt8)
  | [] => []
  | b :: bs => landings b bs

/-- The byte that stays on register `i`: the last one to land there. -/
def lastAt (i : Nat) (ls : List (Nat × UInt8)) : Option UInt8 := ls.reverse.lookup i

theorem lastAt_append (i : Nat) (ls ms : List (Nat × UInt8)) :
    lastAt i (ls ++ ms) = (lastAt i ms).or (lastAt i ls) := by
  rw [lastAt, List.reverse_append, List.lookup_append, lastAt, lastAt]

theorem lastAt_cons (i : Nat) (l : Nat × UInt8) (ls : List (Nat × UInt8)) :
    lastAt i (l :: ls) = (lastAt i ls).or (if i = l.1 then some l.2 else none) := by
  obtain ⟨j, b⟩ := l
  have hone : lastAt i [(j, b)] = if i = j then some b else none := by
    rw [lastAt, List.reverse_singleton]
    by_cases h : i = j
    · rw [h, List.lookup_cons_self, if_pos rfl]
    · have hne : (i == j) = false := beq_eq_false_iff_ne.mpr h
      rw [List.lookup_cons, hne, List.lookup_nil, if_neg h]
  rw [← List.singleton_append, lastAt_append, hone]

theorem lastAt_eq_none {i : Nat} {ls : List (Nat × UInt8)} (h : ∀ l ∈ ls, l.1 ≠ i) :
    lastAt i ls = none := by
  rw [lastAt, List.lookup_eq_none_iff]
  intro l hl
  simpa using (h l (List.mem_reverse.mp hl)).symm

theorem reg_put {s : I2cSim} (h : s.Inside) (b : UInt8) (i : Nat) :
    (s.put b).reg i = if i = s.ptr.toNat then b else s.reg i := by
  rw [I2cSim.put, I2cSim.reg]
  by_cases hi : i = s.ptr.toNat
  · rw [if_pos hi, hi, Vector.getElem?_setIfInBounds_self_of_lt h, Option.getD_some]
  · rw [if_neg hi, Vector.getElem?_setIfInBounds_ne (Ne.symm hi), I2cSim.reg]

theorem reg_stored {s : I2cSim} (h : s.Inside) (bs : List UInt8) (i : Nat) :
    (bs.foldl I2cSim.put s).reg i = (lastAt i (landings s.ptr bs)).getD (s.reg i) := by
  induction bs generalizing s with
  | nil => rfl
  | cons b bs ih =>
      have hput : (s.put b).reg i = (if i = s.ptr.toNat then some b else none).getD (s.reg i) := by
        rw [reg_put h]
        by_cases hi : i = s.ptr.toNat <;> simp [hi]
      rw [List.foldl_cons, ih (inside_put s b), hput, landings, lastAt_cons, Option.getD_or]
      rfl

/-- A register after a write phase: the last byte to land there, or what it held. -/
theorem reg_written {s : I2cSim} {bs : List UInt8} (hb : ∀ b ∈ bs.head?, b.toNat < i2cSimNregs)
    (i : Nat) : (s.written bs).reg i = (lastAt i (stores bs)).getD (s.reg i) := by
  cases bs with
  | nil => rfl
  | cons b bs => exact reg_stored (s := { s with ptr := b }) (hb b rfl) bs i

/-! ### The phases of a transaction -/

/-- `(p, n)` is a pair the simulator accepts: it is not `NULL`, or empty. -/
def Readable (d : Slice UInt8) : Prop := ¬ (d.size > 0 ∧ d.isNull)

theorem Readable.size_null {k : Nat} (h : Readable (.null k)) : k = 0 := by
  by_contra hk
  exact h ⟨Nat.pos_of_ne_zero hk, rfl⟩

instance (d : Slice UInt8) : Decidable (Readable d) := inferInstanceAs (Decidable (¬ _))

/-- A buffer of the simulator, filled. -/
theorem cells_put {r : Slice UInt8} (hr : Readable r) {bs : List UInt8} (h : bs.length = r.size) :
    (r.put bs).cells = bs := by
  cases r with
  | null k =>
      obtain rfl := hr.size_null
      exact (List.length_eq_zero_iff.mp h).symm
  | mem cs => exact overlay_all (Nat.le_of_eq h.symm)

theorem simWritePhase_ok {s : I2cSim} {d : Slice UInt8} (hd : Readable d)
    (hp : ∀ b ∈ d.cells.head?, b.toNat < i2cSimNregs) :
    simWritePhase s d = .ok (s.written d.cells) := by
  cases d with
  | null k => exact if_neg fun h => hd ⟨h, rfl⟩
  | mem bs =>
      cases bs with
      | nil => rfl
      | cons b bs =>
          have hs : ({ s with ptr := b } : I2cSim).Inside := hp b rfl
          have hlen : 1 + ((Slice.mem (b :: bs)).size - 1) = (b :: bs).length := by
            simp only [Slice.size_mem, List.length_cons]
            omega
          rw [simWritePhase, if_pos (by simp)]
          exact simWriteLoop_mem hlen hs

theorem simSamplePhase_ok (s : I2cSim) (k : Nat) : simSamplePhase s k = .ok (s.snapshot k) := by
  rw [simSamplePhase, load_reg s (by decide), ok_bind, simRefreshSample_eq]
  unfold I2cSim.snapshot I2cSim.Measuring
  by_cases h₁ : k > 0 ∧ simTouchesData s.ptr k = true
  · by_cases h₂ : s.reg simRegPowerCtl &&& simPowerCtlMeasure ≠ 0
    · rw [if_pos h₁, if_pos h₂, if_pos ⟨h₁, h₂⟩]
    · rw [if_pos h₁, if_neg h₂, if_neg fun h => h₂ h.2]
      rfl
  · rw [if_neg h₁, if_neg fun h => h₁ h.1]
    rfl

theorem simReadLoop_ok {s : I2cSim} (hs : s.Inside) {r : Slice UInt8} (hr : Readable r) :
    simReadLoop r.size 0 r s = .ok (r.put (s.serve r.size), I2cSim.next^[r.size] s) := by
  cases r with
  | null k =>
      obtain rfl := hr.size_null
      rfl
  | mem cs => simpa using @simReadLoop_mem cs cs.length [] s (by simp) hs

/-- A write with a pointer byte inside the register file, if it has one. -/
theorem simWrite_ok {s : I2cSim} {d : Slice UInt8} (hd : Readable d)
    (hp : ∀ b ∈ d.cells.head?, b.toNat < i2cSimNregs) :
    simWrite (some s) simAddr d = .ok (i2cOk, some (s.written d.cells)) := by
  rw [simWrite, if_neg (by simp)]
  by_cases h0 : d.size = 0
  · have hcells : d.cells = [] := by
      cases d with
      | null k => rfl
      | mem bs => exact List.length_eq_zero_iff.mp h0
    rw [if_pos h0, hcells]
    rfl
  · rw [if_neg h0, if_neg fun h => hd ⟨Nat.pos_of_ne_zero h0, h⟩, simWritePhase_ok hd hp]
    rfl

/-- A combined transaction with a pointer byte inside the register file, if it has one. -/
theorem simWriteRead_ok {s : I2cSim} (hs : s.Inside) {w r : Slice UInt8} (hw : Readable w)
    (hr : Readable r) (hp : ∀ b ∈ w.cells.head?, b.toNat < i2cSimNregs) :
    simWriteRead (some s) simAddr w r =
      .ok (i2cOk, r.put (((s.written w.cells).snapshot r.size).serve r.size),
        some (I2cSim.next^[r.size] ((s.written w.cells).snapshot r.size))) := by
  have hin : ((s.written w.cells).snapshot r.size).Inside := by
    rw [I2cSim.Inside, snapshot_ptr]
    exact inside_written hs hp
  rw [simWriteRead, if_neg (by simp), if_neg (not_or.mpr ⟨hw, hr⟩), simWritePhase_ok hw hp,
    ok_bind, simSamplePhase_ok, ok_bind, simReadLoop_ok hin hr]
  rfl

end Sharak
