import Mathlib.Logic.Function.Basic
import Sharak.Support.Memory

/-!
# Firmware — startup

What `Reset_Handler` makes of memory before it calls `main`, on the symbols that the linker script
gives it.  RAM may hold anything at power-on.  Whatever the sizes of the sections, if the image fits
at all, the two loops end, touch aligned words of memory only, and leave the variables as C wants
them: `.data` as flash has it, `.bss` zero, and every other word as it was (`reset_memory`).
-/

namespace Sharak
open Memory

/-! ### The linker script -/

def flashLength : Nat := 0x40000
def ramOrigin : Nat := 0x20000000
def ramLength : Nat := 0x10000

/-- The symbols that `startup.c` takes the addresses of. -/
structure Symbols where
  sidata : Nat
  sdata : Nat
  edata : Nat
  sbss : Nat
  ebss : Nat
deriving DecidableEq, Repr

/-- `. = ALIGN(4)`. -/
def align4 (a : Nat) : Nat := (a + 3) / 4 * 4

/-- The symbols for inputs of so many bytes; nothing if a region overflows.  No input asks for more
than four bytes of alignment. -/
def link (isrVector text data bss : Nat) : Option Symbols :=
  let isrVectorEnd := align4 isrVector
  let sidata := align4 (isrVectorEnd + text)
  let sdata := ramOrigin
  let edata := align4 (sdata + data)
  let sbss := align4 edata
  let ebss := align4 (sbss + bss)
  if sidata + (edata - sdata) ≤ flashLength ∧ ebss ≤ ramOrigin + ramLength then
    some ⟨sidata, sdata, edata, sbss, ebss⟩
  else none

/-! ### Memory -/

/-- The words of memory, by address. -/
abbrev Words := Nat → UInt32

def InFlash (a : Nat) : Prop := a + 4 ≤ flashLength

def InRam (a : Nat) : Prop := ramOrigin ≤ a ∧ a + 4 ≤ ramOrigin + ramLength

instance (a : Nat) : Decidable (InFlash a) := inferInstanceAs (Decidable (_ ≤ _))
instance (a : Nat) : Decidable (InRam a) := inferInstanceAs (Decidable (_ ∧ _))

def loadWord (m : Words) (a : Nat) : Checked UInt32 :=
  if a % 4 = 0 ∧ (InFlash a ∨ InRam a) then .ok (m a) else .error ⟨a, ramOrigin + ramLength⟩

/-- Flash is not written to. -/
def storeWord (m : Words) (a : Nat) (v : UInt32) : Checked Words :=
  if a % 4 = 0 ∧ InRam a then .ok (Function.update m a v) else .error ⟨a, ramOrigin + ramLength⟩

/-- `p + 1` for a `uint32_t *`. -/
def nextWord (p : Nat) : Nat := (p + 4) % 0x100000000

/-! ### The reset handler -/

/-- The copy of `.data`, for at most `fuel` tests of the loop; `none` if it goes on. -/
def copyData (edata : Nat) : (fuel dst src : Nat) → Words → Checked (Option Words)
  | 0, _, _, _ => pure none
  | fuel + 1, dst, src, m =>
      if dst < edata then do
        let v ← loadWord m src
        let m ← storeWord m dst v
        copyData edata fuel (nextWord dst) (nextWord src) m
      else pure (some m)

def zeroBss (ebss : Nat) : (fuel b : Nat) → Words → Checked (Option Words)
  | 0, _, _ => pure none
  | fuel + 1, b, m =>
      if b < ebss then do
        let m ← storeWord m b 0
        zeroBss ebss fuel (nextWord b) m
      else pure (some m)

/-- `Reset_Handler` up to its call of `main`. -/
def resetHandler (fuel : Nat) (s : Symbols) (m : Words) : Checked (Option Words) := do
  match ← copyData s.edata fuel s.sdata s.sidata m with
  | none => pure none
  | some m => zeroBss s.ebss fuel s.sbss m

/-! ### Runs of words -/

/-- `m` with the `n` words from `a` on replaced. -/
def filled (m : Words) (a n : Nat) (v : Nat → UInt32) : Words := fun x =>
  if a ≤ x ∧ x < a + 4 * n ∧ (x - a) % 4 = 0 then v ((x - a) / 4) else m x

section
variable {m : Words} {a n : Nat} {v : Nat → UInt32}

theorem filled_zero (m : Words) (a : Nat) (v : Nat → UInt32) : filled m a 0 v = m := by
  funext x
  refine if_neg ?_
  omega

theorem filled_inside {k : Nat} (hk : k < n) : filled m a n v (a + 4 * k) = v k := by
  have hquot : (a + 4 * k - a) / 4 = k := by omega
  rw [filled, if_pos (by omega), hquot]

theorem filled_outside {x : Nat} (hx : x < a ∨ a + 4 * n ≤ x) : filled m a n v x = m x := by
  refine if_neg ?_
  omega

theorem filled_congr {w : Nat → UInt32} (h : ∀ k < n, v k = w k) :
    filled m a n v = filled m a n w := by
  funext x
  unfold filled
  split
  · exact h _ (by omega)
  · rfl

/-- The first word, then the others. -/
theorem filled_succ (m : Words) (a n : Nat) (v : Nat → UInt32) :
    filled (Function.update m a (v 0)) (a + 4) n (fun k => v (k + 1)) = filled m a (n + 1) v := by
  funext x
  unfold filled
  by_cases hx : x = a
  · subst hx
    rw [if_neg (by omega), if_pos (by omega), Function.update_self, Nat.sub_self]
  · rw [Function.update_of_ne hx]
    by_cases hin : a + 4 ≤ x ∧ x < a + 4 + 4 * n ∧ (x - (a + 4)) % 4 = 0
    · have hquot : (x - a) / 4 = (x - (a + 4)) / 4 + 1 := by omega
      rw [if_pos hin, if_pos (by omega), hquot]
    · rw [if_neg hin, if_neg (by omega)]

end

theorem storeWord_ok {m : Words} {a : Nat} (ha : a % 4 = 0) (h : InRam a) (v : UInt32) :
    storeWord m a v = .ok (Function.update m a v) := if_pos ⟨ha, h⟩

theorem nextWord_eq {p : Nat} (h : InFlash p ∨ InRam p) : nextWord p = p + 4 := by
  unfold InFlash InRam flashLength ramOrigin ramLength at h
  unfold nextWord
  omega

/-- A stretch of aligned words of RAM. -/
structure RamWords (a n : Nat) : Prop where
  aligned : a % 4 = 0
  low : ramOrigin ≤ a
  high : a + 4 * n ≤ ramOrigin + ramLength

theorem RamWords.head {a n : Nat} (h : RamWords a (n + 1)) : InRam a :=
  ⟨h.low, by have := h.high; omega⟩

theorem RamWords.tail {a n : Nat} (h : RamWords a (n + 1)) : RamWords (a + 4) n :=
  ⟨by have := h.aligned; omega, by have := h.low; omega, by have := h.high; omega⟩

theorem zeroBss_filled {n : Nat} : ∀ {a fuel : Nat} (m : Words), RamWords a n → n < fuel →
    zeroBss (a + 4 * n) fuel a m = .ok (some (filled m a n fun _ => 0)) := by
  induction n with
  | zero =>
      intro a fuel m h hf
      obtain ⟨fuel, rfl⟩ := Nat.exists_eq_succ_of_ne_zero (Nat.ne_of_gt hf)
      rw [zeroBss, if_neg (by omega), filled_zero]
      rfl
  | succ n ih =>
      intro a fuel m h hf
      obtain ⟨fuel, rfl⟩ := Nat.exists_eq_succ_of_ne_zero (Nat.ne_of_gt (Nat.lt_of_le_of_lt
        (Nat.zero_le _) hf))
      have hend : a + 4 * (n + 1) = a + 4 + 4 * n := by omega
      rw [zeroBss, if_pos (by omega), storeWord_ok h.aligned h.head, ok_bind,
        nextWord_eq (.inr h.head), hend, ih _ h.tail (by omega),
        filled_succ m a n (fun _ => (0 : UInt32))]

theorem copyData_filled {n : Nat} : ∀ {a b fuel : Nat} (m : Words), RamWords a n →
    b % 4 = 0 → b + 4 * n ≤ flashLength → n < fuel →
    copyData (a + 4 * n) fuel a b m = .ok (some (filled m a n fun k => m (b + 4 * k))) := by
  induction n with
  | zero =>
      intro a b fuel m h hb hl hf
      obtain ⟨fuel, rfl⟩ := Nat.exists_eq_succ_of_ne_zero (Nat.ne_of_gt hf)
      rw [copyData, if_neg (by omega), filled_zero]
      rfl
  | succ n ih =>
      intro a b fuel m h hb hl hf
      obtain ⟨fuel, rfl⟩ := Nat.exists_eq_succ_of_ne_zero (Nat.ne_of_gt (Nat.lt_of_le_of_lt
        (Nat.zero_le _) hf))
      have hflash : InFlash b := by
        unfold InFlash
        omega
      have hload : loadWord m b = .ok (m b) := if_pos ⟨hb, .inl hflash⟩
      have hend : a + 4 * (n + 1) = a + 4 + 4 * n := by omega
      -- what is left to copy is in flash, out of the way of the word stored
      have hrest : ∀ k, k < n → Function.update m a (m b) (b + 4 + 4 * k) = m (b + 4 * (k + 1)) := by
        intro k hk
        have hlow := h.low
        have hne : b + 4 + 4 * k ≠ a := by
          unfold ramOrigin at hlow
          unfold flashLength at hl
          omega
        rw [Function.update_of_ne hne]
        congr 1
        omega
      rw [copyData, if_pos (by omega), hload, ok_bind, storeWord_ok h.aligned h.head, ok_bind,
        nextWord_eq (.inr h.head), nextWord_eq (.inl hflash), hend,
        ih _ h.tail (by omega) (by omega) (by omega), filled_congr hrest,
        ← filled_succ m a n (fun k => m (b + 4 * k))]
      rfl

/-! ### What `main` finds -/

/-- What the linker script makes sure of: `.data` and `.bss` are whole words of RAM, one behind the
other, and the image of `.data` is in flash. -/
structure Symbols.Placed (s : Symbols) (dataWords bssWords : Nat) : Prop where
  image : s.sidata % 4 = 0
  flash : s.sidata + 4 * dataWords ≤ flashLength
  sdata : s.sdata = ramOrigin
  edata : s.edata = s.sdata + 4 * dataWords
  sbss : s.sbss = s.edata
  ebss : s.ebss = s.sbss + 4 * bssWords
  ram : s.ebss ≤ ramOrigin + ramLength

/-- Behind a whole number of words, an input takes the words that hold it. -/
theorem align4_add {a : Nat} (ha : a % 4 = 0) (n : Nat) :
    align4 (a + n) = a + 4 * ((n + 3) / 4) := by
  unfold align4
  omega

theorem align4_mod (a : Nat) : align4 a % 4 = 0 := by
  unfold align4
  omega

theorem link_placed {isrVector text data bss : Nat} {s : Symbols}
    (h : link isrVector text data bss = some s) :
    s.Placed ((data + 3) / 4) ((bss + 3) / 4) := by
  have hram : ramOrigin % 4 = 0 := by decide
  have hedata := align4_add hram data
  have haligned : align4 (ramOrigin + data) % 4 = 0 := align4_mod _
  have hsbss : align4 (align4 (ramOrigin + data)) = align4 (ramOrigin + data) :=
    align4_add haligned 0
  unfold link at h
  dsimp only at h
  split at h
  · rename_i hfit
    cases h
    exact
      { image := align4_mod _
        flash := by
          have hf := hfit.1
          rw [hedata, Nat.add_sub_cancel_left] at hf
          exact hf
        sdata := rfl
        edata := hedata
        sbss := hsbss
        ebss := by rw [hsbss]; exact align4_add haligned bss
        ram := hfit.2 }
  · cases h

/-- **Memory at the call of `main`.**  For sections of any sizes that fit, and whatever memory holds
at power-on, both loops of `Reset_Handler` end without an access outside memory, to a word that is not
aligned, or into flash; and then `.data` is its image in flash, `.bss` is zero, and everything else
is as it was. -/
theorem reset_memory {isrVector text data bss : Nat} {s : Symbols}
    (hs : link isrVector text data bss = some s) (m : Words) {fuel : Nat}
    (hf : ramLength / 4 < fuel) :
    ∃ m', resetHandler fuel s m = .ok (some m') ∧
      (∀ k, s.sdata + 4 * k < s.edata → m' (s.sdata + 4 * k) = m (s.sidata + 4 * k)) ∧
      (∀ k, s.sbss + 4 * k < s.ebss → m' (s.sbss + 4 * k) = 0) ∧
      ∀ a, a < s.sdata ∨ s.ebss ≤ a → m' a = m a := by
  have hp := link_placed hs
  generalize (data + 3) / 4 = d at hp
  generalize (bss + 3) / 4 = b at hp
  obtain ⟨himage, hflash, hsdata, hedata, hsbss, hebss, hram⟩ := hp
  have hdata : RamWords s.sdata d := ⟨by rw [hsdata]; rfl, by omega, by omega⟩
  have hzero : RamWords s.sbss b := by
    refine ⟨?_, by omega, by omega⟩
    have h₀ := hdata.aligned
    omega
  have hcopy : copyData s.edata fuel s.sdata s.sidata m =
      .ok (some (filled m s.sdata d fun k => m (s.sidata + 4 * k))) := by
    rw [hedata]
    exact copyData_filled m hdata himage hflash (by omega)
  refine ⟨filled (filled m s.sdata d fun k => m (s.sidata + 4 * k)) s.sbss b fun _ => 0, ?_, ?_, ?_,
    ?_⟩
  · rw [resetHandler, hcopy, ok_bind, hebss]
    exact zeroBss_filled _ hzero (by omega)
  · intro k hk
    rw [filled_outside (by omega)]
    exact filled_inside (by omega)
  · intro k hk
    exact filled_inside (by omega)
  · intro a ha
    rw [filled_outside (by omega), filled_outside (by omega)]

/-- Six bytes of initialised data behind 5001 bytes of text, and 203 bytes of `.bss`, in a RAM full
of ones. -/
theorem reset_memory_small :
    link 64 5001 6 203 = some ⟨5068, 0x20000000, 0x20000008, 0x20000008, 0x200000D4⟩ ∧
      ∃ m', resetHandler 20000 ⟨5068, 0x20000000, 0x20000008, 0x20000008, 0x200000D4⟩
          (fun a => if a < 0x40000 then 0x11223344 else 0xFFFFFFFF) = .ok (some m') ∧
        m' 0x20000004 = 0x11223344 ∧ m' 0x200000D0 = 0 ∧ m' 0x200000D4 = 0xFFFFFFFF := by
  have hlink : link 64 5001 6 203 =
      some ⟨5068, 0x20000000, 0x20000008, 0x20000008, 0x200000D4⟩ := by decide
  obtain ⟨m', hrun, hdata, hbss, hrest⟩ := @reset_memory _ _ _ _ _ hlink
    (fun a => if a < 0x40000 then 0x11223344 else 0xFFFFFFFF) 20000 (by decide)
  exact ⟨hlink, m', hrun, hdata 1 (by decide), hbss 50 (by decide), hrest 0x200000D4 (by decide)⟩

end Sharak
