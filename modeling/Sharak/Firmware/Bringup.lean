import Mathlib.Logic.Function.Basic
import Sharak.Firmware.Definitions

/-!
# Firmware — bring-up

`uart_init` and `i2c_stellaris_init` on the registers of the board, which may hold anything.  The
two share a clock register and may be called in any order, any number of times: no register is
stored to before its clock is on, the line and baud registers only while UART0 is disabled, and the
registers end up the same whatever the order (`bringup_orderly`).
-/

namespace Sharak

/-! ### The registers -/

/-- The registers of SYSCTL, GPIOB, the I2C0 master and UART0 that are set up. -/
inductive Port where
  | rcgc1
  | rcgc2
  | gpiobAfsel
  | gpiobOdr
  | gpiobDen
  | i2cMcr
  | i2cMtpr
  | uartCtl
  | uartIbrd
  | uartFbrd
  | uartLcrh
deriving DecidableEq, Repr

/-- What the registers hold, and the stores so far, oldest first. -/
structure Board where
  word : Port → UInt32
  stores : List (Port × UInt32)

def Board.store (b : Board) (p : Port) (v : UInt32) : Board :=
  ⟨Function.update b.word p v, b.stores ++ [(p, v)]⟩

/-- `p |= v`. -/
def Board.set (b : Board) (p : Port) (v : UInt32) : Board := b.store p (b.word p ||| v)

def rcgc1Uart0 : UInt32 := 0x0001
def rcgc1I2c0 : UInt32 := 0x1000
def rcgc2Gpiob : UInt32 := 0x02
def pb2 : UInt32 := 0x04
def pb3 : UInt32 := 0x08
def i2cMcrMfe : UInt32 := 0x10
def i2cSysclkHz : UInt32 := 12000000
def i2cSclHz : UInt32 := 100000
def i2cTpr : UInt32 := i2cSysclkHz / (20 * i2cSclHz) - 1

def uartIbrd115200 : UInt32 := 6
def uartFbrd115200 : UInt32 := 33
def uartLcrhFen : UInt32 := 0x10
def uartLcrhWlen8 : UInt32 := 0x60
def uartCtlUarten : UInt32 := 0x001
def uartCtlTxe : UInt32 := 0x100
def uartCtlRxe : UInt32 := 0x200

/-- The load that reads RCGC1 back has no effect on the registers. -/
def uartInit (b : Board) : Board :=
  let b := b.set .rcgc1 rcgc1Uart0
  let b := b.store .uartCtl 0
  let b := b.store .uartIbrd uartIbrd115200
  let b := b.store .uartFbrd uartFbrd115200
  let b := b.store .uartLcrh (uartLcrhWlen8 ||| uartLcrhFen)
  b.store .uartCtl (uartCtlUarten ||| uartCtlTxe ||| uartCtlRxe)

/-- `bus->ctx` is the master's accesses so far, which are passed along. -/
def i2cStellarisInit (hw : Hardware) (bus : Option (I2cBus (List Access))) (b : Board) :
    Option (I2cBus (List Access)) × Board :=
  match bus with
  | none => (none, b)
  | some _ =>
      let b := b.set .rcgc1 rcgc1I2c0
      let b := b.set .rcgc2 rcgc2Gpiob
      let b := b.set .gpiobAfsel (pb2 ||| pb3)
      let b := b.set .gpiobOdr pb3
      let b := b.set .gpiobDen (pb2 ||| pb3)
      let b := b.store .i2cMcr i2cMcrMfe
      let b := b.store .i2cMtpr i2cTpr
      (some ⟨some (stellarisWrite hw), some (stellarisWriteRead hw)⟩, b)

/-! ### Order -/

/-- The clock of the peripheral that a register belongs to is on; SYSCTL has one always. -/
def Clocked (w : Port → UInt32) : Port → Prop
  | .rcgc1 | .rcgc2 => True
  | .gpiobAfsel | .gpiobOdr | .gpiobDen => w .rcgc2 &&& rcgc2Gpiob ≠ 0
  | .i2cMcr | .i2cMtpr => w .rcgc1 &&& rcgc1I2c0 ≠ 0
  | .uartCtl | .uartIbrd | .uartFbrd | .uartLcrh => w .rcgc1 &&& rcgc1Uart0 ≠ 0

/-- The registers that configure UART0. -/
def Port.Configuring (p : Port) : Prop := p = .uartIbrd ∨ p = .uartFbrd ∨ p = .uartLcrh

instance (p : Port) : Decidable p.Configuring := inferInstanceAs (Decidable (_ ∨ _))

/-- Every store is to a register with a clock, and to one that configures UART0 only while it is
disabled. -/
def Orderly : (Port → UInt32) → List (Port × UInt32) → Prop
  | _, [] => True
  | w, (p, v) :: stores =>
      Clocked w p ∧ (p.Configuring → w .uartCtl &&& uartCtlUarten = 0) ∧
        Orderly (Function.update w p v) stores

/-- What the registers hold behind stores. -/
def replay (w : Port → UInt32) (stores : List (Port × UInt32)) : Port → UInt32 :=
  stores.foldl (fun w s => Function.update w s.1 s.2) w

theorem orderly_append {w : Port → UInt32} {xs ys : List (Port × UInt32)} :
    Orderly w (xs ++ ys) ↔ Orderly w xs ∧ Orderly (replay w xs) ys := by
  induction xs generalizing w with
  | nil => exact (and_iff_right trivial).symm
  | cons x xs ih =>
      rw [List.cons_append, Orderly, Orderly, ih, and_assoc, and_assoc]
      rfl

/-- The board has come from registers `w` by orderly stores. -/
structure Board.Orderly (w : Port → UInt32) (b : Board) : Prop where
  word : b.word = replay w b.stores
  stores : Sharak.Orderly w b.stores

section
variable {w : Port → UInt32} {b : Board} {p : Port}

theorem Board.Orderly.store (h : b.Orderly w) (v : UInt32) (hc : Clocked b.word p)
    (hd : p.Configuring → b.word .uartCtl &&& uartCtlUarten = 0) : (b.store p v).Orderly w := by
  refine ⟨?_, ?_⟩
  · rw [Board.store, replay, List.foldl_append, h.word]
    rfl
  · rw [Board.store, orderly_append, ← h.word]
    exact ⟨h.stores, hc, hd, trivial⟩

theorem Board.Orderly.set (h : b.Orderly w) (v : UInt32) (hc : Clocked b.word p)
    (hd : p.Configuring → b.word .uartCtl &&& uartCtlUarten = 0) : (b.set p v).Orderly w :=
  h.store _ hc hd

end

theorem and_of_set (w v : UInt32) : (w ||| v) &&& v = v := by
  apply UInt32.toBitVec_inj.mp
  ext i
  simpa using Or.inr

theorem clock_set {w v : UInt32} (hv : v ≠ 0) : (w ||| v) &&& v ≠ 0 := by
  rw [and_of_set]
  exact hv

@[simp] theorem word_store (b : Board) (p q : Port) (v : UInt32) :
    (b.store p v).word q = if q = p then v else b.word q := Function.update_apply _ _ _ _

@[simp] theorem word_set (b : Board) (p q : Port) (v : UInt32) :
    (b.set p v).word q = if q = p then b.word p ||| v else b.word q := word_store b p q _

theorem uartInit_orderly {w : Port → UInt32} {b : Board} (h : b.Orderly w) :
    (uartInit b).Orderly w := by
  have hclock : (b.word .rcgc1 ||| rcgc1Uart0) &&& rcgc1Uart0 ≠ 0 := clock_set (by decide)
  have h₁ := @Board.Orderly.set w b .rcgc1 h rcgc1Uart0 trivial (fun hp => absurd hp (by decide))
  have h₂ := @Board.Orderly.store w _ .uartCtl h₁ 0 (by simpa [Clocked] using hclock)
    (fun hp => absurd hp (by decide))
  have h₃ := @Board.Orderly.store w _ .uartIbrd h₂ uartIbrd115200
    (by simpa [Clocked] using hclock) (by simp)
  have h₄ := @Board.Orderly.store w _ .uartFbrd h₃ uartFbrd115200
    (by simpa [Clocked] using hclock) (by simp)
  have h₅ := @Board.Orderly.store w _ .uartLcrh h₄ (uartLcrhWlen8 ||| uartLcrhFen)
    (by simpa [Clocked] using hclock) (by simp)
  exact @Board.Orderly.store w _ .uartCtl h₅ (uartCtlUarten ||| uartCtlTxe ||| uartCtlRxe)
    (by simpa [Clocked] using hclock) (fun hp => absurd hp (by decide))

theorem i2cStellarisInit_orderly (hw : Hardware) (bus : Option (I2cBus (List Access)))
    {w : Port → UInt32} {b : Board} (h : b.Orderly w) :
    (i2cStellarisInit hw bus b).2.Orderly w := by
  cases bus with
  | none => exact h
  | some bus =>
      have hgpio : (b.word .rcgc2 ||| rcgc2Gpiob) &&& rcgc2Gpiob ≠ 0 := clock_set (by decide)
      have hmaster : (b.word .rcgc1 ||| rcgc1I2c0) &&& rcgc1I2c0 ≠ 0 := clock_set (by decide)
      have h₁ := @Board.Orderly.set w b .rcgc1 h rcgc1I2c0 trivial (fun hp => absurd hp (by decide))
      have h₂ := @Board.Orderly.set w _ .rcgc2 h₁ rcgc2Gpiob trivial
        (fun hp => absurd hp (by decide))
      have h₃ := @Board.Orderly.set w _ .gpiobAfsel h₂ (pb2 ||| pb3)
        (by simpa [Clocked] using hgpio) (fun hp => absurd hp (by decide))
      have h₄ := @Board.Orderly.set w _ .gpiobOdr h₃ pb3
        (by simpa [Clocked] using hgpio) (fun hp => absurd hp (by decide))
      have h₅ := @Board.Orderly.set w _ .gpiobDen h₄ (pb2 ||| pb3)
        (by simpa [Clocked] using hgpio) (fun hp => absurd hp (by decide))
      have h₆ := @Board.Orderly.store w _ .i2cMcr h₅ i2cMcrMfe
        (by simpa [Clocked] using hmaster) (fun hp => absurd hp (by decide))
      exact @Board.Orderly.store w _ .i2cMtpr h₆ i2cTpr
        (by simpa [Clocked] using hmaster) (fun hp => absurd hp (by decide))

/-! ### Runs -/

/-- A call of one of the two. -/
inductive Setup where
  | uart
  | i2c (bus : Option (I2cBus (List Access)))

def Setup.run (hw : Hardware) (b : Board) : Setup → Board
  | .uart => uartInit b
  | .i2c bus => (i2cStellarisInit hw bus b).2

def Setup.isUart : Setup → Bool
  | .uart => true
  | .i2c _ => false

/-- A call with a bus to fill. -/
def Setup.isMaster : Setup → Bool
  | .uart => false
  | .i2c bus => bus.isSome

/-- The registers once UART0, if `uart`, and the I2C0 master, if `i2c`, have been set up. -/
def broughtUp (uart i2c : Bool) (w : Port → UInt32) : Port → UInt32
  | .rcgc1 => w .rcgc1 ||| (if uart then rcgc1Uart0 else 0) ||| (if i2c then rcgc1I2c0 else 0)
  | .rcgc2 => w .rcgc2 ||| (if i2c then 0x02 else 0)
  | .gpiobAfsel => w .gpiobAfsel ||| (if i2c then 0x0C else 0)
  | .gpiobOdr => w .gpiobOdr ||| (if i2c then 0x08 else 0)
  | .gpiobDen => w .gpiobDen ||| (if i2c then 0x0C else 0)
  | .i2cMcr => if i2c then 0x10 else w .i2cMcr
  | .i2cMtpr => if i2c then 5 else w .i2cMtpr
  | .uartCtl => if uart then 0x301 else w .uartCtl
  | .uartIbrd => if uart then 6 else w .uartIbrd
  | .uartFbrd => if uart then 33 else w .uartFbrd
  | .uartLcrh => if uart then 0x70 else w .uartLcrh

/-- Bits that are set where they may have been set before. -/
theorem set_again (c : Bool) (a v : UInt32) : (a ||| if c = true then v else 0) ||| v = a ||| v := by
  cases c with
  | false => rw [if_neg (by decide), UInt32.or_zero]
  | true => rw [if_pos rfl, UInt32.or_assoc, UInt32.or_self]

theorem or_right_comm (a v u : UInt32) : a ||| v ||| u = a ||| u ||| v := by
  rw [UInt32.or_assoc, UInt32.or_comm v u, UInt32.or_assoc]

theorem uartInit_word {b : Board} {uart i2c : Bool} {w : Port → UInt32}
    (h : b.word = broughtUp uart i2c w) : (uartInit b).word = broughtUp true i2c w := by
  have hclock : ((w .rcgc1 ||| if uart = true then rcgc1Uart0 else 0) |||
      if i2c = true then rcgc1I2c0 else 0) ||| rcgc1Uart0 =
        w .rcgc1 ||| rcgc1Uart0 ||| if i2c = true then rcgc1I2c0 else 0 := by
    rw [or_right_comm, set_again]
  funext p
  simp only [uartInit, word_store, word_set, h]
  cases p with
  | rcgc1 => exact hclock
  | _ => rfl

theorem i2cStellarisInit_word (hw : Hardware) (bus : Option (I2cBus (List Access))) {b : Board}
    {uart i2c : Bool} {w : Port → UInt32} (h : b.word = broughtUp uart i2c w) :
    (i2cStellarisInit hw bus b).2.word = broughtUp uart (bus.isSome || i2c) w := by
  cases bus with
  | none => exact h
  | some bus =>
      funext p
      simp only [i2cStellarisInit, word_store, word_set, h]
      cases p with
      | rcgc1 => exact set_again i2c _ _
      | rcgc2 => exact set_again i2c _ _
      | gpiobAfsel => exact set_again i2c _ _
      | gpiobOdr => exact set_again i2c _ _
      | gpiobDen => exact set_again i2c _ _
      | _ => rfl

/-- One call. -/
theorem run_setup (hw : Hardware) {b : Board} {uart i2c : Bool} {w : Port → UInt32}
    (h : b.Orderly w) (hb : b.word = broughtUp uart i2c w) (call : Setup) :
    (call.run hw b).Orderly w ∧
      (call.run hw b).word = broughtUp (call.isUart || uart) (call.isMaster || i2c) w := by
  cases call with
  | uart => exact ⟨uartInit_orderly h, uartInit_word hb⟩
  | i2c bus => exact ⟨i2cStellarisInit_orderly hw bus h, i2cStellarisInit_word hw bus hb⟩

theorem run_setups (hw : Hardware) {b : Board} {uart i2c : Bool} {w : Port → UInt32}
    (h : b.Orderly w) (hb : b.word = broughtUp uart i2c w) (calls : List Setup) :
    (calls.foldl (Setup.run hw) b).Orderly w ∧
      (calls.foldl (Setup.run hw) b).word =
        broughtUp (calls.any Setup.isUart || uart) (calls.any Setup.isMaster || i2c) w := by
  induction calls generalizing b uart i2c with
  | nil => exact ⟨h, hb⟩
  | cons call calls ih =>
      obtain ⟨h', hb'⟩ := run_setup hw h hb call
      have hrest := ih h' hb'
      rw [← Bool.or_assoc, ← Bool.or_assoc, Bool.or_comm (calls.any _) call.isUart,
        Bool.or_comm (calls.any _) call.isMaster] at hrest
      exact hrest

theorem broughtUp_none (w : Port → UInt32) : broughtUp false false w = w := by
  funext p
  cases p <;> simp [broughtUp]

/-- **Bring-up in any order.**  From any contents of the registers, over any calls of the two init
functions: every store is to a register with a clock, and to one that configures UART0 only while
it is disabled; and the registers hold what they do once each peripheral that was set up has been
set up, however often and in which order. -/
theorem bringup_orderly (hw : Hardware) (w : Port → UInt32) (calls : List Setup) :
    Orderly w (calls.foldl (Setup.run hw) ⟨w, []⟩).stores ∧
      (calls.foldl (Setup.run hw) ⟨w, []⟩).word =
        broughtUp (calls.any Setup.isUart) (calls.any Setup.isMaster) w := by
  have h₀ : (⟨w, []⟩ : Board).Orderly w := ⟨rfl, trivial⟩
  obtain ⟨h, hb⟩ := run_setups hw h₀ (broughtUp_none w).symm calls
  rw [Bool.or_false, Bool.or_false] at hb
  exact ⟨h.stores, hb⟩

end Sharak
