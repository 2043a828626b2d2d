import Sharak.Firmware.Node
import Sharak.Firmware.Wire
import Sharak.Support.Fifo
import Sharak.Support.Lockstep

/-!
# Firmware — UART0 on a line

`uart.c` access by access: a byte is stored in DR behind a poll of FR that finds the transmit FIFO
not full, and one is loaded from it behind a poll that finds the receive FIFO not empty (`Traffic`).
The peripheral is any.  On a line (`OnLine`) there is a FIFO each way, and bytes leave the one and
come into the other between any two accesses, as they like.  Then no byte that is sent is lost, and
what is received is what came in, in order (`uart_line`).
-/

namespace Sharak
open Memory Fifo

/-! ### Accesses -/

/-- The registers of UART0 that bytes go through. -/
inductive UartReg where
  | fr
  | dr
deriving DecidableEq, Repr

/-- A store to DR, or a load and the word it gave. -/
inductive UartAccess where
  | wrote (v : UInt32)
  | read (r : UartReg) (v : UInt32)
deriving DecidableEq, Repr

def uartFrRxfe : UInt32 := 0x10
def uartFrTxff : UInt32 := 0x20

/-- The accesses of `k` polls of FR behind `h`. -/
def uartPolled (word : List UartAccess → UartReg → UInt32) :
    (k : Nat) → (h : List UartAccess) → List UartAccess
  | 0, h => h
  | k + 1, h => uartPolled word k (h ++ [.read .fr (word h .fr)])

/-- The peripheral and its line: the word a load gives behind the accesses so far.  However often
TXFF is set, some poll finds it clear. -/
structure Uart0 where
  word : List UartAccess → UartReg → UInt32
  patience : List UartAccess → Nat
  clears : ∀ h, ∃ k ≤ patience h, word (uartPolled word k h) .fr &&& uartFrTxff = 0

namespace Uart0
variable (hw : Uart0)

/-- `while (UART_FR & UART_FR_TXFF)`, for at most `fuel` polls. -/
def spin : (fuel : Nat) → List UartAccess → List UartAccess
  | 0, h => h
  | fuel + 1, h =>
      let flags := hw.word h .fr
      let h := h ++ [.read .fr flags]
      if flags &&& uartFrTxff ≠ 0 then spin fuel h else h

def uartPutc (h : List UartAccess) (c : UInt8) : List UartAccess :=
  hw.spin (hw.patience h + 1) h ++ [.wrote c.toUInt32]

/-- `s` up to its terminating NUL. -/
def uartPuts (h : List UartAccess) : (s : List UInt8) → List UartAccess
  | [] => h
  | c :: s => if c = 0 then h else uartPuts (hw.uartPutc h c) s

def uartWrite (h : List UartAccess) (data : Slice UInt8) : Checked (List UartAccess) :=
  upto data.size (fun i h => do pure (hw.uartPutc h (← data.read i))) h

def uartTryGetc (h : List UartAccess) : Int × List UartAccess :=
  let flags := hw.word h .fr
  let h := h ++ [.read .fr flags]
  if flags &&& uartFrRxfe ≠ 0 then (-1, h)
  else
    let v := hw.word h .dr
    ((v &&& 0xFF).toNat, h ++ [.read .dr v])

/-! ### Traffic -/

/-- The accesses behind `h` send and receive bytes with the courtesy the FIFOs ask for: a store to DR
is right behind a load of FR with TXFF clear, and a load of DR behind one with RXFE clear. -/
inductive Traffic (h : List UartAccess) :
    (sent got : List UInt8) → List UartAccess → Prop where
  | start : Traffic h [] [] h
  | poll {sent got : List UInt8} {h' : List UartAccess} (t : Traffic h sent got h') :
      Traffic h sent got (h' ++ [.read .fr (hw.word h' .fr)])
  | send {sent got : List UInt8} {h' : List UartAccess} (c : UInt8) (t : Traffic h sent got h')
      (hc : hw.word h' .fr &&& uartFrTxff = 0) :
      Traffic h (sent ++ [c]) got (h' ++ [.read .fr (hw.word h' .fr)] ++ [.wrote c.toUInt32])
  | take {sent got : List UInt8} {h' : List UartAccess} {v : UInt32} (t : Traffic h sent got h')
      (hc : hw.word h' .fr &&& uartFrRxfe = 0)
      (hv : v = hw.word (h' ++ [.read .fr (hw.word h' .fr)]) .dr) :
      Traffic h sent (got ++ [(v &&& 0xFF).toUInt8])
        (h' ++ [.read .fr (hw.word h' .fr)] ++ [.read .dr v])

section
variable {hw : Uart0} {h h' : List UartAccess} {sent got : List UInt8}

/-- The spin loop polls until TXFF is clear, so that a byte may be stored. -/
theorem spin_send (c : UInt8) :
    ∀ (fuel : Nat) {h' : List UartAccess}, hw.Traffic h sent got h' →
      (∃ k < fuel, hw.word (uartPolled hw.word k h') .fr &&& uartFrTxff = 0) →
      hw.Traffic h (sent ++ [c]) got (hw.spin fuel h' ++ [.wrote c.toUInt32])
  | 0, h', t, hc => by
      obtain ⟨k, hk, -⟩ := hc
      exact absurd hk (Nat.not_lt_zero k)
  | fuel + 1, h', t, hc => by
      rw [spin]
      by_cases hf : hw.word h' .fr &&& uartFrTxff = 0
      · rw [if_neg (not_not.mpr hf)]
        exact t.send c hf
      · rw [if_pos hf]
        obtain ⟨k, hk, hclear⟩ := hc
        cases k with
        | zero => exact absurd hclear hf
        | succ k => exact spin_send c fuel t.poll ⟨k, Nat.lt_of_succ_lt_succ hk, hclear⟩

theorem uartPutc_traffic (c : UInt8) (t : hw.Traffic h sent got h') :
    hw.Traffic h (sent ++ [c]) got (hw.uartPutc h' c) := by
  obtain ⟨k, hk, hclear⟩ := hw.clears h'
  exact spin_send c _ t ⟨k, Nat.lt_succ_of_le hk, hclear⟩

theorem uartPuts_traffic (s : List UInt8) (t : hw.Traffic h sent got h') :
    hw.Traffic h (sent ++ s.takeWhile (· ≠ 0)) got (hw.uartPuts h' s) := by
  induction s generalizing sent h' with
  | nil =>
      rw [List.takeWhile_nil, List.append_nil]
      exact t
  | cons c s ih =>
      by_cases hc : c = 0
      · rw [uartPuts, if_pos hc, List.takeWhile_cons_of_neg (by simpa using hc), List.append_nil]
        exact t
      · rw [uartPuts, if_neg hc, List.takeWhile_cons_of_pos (by simpa using hc), List.append_cons]
        exact ih (uartPutc_traffic c t)

theorem uartWrite_traffic (cs : List UInt8) (t : hw.Traffic h sent got h') :
    ∃ h'', hw.uartWrite h' (.mem cs) = .ok h'' ∧ hw.Traffic h (sent ++ cs) got h'' := by
  obtain ⟨h'', hloop, hP⟩ := upto_ok (n := cs.length) (s := h')
    (f := fun i h => do pure (hw.uartPutc h (← (Slice.mem cs).read i)))
    (fun i h'' => hw.Traffic h (sent ++ cs.take i) got h'') (by simpa using t)
    (fun i h'' hi t' => by
      refine ⟨_, by rw [Slice.read_mem hi]; rfl, ?_⟩
      rw [← List.take_append_getElem hi, ← List.append_assoc]
      exact uartPutc_traffic _ t')
  rw [List.take_length] at hP
  exact ⟨h'', hloop, hP⟩

/-- What `uart_try_getc` returns for a byte, or for none. -/
def getcResult : Option UInt8 → Int
  | none => -1
  | some b => b.toNat

theorem uartTryGetc_traffic (t : hw.Traffic h sent got h') :
    (hw.uartTryGetc h' = (getcResult none, h' ++ [.read .fr (hw.word h' .fr)]) ∧
      hw.word h' .fr &&& uartFrRxfe ≠ 0) ∨
    ∃ b h'', hw.uartTryGetc h' = (getcResult (some b), h'') ∧
      hw.Traffic h sent (got ++ [b]) h'' := by
  by_cases hf : hw.word h' .fr &&& uartFrRxfe = 0
  · right
    refine ⟨_, _, ?_, t.take hf rfl⟩
    rw [uartTryGetc, if_neg (not_not.mpr hf), getcResult]
    generalize hw.word (h' ++ [.read .fr (hw.word h' .fr)]) .dr = v
    have hlow : (v &&& 0xFF).toUInt8.toNat = (v &&& 0xFF).toNat := by
      rw [UInt32.toNat_toUInt8]
      refine Nat.mod_eq_of_lt ?_
      rw [UInt32.toNat_and]
      exact Nat.lt_of_le_of_lt Nat.and_le_right (by decide)
    rw [hlow]
  · left
    exact ⟨if_pos hf, hf⟩

end

end Uart0

/-! ### Calls -/

/-- A call of one of the functions that move bytes. -/
inductive UartCall where
  | putc (c : UInt8)
  | puts (s : List UInt8)
  | write (data : List UInt8)
  | tryGetc

/-- The call; only `uart_try_getc` returns something. -/
def UartCall.on (hw : Uart0) (h : List UartAccess) :
    UartCall → Checked (Option Int × List UartAccess)
  | putc c => pure (none, hw.uartPutc h c)
  | puts s => pure (none, hw.uartPuts h s)
  | write data => do pure (none, ← hw.uartWrite h (.mem data))
  | tryGetc => pure (some (hw.uartTryGetc h).1, (hw.uartTryGetc h).2)

/-- The bytes it is asked to send. -/
def UartCall.bytes : UartCall → List UInt8
  | putc c => [c]
  | puts s => s.takeWhile (· ≠ 0)
  | write data => data
  | tryGetc => []

/-- It returns something. -/
def UartCall.asks : UartCall → Bool
  | tryGetc => true
  | _ => false

/-- A poll that found the receive FIFO empty is the last access. -/
def Uart0.FoundEmpty (hw : Uart0) (h : List UartAccess) : Prop :=
  ∃ h₀, h = h₀ ++ [.read .fr (hw.word h₀ .fr)] ∧ hw.word h₀ .fr &&& uartFrRxfe ≠ 0

namespace Uart0
variable {hw : Uart0} {h h' : List UartAccess} {sent got : List UInt8}

theorem call_traffic (t : hw.Traffic h sent got h') (call : UartCall) :
    ∃ (a : Option Int) (h'' : List UartAccess) (gets : List (Option UInt8)),
      call.on hw h' = .ok (a, h'') ∧ a.isSome = call.asks ∧ a.toList = gets.map getcResult ∧
      hw.Traffic h (sent ++ call.bytes) (got ++ gets.reduceOption) h'' ∧
      (a = some (-1) → hw.FoundEmpty h'') := by
  cases call with
  | putc c =>
      refine ⟨none, _, [], rfl, rfl, rfl, ?_, by simp⟩
      simpa [UartCall.bytes] using uartPutc_traffic c t
  | puts s =>
      refine ⟨none, _, [], rfl, rfl, rfl, ?_, by simp⟩
      rw [List.reduceOption_nil, List.append_nil]
      exact uartPuts_traffic s t
  | write data =>
      obtain ⟨h'', hw', t'⟩ := uartWrite_traffic data t
      refine ⟨none, h'', [], ?_, rfl, rfl, ?_, by simp⟩
      · rw [UartCall.on, hw', ok_bind]
        rfl
      · simpa [UartCall.bytes] using t'
  | tryGetc =>
      rcases uartTryGetc_traffic t with ⟨hget, hempty⟩ | ⟨b, h'', hget, t'⟩
      · refine ⟨some (getcResult none), _, [none], ?_, rfl, rfl, ?_, fun _ => ⟨h', rfl, hempty⟩⟩
        · rw [UartCall.on, hget]
          rfl
        · simpa [UartCall.bytes] using t.poll
      · refine ⟨some (getcResult (some b)), h'', [some b], ?_, rfl, rfl, ?_, ?_⟩
        · rw [UartCall.on, hget]
          rfl
        · simpa [UartCall.bytes] using t'
        · intro hb
          rw [Option.some.injEq, getcResult] at hb
          omega

/-- Any calls, on any peripheral. -/
theorem run_traffic (t : hw.Traffic h sent got h') (calls : List UartCall) :
    ∃ (as : List (Option Int)) (h'' : List UartAccess) (gets : List (Option UInt8)),
      Lockstep.run (UartCall.on hw) h' calls = .ok (as, h'') ∧
      as.map Option.isSome = calls.map UartCall.asks ∧ as.reduceOption = gets.map getcResult ∧
      hw.Traffic h (sent ++ calls.flatMap UartCall.bytes) (got ++ gets.reduceOption) h'' ∧
      (as.getLast? = some (some (-1)) → hw.FoundEmpty h'') := by
  induction calls generalizing sent got h' with
  | nil => exact ⟨[], h', [], rfl, rfl, rfl, by simpa using t, by simp⟩
  | cons call calls ih =>
      obtain ⟨a, h₁, gets₁, hcall, hasks, ha, t₁, hlast⟩ := call_traffic t call
      obtain ⟨as, h₂, gets₂, hrun, hasks', has, t₂, hlast'⟩ := ih t₁
      refine ⟨a :: as, h₂, gets₁ ++ gets₂, ?_, ?_, ?_, ?_, ?_⟩
      · rw [Lockstep.run, hcall, ok_bind]
        simp only [hrun, ok_bind]
      · rw [List.map_cons, List.map_cons, hasks, hasks']
      · rw [List.map_append, ← ha, ← has]
        cases a <;> rfl
      · rw [List.flatMap_cons, List.reduceOption_append, ← List.append_assoc, ← List.append_assoc]
        exact t₂
      · cases as with
        | nil =>
            -- the call was the last
            obtain rfl : calls = [] := List.map_eq_nil_iff.mp hasks'.symm
            cases hrun
            intro h₀
            exact hlast (by simpa using h₀)
        | cons b bs => simpa using hlast'

end Uart0

/-! ### The line -/

/-- What happens on the line: the oldest byte of the transmit FIFO has gone out, or a byte has come
in. -/
inductive LineEvent where
  | shift
  | arrive (b : UInt8)

/-- The FIFO each way. -/
structure Line (depth : Nat) where
  tx : Queue UInt8 depth
  rx : Queue UInt8 depth

namespace Line
variable {depth : Nat}

def event (l : Line depth) : LineEvent → Line depth
  | .shift => { l with tx := l.tx.pop }
  | .arrive b => { l with rx := l.rx.push b }

def access (l : Line depth) : UartAccess → Line depth
  | .wrote v => { l with tx := l.tx.push (v &&& 0xFF).toUInt8 }
  | .read .fr _ => l
  | .read .dr _ => { l with rx := l.rx.pop }

/-- The line behind the accesses `log`, where `events` are those between the accesses so far, the
`past`, and the next. -/
def replay (events : List UartAccess → List LineEvent) :
    (past : List UartAccess) → Line depth → (log : List UartAccess) → Line depth
  | _, l, [] => l
  | past, l, a :: log =>
      replay events (past ++ [a]) (((events past).foldl event l).access a) log

/-- The line behind the accesses `h`, and `l` at the start. -/
def behind (l : Line depth) (events : List UartAccess → List LineEvent) (h : List UartAccess) :
    Line depth := replay events [] l h

/-- The line that the next access finds. -/
def found (l : Line depth) (events : List UartAccess → List LineEvent) (h : List UartAccess) :
    Line depth := (events h).foldl event (l.behind events h)

theorem replay_snoc (events : List UartAccess → List LineEvent) (a : UartAccess)
    (log : List UartAccess) : ∀ (past : List UartAccess) (l : Line depth),
      replay events past l (log ++ [a]) =
        ((events (past ++ log)).foldl event (replay events past l log)).access a := by
  induction log with
  | nil =>
      intro past l
      rw [List.append_nil]
      rfl
  | cons b log ih =>
      intro past l
      rw [List.cons_append, replay, ih, replay, List.append_assoc, List.singleton_append]

theorem behind_snoc (l : Line depth) (events : List UartAccess → List LineEvent)
    (h : List UartAccess) (a : UartAccess) :
    l.behind events (h ++ [a]) = (l.found events h).access a := replay_snoc events a h [] l

/-- Events leave what was sent and what was received alone; they make room on the one side, and what
waits on the other stays in front. -/
structure Frame (l l' : Line depth) : Prop where
  taken : l'.tx.taken = l.tx.taken
  lost : l'.tx.lost = l.tx.lost
  gone : l'.rx.gone = l.rx.gone
  room : l.tx.Room → l'.tx.Room
  head : ∀ b, l.rx.items.head? = some b → l'.rx.items.head? = some b

theorem frame_event (l : Line depth) (e : LineEvent) : l.Frame (l.event e) := by
  cases e with
  | shift => exact ⟨Queue.taken_pop _, Queue.lost_pop _, rfl, Queue.room_pop _, fun _ => id⟩
  | arrive b => exact ⟨rfl, rfl, Queue.gone_push _ _, id, fun c h => Queue.head_push _ h b⟩

theorem frame_events (es : List LineEvent) (l : Line depth) : l.Frame (es.foldl event l) := by
  induction es generalizing l with
  | nil => exact ⟨rfl, rfl, rfl, id, fun _ => id⟩
  | cons e es ih =>
      have h := frame_event l e
      have h' := ih (l.event e)
      exact ⟨h'.taken.trans h.taken, h'.lost.trans h.lost, h'.gone.trans h.gone,
        fun hr => h'.room (h.room hr), fun b hb => h'.head b (h.head b hb)⟩

theorem frame_found (l : Line depth) (events : List UartAccess → List LineEvent)
    (h : List UartAccess) : (l.behind events h).Frame (l.found events h) := frame_events _ _

/-- A load of FR changes nothing on the line. -/
theorem behind_flags (l : Line depth) (events : List UartAccess → List LineEvent)
    (h : List UartAccess) (v : UInt32) :
    l.behind events (h ++ [.read .fr v]) = l.found events h := behind_snoc l events h _

end Line

/-- UART0 is on a line: its flags tell whether the transmit FIFO is full and the receive FIFO empty,
and a load of DR gives the oldest byte received.  The other bits of both may be anything. -/
structure OnLine (hw : Uart0) {depth : Nat} (l : Line depth)
    (events : List UartAccess → List LineEvent) : Prop where
  txff : ∀ h, hw.word h .fr &&& uartFrTxff = 0 ↔ (l.found events h).tx.Room
  rxfe : ∀ h, hw.word h .fr &&& uartFrRxfe = 0 ↔ (l.found events h).rx.items ≠ []
  oldest : ∀ h b, (l.found events h).rx.items.head? = some b →
    (hw.word h .dr &&& 0xFF).toUInt8 = b

namespace OnLine
variable {hw : Uart0} {depth : Nat} {l : Line depth} {events : List UartAccess → List LineEvent}
  {h : List UartAccess} {sent got : List UInt8}

/-- **Traffic on a line** loses nothing that is sent, and takes what came in, in order. -/
theorem traffic (hl : OnLine hw l events) (t : hw.Traffic [] sent got h) :
    (l.behind events h).tx.lost = l.tx.lost ∧
      (l.behind events h).tx.taken = l.tx.taken ++ sent ∧
      (l.behind events h).rx.gone = l.rx.gone ++ got := by
  induction t with
  | start => exact ⟨rfl, (List.append_nil _).symm, (List.append_nil _).symm⟩
  | @poll sent got h' t ih =>
      have hf := Line.frame_found l events h'
      rw [Line.behind_flags, hf.taken, hf.lost, hf.gone]
      exact ih
  | @send sent got h' c t hc ih =>
      have hf := Line.frame_found l events h'
      have hpoll := Line.behind_flags l events h' (hw.word h' .fr)
      have hf' := Line.frame_found l events (h' ++ [.read .fr (hw.word h' .fr)])
      rw [hpoll] at hf'
      -- there is room at the poll, and the line has only made more
      have hroom := hf'.room ((hl.txff h').mp hc)
      obtain ⟨hpush, hkept⟩ := Queue.push_room _ hroom (c.toUInt32 &&& 0xFF).toUInt8
      rw [Line.behind_snoc, Line.access]
      refine ⟨?_, ?_, ?_⟩
      · rw [hkept, hf'.lost, hf.lost, ih.1]
      · rw [hpush, hf'.taken, hf.taken, ih.2.1, low_byte, List.append_assoc]
      · rw [hf'.gone, hf.gone, ih.2.2]
  | @take sent got h' v t hc hv ih =>
      have hf := Line.frame_found l events h'
      have hpoll := Line.behind_flags l events h' (hw.word h' .fr)
      have hf' := Line.frame_found l events (h' ++ [.read .fr (hw.word h' .fr)])
      rw [hpoll] at hf'
      -- a byte waits at the poll, and stays the oldest
      obtain ⟨b, rest, hb⟩ := List.exists_cons_of_ne_nil ((hl.rxfe h').mp hc)
      have hhead := hf'.head b (by rw [hb, List.head?_cons])
      have hlow : (v &&& 0xFF).toUInt8 = b := by
        rw [hv]
        exact hl.oldest _ b hhead
      rw [Line.behind_snoc, Line.access]
      refine ⟨?_, ?_, ?_⟩
      · rw [hf'.lost, hf.lost, ih.1]
      · rw [hf'.taken, hf.taken, ih.2.1]
      · rw [Queue.pop_head _ hhead, hf'.gone, hf.gone, ih.2.2, hlow, List.append_assoc]

theorem foundEmpty (hl : OnLine hw l events) (h' : hw.FoundEmpty h) :
    (l.behind events h).rx.items = [] := by
  obtain ⟨h₀, rfl, hf⟩ := h'
  rw [Line.behind_flags]
  by_contra hne
  exact hf ((hl.rxfe h₀).mpr hne)

end OnLine

/-! ### A peripheral for every line -/

/-- The words that tell the truth about a line. -/
def Line.word {depth : Nat} (l : Line depth) (events : List UartAccess → List LineEvent)
    (h : List UartAccess) : UartReg → UInt32
  | .fr => (if (l.found events h).tx.Room then 0 else uartFrTxff) |||
      (if (l.found events h).rx.items = [] then uartFrRxfe else 0)
  | .dr => ((l.found events h).rx.items.headD 0).toUInt32

/-- UART0 on a line where room comes within `patience` polls. -/
def Line.uart {depth : Nat} (l : Line depth) (events : List UartAccess → List LineEvent)
    (patience : List UartAccess → Nat)
    (fair : ∀ h, ∃ k ≤ patience h, (l.found events (uartPolled (l.word events) k h)).tx.Room) :
    Uart0 where
  word := l.word events
  patience := patience
  clears := fun h => by
    obtain ⟨k, hk, hroom⟩ := fair h
    refine ⟨k, hk, ?_⟩
    rw [Line.word, if_pos hroom]
    split <;> decide

theorem onLine_uart {depth : Nat} (l : Line depth) (events : List UartAccess → List LineEvent)
    (patience : List UartAccess → Nat)
    (fair : ∀ h, ∃ k ≤ patience h, (l.found events (uartPolled (l.word events) k h)).tx.Room) :
    OnLine (l.uart events patience fair) l events where
  txff := fun h => by
    show l.word events h .fr &&& uartFrTxff = 0 ↔ _
    rw [Line.word]
    by_cases hr : (l.found events h).tx.Room
    · rw [if_pos hr]
      refine iff_of_true ?_ hr
      split <;> decide
    · rw [if_neg hr]
      refine iff_of_false ?_ hr
      split <;> decide
  rxfe := fun h => by
    show l.word events h .fr &&& uartFrRxfe = 0 ↔ _
    rw [Line.word]
    by_cases he : (l.found events h).rx.items = []
    · rw [if_pos he]
      refine iff_of_false ?_ (not_not.mpr he)
      split <;> decide
    · rw [if_neg he]
      refine iff_of_true ?_ he
      split <;> decide
  oldest := fun h b hb => by
    show (l.word events h .dr &&& 0xFF).toUInt8 = b
    rw [Line.word, List.headD_eq_head?_getD, hb]
    exact low_byte b

theorem length_uartPolled (word : List UartAccess → UartReg → UInt32) (k : Nat) :
    ∀ h, (uartPolled word k h).length = h.length + k := by
  induction k with
  | zero => exact fun h => rfl
  | succ k ih =>
      intro h
      rw [uartPolled, ih, List.length_append, List.length_singleton]
      omega

/-- A byte goes out in front of every third access, and `A` comes in in front of the second. -/
def slowEvents (h : List UartAccess) : List LineEvent :=
  if h.length % 3 = 0 then [.shift] else if h.length = 1 then [.arrive 0x41] else []

theorem slow_fair {depth : Nat} (hd : 0 < depth) (l : Line depth) (h : List UartAccess) :
    ∃ k ≤ 2, (l.found slowEvents (uartPolled (l.word slowEvents) k h)).tx.Room := by
  refine ⟨(2 * h.length) % 3, by omega, ?_⟩
  generalize hp : uartPolled (l.word slowEvents) ((2 * h.length) % 3) h = p
  have hlen : p.length % 3 = 0 := by
    rw [← hp, length_uartPolled]
    omega
  have hev : slowEvents p = [.shift] := if_pos hlen
  rw [Line.found, hev]
  exact Queue.room_of_pop _ hd

/-- UART0 with FIFOs of `depth` bytes, empty at first, on the slow line. -/
def slowUart (depth : Nat) (hd : 0 < depth) : Uart0 :=
  Line.uart ⟨.empty, .empty⟩ slowEvents (fun _ => 2) (slow_fair hd (⟨.empty, .empty⟩ : Line depth))

theorem slowUart_onLine (depth : Nat) (hd : 0 < depth) :
    OnLine (slowUart depth hd) (⟨.empty, .empty⟩ : Line depth) slowEvents :=
  onLine_uart _ _ _ _

/-! ### Any calls -/

/-- **UART0 on a line**, whatever it does and when, under any calls.  No call faults.  No byte is
lost on the way out: what the transmit FIFO takes in are the bytes of the calls, in order.
`uart_try_getc` returns `-1` or a byte, and the bytes it returns are those that leave the receive
FIFO, in order; once it returns `-1`, nothing is left in there. -/
theorem uart_line {hw : Uart0} {depth : Nat} {l : Line depth}
    {events : List UartAccess → List LineEvent} (hl : OnLine hw l events)
    (calls : List UartCall) :
    ∃ (as : List (Option Int)) (h : List UartAccess) (gets : List (Option UInt8)),
      Lockstep.run (UartCall.on hw) [] calls = .ok (as, h) ∧
      as.map Option.isSome = calls.map UartCall.asks ∧
      as.reduceOption = gets.map Uart0.getcResult ∧
      (l.behind events h).tx.lost = l.tx.lost ∧
      (l.behind events h).tx.taken = l.tx.taken ++ calls.flatMap UartCall.bytes ∧
      (l.behind events h).rx.gone = l.rx.gone ++ gets.reduceOption ∧
      (as.getLast? = some (some (-1)) → (l.behind events h).rx.items = []) := by
  obtain ⟨as, h, gets, hrun, hasks, has, t, hlast⟩ := Uart0.run_traffic (.start (h := [])) calls
  obtain ⟨hlost, htaken, hgone⟩ := hl.traffic t
  exact ⟨as, h, gets, hrun, hasks, has, hlost, htaken, hgone, fun h₀ => hl.foundEmpty (hlast h₀)⟩

/-- Twice the FIFO's depth through a slow line, with a byte coming in meanwhile. -/
theorem uart_line_slow :
    OnLine (slowUart 2 (by decide)) (⟨.empty, .empty⟩ : Line 2) slowEvents ∧
      ∃ (as : List (Option Int)) (h : List UartAccess) (gets : List (Option UInt8)),
        Lockstep.run (UartCall.on (slowUart 2 (by decide))) []
            [.write [1, 2, 3, 4], .tryGetc, .puts [0x42, 0, 5], .tryGetc] = .ok (as, h) ∧
          as.map Option.isSome = [false, true, false, true] ∧
          as.reduceOption = gets.map Uart0.getcResult ∧
          ((⟨.empty, .empty⟩ : Line 2).behind slowEvents h).tx.lost = [] ∧
          ((⟨.empty, .empty⟩ : Line 2).behind slowEvents h).tx.taken = [1, 2, 3, 4, 0x42] ∧
          ((⟨.empty, .empty⟩ : Line 2).behind slowEvents h).rx.gone = gets.reduceOption ∧
          (as.getLast? = some (some (-1)) →
            ((⟨.empty, .empty⟩ : Line 2).behind slowEvents h).rx.items = []) :=
  ⟨slowUart_onLine 2 (by decide), uart_line (slowUart_onLine 2 (by decide)) _⟩

end Sharak
