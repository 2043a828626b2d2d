import Sharak.Protocol.Definitions

/-!
# Fleet — Definitions

The fleet simulator: the signal and the frames of `fleet_node.c`, and the loops of `fleet_main.c`
that accept one client after another and stream frames to each.  The server stops at every system
call it makes and goes on when the call returns (`Server.step`), so a run is a list of what the
calls returned.  Each session records the phases it has sampled and the bytes its client has
received.
-/

namespace Sharak
open Memory

/-! ### Signal and frames -/

/-- The wobble table, in milli-g. -/
def fleetWobble : Vector Int32 8 := #v[0, 5, 8, 5, 0, -5, -8, -5]

/-- What `fleet_sample` leaves behind its four out-pointers. -/
structure FleetSample where
  seq : UInt16
  xMg : Int32
  yMg : Int32
  zMg : Int32
deriving DecidableEq, Repr

def fleetSample (phase : UInt32) : Checked FleetSample := do
  let x ← load fleetWobble (phase % 8).toNat
  let y ← load fleetWobble ((phase + 2) % 8).toNat
  pure { seq := (phase &&& 0xFFFF).toUInt16, xMg := x, yMg := y, zMg := 1000 }

def fleetBuildFrame (seq : UInt16) (xMg yMg zMg : Int32) (out : Slice UInt8) :
    Checked (Int × Slice UInt8) := do
  -- `payload` is indeterminate at entry; packing fills all of it
  let (plen, payload) ← skPayloadPack (.mem (List.replicate skPayloadLen 0)) seq xMg yMg zMg
  if plen < 0 then pure (plen, out)
  else do skFrameEncode (← payload.pass plen.toNat) out

/-! ### The server -/

/-- One client's session: the phases sampled for it, and the bytes it has received. -/
structure Session where
  phases : List UInt32
  bytes : List UInt8
deriving DecidableEq, Repr

/-- The system call the server waits in, with the locals that are live across it. -/
inductive Pending where
  | accept
  /-- `write(cli, frame + off, n - off)`. -/
  | write (client : Session) (frame : Slice UInt8) (n off : Int)
  | usleep (client : Session)
  /-- `main` has left the accept loop. -/
  | exited

def Pending.client : Pending → Option Session
  | .accept => none
  | .write client _ _ _ => some client
  | .usleep client => some client
  | .exited => none

/-- The state of `main`: `phase`, the clients that have left, oldest first, the pending system
call, and the codes of the encode errors reported. -/
structure Server where
  phase : UInt32
  served : List Session
  pending : Pending
  encodeErrors : List Int

def Server.start : Server := ⟨0, [], .accept, []⟩

/-- The sessions in the order of their `accept`s, the running one last. -/
def Server.sessions (s : Server) : List Session := s.served ++ s.pending.client.toList

/-- What a system call returns, and `errno`. -/
structure Ret where
  value : Int
  errno : Int
deriving DecidableEq, Repr

def eintr : Int := 4

/-- `close(cli)`, and back to `accept`. -/
def Server.disconnect (s : Server) (client : Session) : Server :=
  { s with served := s.served ++ [client], pending := .accept }

/-- Behind the write loop; `off` is negative when the client is gone. -/
def Server.sent (s : Server) (client : Session) (off : Int) : Server :=
  if off < 0 then s.disconnect client else { s with pending := .usleep client }

/-- The test of the write loop. -/
def Server.writeLoop (s : Server) (client : Session) (frame : Slice UInt8) (n off : Int) : Server :=
  if off < n then { s with pending := .write client frame n off } else s.sent client off

/-- A turn of the stream loop, from its top to its first system call. -/
def Server.stream (s : Server) (client : Session) : Checked Server := do
  let a ← fleetSample s.phase
  let client := { client with phases := client.phases ++ [s.phase] }
  let s := { s with phase := s.phase + 1 }
  let (n, frame) ← fleetBuildFrame a.seq a.xMg a.yMg a.zMg (.mem (List.replicate skFrameMax 0))
  if n < 0 then
    pure ({ s with encodeErrors := s.encodeErrors ++ [n] }.disconnect client)
  else pure (s.writeLoop client frame n 0)

/-- The pending system call returns. -/
def Server.step (s : Server) (ret : Ret) : Checked Server :=
  match s.pending with
  | .exited => pure s
  | .accept =>
      if ret.value < 0 then
        if ret.errno = eintr then pure s else pure { s with pending := .exited }
      else s.stream ⟨[], []⟩
  | .write client frame n off =>
      if ret.value ≤ 0 then pure (s.sent client (-1))
      else do
        -- the kernel took the first `ret.value` of the `n - off` bytes it was given
        let built ← frame.pass n.toNat
        let taken := (built.cells.drop off.toNat).take ret.value.toNat
        pure (s.writeLoop { client with bytes := client.bytes ++ taken } frame n (off + ret.value))
  | .usleep client => s.stream client

def Server.run (s : Server) : List Ret → Checked Server
  | [] => pure s
  | ret :: rets => do
      let s ← s.step ret
      s.run rets

/-- `write` takes no more than it is given. -/
def Server.Allows (s : Server) (ret : Ret) : Prop :=
  match s.pending with
  | .write _ _ n off => ret.value ≤ n - off
  | _ => True

instance (s : Server) (ret : Ret) : Decidable (s.Allows ret) :=
  match s with
  | ⟨_, _, .accept, _⟩ => isTrue trivial
  | ⟨_, _, .write _ _ n off, _⟩ => inferInstanceAs (Decidable (ret.value ≤ n - off))
  | ⟨_, _, .usleep _, _⟩ => isTrue trivial
  | ⟨_, _, .exited, _⟩ => isTrue trivial

/-- Every call of the run returns what it may return. -/
def Server.Lawful (s : Server) : List Ret → Prop
  | [] => True
  | ret :: rets => s.Allows ret ∧ ∀ s', s.step ret = .ok s' → s'.Lawful rets

instance Server.decidableLawful : (s : Server) → (rets : List Ret) → Decidable (s.Lawful rets)
  | _, [] => isTrue trivial
  | s, ret :: rets =>
      match h : s.step ret with
      | .ok s' =>
          have := decidableLawful s' rets
          decidable_of_iff (s.Allows ret ∧ s'.Lawful rets)
            ⟨fun ⟨ha, hl⟩ => ⟨ha, fun s₁ h₁ => Except.ok.inj (h.symm.trans h₁) ▸ hl⟩,
              fun ⟨ha, hl⟩ => ⟨ha, hl s' h⟩⟩
      | .error _ =>
          decidable_of_iff (s.Allows ret)
            ⟨fun ha => ⟨ha, fun s₁ h₁ => by rw [h] at h₁; cases h₁⟩, And.left⟩

end Sharak
