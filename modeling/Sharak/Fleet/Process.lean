import Sharak.Fleet.CommandLine
import Sharak.Fleet.Sessions

/-!
# Fleet — the process

The whole of the fleet simulator's `main`: its arguments, the listening socket, the loops that serve
one client after another (`Server.step`), and its exit, with the file descriptors it has open.  The
kernel answers each system call as it likes, with a descriptor that is not open yet for a new one.
In every run no call is made on a descriptor that is not open, there are never more than two, none is
left behind at the exit, and each session is as the loops make it (`fleet_process`).
-/

namespace Sharak
open Memory

/-! ### System calls -/

/-- The system call the process waits in, with what it needs of its locals; `server` is what the
loops have come to. -/
inductive Stage where
  | socket
  | setsockopt (fd : Int)
  | bind (fd : Int)
  | listen (fd : Int)
  /-- In the loops: the call is the pending one of `server`, and `cli` the client's descriptor. -/
  | serving (srv : Int) (cli : Option Int) (server : Server)
  /-- `close(cli)` in front of the next `accept`. -/
  | closing (srv cli : Int) (server : Server)
  /-- `close(fd)`, the last descriptor, in front of the exit. -/
  | leaving (fd code : Int) (server : Server)
  | exited (code : Int) (server : Server)

/-- The process, and the descriptors it has open. -/
structure Process where
  options : Options
  stage : Stage
  fds : List Int

/-- `main` up to its first system call; `argv[0]` is the name of the program. -/
def fleetMain (argv : List (List UInt8)) : Process :=
  match fleetArgs argv.tail defaultOptions with
  | none => ⟨defaultOptions, .exited 2 .start, []⟩
  | some o => ⟨o, .socket, []⟩

/-- Where the loops go on when they have come to `server`. -/
def Stage.resume (srv : Int) (cli : Option Int) (server : Server) : Stage :=
  match server.pending, cli with
  | .exited, _ => .leaving srv 0 server
  | .accept, some cli => .closing srv cli server
  | _, cli => .serving srv cli server

/-- The pending system call returns. -/
def Process.step (p : Process) (ret : Ret) : Checked Process :=
  match p.stage with
  | .socket =>
      if ret.value < 0 then pure { p with stage := .exited 1 .start }
      else pure { p with stage := .setsockopt ret.value, fds := ret.value :: p.fds }
  | .setsockopt fd => pure { p with stage := .bind fd }
  | .bind fd =>
      if ret.value < 0 then pure { p with stage := .leaving fd 1 .start }
      else pure { p with stage := .listen fd }
  | .listen fd =>
      if ret.value < 0 then pure { p with stage := .leaving fd 1 .start }
      else pure { p with stage := .serving fd none .start }
  | .serving srv cli server => do
      let server' ← server.step ret
      match server.pending with
      | .accept =>
          if ret.value < 0 then pure { p with stage := .resume srv cli server' }
          else
            pure { p with
              stage := .resume srv (some ret.value) server'
              fds := ret.value :: p.fds }
      | _ => pure { p with stage := .resume srv cli server' }
  | .closing srv cli server =>
      pure { p with stage := .serving srv none server, fds := p.fds.erase cli }
  | .leaving fd code server =>
      pure { p with stage := .exited code server, fds := p.fds.erase fd }
  | .exited _ _ => pure p

def Process.run (p : Process) : List Ret → Checked Process
  | [] => pure p
  | ret :: rets => do
      let p ← p.step ret
      p.run rets

/-- The descriptors the pending call is made on. -/
def Process.uses (p : Process) : List Int :=
  match p.stage with
  | .socket => []
  | .setsockopt fd => [fd]
  | .bind fd => [fd]
  | .listen fd => [fd]
  | .serving srv cli server =>
      match server.pending with
      | .accept => [srv]
      -- `-1` is no descriptor
      | .write .. => [cli.getD (-1)]
      | _ => []
  | .closing _ cli _ => [cli]
  | .leaving fd _ _ => [fd]
  | .exited _ _ => []

/-- What the loops have come to. -/
def Process.server (p : Process) : Server :=
  match p.stage with
  | .serving _ _ server => server
  | .closing _ _ server => server
  | .leaving _ _ server => server
  | .exited _ server => server
  | _ => .start

/-- The pending call is `accept`. -/
def Server.accepts (s : Server) : Bool :=
  match s.pending with
  | .accept => true
  | _ => false

/-- The pending call opens a descriptor. -/
def Process.opens (p : Process) : Bool :=
  match p.stage with
  | .socket => true
  | .serving _ _ server => server.accepts
  | _ => false

/-- What the kernel may return: for a new descriptor one that is not open, for a `write` no more than
it was given. -/
def Process.Allows (p : Process) (ret : Ret) : Prop :=
  (p.opens = true → 0 ≤ ret.value → ret.value ∉ p.fds) ∧
    match p.stage with
    | .serving _ _ server => server.Allows ret
    | _ => True

instance (p : Process) (ret : Ret) : Decidable (p.Allows ret) :=
  match p with
  | ⟨_, .serving _ _ _, _⟩ => inferInstanceAs (Decidable (_ ∧ _))
  | ⟨_, .socket, _⟩ => inferInstanceAs (Decidable (_ ∧ True))
  | ⟨_, .setsockopt _, _⟩ => inferInstanceAs (Decidable (_ ∧ True))
  | ⟨_, .bind _, _⟩ => inferInstanceAs (Decidable (_ ∧ True))
  | ⟨_, .listen _, _⟩ => inferInstanceAs (Decidable (_ ∧ True))
  | ⟨_, .closing _ _ _, _⟩ => inferInstanceAs (Decidable (_ ∧ True))
  | ⟨_, .leaving _ _ _, _⟩ => inferInstanceAs (Decidable (_ ∧ True))
  | ⟨_, .exited _ _, _⟩ => inferInstanceAs (Decidable (_ ∧ True))

def Process.Lawful (p : Process) : List Ret → Prop
  | [] => True
  | ret :: rets => p.Allows ret ∧ ∀ p', p.step ret = .ok p' → p'.Lawful rets

instance Process.decidableLawful : (p : Process) → (rets : List Ret) → Decidable (p.Lawful rets)
  | _, [] => isTrue trivial
  | p, ret :: rets =>
      match h : p.step ret with
      | .ok p' =>
          have := decidableLawful p' rets
          decidable_of_iff (p.Allows ret ∧ p'.Lawful rets)
            ⟨fun ⟨ha, hl⟩ => ⟨ha, fun p₁ h₁ => Except.ok.inj (h.symm.trans h₁) ▸ hl⟩,
              fun ⟨ha, hl⟩ => ⟨ha, hl p' h⟩⟩
      | .error _ =>
          decidable_of_iff (p.Allows ret)
            ⟨fun ha => ⟨ha, fun p₁ h₁ => by rw [h] at h₁; cases h₁⟩, And.left⟩

/-! ### The loops -/

theorem writeLoop_stays (s : Server) (c : Session) (frame : Slice UInt8) (n off : Int) :
    (s.writeLoop c frame n off).pending ≠ .exited := by
  unfold Server.writeLoop
  split
  · exact Pending.noConfusion
  · unfold Server.sent
    split <;> exact Pending.noConfusion

theorem stream_stays {s s' : Server} {c : Session} (h : s.stream c = .ok s') :
    s'.pending ≠ .exited := by
  unfold Server.stream at h
  obtain ⟨a, -, h⟩ := bind_eq_ok h
  obtain ⟨⟨n, frame⟩, -, h⟩ := bind_eq_ok h
  dsimp only at h
  by_cases hn : n < 0
  · rw [if_pos hn] at h
    cases h
    exact Pending.noConfusion
  · rw [if_neg hn] at h
    cases h
    exact writeLoop_stays _ _ _ _ _

/-- The loops are left on an error of `accept` only. -/
theorem step_stays {s s' : Server} {ret : Ret} (h : s.step ret = .ok s')
    (hp : s.pending ≠ .exited) (ha : s.pending = .accept → 0 ≤ ret.value) :
    s'.pending ≠ .exited := by
  unfold Server.step at h
  cases hpend : s.pending with
  | exited => exact absurd hpend hp
  | accept =>
      rw [hpend] at h
      dsimp only at h
      rw [if_neg (by have := ha hpend; omega)] at h
      exact stream_stays h
  | usleep c =>
      rw [hpend] at h
      exact stream_stays h
  | write c frame n off =>
      rw [hpend] at h
      dsimp only at h
      by_cases hv : ret.value ≤ 0
      · rw [if_pos hv] at h
        cases h
        exact Pending.noConfusion
      · rw [if_neg hv] at h
        obtain ⟨built, -, h⟩ := bind_eq_ok h
        cases h
        exact writeLoop_stays _ _ _ _ _

/-! ### Descriptors -/

/-- The descriptors that are open in the loops: the client's while there is one. -/
def Pending.Holds (srv : Int) (cli : Option Int) (fds : List Int) : Pending → Prop
  | .exited => False
  | .accept => cli = none ∧ fds = [srv]
  | _ => ∃ fd, cli = some fd ∧ fd ≠ srv ∧ fds = [fd, srv]

/-- The descriptors that are open in each stage. -/
def Stage.Holds (fds : List Int) : Stage → Prop
  | .socket => fds = []
  | .setsockopt fd => fds = [fd]
  | .bind fd => fds = [fd]
  | .listen fd => fds = [fd]
  | .serving srv cli server => server.pending.Holds srv cli fds
  | .closing srv cli server => server.pending = .accept ∧ cli ≠ srv ∧ fds = [cli, srv]
  | .leaving fd code _ => (code = 0 ∨ code = 1) ∧ fds = [fd]
  | .exited code _ => (code = 0 ∨ code = 1) ∧ fds = []

/-- What holds of a process that was started with settings. -/
structure Process.Tidy (p : Process) : Prop where
  rate : 1 ≤ p.options.rate
  sound : ∃ attempts, p.server.Sound attempts
  holds : p.stage.Holds p.fds

/-- The loops go on with a client. -/
theorem holds_resume {srv cli : Int} {server : Server} (hne : cli ≠ srv)
    (hp : server.pending ≠ .exited) :
    (Stage.resume srv (some cli) server).Holds [cli, srv] := by
  unfold Stage.resume
  cases hpend : server.pending with
  | exited => exact absurd hpend hp
  | accept => exact ⟨hpend, hne, rfl⟩
  | write c frame n off =>
      show Pending.Holds srv (some cli) [cli, srv] server.pending
      rw [hpend]
      exact ⟨cli, rfl, hne, rfl⟩
  | usleep c =>
      show Pending.Holds srv (some cli) [cli, srv] server.pending
      rw [hpend]
      exact ⟨cli, rfl, hne, rfl⟩

theorem server_resume (o : Options) (srv : Int) (cli : Option Int) (server : Server)
    (fds : List Int) : (⟨o, .resume srv cli server, fds⟩ : Process).server = server := by
  unfold Stage.resume
  split <;> rfl

/-- An error of `accept`: it is called again, or the loops are left. -/
theorem accept_failed {server : Server} {ret : Ret} (hp : server.pending = .accept)
    (hv : ret.value < 0) :
    (server.step ret = .ok server) ∨ server.step ret = .ok { server with pending := .exited } := by
  unfold Server.step
  rw [hp]
  dsimp only
  rw [if_pos hv]
  by_cases he : ret.errno = eintr
  · rw [if_pos he]
    exact Or.inl rfl
  · rw [if_neg he]
    exact Or.inr rfl

/-- And they go on without one. -/
theorem holds_waiting {srv : Int} {server : Server} (hp : server.pending = .accept) :
    (Stage.resume srv none server).Holds [srv] := by
  unfold Stage.resume
  rw [hp]
  show Pending.Holds srv none [srv] server.pending
  rw [hp]
  exact ⟨rfl, rfl⟩

/-- A call of the loops returns. -/
theorem serving_tidy {o : Options} {srv : Int} {cli : Option Int} {server : Server}
    {fds : List Int} (h : (⟨o, .serving srv cli server, fds⟩ : Process).Tidy) {ret : Ret}
    (ha : (⟨o, .serving srv cli server, fds⟩ : Process).Allows ret) :
    ∃ p', (⟨o, .serving srv cli server, fds⟩ : Process).step ret = .ok p' ∧ p'.Tidy := by
  obtain ⟨hrate, ⟨attempts, hsound⟩, hholds⟩ := h
  obtain ⟨hopens, hserver⟩ := ha
  obtain ⟨server', attempts', hstep, hsound'⟩ := step_sound hsound hserver
  change server.step ret = .ok server' at hstep
  change server.pending.Holds srv cli fds at hholds
  unfold Process.step
  dsimp only
  rw [hstep, ok_bind]
  cases hpend : server.pending with
  | exited => rw [hpend] at hholds; exact hholds.elim
  | accept =>
      rw [hpend] at hholds
      obtain ⟨rfl, rfl⟩ := hholds
      dsimp only
      by_cases hv : ret.value < 0
      · rw [if_pos hv]
        refine ⟨_, rfl, hrate, ⟨attempts', by rw [server_resume]; exact hsound'⟩, ?_⟩
        rcases accept_failed hpend hv with hsame | hleft
        · obtain rfl : server = server' := Except.ok.inj (hsame.symm.trans hstep)
          exact holds_waiting hpend
        · obtain rfl := Except.ok.inj (hleft.symm.trans hstep)
          exact ⟨Or.inl rfl, rfl⟩
      · rw [if_neg hv]
        have hopen : server.accepts = true := by
          unfold Server.accepts
          rw [hpend]
        have hnew : ret.value ∉ [srv] := hopens hopen (by omega)
        refine ⟨_, rfl, hrate, ⟨attempts', by rw [server_resume]; exact hsound'⟩, ?_⟩
        exact holds_resume (fun he => hnew (List.mem_singleton.mpr he))
          (step_stays hstep (by rw [hpend]; exact Pending.noConfusion) (fun _ => by omega))
  | write c frame n off =>
      rw [hpend] at hholds
      obtain ⟨fd, rfl, hne, rfl⟩ := hholds
      refine ⟨_, rfl, hrate, ⟨attempts', by rw [server_resume]; exact hsound'⟩, ?_⟩
      exact holds_resume hne (step_stays hstep (by rw [hpend]; exact Pending.noConfusion)
        (fun h => by rw [hpend] at h; cases h))
  | usleep c =>
      rw [hpend] at hholds
      obtain ⟨fd, rfl, hne, rfl⟩ := hholds
      refine ⟨_, rfl, hrate, ⟨attempts', by rw [server_resume]; exact hsound'⟩, ?_⟩
      exact holds_resume hne (step_stays hstep (by rw [hpend]; exact Pending.noConfusion)
        (fun h => by rw [hpend] at h; cases h))

/-! ### Runs -/

/-- **One system call.** -/
theorem step_tidy {p : Process} (h : p.Tidy) {ret : Ret} (ha : p.Allows ret) :
    ∃ p', p.step ret = .ok p' ∧ p'.Tidy := by
  obtain ⟨o, stage, fds⟩ := p
  have hrate := h.rate
  have hsound := h.sound
  have hholds := h.holds
  cases stage with
  | socket =>
      obtain rfl : fds = [] := hholds
      by_cases hv : ret.value < 0
      · exact ⟨_, if_pos hv, hrate, hsound, Or.inr rfl, rfl⟩
      · exact ⟨_, if_neg hv, hrate, hsound, rfl⟩
  | setsockopt fd => exact ⟨_, rfl, hrate, hsound, hholds⟩
  | bind fd =>
      by_cases hv : ret.value < 0
      · exact ⟨_, if_pos hv, hrate, hsound, Or.inr rfl, hholds⟩
      · exact ⟨_, if_neg hv, hrate, hsound, hholds⟩
  | listen fd =>
      by_cases hv : ret.value < 0
      · exact ⟨_, if_pos hv, hrate, hsound, Or.inr rfl, hholds⟩
      · exact ⟨_, if_neg hv, hrate, hsound, rfl, hholds⟩
  | serving srv cli server => exact serving_tidy h ha
  | closing srv cli server =>
      obtain ⟨hp, hne, rfl⟩ := hholds
      refine ⟨_, rfl, hrate, hsound, ?_⟩
      show Pending.Holds srv none ([cli, srv].erase cli) server.pending
      rw [hp, List.erase_cons_head]
      exact ⟨rfl, rfl⟩
  | leaving fd code server =>
      obtain ⟨hcode, rfl⟩ := hholds
      exact ⟨_, rfl, hrate, hsound, hcode, List.erase_cons_head fd []⟩
  | exited code server => exact ⟨_, rfl, h⟩

theorem run_tidy {p : Process} (h : p.Tidy) {rets : List Ret} (hl : p.Lawful rets) :
    ∃ p', p.run rets = .ok p' ∧ p'.Tidy := by
  induction rets generalizing p with
  | nil => exact ⟨p, rfl, h⟩
  | cons ret rets ih =>
      obtain ⟨p₁, hstep, h₁⟩ := step_tidy h hl.1
      obtain ⟨p₂, hrun, h₂⟩ := ih h₁ (hl.2 p₁ hstep)
      exact ⟨p₂, by rw [Process.run, hstep, ok_bind, hrun], h₂⟩

/-- A process that has exited stays as it is. -/
theorem run_exited {o : Options} {code : Int} {server : Server} {fds : List Int}
    (rets : List Ret) :
    (⟨o, .exited code server, fds⟩ : Process).run rets = .ok ⟨o, .exited code server, fds⟩ := by
  induction rets with
  | nil => rfl
  | cons ret rets ih => exact ih

/-- Every call is on descriptors that are open; these are different, and two at most. -/
theorem holds_uses {p : Process} (h : p.stage.Holds p.fds) :
    (∀ fd ∈ p.uses, fd ∈ p.fds) ∧ p.fds.Nodup ∧ p.fds.length ≤ 2 := by
  obtain ⟨o, stage, fds⟩ := p
  cases stage with
  | socket =>
      obtain rfl : fds = [] := h
      simp [Process.uses]
  | setsockopt fd =>
      obtain rfl : fds = [fd] := h
      simp [Process.uses]
  | bind fd =>
      obtain rfl : fds = [fd] := h
      simp [Process.uses]
  | listen fd =>
      obtain rfl : fds = [fd] := h
      simp [Process.uses]
  | closing srv cli server =>
      obtain ⟨-, hne, rfl⟩ := h
      simp [Process.uses, hne]
  | leaving fd code server =>
      obtain ⟨-, rfl⟩ := h
      simp [Process.uses]
  | exited code server =>
      obtain ⟨-, rfl⟩ := h
      simp [Process.uses]
  | serving srv cli server =>
      change server.pending.Holds srv cli fds at h
      unfold Process.uses
      dsimp only
      cases hpend : server.pending with
      | exited => rw [hpend] at h; exact h.elim
      | accept =>
          rw [hpend] at h
          obtain ⟨rfl, rfl⟩ := h
          simp
      | write c frame n off =>
          rw [hpend] at h
          obtain ⟨fd, rfl, hne, rfl⟩ := h
          simp [hne]
      | usleep c =>
          rw [hpend] at h
          obtain ⟨fd, rfl, hne, rfl⟩ := h
          simp [hne]

/-- Settings make a process that is tidy. -/
theorem fleetMain_tidy {argv : List (List UInt8)} {o : Options}
    (h : fleetArgs argv.tail defaultOptions = some o) : (fleetMain argv).Tidy := by
  have hrate : 1 ≤ o.rate := by
    obtain ⟨settings, hargs⟩ := settings_of_fleetArgs h
    rw [hargs, fleetArgs_settings] at h
    cases h
    exact rate_pos settings (by decide)
  unfold fleetMain
  rw [h]
  exact ⟨hrate, ⟨0, sound_start⟩, rfl⟩

/-- What a client of sound loops makes of its bytes. -/
theorem sound_delivered {server : Server} {attempts : Nat} (h : server.Sound attempts)
    {c : Session} (hc : c ∈ server.sessions) :
    ∃ first count lost t, c.Streams first count lost t ∧
      ∀ (st : SkDecoder) (out : List UInt8), skPayloadMax ≤ out.length →
        ∃ r, feedAll (skDecoderInit (some st)) (.mem out) c.bytes = .ok r ∧
          reports r.calls = (List.range' first count).map fun m =>
            (fleetPayload (UInt32.ofNat m)).report := by
  obtain ⟨first, count, lost, t, hst⟩ := h.session hc
  exact ⟨first, count, lost, t, hst, fun st out ho => hst.delivered st (.of_mem ho)⟩

/-- **The process**, for any arguments and any run of system calls.  It never calls on a descriptor
that is not open, has at most two open, and none when it exits, with `2` exactly if the arguments are
refused.  The rate it divides by is positive; no frame fails to encode; the sessions' phases are all
phases in order; and each client has received whole frames of consecutive phases and the torn start
of one more, of which a fresh decoder reports the whole ones and nothing else. -/
theorem fleet_process (argv : List (List UInt8)) (rets : List Ret)
    (hl : (fleetMain argv).Lawful rets) :
    ∃ p, (fleetMain argv).run rets = .ok p ∧
      (∀ fd ∈ p.uses, fd ∈ p.fds) ∧ p.fds.Nodup ∧ p.fds.length ≤ 2 ∧
      (∀ code server, p.stage = .exited code server →
        p.fds = [] ∧ (code = 2 ↔ fleetArgs argv.tail defaultOptions = none)) ∧
      1 ≤ p.options.rate ∧ p.server.encodeErrors = [] ∧
      (∃ attempts, p.server.sessions.flatMap Session.phases =
        (List.range attempts).map UInt32.ofNat) ∧
      ∀ c ∈ p.server.sessions, ∃ first count lost t, c.Streams first count lost t ∧
        ∀ (st : SkDecoder) (out : List UInt8), skPayloadMax ≤ out.length →
          ∃ r, feedAll (skDecoderInit (some st)) (.mem out) c.bytes = .ok r ∧
            reports r.calls = (List.range' first count).map fun m =>
              (fleetPayload (UInt32.ofNat m)).report := by
  cases hargs : fleetArgs argv.tail defaultOptions with
  | none =>
      have hmain : fleetMain argv = ⟨defaultOptions, .exited 2 .start, []⟩ := by
        unfold fleetMain
        rw [hargs]
      refine ⟨_, by rw [hmain]; exact run_exited rets, ?_⟩
      refine ⟨fun fd hfd => hfd, List.nodup_nil, Nat.zero_le 2, ?_, by decide, rfl, ⟨0, rfl⟩,
        fun c hc => sound_delivered sound_start hc⟩
      intro code server hexit
      cases hexit
      exact ⟨rfl, iff_of_true rfl rfl⟩
  | some o =>
      obtain ⟨p, hrun, hp⟩ := run_tidy (fleetMain_tidy hargs) hl
      obtain ⟨attempts, hsound⟩ := hp.sound
      obtain ⟨huses, hnodup, htwo⟩ := holds_uses hp.holds
      refine ⟨p, hrun, huses, hnodup, htwo, ?_, hp.rate, hsound.clean, ⟨attempts, hsound.phases⟩,
        fun c hc => sound_delivered hsound hc⟩
      intro code server hexit
      have hholds := hp.holds
      rw [hexit] at hholds
      obtain ⟨hcode, hnone⟩ := hholds
      refine ⟨hnone, iff_of_false ?_ (Option.some_ne_none o)⟩
      omega

/-- Two clients, at a rate of ten a second: one leaves in its second frame, the other in its first;
`accept` is interrupted, then fails. -/
def twoVisits : List Ret :=
  [⟨3, 0⟩, ⟨0, 0⟩, ⟨0, 0⟩, ⟨0, 0⟩, ⟨4, 0⟩, ⟨20, 0⟩, ⟨0, 0⟩, ⟨5, 0⟩, ⟨-1, 32⟩, ⟨0, 0⟩, ⟨-1, 4⟩, ⟨4, 0⟩,
    ⟨-1, 32⟩, ⟨0, 0⟩, ⟨-1, 9⟩, ⟨0, 0⟩]

theorem fleet_process_two :
    (fleetMain [ascii "fleet_node", rateFlag, decimal 10]).Lawful twoVisits ∧
      ∃ p, (fleetMain [ascii "fleet_node", rateFlag, decimal 10]).run twoVisits = .ok p ∧
        (∀ fd ∈ p.uses, fd ∈ p.fds) ∧ p.fds = [] ∧
        (∀ code server, p.stage = .exited code server → code ≠ 2) ∧
        1 ≤ p.options.rate ∧ p.server.encodeErrors = [] ∧ p.server.sessions.length = 2 ∧
        (∃ attempts, p.server.sessions.flatMap Session.phases =
          (List.range attempts).map UInt32.ofNat) ∧
        ∀ c ∈ p.server.sessions, ∃ first count lost t, c.Streams first count lost t ∧
          ∀ (st : SkDecoder) (out : List UInt8), skPayloadMax ≤ out.length →
            ∃ r, feedAll (skDecoderInit (some st)) (.mem out) c.bytes = .ok r ∧
              reports r.calls = (List.range' first count).map fun m =>
                (fleetPayload (UInt32.ofNat m)).report := by
  have hl : (fleetMain [ascii "fleet_node", rateFlag, decimal 10]).Lawful twoVisits := by
    decide +kernel
  have hend : ((fleetMain [ascii "fleet_node", rateFlag, decimal 10]).run twoVisits).toOption.map
      (fun p => (p.fds, p.server.sessions.length)) = some ([], 2) := by decide +kernel
  have hargs : fleetArgs [rateFlag, decimal 10] defaultOptions ≠ none := by decide +kernel
  obtain ⟨p, hrun, huses, -, -, hexit, hrate, hclean, hphases, hclients⟩ := fleet_process _ _ hl
  rw [hrun] at hend
  obtain ⟨hfds, hlen⟩ := Prod.mk.inj (Option.some.inj hend)
  refine ⟨hl, p, hrun, huses, hfds, ?_, hrate, hclean, hlen, hphases, hclients⟩
  intro code server hstage hcode
  exact hargs ((hexit code server hstage).2.mp hcode)

end Sharak
