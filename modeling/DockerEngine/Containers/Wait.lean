import DockerEngine.Lib.Filepath
import DockerEngine.Lib.GoMap
import DockerEngine.Lib.Trace

/-!
# Waiting for a container

`State` of `daemon/state.go`: the transitions `SetRunning`, `SetStopped` and `SetRestarting`, and the
calls `WaitRunning` and `WaitStop` that wait for one. Every transition closes the channel the waiting
calls hold and makes a new one. A call takes the lock twice, once to read the channel and once more,
after it was woken, to read the result; anything may happen in between.

`waitStop_first_stop` says when `WaitStop` returns the exit code of the first stop after it was called:
as long as nothing is written over that code before the call has read it, and no start wakes a call
that waits for a stop. `waitStop_overwritten` has runs where it does not.

Channels are numbered in the order they are made, so that one is closed exactly when the state has a
later one. A lock is held for the whole of a transition or of a read, so each is one step.
-/

namespace DockerEngine.Containers.Wait

open Filepath Trace Option

/-! ## The state and its transitions -/

/-- `execdriver.ExitStatus`. -/
structure ExitStatus where
  exitCode : Int
  oomKilled : Bool
  deriving DecidableEq, Repr

/-- `State`, without the times. -/
structure State where
  running : Bool
  paused : Bool
  restarting : Bool
  oomKilled : Bool
  pid : Int
  exitCode : Int
  error : Str
  waitChan : Nat
  deriving DecidableEq, Repr

/-- `setRunning`. -/
def State.setRunning (s : State) (pid : Int) : State :=
  { s with error := [], running := true, paused := false, restarting := false, exitCode := 0,
           pid := pid, waitChan := s.waitChan + 1 }

/-- `setStopped`. -/
def State.setStopped (s : State) (e : ExitStatus) : State :=
  { s with running := false, restarting := false, pid := 0, exitCode := e.exitCode,
           oomKilled := e.oomKilled, waitChan := s.waitChan + 1 }

/-- `SetRestarting`: a container that restarts counts as running. -/
def State.setRestarting (s : State) (e : ExitStatus) : State :=
  { s with running := true, restarting := true, pid := 0, exitCode := e.exitCode,
           oomKilled := e.oomKilled, waitChan := s.waitChan + 1 }

/-! ## Calls that wait -/

/-- What a call waits for: `WaitRunning` or `WaitStop`. -/
inductive Kind where
  | running | stop
  deriving DecidableEq, Repr

/-- Where a call is: it holds a channel, it has received from it, or it has returned. -/
inductive Call where
  | waiting (k : Kind) (chan : Nat) (timeout : Int)
  | woken (k : Kind)
  | returned (k : Kind) (v : Int)
  | timedOut
  deriving DecidableEq, Repr

/-- A state and the calls on it, by number. -/
structure Sys where
  state : State
  calls : GoMap Nat Call

/-- What happens next: a transition, or a step of a call. -/
inductive Label where
  | setRunning (pid : Int)
  | setStopped (e : ExitStatus)
  | setRestarting (e : ExitStatus)
  | waitRunning (w : Nat) (timeout : Int)
  | waitStop (w : Nat) (timeout : Int)
  | wake (w : Nat)
  | expire (w : Nat)
  | finish (w : Nat)
  deriving DecidableEq, Repr

/-- The first part of `WaitRunning` and `WaitStop`: return at once, or take the channel. -/
def Sys.call (s : Sys) (w : Nat) (k : Kind) (timeout : Int) (done : Bool) (v : Int) : Option Sys :=
  if s.calls.get w ≠ none then none
  else if done then some { s with calls := s.calls.set w (.returned k v) }
  else some { s with calls := s.calls.set w (.waiting k s.state.waitChan timeout) }

/-- One step. A call with a negative timeout does not expire. -/
def step (s : Sys) : Label → Option Sys
  | .setRunning pid => some { s with state := s.state.setRunning pid }
  | .setStopped e => some { s with state := s.state.setStopped e }
  | .setRestarting e => some { s with state := s.state.setRestarting e }
  | .waitRunning w timeout => s.call w .running timeout s.state.running s.state.pid
  | .waitStop w timeout => s.call w .stop timeout (!s.state.running) s.state.exitCode
  | .wake w =>
    match s.calls.get w with
    | some (.waiting k chan _) =>
      if chan < s.state.waitChan then some { s with calls := s.calls.set w (.woken k) } else none
    | _ => none
  | .expire w =>
    match s.calls.get w with
    | some (.waiting _ _ timeout) =>
      if 0 ≤ timeout then some { s with calls := s.calls.set w .timedOut } else none
    | _ => none
  | .finish w =>
    match s.calls.get w with
    | some (.woken .running) => some { s with calls := s.calls.set w (.returned .running s.state.pid) }
    | some (.woken .stop) => some { s with calls := s.calls.set w (.returned .stop s.state.exitCode) }
    | _ => none

/-! ## Stops -/

/-- The exit code a transition is given, if it is a stop. -/
def Label.stops : Label → Option Int
  | .setStopped e => some e.exitCode
  | .setRestarting e => some e.exitCode
  | _ => none

/-- The exit code a transition writes. -/
def Label.writes : Label → Option Int
  | .setRunning _ => some 0
  | l => l.stops

/-- The exit code of the first stop in a run. -/
def firstStop : List Label → Option Int
  | [] => none
  | l :: ls => l.stops.or (firstStop ls)

theorem firstStop_append (ls ls' : List Label) : firstStop (ls ++ ls') = (firstStop ls).or (firstStop ls') := by
  induction ls with
  | nil => rfl
  | cons l ls ih => rw [List.cons_append, firstStop, firstStop, ih, Option.or_assoc]

/-- A call of `WaitStop` that waits and whose channel is open. -/
def Call.Ahead (waitChan : Nat) : Call → Prop
  | .waiting .stop chan _ => waitChan ≤ chan
  | _ => False

/-- A call of `WaitStop` that has been woken, or can be, and has not read the exit code. -/
def Call.Behind (waitChan : Nat) : Call → Prop
  | .waiting .stop chan _ => chan < waitChan
  | .woken .stop => True
  | _ => False

instance (waitChan : Nat) (c : Call) : Decidable (c.Ahead waitChan) := by
  unfold Call.Ahead
  split <;> infer_instance

instance (waitChan : Nat) (c : Call) : Decidable (c.Behind waitChan) := by
  unfold Call.Behind
  split <;> infer_instance

/-- A transition does not disturb the calls of `WaitStop`: it writes no other exit code before a woken
call has read the one that is there, and it is no start while a call waits. -/
def Undisturbed (s : Sys) (l : Label) : Prop :=
  ∀ v, l.writes = some v → ∀ e ∈ s.calls.entries,
    (e.2.Behind s.state.waitChan → v = s.state.exitCode) ∧
    (l.stops = none → ¬ e.2.Ahead s.state.waitChan)

/-- What a call of `WaitStop` will return, after the labels `ls` since it took its channel. -/
def Expects (s : Sys) (ls : List Label) : Call → Prop
  | .waiting .stop chan _ => if chan < s.state.waitChan then firstStop ls = some s.state.exitCode
      else firstStop ls = none ∧ chan = s.state.waitChan
  | .woken .stop => firstStop ls = some s.state.exitCode
  | .returned .stop v => firstStop ls = some v
  | _ => True

variable {s s' : Sys} {ls : List Label} {l : Label} {c : Call}

/-- A transition keeps what a call expects, if it disturbs none. -/
theorem expects_transition {v : Int} (hw : l.writes = some v) (hv : s'.state.exitCode = v)
    (hchan : s'.state.waitChan = s.state.waitChan + 1)
    (hbehind : c.Behind s.state.waitChan → v = s.state.exitCode)
    (hahead : l.stops = none → ¬ c.Ahead s.state.waitChan) (h : Expects s ls c) :
    Expects s' (ls ++ [l]) c := by
  have hkept : ∀ x, firstStop ls = some x → firstStop (ls ++ [l]) = some x := by
    intro x hx
    rw [firstStop_append, hx]
    rfl
  match c with
  | .waiting .stop chan timeout =>
    rw [Expects] at h ⊢
    split at h
    next hlt =>
      rw [if_pos (by omega), hv, hbehind hlt]
      exact hkept _ h
    next hnlt =>
      -- the channel was open: this transition is the first one, and a stop
      obtain ⟨hnone, rfl⟩ := h
      rw [if_pos (by omega), firstStop_append, hnone]
      cases hs : l.stops with
      | none => exact absurd (Nat.le_refl _) (hahead hs)
      | some x =>
        have hwx : l.writes = l.stops := by
          cases l with
          | setRunning pid => cases hs
          | _ => rfl
        rw [hwx, hs] at hw
        simp only [firstStop, hs, none_or, some_or, hv]
        exact hw
  | .woken .stop =>
    rw [Expects, hv, hbehind trivial]
    exact hkept _ h
  | .returned .stop x => exact hkept x h
  | .waiting .running _ _ | .woken .running | .returned .running _ | .timedOut => trivial

/-- A step of a call changes nothing about what calls expect. -/
theorem expects_call (hs : l.stops = none)
    (hstate : s'.state = s.state) (h : Expects s ls c) : Expects s' (ls ++ [l]) c := by
  have hfirst : firstStop (ls ++ [l]) = firstStop ls := by
    rw [firstStop_append, firstStop, hs, firstStop, none_or, or_none]
  match c with
  | .waiting .stop chan timeout => simpa only [Expects, hfirst, hstate] using h
  | .woken .stop => simpa only [Expects, hfirst, hstate] using h
  | .returned .stop v => simpa only [Expects, hfirst] using h
  | .waiting .running _ _ | .woken .running | .returned .running _ | .timedOut => trivial

/-! ## One step and a whole run -/

/-- What a step does: a transition that leaves the calls, or a step of one call that leaves the state.
The call may be a new one, be woken, return, or give up. -/
theorem step_cases (h : step s l = some s') : (∃ v, l.writes = some v ∧ s'.calls = s.calls ∧ s'.state.exitCode = v ∧
      s'.state.waitChan = s.state.waitChan + 1) ∨
    (l.stops = none ∧ s'.state = s.state ∧ ∃ w c', s'.calls = s.calls.set w c' ∧
      (s.calls.get w = none ∨
        (∃ k chan t, s.calls.get w = some (.waiting k chan t) ∧ chan < s.state.waitChan ∧ c' = .woken k) ∨
        c' = .timedOut ∨
        (∃ v, s.calls.get w = some (.woken .running) ∧ c' = .returned .running v) ∨
        s.calls.get w = some (.woken .stop) ∧ c' = .returned .stop s.state.exitCode)) := by
  have hcall : ∀ w k timeout done v, s.call w k timeout done v = some s' →
      s'.state = s.state ∧ ∃ w c', s'.calls = s.calls.set w c' ∧ s.calls.get w = none := by
    intro w k timeout done v h
    unfold Sys.call at h
    split at h
    · cases h
    next hnew =>
      rw [not_not] at hnew
      split at h
      · cases h
        exact ⟨rfl, w, _, rfl, hnew⟩
      · cases h
        exact ⟨rfl, w, _, rfl, hnew⟩
  cases l with
  | setRunning pid =>
    cases h
    exact .inl ⟨0, rfl, rfl, rfl, rfl⟩
  | setStopped e =>
    cases h
    exact .inl ⟨e.exitCode, rfl, rfl, rfl, rfl⟩
  | setRestarting e =>
    cases h
    exact .inl ⟨e.exitCode, rfl, rfl, rfl, rfl⟩
  | waitRunning w timeout =>
    obtain ⟨hstate, w, c', hset, hnew⟩ := hcall _ _ _ _ _ h
    exact .inr ⟨rfl, hstate, w, c', hset, .inl hnew⟩
  | waitStop w timeout =>
    obtain ⟨hstate, w, c', hset, hnew⟩ := hcall _ _ _ _ _ h
    exact .inr ⟨rfl, hstate, w, c', hset, .inl hnew⟩
  | wake w =>
    simp only [step] at h
    split at h
    next k chan t hc =>
      split at h
      next hlt =>
        cases h
        exact .inr ⟨rfl, rfl, w, _, rfl, .inr (.inl ⟨k, chan, t, hc, hlt, rfl⟩)⟩
      next => cases h
    next => cases h
  | expire w =>
    simp only [step] at h
    split at h
    next =>
      split at h
      · cases h
        exact .inr ⟨rfl, rfl, w, _, rfl, .inr (.inr (.inl rfl))⟩
      · cases h
    next => cases h
  | finish w =>
    simp only [step] at h
    split at h
    next hc =>
      cases h
      exact .inr ⟨rfl, rfl, w, _, rfl, .inr (.inr (.inr (.inl ⟨_, hc, rfl⟩)))⟩
    next hc =>
      cases h
      exact .inr ⟨rfl, rfl, w, _, rfl, .inr (.inr (.inr (.inr ⟨hc, rfl⟩)))⟩
    next => cases h

theorem step_expects {w : Nat} (h : step s l = some s') (hgood : Undisturbed s l) (hc : s.calls.get w = some c)
    (hexp : Expects s ls c) : ∃ c', s'.calls.get w = some c' ∧ Expects s' (ls ++ [l]) c' := by
  obtain ⟨v, hw, hcalls, hv, hchan⟩ | ⟨hs, hstate, w', c', hset, hcase⟩ := step_cases h
  · obtain ⟨hbehind, hahead⟩ := hgood v hw (w, c) (GoMap.mem_iff_get.mpr hc)
    exact ⟨c, hcalls ▸ hc, expects_transition hw hv hchan hbehind hahead hexp⟩
  by_cases hne : w = w'
  · subst hne
    refine ⟨c', by rw [hset, GoMap.get_set_self], expects_call hs hstate ?_⟩
    rcases hcase with hnone | ⟨k, chan, t, hwait, hlt, rfl⟩ | rfl | ⟨v, hwoken, rfl⟩ | ⟨hwoken, rfl⟩
    · rw [hc] at hnone
      cases hnone
    · rw [hc] at hwait
      cases hwait
      cases k with
      | running => trivial
      | stop => rwa [Expects, if_pos hlt] at hexp
    · trivial
    · trivial
    · rw [hc] at hwoken
      cases hwoken
      exact hexp
  · exact ⟨c, by rw [hset, GoMap.get_set_ne _ hne, hc], expects_call hs hstate hexp⟩

theorem run_expects {mid : List Label} {w : Nat}
    (h : exec step s mid = some s') (hgood : Along step Undisturbed s mid)
    (hc : s.calls.get w = some c) (hexp : Expects s ls c) :
    ∃ c', s'.calls.get w = some c' ∧ Expects s' (ls ++ mid) c' := by
  induction mid generalizing s ls c with
  | nil =>
    cases h
    exact ⟨c, hc, by rwa [List.append_nil]⟩
  | cons l mid ih =>
    obtain ⟨t, hl, h⟩ := exec_cons_iff.mp h
    rw [along_cons hl] at hgood
    obtain ⟨c₁, hc₁, hexp₁⟩ := step_expects hl hgood.1 hc hexp
    obtain ⟨c', hc', hexp'⟩ := ih h hgood.2 hc₁ hexp₁
    exact ⟨c', hc', by rwa [List.append_assoc] at hexp'⟩

/-- **Waiting for a stop.** In a run from any state in which `WaitStop` is called while the container
runs, and in which no transition disturbs the calls that wait, the exit code that the call returns is
that of the first stop after it. -/
theorem waitStop_first_stop {s s' : Sys} {w : Nat} {timeout v : Int} {mid : List Label}
    (hrunning : s.state.running = true)
    (h : exec step s (.waitStop w timeout :: mid) = some s')
    (hgood : Along step Undisturbed s (.waitStop w timeout :: mid))
    (hret : s'.calls.get w = some (.returned .stop v)) : firstStop mid = some v := by
  obtain ⟨t, hl, h⟩ := exec_cons_iff.mp h
  rw [along_cons hl] at hgood
  have hcall : t = { s with calls := s.calls.set w (.waiting .stop s.state.waitChan timeout) } := by
    rw [step, Sys.call, hrunning] at hl
    split at hl
    · cases hl
    · exact (some.inj hl).symm
  have hexp : Expects t [] (.waiting .stop s.state.waitChan timeout) := by
    rw [hcall, Expects, if_neg (by simp)]
    exact ⟨rfl, rfl⟩
  obtain ⟨c, hc, hc'⟩ := run_expects h hgood.2 (by rw [hcall, GoMap.get_set_self]) hexp
  rw [hret] at hc
  cases hc
  exact hc'

/-- A running container, with no calls. -/
def started : Sys := ⟨⟨true, false, false, false, 101, 0, [], 1⟩, .empty⟩

instance (s : Sys) (l : Label) : Decidable (Undisturbed s l) := by
  unfold Undisturbed
  cases hw : l.writes with
  | none => exact isTrue nofun
  | some v =>
    refine decidable_of_iff (∀ e ∈ s.calls.entries, (e.2.Behind s.state.waitChan → v = s.state.exitCode) ∧
      (l.stops = none → ¬ e.2.Ahead s.state.waitChan)) ?_
    exact ⟨fun h v' hv' => some.inj hv' ▸ h, fun h => h v rfl⟩

theorem waitStop_first_stop_seven :
    firstStop [.setStopped ⟨7, false⟩, .wake 1, .finish 1, .setRunning 102] = some 7 := by
  obtain ⟨s', hs', hret⟩ : ∃ s', exec step started [.waitStop 1 (-1), .setStopped ⟨7, false⟩, .wake 1,
      .finish 1, .setRunning 102] = some s' ∧ s'.calls.get 1 = some (.returned .stop 7) := ⟨_, rfl, rfl⟩
  exact waitStop_first_stop (s := started) rfl hs' (by decide) hret

/-- Two runs in which `WaitStop` is called while the container runs. In the first one the container is
started again before the woken call reads the exit code; in the second one it is the start after a
restart that wakes the call, and there was no stop. -/
theorem waitStop_overwritten :
    (∃ s', exec step started [.waitStop 1 (-1), .setStopped ⟨7, false⟩, .setRunning 102, .wake 1,
        .finish 1] = some s' ∧ s'.calls.get 1 = some (.returned .stop 0) ∧
      firstStop [.setStopped ⟨7, false⟩, .setRunning 102, .wake 1, .finish 1] = some 7) ∧
    ∃ s s', exec step started [.setRestarting ⟨7, false⟩] = some s ∧ s.state.running = true ∧
      exec step s [.waitStop 1 (-1), .setRunning 102, .wake 1, .finish 1] = some s' ∧
      s'.calls.get 1 = some (.returned .stop 0) ∧
      firstStop [.setRunning 102, .wake 1, .finish 1] = none :=
  ⟨⟨_, rfl, rfl, rfl⟩, _, _, rfl, rfl, rfl, rfl, rfl⟩

end DockerEngine.Containers.Wait
