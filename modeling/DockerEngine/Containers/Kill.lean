import DockerEngine.Containers.Wait

/-!
# Killing a container that is restarted

The monitor of a container runs its process and, as the restart policy has it, runs it again. `KillSig` tells the
monitor to stop (`ExitOnNext`) and sends the signal, but not to a container that is restarting: there it relies on the
monitor. The monitor looks at its flag when it decides on a restart and once more when it has waited for it. From then
on it goes back to the top of its loop, starts logging and calls `daemon.Run`, and looks no more.

A request that comes in between is lost (`killSig_lost`): `KillSig` finds the container restarting, returns without an
error, and then the process is started. In every other run the request is kept (`killSig_kept_iff`): either the signal
was sent to a process of the container, or no run starts after `KillSig` has returned.

A step is what a thread does under one lock, or between two accesses to what the threads share. The exec driver is the
native one, as far as it knows the process; what it runs may fail and end in any way. What `Start` of the container
does apart from holding the lock is left out, and so are times, logs and the files of the container.
-/

namespace DockerEngine.Containers.Kill

open Filepath Trace Wait

/-! ## The monitor -/

/-- `RestartPolicy`. -/
structure RestartPolicy where
  name : Str
  maximumRetryCount : Int
  deriving DecidableEq, Repr

def RestartPolicy.isAlways (rp : RestartPolicy) : Bool := rp.name == "always".toList

def RestartPolicy.isOnFailure (rp : RestartPolicy) : Bool := rp.name == "on-failure".toList

/-- What does not change of a `containerMonitor`: the container, by its id, and its policy. -/
structure Monitor where
  id : Str
  restartPolicy : RestartPolicy
  deriving DecidableEq, Repr

/-- Where `Start` of the monitor is. -/
inductive Pc where
  /-- At the top of the loop. -/
  | top
  /-- Logging is started, `daemon.Run` is next. -/
  | ready
  /-- In `daemon.Run`. -/
  | entered
  /-- The driver has registered the container. -/
  | created
  /-- The process is started. -/
  | spawned
  /-- In the callback, which has set the state and goes on to save it. -/
  | saving
  /-- The driver waits for the process. -/
  | up
  /-- `daemon.Run` has returned. -/
  | ran
  /-- `shouldRestart` is next. -/
  | deciding
  /-- `SetRestarting` is next. -/
  | restarting
  /-- `resetContainer` is next, and then the wait for a restart or the end. -/
  | resetting (again : Bool)
  /-- In `waitForNextRestart`. -/
  | waiting
  /-- The flag is looked at next. -/
  | woken
  /-- The deferred function is next. -/
  | exiting
  | done
  deriving DecidableEq, Repr

/-- The monitor has looked at its flag and is going to call `daemon.Run`. -/
def Pc.committed : Pc → Bool
  | .top | .ready => true
  | _ => false

/-- The container is in the driver's `activeContainers`. -/
def Pc.active : Pc → Bool
  | .created | .spawned | .saving | .up => true
  | _ => false

/-- On the way from `SetRestarting` to the callback. -/
def Pc.again : Pc → Bool
  | .resetting true | .waiting | .woken | .top | .ready | .entered | .created | .spawned => true
  | _ => false

/-! ## `KillSig` -/

/-- The errors of `KillSig`: the container with this id is paused, it is not running, or what the driver says. -/
inductive KillErr where
  | paused (id : Str)
  | notRunning (id : Str)
  | driver
  deriving DecidableEq, Repr

/-- Where `KillSig` is, and what it returns; no error is `none`. -/
inductive KillSig where
  | idle
  /-- It has the lock. -/
  | locked
  /-- The container is not paused. -/
  | unpaused
  /-- The container is running; the monitor is told next. -/
  | alive
  /-- The monitor is told. -/
  | told
  /-- The container is not restarting; the signal is sent next. -/
  | killing
  | returning (err : Option KillErr)
  | returned (err : Option KillErr)
  deriving DecidableEq, Repr

/-- `KillSig` has the lock of the container. -/
def KillSig.holds : KillSig → Bool
  | .idle | .returned _ => false
  | _ => true

/-- `KillSig` has not come to `daemon.Kill`. -/
def KillSig.asking : KillSig → Bool
  | .idle | .locked | .unpaused | .alive | .told => true
  | _ => false

/-- `KillSig` has told the monitor, or returned without an error. -/
def KillSig.hasTold : KillSig → Bool
  | .told | .killing | .returning none | .returned none => true
  | _ => false

/-! ## The system -/

/-- Who holds the lock of the container, apart from what is one step. -/
inductive Thread where
  | start
  | killSig
  deriving DecidableEq, Repr

/-- The container, its monitor and one call of `KillSig`. The channel `stopChan` is closed when `shouldStop` is set;
`startSignal` says whether that channel is closed. `process` is the one the driver has, and `signalled` the one that
the signal was sent to. -/
structure Sys where
  state : State
  lock : Option Thread
  restartCount : Int
  failureCount : Int
  shouldStop : Bool
  startSignal : Bool
  afterRun : Bool
  exitStatus : ExitStatus
  failed : Bool
  process : Option Int
  pc : Pc
  killSig : KillSig
  signalled : Option Int

/-- `waitForStart`, called by `Start` of the container with the lock held: a new monitor starts. -/
def waitForStart (state : State) : Sys where
  state := state
  lock := some .start
  restartCount := -1
  failureCount := 0
  shouldStop := false
  startSignal := false
  afterRun := false
  exitStatus := ⟨0, false⟩
  failed := false
  process := none
  pc := .top
  killSig := .idle
  signalled := none

/-- `shouldRestart`. -/
def shouldRestart (m : Monitor) (s : Sys) : Bool :=
  if s.shouldStop then false
  else if m.restartPolicy.isAlways then true
  else if m.restartPolicy.isOnFailure then
    if m.restartPolicy.maximumRetryCount ≠ 0 ∧ m.restartPolicy.maximumRetryCount < s.failureCount then false
    else s.exitStatus.exitCode != 0
  else false

/-- The steps. -/
inductive Label where
  /-- `waitForStart` returns, and `Start` gives the lock back. -/
  | started
  | startLogging (ok : Bool)
  /-- `daemon.Run` is called. -/
  | run
  /-- The driver registers the container. -/
  | create
  /-- The driver starts the process. -/
  | spawn (pid : Int)
  | callback
  | toDisk
  /-- `daemon.Run` returns. -/
  | exit (status : ExitStatus) (failed : Bool)
  | resetMonitor
  | shouldRestart
  | setRestarting
  | resetContainer (again : Bool)
  /-- `waitForNextRestart` returns, because of the timer or of the channel. -/
  | wake (timer : Bool)
  /-- The monitor looks at `shouldStop`. -/
  | checkStop
  /-- The deferred function. -/
  | close
  /-- `KillSig` takes the lock. -/
  | lock
  | checkPaused
  | checkRunning
  | exitOnNext
  | checkRestarting
  | kill (ok : Bool)
  /-- `KillSig` gives the lock back and returns. -/
  | unlock (err : Option KillErr)
  | pause
  | unpause
  deriving DecidableEq, Repr

/-- The locks and the order of the program let the step be made. -/
def Enabled (s : Sys) : Label → Prop
  | .started => s.lock = some .start ∧ (s.startSignal = true ∨ s.pc = .done)
  | .startLogging _ => s.pc = .top
  | .run => s.pc = .ready
  | .create => s.pc = .entered
  | .spawn _ => s.pc = .created
  | .callback => s.pc = .spawned
  | .toDisk => s.pc = .saving ∧ s.lock = none
  | .exit _ failed => s.pc = .up ∨ failed = true ∧ (s.pc = .entered ∨ s.pc = .created ∨ s.pc = .spawned)
  | .resetMonitor => s.pc = .ran
  | .shouldRestart => s.pc = .deciding
  | .setRestarting => s.pc = .restarting ∧ s.lock = none
  | .resetContainer again => s.pc = .resetting again ∧ s.lock = none
  | .wake timer => s.pc = .waiting ∧ (timer = true ∨ s.shouldStop = true)
  | .checkStop => s.pc = .woken
  | .close => s.pc = .exiting ∧ (s.afterRun = true → s.lock = none)
  | .lock => s.killSig = .idle ∧ s.lock = none
  | .checkPaused => s.killSig = .locked
  | .checkRunning => s.killSig = .unpaused
  | .exitOnNext => s.killSig = .alive
  | .checkRestarting => s.killSig = .told
  | .kill ok => s.killSig = .killing ∧ (ok = true → s.pc.active = true)
  | .unlock err => s.killSig = .returning err
  | .pause => s.lock = none ∧ s.state.running = true ∧ s.state.paused = false
  | .unpause => s.lock = none ∧ s.state.running = true ∧ s.state.paused = true

instance (s : Sys) (l : Label) : Decidable (Enabled s l) := by
  cases l <;> unfold Enabled <;> infer_instance

/-- What a step does. -/
def effect (m : Monitor) (s : Sys) : Label → Sys
  | .started => { s with lock := none }
  | .startLogging ok => { s with restartCount := s.restartCount + 1, pc := if ok then .ready else .exiting }
  | .run => { s with pc := .entered }
  | .create => { s with pc := .created }
  | .spawn pid => { s with process := some pid, pc := .spawned }
  | .callback => { s with state := s.state.setRunning (s.process.getD 0), startSignal := true, pc := .saving }
  | .toDisk => { s with pc := .up }
  | .exit status failed => { s with exitStatus := status, failed := failed, process := none, pc := .ran }
  | .resetMonitor =>
    -- The first run failed: its error is returned, and the state of the container is not set to stopped.
    if s.failed = true ∧ s.restartCount = 0 then { s with state := { s.state with exitCode := -1 }, pc := .exiting }
    else
      { s with
        afterRun := true
        failureCount := if s.failed = false ∧ s.exitStatus.exitCode = 0 then 0 else s.failureCount + 1
        pc := .deciding }
  | .shouldRestart => { s with pc := if shouldRestart m s then .restarting else .resetting false }
  | .setRestarting => { s with state := s.state.setRestarting s.exitStatus, pc := .resetting true }
  | .resetContainer again => { s with pc := if again then .waiting else .exiting }
  | .wake _ => { s with pc := .woken }
  | .checkStop => { s with pc := if s.shouldStop then .exiting else .top }
  | .close => { s with state := if s.afterRun then s.state.setStopped s.exitStatus else s.state, pc := .done }
  | .lock => { s with lock := some .killSig, killSig := .locked }
  | .checkPaused => { s with killSig := if s.state.paused then .returning (some (.paused m.id)) else .unpaused }
  | .checkRunning =>
    { s with killSig := if s.state.running then .alive else .returning (some (.notRunning m.id)) }
  | .exitOnNext => { s with shouldStop := true, killSig := .told }
  | .checkRestarting => { s with killSig := if s.state.restarting then .returning none else .killing }
  | .kill ok =>
    if ok then { s with signalled := s.process, killSig := .returning none }
    else { s with killSig := .returning (some .driver) }
  | .unlock err => { s with lock := none, killSig := .returned err }
  | .pause => { s with state := { s.state with paused := true } }
  | .unpause => { s with state := { s.state with paused := false } }

/-- One step of the system. -/
def step (m : Monitor) (s : Sys) (l : Label) : Option Sys := if Enabled s l then some (effect m s l) else none

variable {m : Monitor}

theorem step_eq_some {s s' : Sys} {l : Label} (h : step m s l = some s') : Enabled s l ∧ s' = effect m s l := by
  rw [step] at h
  split at h
  next henabled => exact ⟨henabled, (Option.some.inj h).symm⟩
  next => cases h

theorem step_of_enabled {s : Sys} (l : Label) (h : Enabled s l) : step m s l = some (effect m s l) := if_pos h

/-! ## What is always so -/

/-- The process is started. -/
def Pc.spawns : Pc → Bool
  | .spawned | .saving | .up => true
  | _ => false

/-- The bookkeeping of the system. While the first run is on its way, `Start` has the lock; on the way to another run
the container is restarting. -/
structure Inv (s : Sys) : Prop where
  held : s.killSig.holds = true → s.lock = some .killSig
  first : s.startSignal = false → s.lock = some .start ∨ s.pc = .done
  again : s.pc.again = true → s.state.restarting = true ∨ s.startSignal = false
  killing : s.killSig = .killing → ¬ s.pc.again = true
  asking : s.killSig.asking = true → s.signalled = none
  spawned : s.pc.spawns = true → s.process ≠ none

theorem inv_waitForStart (state : State) : Inv (waitForStart state) where
  held := nofun
  first _ := .inl rfl
  again _ := .inr rfl
  killing := nofun
  asking _ := rfl
  spawned := nofun

section Steps

variable {m : Monitor} {s s' : Sys}

/-- A step in which the monitor changes nothing that `KillSig` looks at. -/
structure Own (s s' : Sys) : Prop where
  lock : s'.lock = s.lock
  restarting : s'.state.restarting = s.state.restarting
  startSignal : s'.startSignal = s.startSignal
  killSig : s'.killSig = s.killSig
  signalled : s'.signalled = s.signalled

theorem Inv.own (h : Inv s) (hown : Own s s') {pc : Pc} (hpc : s.pc = pc) (hdone : pc ≠ .done)
    (hagain : s'.pc.again → pc.again) (hspawns : s'.pc.spawns → s'.process ≠ none) :
    Inv s' where
  held hk := by
    rw [hown.killSig] at hk
    rw [hown.lock, h.held hk]
  first hs := by
    rw [hown.startSignal] at hs
    rw [hown.lock]
    exact .inl ((h.first hs).resolve_right (hpc ▸ hdone))
  again ha := by
    rw [hown.restarting, hown.startSignal]
    exact h.again (hpc ▸ hagain ha)
  killing hk := by
    rw [hown.killSig] at hk
    exact fun ha => h.killing hk (hpc ▸ hagain ha)
  asking hk := by
    rw [hown.killSig] at hk
    rw [hown.signalled, h.asking hk]
  spawned := hspawns

/-- While `KillSig` has the lock, the monitor is on its way to another run only in a container that is restarting. -/
theorem Inv.restarting_of_again (h : Inv s) (hholds : s.killSig.holds) (hagain : s.pc.again) :
    s.state.restarting := by
  refine (h.again hagain).resolve_right fun hfirst => ?_
  rcases h.first hfirst with hlock | hdone
  · rw [h.held hholds] at hlock
    cases hlock
  · rw [hdone] at hagain
    cases hagain

/-- A step of `KillSig` that keeps the lock and sends nothing. -/
theorem Inv.ask (h : Inv s) {k k' : KillSig} {stop : Bool} (heq : s.killSig = k') (hholds : k'.holds)
    (hasking : k.asking → k'.asking) (hk : k = .killing → s.state.restarting = false) :
    Inv { s with shouldStop := stop, killSig := k } := by
  subst heq
  refine { h with
    held := fun _ => h.held hholds
    killing := fun hkilling hagain => ?_
    asking := fun hasks => h.asking (hasking hasks) }
  rw [h.restarting_of_again hholds hagain] at hk
  cases hk hkilling

/-- **Every step** keeps the bookkeeping. -/
theorem Inv.step {l : Label} (h : Inv s) (hstep : step m s l = some s') : Inv s' := by
  obtain ⟨henabled, rfl⟩ := step_eq_some hstep
  cases l with
  | started =>
    refine { h with held := fun hk => ?_, first := fun hs => ?_ }
    · have hlock := h.held hk
      rw [henabled.1] at hlock
      cases hlock
    · exact .inr (henabled.2.resolve_left (by simp only [effect] at hs; simp [hs]))
  | startLogging ok =>
    refine h.own ⟨rfl, rfl, rfl, rfl, rfl⟩ henabled nofun (fun _ => rfl) ?_
    cases ok <;> simp [effect, Pc.spawns]
  | run => exact h.own ⟨rfl, rfl, rfl, rfl, rfl⟩ henabled nofun (fun _ => rfl) nofun
  | create => exact h.own ⟨rfl, rfl, rfl, rfl, rfl⟩ henabled nofun (fun _ => rfl) nofun
  | spawn pid => exact h.own ⟨rfl, rfl, rfl, rfl, rfl⟩ henabled nofun (fun _ => rfl) (by simp [effect])
  | callback =>
    have hpc : s.pc = .spawned := henabled
    exact { h with
      first := nofun
      again := nofun
      killing := fun _ => nofun
      spawned := fun _ => h.spawned (by simp [hpc, Pc.spawns]) }
  | toDisk =>
    refine h.own ⟨rfl, rfl, rfl, rfl, rfl⟩ henabled.1 nofun nofun fun _ => ?_
    exact h.spawned (by simp [henabled.1, Pc.spawns])
  | exit status failed =>
    have hdone : s.pc ≠ .done := by
      rcases henabled with hpc | ⟨-, hpc | hpc | hpc⟩ <;> simp [hpc]
    exact h.own ⟨rfl, rfl, rfl, rfl, rfl⟩ rfl hdone nofun nofun
  | resetMonitor =>
    simp only [effect]
    split
    · exact h.own ⟨rfl, rfl, rfl, rfl, rfl⟩ henabled nofun nofun nofun
    · exact h.own ⟨rfl, rfl, rfl, rfl, rfl⟩ henabled nofun nofun nofun
  | shouldRestart =>
    refine h.own ⟨rfl, rfl, rfl, rfl, rfl⟩ henabled nofun ?_ ?_
    · simp only [effect]
      split <;> nofun
    · simp only [effect]
      split <;> nofun
  | setRestarting =>
    refine { h with
      first := fun hs => ?_
      again := fun _ => .inl rfl
      killing := fun hk => ?_
      spawned := nofun }
    · have hfirst := h.first hs
      rw [henabled.1, henabled.2] at hfirst
      exact hfirst.elim nofun nofun
    · have hlock := h.held (by simp only [effect] at hk; simp [hk, KillSig.holds])
      rw [henabled.2] at hlock
      cases hlock
  | resetContainer again =>
    refine h.own ⟨rfl, rfl, rfl, rfl, rfl⟩ henabled.1 nofun ?_ ?_
    · cases again <;> simp [effect, Pc.again]
    · cases again <;> simp [effect, Pc.spawns]
  | wake timer => exact h.own ⟨rfl, rfl, rfl, rfl, rfl⟩ henabled.1 nofun (fun _ => rfl) nofun
  | checkStop =>
    refine h.own ⟨rfl, rfl, rfl, rfl, rfl⟩ henabled nofun (fun _ => rfl) ?_
    simp only [effect]
    split <;> nofun
  | close =>
    exact { h with
      first := fun _ => .inr rfl
      again := nofun
      killing := fun _ => nofun
      spawned := nofun }
  | lock =>
    refine { h with
      held := fun _ => rfl
      first := fun hs => ?_
      killing := nofun
      asking := fun _ => h.asking (by simp [henabled.1, KillSig.asking]) }
    have hfirst := h.first hs
    rw [henabled.2] at hfirst
    exact .inr (hfirst.resolve_left nofun)
  | checkPaused =>
    refine h.ask henabled rfl (fun _ => rfl) ?_
    split <;> nofun
  | checkRunning =>
    refine h.ask henabled rfl (fun _ => rfl) ?_
    split <;> nofun
  | exitOnNext => exact h.ask henabled rfl (fun _ => rfl) nofun
  | checkRestarting =>
    refine h.ask henabled rfl (fun _ => rfl) ?_
    split
    · nofun
    next hrestarting => exact fun _ => by simpa using hrestarting
  | kill ok =>
    cases ok with
    | false => exact h.ask henabled.1 rfl nofun nofun
    | true =>
      have hholds : s.killSig.holds := by simp [henabled.1, KillSig.holds]
      exact { h with held := fun _ => h.held hholds, killing := nofun, asking := nofun }
  | unlock err =>
    have hk : s.killSig = .returning err := henabled
    have hlock := h.held (by simp [hk, KillSig.holds])
    refine { h with held := nofun, first := fun hs => ?_, killing := nofun, asking := nofun }
    have hfirst := h.first hs
    rw [hlock] at hfirst
    exact .inr (hfirst.resolve_left nofun)
  | pause => exact { h with }
  | unpause => exact { h with }

end Steps

variable {ls : List Label}

variable {state : State} {s : Sys}

section

variable (h : exec (step m) (waitForStart state) ls = some s)
include h

theorem inv_exec : Inv s :=
  exec_kept (fun _ _ _ hs => hs.step) (inv_waitForStart state) h

end

/-! ## No request is lost -/

/-- A run that starts after `KillSig` has returned without an error starts after the signal was sent to a process. -/
def Kept (s : Sys) : Label → Prop
  | .run => s.killSig = .returned none → s.signalled ≠ none
  | _ => True

/-- `KillSig` does not tell a monitor that has looked at its flag and not yet called `daemon.Run`. -/
def Timely (s : Sys) : Label → Prop
  | .exitOnNext => s.pc.committed = false
  | _ => True

instance (s : Sys) (l : Label) : Decidable (Kept s l) := by
  cases l <;> unfold Kept <;> infer_instance

/-- The flag is set and the monitor is going to look at it before it calls `daemon.Run`. -/
structure Stopping (s : Sys) : Prop where
  shouldStop : s.shouldStop = true
  uncommitted : s.pc.committed = false

section Runs

variable {m : Monitor} {state : State} {s s' : Sys} {l : Label}

/-- A monitor that has to stop does not come back to the top of its loop. -/
theorem Stopping.step (h : Stopping s) (hstep : step m s l = some s') : Stopping s' := by
  obtain ⟨henabled, rfl⟩ := step_eq_some hstep
  have huncommitted := h.uncommitted
  cases l with
  | startLogging ok =>
    rw [show s.pc = .top from henabled] at huncommitted
    cases huncommitted
  | resetMonitor =>
    simp only [effect]
    split
    · exact ⟨h.shouldStop, rfl⟩
    · exact ⟨h.shouldStop, rfl⟩
  | shouldRestart =>
    refine ⟨h.shouldStop, ?_⟩
    simp only [effect]
    split <;> rfl
  | resetContainer again =>
    refine ⟨h.shouldStop, ?_⟩
    cases again <;> rfl
  | checkStop =>
    refine ⟨h.shouldStop, ?_⟩
    simp only [effect, h.shouldStop, if_true]
    rfl
  | exitOnNext => exact ⟨rfl, huncommitted⟩
  | kill ok => cases ok <;> exact ⟨h.shouldStop, huncommitted⟩
  | started | checkPaused | checkRunning | checkRestarting | lock | unlock err | pause | unpause =>
    exact ⟨h.shouldStop, huncommitted⟩
  | run | create | spawn pid | callback | toDisk | exit status failed | setRestarting | wake timer | close =>
    exact ⟨h.shouldStop, rfl⟩

/-- No run starts while the monitor has to stop. -/
theorem Stopping.kept (h : Stopping s) (hstep : Kill.step m s l = some s') : Kept s l := by
  obtain ⟨henabled, -⟩ := step_eq_some hstep
  cases l with
  | run =>
    have huncommitted := h.uncommitted
    rw [show s.pc = .ready from henabled] at huncommitted
    cases huncommitted
  | _ => trivial

theorem hasTold_step (hstep : step m s l = some s') (htold : s'.killSig.hasTold) :
    s.killSig.hasTold ∨ l = .exitOnNext := by
  obtain ⟨henabled, rfl⟩ := step_eq_some hstep
  cases l with
  | exitOnNext => exact .inr rfl
  | lock => cases htold
  | checkPaused =>
    simp only [effect] at htold
    split at htold <;> cases htold
  | checkRunning =>
    simp only [effect] at htold
    split at htold <;> cases htold
  | checkRestarting =>
    rw [show s.killSig = .told from henabled]
    exact .inl rfl
  | kill ok =>
    rw [henabled.1]
    exact .inl rfl
  | unlock err =>
    rw [show s.killSig = .returning err from henabled]
    cases err with
    | none => exact .inl rfl
    | some e => cases htold
  | resetMonitor =>
    simp only [effect] at htold
    split at htold <;> exact .inl htold
  | _ => exact .inl htold

/-- **A request is kept** in every run in which `KillSig` tells the monitor in time. -/
theorem kept_of_timely (h : Along (step m) Timely (waitForStart state) ls) :
    Along (step m) Kept (waitForStart state) ls := by
  refine along_of_inv (I := fun s => s.killSig.hasTold → Stopping s) ?_ ?_ nofun h
  · intro s l s' hs htimely hstep htold
    rcases hasTold_step hstep htold with htold | rfl
    · exact (hs htold).step hstep
    · obtain ⟨-, rfl⟩ := step_eq_some hstep
      exact ⟨rfl, htimely⟩
  · intro s l s' hs _ hstep
    cases l with
    | run => exact fun hk => (hs (by rw [hk]; rfl)).kept hstep hk
    | _ => trivial

/-- The monitor that is going to call `daemon.Run` calls it. -/
theorem lost_of_returned (hk : s.killSig = .returned none) (hsignalled : s.signalled = none)
    (hpc : s.pc.committed) : ∃ ls, ¬ Along (step m) Kept s ls := by
  have hlost : ∀ s : Sys, s.killSig = .returned none → s.signalled = none → s.pc = .ready →
      ¬ Along (step m) Kept s [.run] := by
    intro s hk hsignalled hpc h
    rw [along_cons (step_of_enabled .run hpc)] at h
    exact h.1 hk hsignalled
  cases hat : s.pc with
  | ready => exact ⟨[.run], hlost s hk hsignalled hat⟩
  | top =>
    refine ⟨[.startLogging true, .run], fun h => ?_⟩
    rw [along_cons (step_of_enabled (.startLogging true) hat)] at h
    exact hlost (effect m s (.startLogging true)) hk hsignalled rfl h.2
  | _ =>
    rw [hat] at hpc
    cases hpc

/-- **A request that comes too late** can be lost: the container is restarting, and so `KillSig` returns. -/
theorem lost_of_committed (h : exec (step m) (waitForStart state) ls = some s)
    (hstep : step m s .exitOnNext = some s') (hpc : s.pc.committed) :
    ∃ post, ¬ Along (step m) Kept s' post := by
  have hinv := inv_exec h
  obtain ⟨henabled, rfl⟩ := step_eq_some hstep
  have hk : s.killSig = .alive := henabled
  have hagain : s.pc.again := by
    cases hat : s.pc <;> simp_all [Pc.committed, Pc.again]
  have hrestarting := hinv.restarting_of_again (by simp [hk, KillSig.holds]) hagain
  have hsignalled := hinv.asking (by simp [hk, KillSig.asking])
  let told : Sys := { s with shouldStop := true, killSig := .told }
  let checked : Sys := { told with killSig := .returning none }
  let returned : Sys := { checked with lock := none, killSig := .returned none }
  have hcheck : step m told .checkRestarting = some checked := by
    rw [step_of_enabled .checkRestarting (show told.killSig = .told from rfl)]
    simp [effect, told, checked, hrestarting]
  have hunlock : step m checked (.unlock none) = some returned := step_of_enabled (.unlock none) rfl
  obtain ⟨post, hpost⟩ := lost_of_returned (m := m) (s := returned) rfl hsignalled hpc
  refine ⟨.checkRestarting :: .unlock none :: post, fun hkept => hpost ?_⟩
  have htold := (along_cons hcheck).mp hkept
  exact ((along_cons hunlock).mp htold.2).2

/-- **No kill request is lost** in a run in which `KillSig` never tells a monitor that has looked at its flag and not
yet called `daemon.Run`; and one that does tell such a monitor can be lost, others cannot. -/
theorem killSig_kept_iff (m : Monitor) (state : State) :
    (∀ ls, Along (step m) Timely (waitForStart state) ls → Along (step m) Kept (waitForStart state) ls) ∧
      ∀ ls s s', exec (step m) (waitForStart state) ls = some s → step m s .exitOnNext = some s' →
        ((∀ post, Along (step m) Kept s' post) ↔ s.pc.committed = false) := by
  refine ⟨fun ls => kept_of_timely, fun ls s s' hexec hstep => ⟨fun hkept => ?_, fun hpc post => ?_⟩⟩
  · rw [← Bool.not_eq_true]
    intro hpc
    obtain ⟨post, hpost⟩ := lost_of_committed hexec hstep hpc
    exact hpost (hkept post)
  · obtain ⟨-, rfl⟩ := step_eq_some hstep
    exact along_of_kept (I := Stopping) (fun _ _ _ hs => hs.step) (fun _ _ _ hs => hs.kept)
      ⟨rfl, hpc⟩

end Runs

/-- A container that is always restarted. -/
def restarted : Monitor := ⟨"c".toList, "always".toList, 0⟩

/-- A container that does not run. -/
def stopped : State := ⟨false, false, false, false, 0, 0, [], 0⟩

/-- The first run ends, the monitor waits and looks at its flag, and then comes the request. -/
def late : List Label :=
  [.startLogging true, .run, .create, .spawn 7, .callback, .started, .toDisk, .exit ⟨1, false⟩ false, .resetMonitor,
    .shouldRestart, .setRestarting, .resetContainer true, .wake true, .checkStop,
    .lock, .checkPaused, .checkRunning, .exitOnNext, .checkRestarting, .unlock none,
    .startLogging true, .run]

theorem killSig_lost :
    (exec (step restarted) (waitForStart stopped) late).isSome = true ∧
      ¬ Along (step restarted) Kept (waitForStart stopped) late := by
  decide

end DockerEngine.Containers.Kill
