import DockerEngine.Containers.Wait

/-!
# The flags of a container

The transitions of `daemon/state.go` with `Pause` and `Unpause` of `daemon/container.go`, in any order: a process may
die in any state. `setStopped` and `SetRestarting` leave `Paused` as it is, and `Pause` does not look at `Restarting`.
`flags_consistent_iff` says which orders keep the flags consistent.
-/

namespace DockerEngine.Containers.Wait

/-- `Container.Pause`, where `ok` is the answer of the driver. A call that fails changes nothing. -/
def State.pause (s : State) (ok : Bool) : State :=
  if s.running = false ∨ s.paused = true ∨ ok = false then s else { s with paused := true }

/-- `Container.Unpause`. -/
def State.unpause (s : State) (ok : Bool) : State :=
  if s.running = false ∨ s.paused = false ∨ ok = false then s else { s with paused := false }

inductive Transition where
  | setRunning (pid : Int) (positive : 0 < pid)
  | setStopped (e : ExitStatus)
  | setRestarting (e : ExitStatus)
  | pause (ok : Bool)
  | unpause (ok : Bool)

def State.apply (s : State) : Transition → State
  | .setRunning pid _ => s.setRunning pid
  | .setStopped e => s.setStopped e
  | .setRestarting e => s.setRestarting e
  | .pause ok => s.pause ok
  | .unpause ok => s.unpause ok

/-- The transitions from `NewState`. -/
def after (ts : List Transition) : State := ts.foldl State.apply ⟨false, false, false, false, 0, 0, [], 0⟩

/-- A container that is not running is neither paused nor restarting, and one that is restarting counts as running
and is not paused. In both cases there is no process. -/
structure Consistent (s : State) : Prop where
  stopped : s.running = false → s.paused = false ∧ s.restarting = false ∧ s.pid = 0
  restarting : s.restarting = true → s.running = true ∧ s.paused = false ∧ s.pid = 0

/-- No paused container stops or restarts, and none is paused while it restarts. -/
def Fits (s : State) : Transition → Prop
  | .setStopped _ | .setRestarting _ => s.paused = false
  | .pause true => s.restarting = false
  | _ => True

theorem consistent_apply_iff {s : State} (h : Consistent s) (t : Transition) : Consistent (s.apply t) ↔ Fits s t := by
  obtain ⟨hstopped, hrestarting⟩ := h
  cases t with
  | setRunning pid positive => exact iff_of_true ⟨nofun, nofun⟩ trivial
  | setStopped e => exact ⟨fun h => (h.stopped rfl).1, fun h => ⟨fun _ => ⟨h, rfl, rfl⟩, nofun⟩⟩
  | setRestarting e => exact ⟨fun h => (h.restarting rfl).2.1, fun h => ⟨nofun, fun _ => ⟨rfl, h, rfl⟩⟩⟩
  | unpause ok => exact iff_of_true (by constructor <;> grind [State.apply, State.unpause]) trivial
  | pause ok =>
    cases ok with
    | false => exact iff_of_true (by constructor <;> grind [State.apply, State.pause]) trivial
    | true =>
      constructor
      · rintro ⟨-, h⟩
        grind [State.apply, State.pause, Fits]
      · intro h
        constructor <;> grind [State.apply, State.pause, Fits]

/-- **The flags are consistent in every state on the way** exactly if each transition fits the state it is made in. -/
theorem flags_consistent_iff (ts : List Transition) :
    (∀ pre, pre <+: ts → Consistent (after pre)) ↔ ∀ pre t, pre ++ [t] <+: ts → Fits (after pre) t :=
  Trace.forall_prefix_iff (fun _ t h => consistent_apply_iff h t) ⟨fun _ => ⟨rfl, rfl, rfl⟩, nofun⟩

/-- The process of a paused container dies. -/
theorem flags_stopped_paused : ¬ Consistent (after [.setRunning 7 (by decide), .pause true, .setStopped ⟨137, false⟩]) :=
  fun h => absurd (h.stopped rfl).1 (by decide)

end DockerEngine.Containers.Wait
