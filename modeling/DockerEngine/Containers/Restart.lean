import DockerEngine.Containers.Kill

/-!
# How often a container is restarted

The monitor with its `KillSig`, and any number of other calls of `ExitOnNext`. `restartCount` counts the rounds of the
loop of `Start` after the first one. `restarts_limited`: it stays within the policy, after an `ExitOnNext` there is one
more run at most, and `stopChan` is closed once.
-/

namespace DockerEngine.Containers.Kill

open Trace Wait

/-- The system, how often `stopChan` was closed, and how many calls of `daemon.Run` began after an `ExitOnNext`. -/
structure Watched where
  sys : Sys
  closes : Nat
  runs : Nat

/-- What `ExitOnNext` does to `stopChan`. -/
def Watched.exitOnNext (w : Watched) : Nat := if !w.sys.shouldStop then w.closes + 1 else w.closes

inductive Event where
  | step (l : Label)
  | exitOnNext

def watch (m : Monitor) (w : Watched) : Event → Option Watched
  | .exitOnNext => some { w with sys := { w.sys with shouldStop := true }, closes := w.exitOnNext }
  | .step .exitOnNext => (step m w.sys .exitOnNext).map fun s => { w with sys := s, closes := w.exitOnNext }
  | .step .run =>
    (step m w.sys .run).map fun s => { w with sys := s, runs := if w.sys.shouldStop then w.runs + 1 else w.runs }
  | .step l => (step m w.sys l).map fun s => { w with sys := s }

/-- The restarts in a row that a policy allows. -/
def Allowed (rp : RestartPolicy) (n : Int) : Prop :=
  if rp.isOnFailure then 0 < n ∧ rp.maximumRetryCount = n else ¬ rp.isAlways ∧ n = 0

/-- By how much the failures are ahead of the restarts, as long as no run was a success. -/
def Pc.ahead : Pc → Option Int
  | .top | .restarting | .resetting true | .waiting | .woken => some 1
  | .ready | .entered | .created | .spawned | .saving | .up | .ran => some 0
  | _ => none

/-- The failures are counted with the restarts. -/
def Counted (m : Monitor) (s : Sys) : Prop :=
  ∀ n, Allowed m.restartPolicy n → s.restartCount ≤ n ∧
    (∀ k, s.pc.ahead = some k → s.failureCount = s.restartCount + k ∧ s.failureCount ≤ n) ∧
    (s.pc = .deciding → s.failureCount = s.restartCount + 1 ∨ s.exitStatus.exitCode = 0)

variable {m : Monitor}

theorem Counted.step {s s' : Sys} {l : Label} (h : Counted m s) (hstep : step m s l = some s') :
    Counted m s' := by
  obtain ⟨henabled, rfl⟩ := step_eq_some hstep
  intro n hn
  obtain ⟨hle, hahead, hdeciding⟩ := h n hn
  have halways : m.restartPolicy.isOnFailure → ¬ m.restartPolicy.isAlways := by
    simp_all [RestartPolicy.isOnFailure, RestartPolicy.isAlways]
  cases l <;> simp only [Enabled, effect] at henabled ⊢ <;> grind [Pc.ahead, shouldRestart, Allowed]

/-- `stopChan` is closed with the flag, and a run that begins after that was decided on before. -/
def Once (w : Watched) : Prop :=
  w.runs ≤ 1 ∧ w.closes ≤ 1 ∧ (w.sys.shouldStop = false → w.runs = 0 ∧ w.closes = 0) ∧
    (w.runs = 1 → w.sys.pc.committed = false)

theorem watch_step {w w' : Watched} {e : Event} (h : Counted m w.sys ∧ Once w) (hstep : watch m w e = some w') :
    Counted m w'.sys ∧ Once w' := by
  cases e with
  | exitOnNext =>
    cases hstep
    exact ⟨h.1, by grind [Once, Watched.exitOnNext]⟩
  | step l =>
    cases l <;>
      · obtain ⟨s, hs, rfl⟩ := Option.map_eq_some_iff.mp hstep
        refine ⟨h.1.step hs, ?_⟩
        obtain ⟨henabled, rfl⟩ := step_eq_some hs
        simp only [Enabled] at henabled
        grind [Once, effect, Watched.exitOnNext, Pc.committed]

/-- **The limits hold** in every run: those of the policy, one run after `ExitOnNext`, and one close of `stopChan`. -/
theorem restarts_limited (m : Monitor) (state : State) (es : List Event) :
    Along (watch m)
      (fun w _ => (∀ n, Allowed m.restartPolicy n → w.sys.restartCount ≤ n) ∧ w.runs ≤ 1 ∧ w.closes ≤ 1)
      ⟨waitForStart state, 0, 0⟩ es := by
  refine along_of_kept (fun _ _ _ => watch_step) (fun w _ _ h _ => ?_) ?_
  · exact ⟨fun n hn => (h.1 n hn).1, h.2.1, h.2.2.1⟩
  · exact ⟨fun n hn => by grind [waitForStart, Pc.ahead, Allowed], by simp [Once, waitForStart]⟩

end DockerEngine.Containers.Kill
