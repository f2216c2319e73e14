import DockerEngine.Lib.Trace

/-!
# Closing the channels of a publisher

`Subscribe`, `Evict`, `Publish` and `Close` of `pkg/pubsub/publisher.go`, where `readLogs` evicts its channel once it
is done. All but `Publish` do their work under the lock and are one step each; `Publish` takes the read lock, tries to
send on one channel after the other and gives the lock back. Closing a closed channel panics, as does sending on one.
`publisher_panics_iff`: nothing panics as long as no channel is evicted that `Close` has closed.
-/

namespace DockerEngine.Pubsub

open Trace

/-- The channels that were made, those in the set, the closed and the evicted ones, and how many calls of `Publish`
have the read lock. -/
structure State (C : Type) where
  made : List C
  subscribers : List C
  closed : List C
  evicted : List C
  readers : Nat

inductive Label (C : Type) where
  | subscribe (sub : C)
  | evict (sub : C)
  | publish
  | send (sub : C)
  | unlock
  | close

def newPublisher (C : Type) : State C := ⟨[], [], [], [], 0⟩

variable {C : Type} [DecidableEq C]

/-- What the locks let happen. A channel is evicted after it was subscribed, and once. -/
def Enabled (st : State C) : Label C → Prop
  | .subscribe sub => st.readers = 0 ∧ sub ∉ st.made
  | .evict sub => st.readers = 0 ∧ sub ∈ st.made ∧ sub ∉ st.evicted
  | .publish => True
  | .send sub => st.readers ≠ 0 ∧ sub ∈ st.subscribers
  | .unlock => st.readers ≠ 0
  | .close => st.readers = 0

instance (st : State C) (l : Label C) : Decidable (Enabled st l) := by
  cases l <;> unfold Enabled <;> infer_instance

/-- What a step does, if it does not panic. -/
def effect (st : State C) : Label C → State C
  | .subscribe sub => { st with made := sub :: st.made, subscribers := sub :: st.subscribers }
  | .evict sub =>
    { st with
      subscribers := st.subscribers.filter (· ≠ sub)
      closed := sub :: st.closed
      evicted := sub :: st.evicted }
  | .publish => { st with readers := st.readers + 1 }
  | .send _ => st
  | .unlock => { st with readers := st.readers - 1 }
  | .close => { st with subscribers := [], closed := st.subscribers ++ st.closed }

def step (st : State C) (l : Label C) : Option (State C) := if Enabled st l then some (effect st l) else none

/-- A closed channel is closed again, or sent on. -/
def Panics (st : State C) : Label C → Prop
  | .evict sub | .send sub => sub ∈ st.closed
  | .close => ∃ sub ∈ st.subscribers, sub ∈ st.closed
  | _ => False

/-- A channel is evicted while it is in the set. -/
def InTime (st : State C) : Label C → Prop
  | .evict sub => sub ∈ st.subscribers
  | _ => True

/-- The channels in the set are those that are not closed. -/
def Inv (st : State C) : Prop :=
  ∀ sub, (sub ∈ st.subscribers ↔ sub ∈ st.made ∧ sub ∉ st.closed) ∧ (sub ∈ st.closed → sub ∈ st.made)

theorem Inv.step {st st' : State C} {l : Label C} (h : Inv st) (hstep : step st l = some st') : Inv st' := by
  obtain ⟨henabled, rfl⟩ : Enabled st l ∧ effect st l = st' := by simpa [Pubsub.step] using hstep
  intro sub
  have hsub := h sub
  cases l <;> simp only [Enabled, effect] at henabled ⊢ <;> grind

/-- **Nothing panics** exactly if every channel is evicted before `Close` takes it out of the set. -/
theorem publisher_panics_iff (ls : List (Label C)) :
    Along step (fun st l => ¬ Panics st l) (newPublisher C) ls ↔ Along step InTime (newPublisher C) ls := by
  refine along_congr (fun _ _ _ => Inv.step) (fun st l st' h hstep => ?_) (by simp [Inv, newPublisher])
  have henabled : Enabled st l := by simp_all [step]
  cases l <;> simp only [Enabled, Panics, InTime] at henabled ⊢ <;> grind [Inv]

/-- A channel is evicted after `Close`. -/
theorem publisher_evict_after_close :
    ¬ Along step (fun st l => ¬ Panics st l) (newPublisher Nat) [.subscribe 0, .close, .evict 0] := by
  simp [Along, step, Enabled, effect, Panics, newPublisher]

end DockerEngine.Pubsub
