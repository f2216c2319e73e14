import DockerEngine.Lib.Trace

/-!
# Removals side by side

`rm` of `daemon/delete.go` with the flag of `daemon/state.go`, and `Get` and `register` of `daemon/daemon.go`, as the
steps they make on what they share. A call of `rm` looks the container up, sets the flag and resets it at the end: one
that has looked before another completes may remove the container again (`destroyed_once_iff`). `Get` looks into the
index and then into the table, and a removal may be in between (`get_nonnil_iff`).
-/

namespace DockerEngine.Containers.Removal

open Trace

/-- One container: its entry in the table, its flag, and how many calls of `rm` have found it, have set the flag, have
deleted it, and have completed. -/
structure State where
  registered : Bool
  removalInProgress : Bool
  found : Nat
  removing : Nat
  deleted : Nat
  completed : Nat

/-- The steps of a call. It may fail anywhere behind the flag, a forced one after it has deleted the container. -/
inductive Label where
  | get
  | setRemovalInProgress
  | delete
  | fail
  | complete

def step (st : State) : Label → Option State
  | .get => some { st with found := if st.registered then st.found + 1 else st.found }
  | .setRemovalInProgress =>
    if st.found = 0 then none
    else if st.removalInProgress then some { st with found := st.found - 1 }
    else some { st with removalInProgress := true, found := st.found - 1, removing := st.removing + 1 }
  | .delete =>
    if st.removing = 0 then none
    else some { st with registered := false, removing := st.removing - 1, deleted := st.deleted + 1 }
  | .fail =>
    if st.removing ≠ 0 then some { st with removalInProgress := false, removing := st.removing - 1 }
    else if st.deleted ≠ 0 then some { st with removalInProgress := false, deleted := st.deleted - 1 }
    else none
  | .complete =>
    if st.deleted = 0 then none
    else
      some { st with removalInProgress := false, deleted := st.deleted - 1, completed := st.completed + 1 }

/-- A call that completes is the first one. -/
def Once (st : State) : Label → Prop
  | .complete => st.completed = 0
  | _ => True

/-- No call gets past the flag after another one has completed. -/
def InTime (st : State) : Label → Prop
  | .setRemovalInProgress => st.removalInProgress ∨ st.completed = 0
  | _ => True

/-- **A container is destroyed once** as long as no call gets past the flag after another has completed, and a call
that does can destroy it again. -/
theorem destroyed_once_iff (ls : List Label) (st : State) :
    (Along step InTime ⟨true, false, 0, 0, 0, 0⟩ ls → Along step Once ⟨true, false, 0, 0, 0, 0⟩ ls) ∧
      (st.found ≠ 0 → ¬ InTime st .setRemovalInProgress →
        ¬ Along step Once st [.setRemovalInProgress, .delete, .complete]) := by
  constructor
  · -- the flag belongs to one call, and to none once a call has completed
    refine along_of_inv (I := fun st => (st.removalInProgress = false → st.removing + st.deleted = 0) ∧
      st.removing + st.deleted + st.completed ≤ 1) (fun st l st' h hl hstep => ?_) (fun st l st' h hl hstep => ?_)
      (by simp)
    · cases l <;> simp only [step] at hstep <;> (repeat' split at hstep) <;> cases hstep <;> grind [InTime]
    · cases l <;> grind [step, Once]
  · intro hfound hlate
    have hlate' : st.removalInProgress = false ∧ st.completed ≠ 0 := by simpa [InTime] using hlate
    simp [Along, step, Once, hfound, hlate']

/-- Both calls find the container before the first one is done. -/
theorem destroyed_twice :
    ¬ Along step Once ⟨true, false, 0, 0, 0, 0⟩
      [.get, .get, .setRemovalInProgress, .delete, .complete, .setRemovalInProgress, .delete, .complete] := by
  simp [Along, step, Once]

/-- The table and the index, with the ids that a `Get` has from the index, those that a `register` has put into the
table only, and those that an `rm` has taken out of the index only. -/
structure Tables (I : Type) where
  containers : List I
  idIndex : List I
  indexed : List I
  registering : List I
  removing : List I

/-- The accesses. A `Get` that finds its text as an id or a name returns what it found, so only others are here. -/
inductive Access (I : Type) where
  | containersAdd (id : I)
  | idIndexAdd (id : I)
  | idIndexDelete (id : I)
  | containersDelete (id : I)
  | idIndexGet (id : I)
  | containersGet (id : I)

section Get

variable {I : Type} [DecidableEq I]

def access (st : Tables I) : Access I → Option (Tables I)
  | .containersAdd id => some { st with containers := id :: st.containers, registering := id :: st.registering }
  | .idIndexAdd id =>
    if id ∈ st.registering then
      some { st with idIndex := id :: st.idIndex, registering := st.registering.erase id }
    else none
  | .idIndexDelete id => some { st with idIndex := st.idIndex.filter (· ≠ id), removing := id :: st.removing }
  | .containersDelete id =>
    if id ∈ st.removing then
      some { st with containers := st.containers.filter (· ≠ id), removing := st.removing.erase id }
    else none
  | .idIndexGet id => if id ∈ st.idIndex then some { st with indexed := id :: st.indexed } else none
  | .containersGet id => if id ∈ st.indexed then some { st with indexed := st.indexed.erase id } else none

/-- What `Get` returns without an error is a container. -/
def NonNil (st : Tables I) : Access I → Prop
  | .containersGet id => id ∈ st.containers
  | _ => True

/-- A container leaves the table when nobody can come to it from the index any more. -/
def Unreachable (st : Tables I) : Access I → Prop
  | .containersDelete id => id ∉ st.idIndex ∧ id ∉ st.indexed ∧ id ∉ st.registering
  | _ => True

/-- **`Get` never returns nothing** as long as only unreachable containers leave the table, and after any other
removal it can. -/
theorem get_nonnil_iff (ls : List (Access I)) (st : Tables I) (id : I) :
    (Along access Unreachable ⟨[], [], [], [], []⟩ ls → Along access NonNil ⟨[], [], [], [], []⟩ ls) ∧
      (id ∈ st.removing → ¬ Unreachable st (.containersDelete id) →
        ∃ ls, ¬ Along access NonNil st (.containersDelete id :: ls)) := by
  constructor
  · refine along_of_inv (I := fun st => ∀ id, id ∈ st.idIndex ∨ id ∈ st.indexed ∨ id ∈ st.registering →
      id ∈ st.containers) (fun st l st' h hl hstep => ?_) (fun st l st' h hl hstep => ?_) (by simp)
    · cases l <;> simp only [access] at hstep <;> (repeat' split at hstep) <;> cases hstep <;> grind [Unreachable]
    · cases l <;> grind [access, NonNil]
  · intro hid hreach
    by_cases hindexed : id ∈ st.indexed
    · exact ⟨[.containersGet id], by simp [Along, access, NonNil, hid, hindexed]⟩
    by_cases hindex : id ∈ st.idIndex
    · exact ⟨[.idIndexGet id, .containersGet id], by simp [Along, access, NonNil, hid, hindex]⟩
    · have hreg : id ∈ st.registering := by simp_all [Unreachable]
      exact ⟨[.idIndexAdd id, .idIndexGet id, .containersGet id], by simp [Along, access, NonNil, hid, hreg]⟩

end Get

/-- The container is removed between the two lookups. -/
theorem get_nothing :
    ¬ Along access NonNil ⟨[], [], [], [], []⟩
      [.containersAdd 0, .idIndexAdd 0, .idIndexGet 0, .idIndexDelete 0, .containersDelete 0, .containersGet 0] := by
  simp [Along, access, NonNil]

end DockerEngine.Containers.Removal
