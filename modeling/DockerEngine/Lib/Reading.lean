import DockerEngine.Lib.Loop

/-!
# Reading into a buffer

A source answers a read with some data, at most as much as there is room for, and possibly an error, of which
end of file is one. How much a read gives is the source's business: `Feeds` only says that the reads of a source
give all that is left in it, in order, and that a read which gives nothing says so. A reader that needs a number
of items goes on reading until it has them (`fill`). `fill_feeds` says what that comes to, however the source
cuts its data: the items are there in the end exactly if there are as many of them left.
-/

namespace DockerEngine.Reading

open List

/-- How a read ends besides its data. -/
inductive ReadErr (ε : Type) where
  | eof
  | failed (e : ε)
  deriving DecidableEq, Repr

/-- What a read answers, and the source behind it. -/
structure Answer (σ α ε : Type) where
  data : List α
  err : Option (ReadErr ε)
  src : σ

/-- `io.Reader`: a read from a source into so much room. -/
abbrev Reader (σ α ε : Type) : Type := σ → Nat → Answer σ α ε

/-- What was read and not used yet, and the source. -/
structure Pending (σ α : Type) where
  data : List α
  src : σ
  deriving DecidableEq, Repr

/-- How a loop that reads a number of items ends. -/
inductive Filled (ε : Type) where
  | full
  | short
  | failed (e : ε)
  deriving DecidableEq, Repr

variable {σ α ε : Type}

/-- One round of a loop that reads into a buffer of `size` items while it has less than `need`. -/
def fillStep (read : Reader σ α ε) (size need : Nat) (b : Pending σ α) : Pending σ α ⊕ (Filled ε × Pending σ α) :=
  if b.data.length < need then
    let a := read b.src (size - b.data.length)
    let b' := ⟨b.data ++ a.data, a.src⟩
    match a.err with
    | some .eof => .inr (if b'.data.length < need then .short else .full, b')
    | some (.failed e) => .inr (.failed e, b')
    | none => .inl b'
  else .inr (.full, b)

/-- Reads until there are `need` items, in at most so many rounds. -/
def fill (read : Reader σ α ε) (size need rounds : Nat) (b : Pending σ α) : Option (Filled ε × Pending σ α) :=
  Loop.run (fillStep read size need) rounds b

/-- The reads of a source give what is left in it, and then end of file; the last data may come with it. -/
structure Feeds (read : Reader σ α ε) (left : σ → List α) : Prop where
  fits : ∀ s room, 0 < room → (read s room).data.length ≤ room
  splits : ∀ s room, 0 < room → (read s room).data ++ left (read s room).src = left s
  ends : ∀ s room, 0 < room → ((read s room).err = some .eof ∧ left (read s room).src = []) ∨
    ((read s room).err = none ∧ (read s room).data ≠ [])

/-- All that is still to be used. -/
def Pending.all (left : σ → List α) (b : Pending σ α) : List α := b.data ++ left b.src

/-- What filling a buffer comes to when `all` is what there is. -/
def FilledAs (left : σ → List α) (need : Nat) (all : List α) (r : Filled ε × Pending σ α) : Prop :=
  r.2.all left = all ∧
    (r.1 = .full ∧ need ≤ r.2.data.length ∨ r.1 = .short ∧ all.length < need)

section Feeds

variable {read : Reader σ α ε} {left : σ → List α} {size need : Nat} {b : Pending σ α}

section

variable (h : Feeds read left) (hsize : need ≤ size)
include h hsize

/-- A round that goes on has moved data from the source to the buffer. -/
theorem fillStep_continue {b' : Pending σ α} (hb : fillStep read size need b = .inl b') :
    b'.all left = b.all left ∧ (left b'.src).length < (left b.src).length := by
  rw [fillStep] at hb
  split at hb
  next hlt =>
    have hroom : 0 < size - b.data.length := by omega
    have hsplit := h.splits b.src _ hroom
    obtain ⟨herr, -⟩ | ⟨herr, hdata⟩ := h.ends b.src _ hroom
    · simp [herr] at hb
    simp only [herr, Sum.inl.injEq] at hb
    subst hb
    have hpos := length_pos_of_ne_nil hdata
    refine ⟨by rw [Pending.all, append_assoc, hsplit, Pending.all], ?_⟩
    rw [← hsplit, length_append]
    exact Nat.lt_add_of_pos_left hpos
  next => cases hb

/-- A round that leaves has the items, or there are not as many. -/
theorem fillStep_leave {r : Filled ε × Pending σ α}
    (hr : fillStep read size need b = .inr r) : FilledAs left need (b.all left) r := by
  rw [fillStep] at hr
  split at hr
  next hlt =>
    have hroom : 0 < size - b.data.length := by omega
    have hsplit := h.splits b.src _ hroom
    obtain ⟨herr, hend⟩ | ⟨herr, -⟩ := h.ends b.src _ hroom
    · simp only [herr, Sum.inr.injEq] at hr
      subst hr
      have hall : (Pending.all left ⟨b.data ++ (read b.src (size - b.data.length)).data,
          (read b.src (size - b.data.length)).src⟩) = b.all left := by
        rw [Pending.all, append_assoc, hsplit, Pending.all]
      refine ⟨hall, ?_⟩
      rw [← hall, Pending.all, hend, append_nil]
      split
      next hshort => exact .inr ⟨rfl, hshort⟩
      next hfull => exact .inl ⟨rfl, Nat.le_of_not_lt hfull⟩
    · simp [herr] at hr
  next hge =>
    rw [Sum.inr.injEq] at hr
    subst hr
    exact ⟨rfl, .inl ⟨rfl, Nat.le_of_not_lt hge⟩⟩

variable {rounds : Nat}

section

variable (hrounds : (b.all left).length < rounds)
include hrounds

/-- **Reading a number of items**: with enough rounds it ends, it has lost nothing, and it has the items
exactly if there were as many. -/
theorem fill_feeds :
    ∃ r, fill read size need rounds b = some r ∧ FilledAs left need (b.all left) r := by
  have hkeep : ∀ s s', s.all left = b.all left → fillStep read size need s = .inl s' → s'.all left = b.all left :=
    fun s s' hs hstep => (fillStep_continue h hsize hstep).1.trans hs
  have hleft : (left b.src).length < rounds := by
    rw [Pending.all, length_append] at hrounds
    omega
  obtain ⟨r, hr⟩ := Loop.run_returns (I := fun s => s.all left = b.all left) (fun s => (left s.src).length) hkeep
    (fun s s' _ hstep => (fillStep_continue h hsize hstep).2) rfl hleft
  refine ⟨r, hr, ?_⟩
  refine Loop.run_post (I := fun s => s.all left = b.all left)
    (fun r => FilledAs left need (b.all left) r) hkeep ?_ rfl hr
  intro s r hs hstep
  rw [← hs]
  exact fillStep_leave h hsize hstep

/-- The loop ends short when the items are not there. -/
theorem fill_short (hneed : (b.all left).length < need) :
    ∃ b', fill read size need rounds b = some (.short, b') := by
  obtain ⟨⟨f, b'⟩, hfill, hall, hf⟩ := fill_feeds (b := b) h hsize hrounds
  obtain ⟨-, hlen⟩ | ⟨rfl, -⟩ := hf
  · have hdata : b'.data.length ≤ (b.all left).length := by
      rw [← hall, Pending.all, length_append]
      exact Nat.le_add_right _ _
    exact absurd hneed (Nat.not_lt.mpr (Nat.le_trans hlen hdata))
  · exact ⟨b', hfill⟩

/-- The items are in the buffer when they are there. -/
theorem fill_full (hneed : need ≤ (b.all left).length) :
    ∃ b', fill read size need rounds b = some (.full, b') ∧ b'.all left = b.all left ∧
      need ≤ b'.data.length := by
  obtain ⟨⟨f, b'⟩, hfill, hall, hf⟩ := fill_feeds (b := b) h hsize hrounds
  obtain ⟨rfl, hlen⟩ | ⟨-, hlt⟩ := hf
  · exact ⟨b', hfill, hall, hlen⟩
  · omega

end

end

end Feeds

/-- A source that gives one item at a time, the last one together with end of file. -/
def singly (ε : Type) : Reader (List α) α ε
  | [], _ => ⟨[], some .eof, []⟩
  | [x], _ => ⟨[x], some .eof, []⟩
  | x :: y :: rest, _ => ⟨[x], none, y :: rest⟩

theorem feeds_singly : Feeds (singly ε : Reader (List α) α ε) id where
  fits s room hroom := by
    match s with
    | [] => exact Nat.zero_le _
    | [_] => exact hroom
    | _ :: _ :: _ => exact hroom
  splits s _ _ := by
    match s with
    | [] => rfl
    | [_] => rfl
    | _ :: _ :: _ => rfl
  ends s _ _ := by
    match s with
    | [] => exact .inl ⟨rfl, rfl⟩
    | [_] => exact .inl ⟨rfl, rfl⟩
    | _ :: _ :: _ => exact .inr ⟨rfl, by simp [singly]⟩

end DockerEngine.Reading
