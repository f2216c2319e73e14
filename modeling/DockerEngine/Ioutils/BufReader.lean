import DockerEngine.Lib.Bytes
import DockerEngine.Lib.Trace

/-!
# The pre-reading buffer

The goroutine `drain` reads the source into a buffer from which `Read` takes its bytes. Both hold the lock, so a
run is a list of rounds of the one and calls of the other. The buffer is moved and replaced under conditions on
counters and on the time; none of this changes its bytes (`compact_eq`).

The bytes that come together with the error of the source are not written to the buffer. And a call with an empty
slice gets the error while bytes are left. Without the two nothing is lost, in every run (`Inv`).
-/

namespace DockerEngine.Ioutils

open Bytes Trace List

variable {E : Type}

/-- The lengths and limits of a `bufReader`. -/
structure Setup where
  reuseBufLen : Nat
  maxReuse : Nat
  bufLenResetThreshold : Nat
  maxReadDataReset : Nat

/-- The state: what the source will return, `bufReader` with the counters of `drain`, and what `Read` returned. -/
structure State (E : Type) where
  source : List (Bytes × Option E)
  buf : Bytes
  err : Option E
  reuseCount : Nat
  maxBufLen : Nat
  dataSinceReset : Nat
  returned : Bytes
  reported : Option E

def start (src : List (Bytes × Option E)) : State E := ⟨src, [], none, 0, 0, 0, [], none⟩

/-- The data is moved to the front of the buffer, through `reuseBuf`, or to a new buffer. -/
def compact (u : Setup) (timeoutReached : Bool) (s : State E) : State E :=
  if 0 < s.buf.length ∧ s.buf.length ≤ u.reuseBufLen then
    { s with buf := s.buf.drop u.reuseBufLen ++ s.buf.take u.reuseBufLen }
  else if u.maxReuse ≤ s.reuseCount ∧ 0 < s.buf.length ∧ timeoutReached ∧ (u.reuseBufLen < s.buf.length ∨
      u.bufLenResetThreshold ≤ s.maxBufLen ∨ u.maxReadDataReset ≤ s.dataSinceReset) then
    { s with reuseCount := 0, maxBufLen := 0, dataSinceReset := 0 }
  else s

/-- A round of `drain`, behind the read of the source. It ends with an error. -/
def drain (u : Setup) (timeoutReached : Bool) (s : State E) : Option (State E) :=
  match s.source with
  | [] => none
  | (data, err) :: source =>
    let t := compact u timeoutReached
      { s with dataSinceReset := s.dataSinceReset + data.length, maxBufLen := max s.maxBufLen s.buf.length }
    match err with
    | some e => some { t with source := [], err := some e, reuseCount := t.reuseCount + 1 }
    | none => some { t with source := source, buf := t.buf ++ data, reuseCount := t.reuseCount + 1 }

/-- `Read` into a slice of the length `n`. It waits where this is `none`. -/
def read (n : Nat) (s : State E) : Option (State E) :=
  if s.buf.take n ≠ [] then some { s with returned := s.returned ++ s.buf.take n, buf := s.buf.drop n }
  else s.err.map fun e => { s with reported := some e }

inductive Label where
  | drain (timeoutReached : Bool)
  | read (n : Nat)

def step (u : Setup) (s : State E) : Label → Option (State E)
  | .drain timeoutReached => drain u timeoutReached s
  | .read n => read n s

/-- All bytes of the source, up to its error. -/
def dataOf : List (Bytes × Option E) → Bytes
  | [] => []
  | (data, none) :: src => data ++ dataOf src
  | (data, some _) :: _ => data

/-- No bytes come with the error. -/
def QuietEnd : List (Bytes × Option E) → Prop
  | [] => True
  | (_, none) :: src => QuietEnd src
  | (data, some _) :: _ => data = []

/-- What was returned is the beginning of the source, and all of it once the error was reported. -/
def Delivers (src : List (Bytes × Option E)) (s : State E) : Prop :=
  s.returned <+: dataOf src ∧ (s.reported ≠ none → s.returned = dataOf src)

/-- The slice of a call is not empty. -/
def Label.Filled : Label → Prop
  | .drain _ => True
  | .read n => 0 < n

/-- Returned, buffered and to come: nothing is lost. -/
structure Inv (src : List (Bytes × Option E)) (s : State E) : Prop where
  quiet : QuietEnd s.source
  bytes : s.returned ++ (s.buf ++ dataOf s.source) = dataOf src
  ended : s.err ≠ none → s.source = []
  reported : s.reported ≠ none → s.err ≠ none ∧ s.buf = []

variable {u : Setup} {b : Bool} {n : Nat} {s s' : State E} {src : List (Bytes × Option E)} {l : Label}

theorem compact_eq (u : Setup) (b : Bool) (s : State E) :
    ∃ i j k, compact u b s = { s with reuseCount := i, maxBufLen := j, dataSinceReset := k } := by
  rw [compact]
  split
  next h => exact ⟨_, _, _, by rw [drop_eq_nil_of_le h.2, take_of_length_le h.2, nil_append]⟩
  · split
    · exact ⟨_, _, _, rfl⟩
    · exact ⟨_, _, _, rfl⟩

/-- What a round of `drain` does to the bytes. -/
theorem drain_eq {data : Bytes} {err : Option E} (u : Setup) (b : Bool) (h : s.source = (data, err) :: src) :
    ∃ i j k, drain u b s = some (match err with
      | none => { s with
          source := src, buf := s.buf ++ data, reuseCount := i, maxBufLen := j, dataSinceReset := k }
      | some e => { s with
          source := [], err := some e, reuseCount := i, maxBufLen := j, dataSinceReset := k }) := by
  obtain ⟨i, j, k, ht⟩ := compact_eq u b { s with
    dataSinceReset := s.dataSinceReset + data.length, maxBufLen := max s.maxBufLen s.buf.length }
  refine ⟨i + 1, j, k, ?_⟩
  unfold drain
  split
  next hnil => cases h.symm.trans hnil
  next hcons =>
    cases h.symm.trans hcons
    cases err with
    | none => simp only [ht]
    | some e => simp only [ht]

theorem Inv.step (h : Inv src s) (hl : l.Filled) (hs : Ioutils.step u s l = some s') : Inv src s' := by
  cases l with
  | drain b =>
    have hbytes := h.bytes
    have hquiet := h.quiet
    rcases hsource : s.source with _ | ⟨⟨data, err⟩, source⟩
    · rw [Ioutils.step, drain, hsource] at hs
      cases hs
    obtain ⟨i, j, k, hd⟩ := drain_eq u b hsource
    cases hd.symm.trans hs
    rw [hsource] at hbytes hquiet
    cases err with
    | none =>
      have herr : s.err = none := by
        by_contra he
        rw [h.ended he] at hsource
        cases hsource
      exact ⟨hquiet, by simpa [dataOf] using hbytes, absurd herr,
        fun hr => absurd herr (h.reported hr).1⟩
    | some e =>
      exact ⟨trivial, by simpa [dataOf, show data = [] from hquiet] using hbytes, fun _ => rfl,
        fun hr => ⟨nofun, (h.reported hr).2⟩⟩
  | read n =>
    have hs : (if s.buf.take n ≠ [] then _ else s.err.map _) = some s' := hs
    split at hs
    next htake =>
      cases hs
      refine ⟨h.quiet, ?_, h.ended, fun hr => absurd (h.reported hr).2 ?_⟩
      · simpa [← append_assoc (take n s.buf)] using h.bytes
      · exact fun hnil => htake (by rw [hnil, take_nil])
    next htake =>
      obtain ⟨e, he, rfl⟩ := Option.map_eq_some_iff.mp hs
      have hbuf : s.buf = [] := (take_eq_nil_iff.mp (not_not.mp htake)).resolve_left (Nat.pos_iff_ne_zero.mp hl)
      exact ⟨h.quiet, h.bytes, h.ended, fun _ => ⟨by simp [he], hbuf⟩⟩

theorem Inv.delivers (h : Inv src s) : Delivers src s := by
  refine ⟨h.bytes ▸ prefix_append _ _, fun hr => ?_⟩
  obtain ⟨herr, hbuf⟩ := h.reported hr
  have hbytes := h.bytes
  rw [hbuf, h.ended herr] at hbytes
  simpa [dataOf] using hbytes

/-- Where bytes come with the error there is a run that reports the error and has not returned all bytes. -/
theorem exists_short (u : Setup) (h : ¬ QuietEnd s.source) : ∃ ls s', (∀ l ∈ ls, Label.Filled l) ∧
    exec (step u) s ls = some s' ∧ s'.reported ≠ none ∧
    s'.returned.length < s.returned.length + s.buf.length + (dataOf s.source).length := by
  generalize hsrc : s.source = src at h ⊢
  induction src generalizing s with
  | nil => exact absurd trivial h
  | cons r src ih =>
    obtain ⟨data, err⟩ := r
    obtain ⟨i, j, k, hstep⟩ := drain_eq u false hsrc
    cases err with
    | none =>
      obtain ⟨ls, s', hls, hrun, hrep, hlen⟩ := ih (s := { s with
        source := src, buf := s.buf ++ data, reuseCount := i, maxBufLen := j, dataSinceReset := k }) rfl h
      refine ⟨.drain false :: ls, s', forall_mem_cons.mpr ⟨trivial, hls⟩, (exec_cons hstep).trans hrun, hrep, ?_⟩
      simpa [dataOf, Nat.add_assoc] using hlen
    | some e =>
      have hdata : 0 < data.length := length_pos_iff.mpr h
      -- One call for what is buffered, and one more.
      by_cases hbuf : s.buf = []
      · exact ⟨[.drain false, .read 1], _, by simp [Label.Filled],
          (exec_cons hstep).trans (by simp [exec, step, read, hbuf]; rfl), Option.some_ne_none e,
          by simpa [dataOf, hbuf] using hdata⟩
      · exact ⟨[.drain false, .read s.buf.length, .read 1], _, by simp [Label.Filled, length_pos_iff, hbuf],
          (exec_cons hstep).trans (by simp [exec, step, read, hbuf]; rfl), Option.some_ne_none e,
          by simpa [dataOf] using hdata⟩

/-- With calls whose slices are not empty nothing is lost, in every run, exactly if no bytes come with the error. -/
theorem read_delivers_iff (u : Setup) (src : List (Bytes × Option E)) :
    (∀ ls s, (∀ l ∈ ls, Label.Filled l) → exec (step u) (start src) ls = some s → Delivers src s) ↔ QuietEnd src := by
  refine ⟨fun h => ?_, fun h ls s hls hrun => ?_⟩
  · by_contra hloud
    obtain ⟨ls, s, hls, hrun, hrep, hlen⟩ := exists_short (s := start src) u hloud
    rw [(h ls s hls hrun).2 hrep] at hlen
    simp [start] at hlen
  · have hinv : Inv src (start src) := ⟨h, rfl, nofun, nofun⟩
    exact (exec_inv (fun _ _ _ hi => hi.step) hinv (along_of_forall fun l hl _ => hls l hl) hrun).delivers

/-- A byte that comes with the end of the file is lost, and an empty slice gets the error before the bytes. -/
theorem read_drops : ∃ u : Setup,
    (∃ s, exec (step u) (start [([1], some ())]) [.drain false, .read 1] = some s ∧
      ¬ Delivers [([1], some ())] s) ∧
    ∃ s, exec (step u) (start [([1], none), ([], some ())]) [.drain false, .drain false, .read 0] = some s ∧
      ¬ Delivers [([1], none), ([], some ())] s :=
  ⟨⟨4096, 1000, 102400, 10485760⟩, ⟨_, rfl, fun h => absurd (h.2 nofun) nofun⟩,
    _, rfl, fun h => absurd (h.2 nofun) nofun⟩

end DockerEngine.Ioutils
