import DockerEngine.Jsonlog.Marshal
import DockerEngine.Lib.Trace

/-!
# Log files that rotate

The default log driver writes the records of a container to a file. When the file has reached `max-size` before a
record is written, the files move on: `name.(n-2)` becomes `name.(n-1)`, and so on, `name` becomes `name.1`, and a
new `name` is begun. A link of the chain that is missing is created, so that it can be moved.

**The law** (`readLogs_tail`): after any sequence of calls of `Log` and restarts of the daemon, what `readLogs` opens
is a tail of the records that were logged, whole records only, with the last one in it; and no numbered file is left
outside of the chain. The files hold `chain` of some lists of records, one list for each file, and a rotation shifts
these lists by one (`Files.rotated`).

No operation on a file fails. `max-size` and `max-file` are given as the numbers that they are parsed to.
-/

namespace DockerEngine.Jsonfilelog

open Bytes Jsonlog Trace List Option Function Nat

/-! ## Files -/

/-- The files of a directory, by path. -/
abbrev Files : Type := Bytes → Option Bytes

section

variable (name : Bytes) (files : Files)

/-- `name + "." + strconv.Itoa(i)`. -/
def numbered (i : Nat) : Bytes := name ++ text "." ++ decimal i

/-- `os.Remove`. -/
def remove (p : Bytes) : Files := update files p none

/-- `os.Rename` of a file that exists. -/
def rename (old new : Bytes) : Files := update (update files old none) new (files old)

/-- `os.OpenFile` with `O_CREATE`. -/
def create (p : Bytes) : Files := update files p (some ((files p).getD []))

/-- `os.OpenFile` with `O_CREATE` and `O_TRUNC`. -/
def truncate (p : Bytes) : Files := update files p (some [])

/-- `backup`. -/
def backup (old curr : Bytes) (files : Files) : Files :=
  let files := if files old ≠ none then remove files old else files
  let files := if files curr = none then truncate files curr else files
  rename files curr old

/-- The loop of `rotate`, from `i` down to 2. -/
def rotateLoop (name : Bytes) : Nat → Files → Files
  | 0, files => files
  | 1, files => files
  | i + 2, files => rotateLoop name (i + 1) (backup (numbered name (i + 2)) (numbered name (i + 1)) files)

/-- `rotate`. -/
def rotate (n : Nat) (files : Files) : Files :=
  if n < 2 then files else backup (numbered name 1) name (rotateLoop name (n - 1) files)

/-! ## The logger -/

/-- `logger.Context`: where the log is, and the options of this driver. -/
structure Context where
  logPath : Bytes
  maxSize : Option Int
  maxFile : Option Int

/-- `logger.Message`. -/
structure Message (T : Type) where
  line : Bytes
  source : Bytes
  timestamp : T

/-- `JSONFileLogger`. The open file is known by its name and by the place at which it is written, which for a file
that was opened with `O_APPEND` is always its end. -/
structure JSONFileLogger where
  buf : Bytes
  name : Bytes
  offset : Option Nat
  capacity : Int
  n : Nat

/-- `New`. The file is created before the options are looked at. -/
def new (ctx : Context) (files : Files) : Except String JSONFileLogger × Files :=
  let maxFiles := ctx.maxFile.getD 1
  if maxFiles < 1 then (.error "max-files cannot be less than 1.", create files ctx.logPath)
  else
    (.ok ⟨[], ctx.logPath, none, ctx.maxSize.getD (-1), maxFiles.toNat⟩, create files ctx.logPath)

/-- The contents of a file after a write at its end or at a place. -/
def written (contents : Bytes) (offset : Option Nat) (data : Bytes) : Bytes :=
  match offset with
  | none => contents ++ data
  | some k => contents.take k ++ data ++ contents.drop (k + data.length)

/-- `writeToBuf`: the buffer is written and is empty then. -/
def writeToBuf (l : JSONFileLogger) (files : Files) : JSONFileLogger × Files :=
  ({ l with buf := [], offset := l.offset.map (· + l.buf.length) },
    update files l.name (some (written ((files l.name).getD []) l.offset l.buf)))

/-- `writeLog`. -/
def writeLog (l : JSONFileLogger) (files : Files) : JSONFileLogger × Files :=
  if l.capacity = -1 then writeToBuf l files
  else if l.capacity ≤ ((files l.name).getD []).length then
    writeToBuf { l with offset := some 0 } (truncate (rotate l.name l.n files) l.name)
  else writeToBuf l files

/-- `Log`. -/
def log {T : Type} (clock : Clock T) (l : JSONFileLogger) (msg : Message T) (files : Files) :
    Except String Unit × JSONFileLogger × Files :=
  match fastMarshalJSON clock msg.timestamp with
  | .error e => (.error e, l, files)
  | .ok timestamp =>
    let record : JSONLogBytes := ⟨msg.line ++ text "\n", msg.source, timestamp⟩
    (.ok (), writeLog { l with buf := record.marshalJSONBuf l.buf ++ text "\n" } files)

/-- The files that `readLogs` opens before the last one: the loop from `i` down to 2. -/
def opened (name : Bytes) (files : Files) : Nat → List Bytes
  | 0 => []
  | 1 => []
  | i + 2 => (files (numbered name (i + 1))).toList ++ opened name files (i + 1)

/-- What `readLogs` reads, unless the last file is missing. -/
def readLogs (l : JSONFileLogger) (ctx : Context) (files : Files) : Option Bytes :=
  (files ctx.logPath).map fun latest => (opened ctx.logPath files l.n ++ [latest]).flatten

/-! ## Runs -/

/-- A call of `Log`, or a restart of the daemon. -/
inductive Event (T : Type) where
  | log (msg : Message T)
  | restart

/-- A logger on the files as they are. -/
def start (ctx : Context) (files : Files) : Option (JSONFileLogger × Files) :=
  match new ctx files with
  | (.ok l, files) => some (l, files)
  | (.error _, _) => none

/-- One event. -/
def step {T : Type} (ctx : Context) (clock : Clock T) (s : JSONFileLogger × Files) :
    Event T → Option (JSONFileLogger × Files)
  | .log msg => some (log clock s.1 msg s.2).2
  | .restart => start ctx s.2

/-- An encoded record. -/
def encoded (line source timestamp : Bytes) : Bytes :=
  JSONLogBytes.marshalJSONBuf ⟨line ++ text "\n", source, timestamp⟩ [] ++ text "\n"

/-- The records that an event logs. -/
def Event.records {T : Type} (clock : Clock T) : Event T → List Bytes
  | .restart => []
  | .log msg =>
    match fastMarshalJSON clock msg.timestamp with
    | .error _ => []
    | .ok timestamp => [encoded msg.line msg.source timestamp]

/-- The records that are logged, in order. -/
def records {T : Type} (clock : Clock T) (es : List (Event T)) : List Bytes := es.flatMap (Event.records clock)

/-! ## The chain of files -/

/-- The files of the chain, the newest first. -/
def link : Nat → Bytes
  | 0 => name
  | i + 1 => numbered name (i + 1)

/-- What is in a file. Nothing is in a file that is missing. -/
def content (p : Bytes) : Bytes := (files p).getD []

theorem link_succ (i : Nat) : link name (i + 1) = numbered name (i + 1) := rfl

end

variable {name : Bytes} {i j : Nat}

theorem numbered_inj (h : numbered name i = numbered name j) : i = j := by
  rw [numbered, numbered, append_cancel_left_eq] at h
  exact decimal_inj h

section

variable (name : Bytes) (files : Files)

theorem numbered_ne (i : Nat) : numbered name i ≠ name := by
  rw [numbered, append_assoc, ne_eq, append_right_eq_self]
  nofun

/-- A file that is missing need not be removed. -/
theorem remove_eq (p : Bytes) : (if files p ≠ none then remove files p else files) = remove files p := by
  by_cases h : files p = none
  · rw [if_neg (not_not.mpr h), remove, ← h, update_eq_self]
  · rw [if_pos h]

/-- A file that is there need not be created. -/
theorem create_eq (p : Bytes) : (if files p = none then truncate files p else files) = create files p := by
  by_cases h : files p = none
  · rw [if_pos h, create, h]
    rfl
  · obtain ⟨c, hc⟩ := ne_none_iff_exists'.mp h
    rw [if_neg h, create, hc, getD_some, ← hc, update_eq_self]

/-- What `backup` does to two different files. -/
theorem backup_eq {old curr : Bytes} (h : curr ≠ old) (files : Files) :
    backup old curr files = update (update files curr none) old (some (content files curr)) := by
  have hcontent : content (remove files old) curr = content files curr := by
    rw [content, remove, update_of_ne h, content]
  have hcreated : create (remove files old) curr curr = some (content files curr) := by
    rw [create, update_self, ← hcontent, content]
  rw [backup, remove_eq, create_eq, rename, hcreated]
  rw [create, update_idem, remove, update_comm h.symm, update_idem]

theorem numbered_ne_numbered (h : i ≠ j) : numbered name i ≠ numbered name j := fun heq => h (numbered_inj heq)

/-- The loop leaves the other files alone. -/
theorem rotateLoop_other {p : Bytes}
    (hp : ∀ j, 1 ≤ j → j ≤ i → p ≠ numbered name j) : rotateLoop name i files p = files p := by
  fun_induction rotateLoop name i files with
  | case1 => rfl
  | case2 => rfl
  | case3 i files ih =>
    rw [ih fun j h1 hj => hp j h1 (by omega), backup_eq (numbered_ne_numbered name (by omega)),
      update_of_ne (hp _ (by omega) (Nat.le_refl _)), update_of_ne (hp _ (by omega) (by omega))]

/-- The loop moves the numbered files by one. -/
theorem rotateLoop_numbered (h1 : 1 ≤ j) (hj : j < i) :
    rotateLoop name i files (numbered name (j + 1)) = some (content files (numbered name j)) := by
  fun_induction rotateLoop name i files with
  | case1 => omega
  | case2 => omega
  | case3 i files ih =>
    have hbackup := backup_eq (numbered_ne_numbered name (show i + 1 ≠ i + 2 by omega)) files
    by_cases hlast : j = i + 1
    · subst hlast
      rw [rotateLoop_other name _ fun k _ hk => numbered_ne_numbered name (by omega), hbackup, update_self]
    · rw [ih (by omega), content, hbackup, update_of_ne (numbered_ne_numbered name (by omega)),
        update_of_ne (numbered_ne_numbered name hlast), content]

end

/-- **A rotation shifts the chain**: the new file is empty, each other one has what the one before it had, and the
rest is as it was. -/
structure Shifted (name : Bytes) (n : Nat) (files files' : Files) : Prop where
  first : files' name = some []
  next : ∀ i, i + 1 < n → files' (link name (i + 1)) = some (content files (link name i))
  rest : ∀ p, (∀ i < n, p ≠ link name i) → files' p = files p

variable {n : Nat} (k : Nat → List Bytes)

theorem shifted_rotate (name : Bytes) (hn : 1 ≤ n) (files : Files) :
    Shifted name n files (truncate (rotate name n files) name) := by
  have hback := backup_eq (numbered_ne name 1).symm (rotateLoop name (n - 1) files)
  refine ⟨update_self .., fun i hi => ?_, fun p hp => ?_⟩
  · rw [truncate, link_succ, update_of_ne (numbered_ne name (i + 1)), rotate, if_neg (by omega), hback]
    cases i with
    | zero =>
      have hname := rotateLoop_other name (i := n - 1) files fun j _ _ => (numbered_ne name j).symm
      rw [update_self, content, hname]
      rfl
    | succ i =>
      rw [update_of_ne (numbered_ne_numbered name (by omega)), update_of_ne (numbered_ne name _),
        rotateLoop_numbered name files (by omega) (by omega)]
      rfl
  · have hname : p ≠ name := hp 0 hn
    rw [truncate, update_of_ne hname, rotate]
    split
    next => rfl
    next htwo =>
      have hnumbered : ∀ j, 1 ≤ j → j ≤ n - 1 → p ≠ numbered name j := by
        intro j h1 hj
        obtain ⟨i, rfl⟩ := exists_eq_succ_of_ne_zero (show j ≠ 0 by omega)
        exact hp (i + 1) (by omega)
      rw [hback, update_of_ne (hnumbered 1 (Nat.le_refl 1) (by omega)), update_of_ne hname,
        rotateLoop_other name files hnumbered]

/-! ## Lists of records -/

/-- The records of the chain, the oldest file first. -/
def chain (k : Nat → List Bytes) : Nat → List Bytes
  | 0 => []
  | n + 1 => k n ++ chain k n

/-- The lists after a rotation. -/
def shift (k : Nat → List Bytes) : Nat → List Bytes
  | 0 => []
  | i + 1 => k i

theorem chain_succ (n : Nat) : chain k (n + 1) = k n ++ chain k n := rfl

theorem chain_shift (n : Nat) : chain k n = chain (shift k) (n + 1) := by
  induction n with
  | zero => rfl
  | succ n ih =>
    rw [chain, ih]
    rfl

/-- One more record in the newest file. -/
def logged (k : Nat → List Bytes) (r : Bytes) : Nat → List Bytes
  | 0 => k 0 ++ [r]
  | i + 1 => k (i + 1)

theorem chain_logged (r : Bytes) (n : Nat) : chain (logged k r) (n + 1) = chain k (n + 1) ++ [r] := by
  induction n with
  | zero => simp [chain, logged]
  | succ n ih =>
    rw [chain_succ, ih, chain_succ k (n + 1), append_assoc]
    rfl

variable {k : Nat → List Bytes}

theorem chain_ne_nil (h : k 0 ≠ []) (n : Nat) : chain k (n + 1) ≠ [] := by
  induction n with
  | zero => simpa [chain] using h
  | succ n ih =>
    rw [chain_succ]
    exact append_ne_nil_of_right_ne_nil _ ih

/-- The files of the chain hold these lists of records. -/
structure Holds (name : Bytes) (n : Nat) (k : Nat → List Bytes) (files : Files) : Prop where
  latest : files name ≠ none
  contents : ∀ i < n, content files (link name i) = (k i).flatten
  only : ∀ i, files (numbered name i) ≠ none → 1 ≤ i ∧ i < n

theorem Holds.shifted {files files' : Files}
    (h : Holds name n k files) (hfiles : Shifted name n files files') : Holds name n (shift k) files' := by
  refine ⟨by simp [hfiles.first], fun i hi => ?_, fun i hi => ?_⟩
  · cases i with
    | zero => rw [content, link, hfiles.first]; rfl
    | succ i =>
      rw [content, hfiles.next i hi, getD_some, h.contents i (by omega)]
      rfl
  · by_contra hout
    have hother : ∀ j < n, numbered name i ≠ link name j := by
      intro j hj heq
      cases j with
      | zero => exact numbered_ne name i heq
      | succ j =>
        have := numbered_inj heq
        omega
    rw [hfiles.rest _ hother] at hi
    exact hout (h.only i hi)

theorem Holds.logged {files : Files} (h : Holds name n k files) (r : Bytes) :
    Holds name n (logged k r) (update files name (some (content files name ++ r))) := by
  refine ⟨by simp, fun i hi => ?_, fun i hi => ?_⟩
  · cases i with
    | zero =>
      rw [content, link, update_self, getD_some, show name = link name 0 from rfl, h.contents 0 hi]
      simp [Jsonfilelog.logged]
    | succ i =>
      rw [content, link_succ, update_of_ne (numbered_ne name _)]
      exact h.contents (i + 1) hi
  · rw [update_of_ne (numbered_ne name i)] at hi
    exact h.only i hi

/-! ## The logger and its files -/

/-- The number of files of a log. -/
def maxFiles (ctx : Context) : Nat := (ctx.maxFile.getD 1).toNat

/-- A logger whose next write goes to the end of the newest file of the chain. -/
structure Ready (ctx : Context) (k : Nat → List Bytes) (l : JSONFileLogger) (files : Files) : Prop where
  name : l.name = ctx.logPath
  n : l.n = maxFiles ctx
  offset : l.offset = none ∨ l.offset = some (content files ctx.logPath).length
  holds : Holds ctx.logPath (maxFiles ctx) k files

variable {ctx : Context} {k : Nat → List Bytes} {l : JSONFileLogger} {files : Files}
  {s : JSONFileLogger × Files} {recs : List Bytes}

theorem written_end {contents data : Bytes} {offset : Option Nat}
    (h : offset = none ∨ offset = some contents.length) : written contents offset data = contents ++ data := by
  obtain rfl | rfl := h
  · rfl
  · rw [written, take_length, drop_eq_nil_of_le (le_add_right _ _), append_nil]

theorem Ready.writeToBuf (h : Ready ctx k l files) :
    Ready ctx (logged k l.buf) (writeToBuf l files).1 (writeToBuf l files).2 := by
  have hwritten : written (content files ctx.logPath) l.offset l.buf = content files ctx.logPath ++ l.buf :=
    written_end h.offset
  have hfiles : (Jsonfilelog.writeToBuf l files).2 =
      update files ctx.logPath (some (content files ctx.logPath ++ l.buf)) := by
    rw [← hwritten, ← h.name]
    rfl
  refine ⟨h.name, h.n, ?_, hfiles ▸ h.holds.logged l.buf⟩
  rw [hfiles, content, update_self, getD_some, length_append]
  exact h.offset.imp (fun hnone => by simp [Jsonfilelog.writeToBuf, hnone])
    fun hsome => by simp [Jsonfilelog.writeToBuf, hsome]

section

variable (hn : 1 ≤ maxFiles ctx) (h : Ready ctx k l files)
include hn h

theorem Ready.rotate :
    Ready ctx (shift k) { l with offset := some 0 } (truncate (rotate l.name l.n files) l.name) := by
  have hshifted : Shifted ctx.logPath (maxFiles ctx) files
      (truncate (Jsonfilelog.rotate l.name l.n files) l.name) := by
    rw [h.name, h.n]
    exact shifted_rotate ctx.logPath hn files
  refine ⟨h.name, h.n, .inr ?_, h.holds.shifted hshifted⟩
  rw [content, hshifted.first]
  rfl

/-- What is dropped when a record is written are the records of the oldest file, or none. -/
theorem Ready.writeLog :
    ∃ k' dropped, Ready ctx k' (writeLog l files).1 (writeLog l files).2 ∧ k' 0 ≠ [] ∧
      chain k (maxFiles ctx) ++ [l.buf] = dropped ++ chain k' (maxFiles ctx) := by
  obtain ⟨m, hm⟩ := exists_eq_succ_of_ne_zero (show maxFiles ctx ≠ 0 by omega)
  have hlogged : ∀ j : Nat → List Bytes, logged j l.buf 0 ≠ [] := fun j => by simp [logged]
  have hplain := h.writeToBuf
  rw [Jsonfilelog.writeLog]
  split
  next => exact ⟨_, [], hplain, hlogged k, by rw [hm, chain_logged, nil_append]⟩
  next =>
    split
    next =>
      refine ⟨_, k m, (h.rotate hn).writeToBuf, hlogged (shift k), ?_⟩
      rw [hm, chain_logged, ← chain_shift, chain_succ, append_assoc]
    next => exact ⟨_, [], hplain, hlogged k, by rw [hm, chain_logged, nil_append]⟩

end

theorem writeLog_buf (l : JSONFileLogger) (files : Files) : (writeLog l files).1.buf = [] := by
  rw [writeLog]
  split
  · rfl
  · split <;> rfl

theorem start_eq (h : 1 ≤ maxFiles ctx) (files : Files) :
    start ctx files =
      some (⟨[], ctx.logPath, none, ctx.maxSize.getD (-1), maxFiles ctx⟩, create files ctx.logPath) := by
  have hmax : ¬ ctx.maxFile.getD 1 < 1 := by
    rw [maxFiles] at h
    omega
  rw [start, new, if_neg hmax]
  rfl

/-! ## Whole runs -/

/-- What holds of the logger and the files when these records were logged. -/
def Tail (ctx : Context) (recs : List Bytes) (s : JSONFileLogger × Files) : Prop :=
  s.1.buf = [] ∧ ∃ k dropped, Ready ctx k s.1 s.2 ∧ recs = dropped ++ chain k (maxFiles ctx) ∧ (recs ≠ [] → k 0 ≠ [])

theorem tail_start (hn : 1 ≤ maxFiles ctx) (hname : files ctx.logPath = none)
    (hnumbered : ∀ i, files (numbered ctx.logPath i) = none) : ∃ s, start ctx files = some s ∧ Tail ctx [] s := by
  refine ⟨_, start_eq hn files, rfl, fun _ => [], [], ⟨rfl, rfl, .inl rfl, ?_⟩, ?_, absurd rfl⟩
  · refine ⟨by simp [create], fun i _ => ?_, fun i hi => ?_⟩
    · cases i with
      | zero => simp [content, link, create, hname]
      | succ i => simp [content, link_succ, create, numbered_ne, hnumbered]
    · simp [create, numbered_ne, hnumbered] at hi
  · have hnil : ∀ n, chain (fun _ => []) n = [] := by
      intro n
      induction n with
      | zero => rfl
      | succ n ih => rw [chain_succ, ih, append_nil]
    rw [hnil, append_nil]

theorem Tail.step {T : Type} (clock : Clock T) (e : Event T) (hn : 1 ≤ maxFiles ctx) (h : Tail ctx recs s) :
    ∃ s', Jsonfilelog.step ctx clock s e = some s' ∧ Tail ctx (recs ++ e.records clock) s' := by
  obtain ⟨hbuf, k, dropped, hready, hrecs, hlast⟩ := h
  cases e with
  | restart =>
    refine ⟨_, start_eq hn s.2, rfl, k, dropped, ?_, ?_, ?_⟩
    · rw [← create_eq, if_neg hready.holds.latest]
      exact ⟨rfl, rfl, .inl rfl, hready.holds⟩
    · rw [Event.records, append_nil, hrecs]
    · rwa [Event.records, append_nil]
  | log msg =>
    refine ⟨_, rfl, ?_⟩
    rw [Event.records, log]
    cases htime : fastMarshalJSON clock msg.timestamp with
    | error e =>
      simp only [append_nil]
      exact ⟨hbuf, k, dropped, hready, hrecs, hlast⟩
    | ok timestamp =>
      obtain ⟨k', dropped', hready', hne, hchain⟩ := Ready.writeLog hn
        (show Ready ctx k { s.1 with buf := encoded msg.line msg.source timestamp } s.2 from
          ⟨hready.name, hready.n, hready.offset, hready.holds⟩)
      simp only [hbuf]
      refine ⟨writeLog_buf _ _, k', dropped ++ dropped', hready', ?_, fun _ => hne⟩
      rw [hrecs, append_assoc, hchain, append_assoc]

theorem Tail.exec {T : Type} (clock : Clock T) (es : List (Event T)) (hn : 1 ≤ maxFiles ctx) (h : Tail ctx recs s) :
    ∃ s', exec (Jsonfilelog.step ctx clock) s es = some s' ∧ Tail ctx (recs ++ records clock es) s' := by
  induction es generalizing s recs with
  | nil => exact ⟨s, rfl, by rwa [records, flatMap_nil, append_nil]⟩
  | cons e es ih =>
    obtain ⟨s₁, hstep, htail⟩ := h.step clock e hn
    obtain ⟨s₂, hexec, htail⟩ := ih htail
    refine ⟨s₂, (exec_cons hstep).trans hexec, ?_⟩
    rwa [records, flatMap_cons, ← append_assoc]

/-! ## What is read -/

theorem flatten_opened (h : ∀ i < n, content files (link ctx.logPath i) = (k i).flatten) (hn : 1 ≤ n) :
    (opened ctx.logPath files n).flatten ++ content files ctx.logPath = (chain k n).flatten := by
  induction n with
  | zero => omega
  | succ n ih =>
    cases n with
    | zero =>
      rw [opened, chain_succ, chain, append_nil, ← h 0 (by omega)]
      rfl
    | succ n =>
      rw [opened, chain_succ, flatten_append, flatten_append, append_assoc,
        ih (fun i hi => h i (by omega)) (by omega), ← h (n + 1) (by omega), content, link_succ]
      cases files (numbered ctx.logPath (n + 1)) with
      | none => rfl
      | some c => simp

theorem Tail.readLogs (hn : 1 ≤ maxFiles ctx) (h : Tail ctx recs s) :
    ∃ dropped kept, recs = dropped ++ kept ∧ readLogs s.1 ctx s.2 = some kept.flatten ∧
      recs.getLast? = kept.getLast? ∧ ∀ i, s.2 (numbered ctx.logPath i) ≠ none → 1 ≤ i ∧ i < maxFiles ctx := by
  obtain ⟨-, k, dropped, hready, hrecs, hlast⟩ := h
  obtain ⟨latest, hlatest⟩ := ne_none_iff_exists'.mp hready.holds.latest
  obtain ⟨m, hm⟩ := exists_eq_succ_of_ne_zero (show maxFiles ctx ≠ 0 by omega)
  refine ⟨dropped, chain k (maxFiles ctx), hrecs, ?_, ?_, hready.holds.only⟩
  · have hread := flatten_opened hready.holds.contents hn
    rw [content, hlatest, getD_some] at hread
    rw [Jsonfilelog.readLogs, hlatest, map_some, hready.n, flatten_append, flatten_singleton, hread]
  · by_cases hnil : recs = []
    · have hparts := append_eq_nil_iff.mp (hrecs.symm.trans hnil)
      rw [hnil, hparts.2]
    · have hkept : chain k (maxFiles ctx) ≠ [] := hm ▸ chain_ne_nil (hlast hnil) m
      rw [hrecs, getLast?_append_of_ne_nil _ hkept]

/-- **The log files hold an intact tail of the records**, after any run of `Log` and restarts from no files. -/
theorem readLogs_tail {T : Type} (clock : Clock T) (ctx : Context) (hn : 1 ≤ maxFiles ctx) {files : Files}
    (hname : files ctx.logPath = none) (hnumbered : ∀ i, files (numbered ctx.logPath i) = none)
    (es : List (Event T)) :
    ∃ s s', start ctx files = some s ∧ exec (step ctx clock) s es = some s' ∧
      ∃ dropped kept, records clock es = dropped ++ kept ∧ readLogs s'.1 ctx s'.2 = some kept.flatten ∧
        (records clock es).getLast? = kept.getLast? ∧
        ∀ i, s'.2 (numbered ctx.logPath i) ≠ none → 1 ≤ i ∧ i < maxFiles ctx := by
  obtain ⟨s, hstart, htail⟩ := tail_start hn hname hnumbered
  obtain ⟨s', hexec, htail⟩ := htail.exec clock es hn
  exact ⟨s, s', hstart, hexec, htail.readLogs hn⟩

/-- Two records of any size, with a restart in between, and a file that is full at once. -/
theorem readLogs_tail_two :
    ∃ s s', start ⟨text "log", some 1, some 2⟩ (fun _ => none) = some s ∧
      exec (step ⟨text "log", some 1, some 2⟩ ⟨fun _ : Unit => 2015, fun _ => text "\"2015\""⟩) s
        [.log ⟨text "a", text "stdout", ()⟩, .restart, .log ⟨text "b", text "stdout", ()⟩] = some s' ∧
      ∃ dropped kept, records ⟨fun _ : Unit => 2015, fun _ => text "\"2015\""⟩
          [.log ⟨text "a", text "stdout", ()⟩, .restart, .log ⟨text "b", text "stdout", ()⟩] = dropped ++ kept ∧
        readLogs s'.1 ⟨text "log", some 1, some 2⟩ s'.2 = some kept.flatten ∧
        (records ⟨fun _ : Unit => 2015, fun _ => text "\"2015\""⟩
          [.log ⟨text "a", text "stdout", ()⟩, .restart, .log ⟨text "b", text "stdout", ()⟩]).getLast? =
          kept.getLast? ∧
        ∀ i, s'.2 (numbered (text "log") i) ≠ none → 1 ≤ i ∧ i < maxFiles ⟨text "log", some 1, some 2⟩ :=
  readLogs_tail _ _ (by decide) rfl (fun _ => rfl) _

end DockerEngine.Jsonfilelog
