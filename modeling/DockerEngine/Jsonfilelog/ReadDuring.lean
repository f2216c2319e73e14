import DockerEngine.Jsonfilelog.Rotate

/-!
# Logs that are read while they rotate

`readLogs` opens the numbered files from the oldest to the newest, and it does not hold the lock of the logger:
calls of `Log` fall between its opens (`gap i` are the calls before the open of the file with number `i`). What
was opened is a run of the records if none of these calls rotates the files (`readLogsDuring_run`). A rotation
between two opens moves the file that would be opened next to a number that was opened already, so that its
records are lost (`readLogsDuring_gap`).
-/

namespace DockerEngine.Jsonfilelog

open Bytes Jsonlog Trace List Option Function

variable {T : Type} (clock : Clock T) (gap : Nat → List (Message T))

/-- Calls of `Log`. -/
def logAll (s : JSONFileLogger × Files) (msgs : List (Message T)) : JSONFileLogger × Files :=
  msgs.foldl (fun s msg => (log clock s.1 msg s.2).2) s

/-- The opens of `readLogs` from the file with number `i` on, with what each file holds when it is opened. -/
def openedDuring (name : Bytes) : Nat → JSONFileLogger × Files → Option (List Bytes)
  | 0, s => ((logAll clock s (gap 0)).2 name).map ([·])
  | i + 1, s =>
    let s := logAll clock s (gap (i + 1))
    (openedDuring name i s).map ((s.2 (numbered name (i + 1))).toList ++ ·)

/-- `readLogs`, with calls of `Log` between its opens. -/
def readLogsDuring (ctx : Context) (s : JSONFileLogger × Files) : Option Bytes :=
  (openedDuring clock gap ctx.logPath (s.1.n - 1) s).map flatten

/-- The calls before the opens of `n` files, in order. -/
def calls : Nat → List (Message T)
  | 0 => []
  | i + 1 => gap i ++ calls i

/-- The next call of `Log` rotates the files. -/
def Full (s : JSONFileLogger × Files) : Prop := s.1.capacity ≠ -1 ∧ s.1.capacity ≤ ((s.2 s.1.name).getD []).length

/-- None of the calls rotates the files. -/
def Still : JSONFileLogger × Files → List (Message T) → Prop
  | _, [] => True
  | s, msg :: msgs => ¬ Full s ∧ Still (log clock s.1 msg s.2).2 msgs

variable {clock gap} {s : JSONFileLogger × Files} {msgs msgs' : List (Message T)}

theorem logAll_append : logAll clock s (msgs ++ msgs') = logAll clock (logAll clock s msgs) msgs' := foldl_append

theorem still_append : Still clock s (msgs ++ msgs') ↔ Still clock s msgs ∧ Still clock (logAll clock s msgs) msgs' := by
  induction msgs generalizing s with
  | nil => exact (true_and _).symm.to_iff
  | cons msg msgs ih => exact (and_congr_right fun _ => ih).trans and_assoc.symm

theorem exec_logs (ctx : Context) (s : JSONFileLogger × Files) (msgs : List (Message T)) :
    exec (step ctx clock) s (msgs.map .log) = some (logAll clock s msgs) := by
  induction msgs generalizing s with
  | nil => rfl
  | cons msg msgs ih => exact (exec_cons rfl).trans (ih _)

/-- A call that does not rotate writes to the newest file only. -/
theorem log_still (h : ¬ Full s) (msg : Message T) :
    (log clock s.1 msg s.2).2.1.name = s.1.name ∧
      ∀ p, p ≠ s.1.name → (log clock s.1 msg s.2).2.2 p = s.2 p := by
  rw [log]
  split
  · exact ⟨rfl, fun _ _ => rfl⟩
  dsimp only [writeLog]
  split
  · exact ⟨rfl, fun p hp => update_of_ne hp _ _⟩
  next hlimit =>
    rw [if_neg fun hsize => h ⟨hlimit, hsize⟩]
    exact ⟨rfl, fun p hp => update_of_ne hp _ _⟩

theorem logAll_still (h : Still clock s msgs) :
    (logAll clock s msgs).1.name = s.1.name ∧ ∀ p, p ≠ s.1.name → (logAll clock s msgs).2 p = s.2 p := by
  induction msgs generalizing s with
  | nil => exact ⟨rfl, fun _ _ => rfl⟩
  | cons msg msgs ih =>
    obtain ⟨hname, hfiles⟩ := log_still h.1 msg
    obtain ⟨hname', hfiles'⟩ := ih h.2
    exact ⟨hname'.trans hname, fun p hp => (hfiles' p (hname ▸ hp)).trans (hfiles p hp)⟩

/-- Without a rotation the opens could all be made at the end. -/
theorem openedDuring_still (i : Nat) (h : Still clock s (calls gap (i + 1))) :
    openedDuring clock gap s.1.name i s = ((logAll clock s (calls gap (i + 1))).2 s.1.name).map fun latest =>
      opened s.1.name (logAll clock s (calls gap (i + 1))).2 (i + 1) ++ [latest] := by
  induction i generalizing s with
  | zero =>
    rw [openedDuring, calls, calls, append_nil]
    rfl
  | succ i ih =>
    rw [calls, still_append] at h
    obtain ⟨hname, -⟩ := logAll_still h.1
    have hrest := ih h.2
    have hkept := (logAll_still h.2).2 (numbered s.1.name (i + 1)) (hname ▸ numbered_ne s.1.name (i + 1))
    rw [hname] at hrest
    rw [openedDuring, calls, logAll_append, hrest, Option.map_map, opened, hkept]
    simp only [append_assoc]
    rfl

/-- **Without a rotation between the opens, what `readLogs` opens is a run of the records.** -/
theorem readLogsDuring_run (clock : Clock T) (ctx : Context) (hn : 1 ≤ maxFiles ctx) (files : Files)
    (hname : files ctx.logPath = none) (hnumbered : ∀ i, files (numbered ctx.logPath i) = none)
    (es : List (Event T)) (gap : Nat → List (Message T)) {s s' : JSONFileLogger × Files}
    (hstart : start ctx files = some s) (hexec : exec (step ctx clock) s es = some s')
    (hstill : Still clock s' (calls gap (maxFiles ctx))) :
    ∃ run, run <:+: records clock es ++ records clock ((calls gap (maxFiles ctx)).map .log) ∧
      readLogsDuring clock gap ctx s' = some run.flatten := by
  obtain ⟨t, ht, htail⟩ := tail_start hn hname hnumbered
  cases hstart.symm.trans ht
  obtain ⟨t', ht', htail⟩ := htail.exec clock es hn
  cases hexec.symm.trans ht'
  obtain ⟨s'', hlogs, htail'⟩ := htail.exec clock ((calls gap (maxFiles ctx)).map .log) hn
  cases (exec_logs ctx s' _).symm.trans hlogs
  obtain ⟨dropped, kept, hrecs, hread, -⟩ := htail'.readLogs hn
  obtain ⟨-, k, -, hready, -⟩ := htail
  obtain ⟨-, k', -, hready', -⟩ := htail'
  obtain ⟨m, hm⟩ := Nat.exists_eq_succ_of_ne_zero (show maxFiles ctx ≠ 0 by omega)
  have hopened := openedDuring_still m (hm ▸ hstill)
  refine ⟨kept, ⟨dropped, [], by rw [append_nil, ← hrecs, nil_append]⟩, ?_⟩
  rw [hready.name] at hopened
  rw [← hread, readLogsDuring, readLogs, hready.n, hready'.n, hm, Nat.succ_sub_one, hopened, Option.map_map]
  rfl

/-- A clock that stands still. -/
def fixedClock : Clock Unit := ⟨fun _ => 2015, fun _ => text "\"2015\""⟩

/-- A message of the standard output. -/
def message (line : String) : Message Unit := ⟨text line, text "stdout", ()⟩

/-- A record before the opens of two files, and one before each of them. -/
theorem readLogsDuring_run_two :
    ∃ run, run <:+: records fixedClock [.log (message "a")] ++
        records fixedClock ((calls (fun _ => [message "b"]) 2).map .log) ∧
      readLogsDuring fixedClock (fun _ => [message "b"]) ⟨text "log", none, some 2⟩
        (log fixedClock ⟨[], text "log", none, -1, 2⟩ (message "a") (create (fun _ => none) (text "log"))).2 =
        some run.flatten :=
  readLogsDuring_run fixedClock ⟨text "log", none, some 2⟩ (by decide) (fun _ => none) rfl (fun _ => rfl)
    [.log (message "a")] _ rfl rfl ⟨fun h => h.1 rfl, fun h => h.1 rfl, trivial⟩

/-- Three files of one record each. The fourth record is logged, with a rotation, when the oldest file is open:
the second record is not read. -/
theorem readLogsDuring_gap :
    ∃ s s', start ⟨text "log", some 1, some 3⟩ (fun _ => none) = some s ∧
      exec (step ⟨text "log", some 1, some 3⟩ fixedClock) s
        [.log (message "a"), .log (message "b"), .log (message "c")] = some s' ∧
      ∀ run, run <:+: records fixedClock
          [.log (message "a"), .log (message "b"), .log (message "c"), .log (message "d")] →
        readLogsDuring fixedClock (fun i => if i = 1 then [message "d"] else []) ⟨text "log", some 1, some 3⟩ s' ≠
          some run.flatten := by
  refine ⟨_, _, rfl, rfl, fun run hinfix => ?_⟩
  obtain ⟨t, hrun, ht⟩ := infix_iff_prefix_suffix.mp hinfix
  rw [← mem_inits] at hrun
  rw [← mem_tails] at ht
  clear hinfix
  revert run
  revert t
  decide +kernel

end DockerEngine.Jsonfilelog
