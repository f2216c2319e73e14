import DockerEngine.Lib.Outcome
import DockerEngine.Parsers.Filters

/-!
# Listing containers

`Containers` of `daemon/list.go`: one pass over all containers, newest first, that leaves some out, cuts
the list at two given containers and stops at a limit.

The tests by name, id and label come before the two cut-offs in the loop. A container that is named by
`Before` or `Since` and does not pass them is not seen as a cut-off. `listLoop_eq` says which
containers the pass returns, `containers_iff` when these are the ones the options describe.

Regular expressions, the decoding of the filters, the texts of durations and the sizes of file systems
are given from outside.
-/

namespace DockerEngine.Containers.Listing

open Filepath Filters Outcome List

/-! ## Ports -/

/-- `nat.SplitProtoPort`. -/
def splitProtoPort (rawPort : Str) : Str × Str :=
  match rawPort.splitOn '/' with
  | [] => ([], [])
  | [] :: _ => ([], [])
  | [_] => ("tcp".toList, rawPort)
  | port :: [] :: _ => ("tcp".toList, port)
  | port :: proto :: _ => (proto, port)

/-- `nat.ParsePort`. -/
def parsePort (rawPort : Str) : Option Nat :=
  if rawPort.all Char.isDigit then
    let port := rawPort.foldl (fun v c => 10 * v + (c.toNat - '0'.toNat)) 0
    if port < 65536 then some port else none
  else none

/-- `nat.PortBinding`. -/
structure PortBinding where
  hostIP : Str
  hostPort : Str
  deriving DecidableEq, Repr

/-- `types.Port`. -/
structure Port where
  ip : Str
  privatePort : Nat
  publicPort : Nat
  type : Str
  deriving DecidableEq, Repr

/-- The ports of one container port. -/
def portsOf (e : Str × List PortBinding) : Option (List Port) := do
  let p ← parsePort (splitProtoPort e.1).2
  if e.2 = [] then
    pure [⟨[], p, 0, (splitProtoPort e.1).1⟩]
  else
    e.2.mapM fun binding => do
      let h ← parsePort binding.hostPort
      pure ⟨binding.hostIP, p, h, (splitProtoPort e.1).1⟩

/-! ## Containers -/

/-- A container. Its ports were made by `nat.NewPort`, so they can be read back. -/
structure Container where
  id : Str
  name : Str
  running : Bool
  paused : Bool
  restarting : Bool
  dead : Bool
  started : Bool
  exitCode : Int
  labels : GoMap Str Str
  image : Str
  path : Str
  args : List Str
  created : Int
  networkMode : Str
  ports : GoMap Str (List PortBinding)
  ports_ok : ∀ e ∈ ports.entries, portsOf e ≠ none

section

variable (env : Env) (d : Daemon) (q : Query) (c : Container)

/-- `StateString`. -/
def Container.stateString : Str :=
  if c.running then
    if c.paused then "paused".toList else if c.restarting then "restarting".toList else "running".toList
  else if c.dead then "dead".toList
  else if c.started then "exited".toList else "created".toList

/-- `isValidStateString`. -/
def isValidStateString (s : Str) : Bool :=
  s = "paused".toList || s = "restarting".toList || s = "running".toList || s = "dead".toList ||
    s = "created".toList || s = "exited".toList

/-- What is not in the repository: the JSON decoder, regular expressions, `strconv.Atoi`, the status
text with its durations, and the sizes on disk. -/
structure Env where
  fromParam : Str → Option Args
  matchString : Str → Str → Option Bool
  atoi : Str → Option Int
  statusString : Container → Str
  getSize : Container → Int × Int

/-- The containers of a daemon, newest first, `Get`, and the paths in the graph of names. -/
structure Daemon where
  list : List Container
  get : Str → Option Container
  names : Str → List Str
  nodup : (list.map Container.id).Nodup
  get_mem : ∀ s c, get s = some c → c ∈ list

/-- `ContainersConfig`. -/
structure ContainersConfig where
  all : Bool
  since : Str
  before : Str
  limit : Int
  size : Bool
  filters : Str

/-- `types.Container`. -/
structure Summary where
  id : Str
  names : List Str
  image : Str
  command : Str
  created : Int
  status : Str
  networkMode : Str
  ports : List Port
  sizeRw : Int
  sizeRootFs : Int
  labels : GoMap Str Str

/-- How a request fails. -/
inductive Err where
  | badFilters
  | badExitCode (value : Str)
  | badStatus
  | noContainer (name : Str)
  | badPort
  deriving DecidableEq, Repr

/-! ## The request -/

/-- What `Containers` has read from its configuration when the loop starts. -/
structure Query where
  all : Bool
  n : Int
  before : Option Str
  since : Option Str
  size : Bool
  psFilters : Args
  filtExited : List Int

/-- The values of the filter `exited`. -/
def readExited (env : Env) : List Str → Except Err (List Int)
  | [] => .ok []
  | value :: rest =>
    match env.atoi value with
    | none => .error (.badExitCode value)
    | some code => (readExited env rest).map (code :: ·)

/-- The container that an option names: none if it is not set. -/
def readContainer (s : Str) : Except Err (Option Str) :=
  if s = [] then .ok none
  else
    match d.get s with
    | none => .error (.noContainer s)
    | some c => .ok (some c.id)

/-- The first part of `Containers`. -/
def readConfig (config : ContainersConfig) : Except Err Query :=
  match env.fromParam config.filters with
  | none => .error .badFilters
  | some psFilters => do
    let filtExited ← readExited env (psFilters.values "exited".toList)
    let status := psFilters.values "status".toList
    if status.all isValidStateString then
      let all := config.all || status.any fun v => v = "exited".toList || v = "created".toList
      let before ← readContainer d config.before
      let since ← readContainer d config.since
      pure ⟨all, config.limit, before, since, config.size, psFilters, filtExited⟩
    else .error .badStatus

/-! ## The loop -/

/-- `newC.Command`. -/
def command : Str :=
  if c.args = [] then c.path
  else c.path ++ ' ' :: [' '].intercalate (c.args.map fun arg =>
    if ' ' ∈ arg then '\'' :: arg ++ ['\''] else arg)

/-- `newC`. -/
def newC : Option Summary :=
  (c.ports.entries.mapM portsOf).map fun ports =>
    { id := c.id, names := d.names c.id, image := c.image, command := command c, created := c.created,
      status := env.statusString c, networkMode := c.networkMode, ports := ports.flatten,
      sizeRw := if q.size then (env.getSize c).1 else 0,
      sizeRootFs := if q.size then (env.getSize c).2 else 0, labels := c.labels }

/-- The variables of the loop. -/
structure ListState where
  foundBefore : Bool
  displayed : Nat
  containers : List Summary

/-- How `writeCont` ends the loop: `errLast`, or an error. -/
inductive Stop where
  | last
  | fail (e : Err)

/-- The test of the names, ids and labels. -/
def passes : Bool :=
  q.psFilters.matches env.matchString "name".toList c.name && q.psFilters.matches env.matchString "id".toList c.id &&
    q.psFilters.matchKVList "label".toList c.labels

/-- The test of the exit codes. -/
def exitedOk : Bool := q.filtExited = [] || q.filtExited.any fun code => code == c.exitCode && !c.running

/-- The test of the state. -/
def statusOk : Bool := q.psFilters.matches env.matchString "status".toList c.stateString

/-- `writeCont`. -/
def writeCont (st : ListState) (c : Container) : Except Stop ListState :=
  if !c.running && !q.all && q.n ≤ 0 && q.since.isNone && q.before.isNone then .ok st
  else if !passes env q c then .ok st
  else if q.before.isSome && !st.foundBefore then
    .ok (if q.before = some c.id then { st with foundBefore := true } else st)
  else if q.n > 0 ∧ st.displayed = q.n then .error .last
  else if q.since = some c.id then .error .last
  else if !exitedOk q c then .ok st
  else if !statusOk env q c then .ok st
  else
    match newC env d q c with
    | none => .error (.fail .badPort)
    | some s => .ok { st with displayed := st.displayed + 1, containers := st.containers ++ [s] }

/-- The loop over the containers. -/
def listLoop (env : Env) (d : Daemon) (q : Query) (st : ListState) : List Container → Except Err (List Summary)
  | [] => .ok st.containers
  | c :: rest =>
    match writeCont env d q st c with
    | .ok st => listLoop env d q st rest
    | .error .last => .ok st.containers
    | .error (.fail e) => .error e

/-- `Containers`. -/
def containers (config : ContainersConfig) : Except Err (List Summary) := do
  let q ← readConfig env d config
  listLoop env d q ⟨false, 0, []⟩ d.list

/-! ## What the options describe -/

/-- The restriction to running containers is lifted. -/
def lifted : Bool := q.all || 0 < q.n || q.since.isSome || q.before.isSome

/-- A container that every test lets through. -/
def qualifies : Bool := (c.running || lifted q) && passes env q c && exitedOk q c && statusOk env q c

/-- The containers that come after the one with the id. -/
def after : Option Str → List Container → List Container
  | none, l => l
  | some b, l => (l.dropWhile fun c => c.id ≠ b).tail

/-- The containers that come before the one with the id. -/
def upTo : Option Str → List Container → List Container
  | none, l => l
  | some s, l => l.takeWhile fun c => c.id ≠ s

/-- The containers after `Before` and before `Since`. -/
def window (l : List Container) : List Container := after q.before (upTo q.since l)

/-- The first ones, all if the limit is not positive. -/
def limited {A : Type} (n : Int) (l : List A) : List A := if 0 < n then l.take n.toNat else l

/-- **What the options say**: the first `Limit` of the containers in the window that qualify. -/
def described (l : List Container) : List Container := limited q.n ((window q l).filter (qualifies env q))

end

/-! ## What the loop returns -/

variable (l : List Container) {s : Container}

section Loop

variable {env : Env} {d : Daemon} {q : Query} (c : Container)

/-- What is shown of a container. -/
def summary (env : Env) (d : Daemon) (q : Query) (c : Container) : Summary :=
  { id := c.id, names := d.names c.id, image := c.image, command := command c, created := c.created,
    status := env.statusString c, networkMode := c.networkMode,
    ports := ((c.ports.entries.mapM portsOf).getD []).flatten,
    sizeRw := if q.size then (env.getSize c).1 else 0,
    sizeRootFs := if q.size then (env.getSize c).2 else 0, labels := c.labels }

theorem newC_eq : newC env d q c = some (summary env d q c) := by
  have hports : c.ports.entries.mapM portsOf ≠ none := by
    intro hnone
    have hfail : ∀ l : List (Str × List PortBinding), (∀ e ∈ l, portsOf e ≠ none) → l.mapM portsOf ≠ none := by
      intro l
      induction l with
      | nil => simp
      | cons e l ih =>
        intro h
        obtain ⟨p, hp⟩ := Option.ne_none_iff_exists'.mp (h e mem_cons_self)
        obtain ⟨ps, hps⟩ := Option.ne_none_iff_exists'.mp (ih (forall_mem_cons.mp h).2)
        simp [mapM_cons, hp, hps]
    exact hfail _ c.ports_ok hnone
  obtain ⟨ports, hp⟩ := Option.ne_none_iff_exists'.mp hports
  simp [newC, summary, hp]

/-- The first test of `writeCont`. -/
theorem hidden_iff :
    (!c.running && !q.all && q.n ≤ 0 && q.since.isNone && q.before.isNone) ↔ (c.running || lifted q) = false := by
  have hn : decide (q.n ≤ 0) = !decide (0 < q.n) := by
    by_cases h : 0 < q.n
    · simp [h]
    · simp [h, not_lt.mp h]
  cases hs : q.since <;> cases hb : q.before <;> simp [lifted, hs, hb, hn, Bool.and_assoc]

/-- What is left of a limit after some containers. -/
def limitedFrom {A : Type} (n : Int) (displayed : Nat) (l : List A) : List A :=
  if 0 < n then l.take (n.toNat - displayed) else l

/-- The containers at which `Since` does not end the loop. -/
def cut (env : Env) (q : Query) (l : List Container) : List Container :=
  l.takeWhile fun c => !(decide (q.since = some c.id) && passes env q c)

theorem cut_cons (l : List Container) : cut env q (c :: l) =
    if q.since = some c.id ∧ passes env q c = true then [] else c :: cut env q l := by
  rw [cut, takeWhile_cons, cut]
  by_cases h : q.since = some c.id ∧ passes env q c
  · simp [h.1, h.2]
  rw [if_neg h, if_pos]
  rw [not_and] at h
  by_cases hs : q.since = some c.id
  · simp [hs, h hs]
  · simp [hs]

theorem qualifies_iff : qualifies env q c ↔
    (c.running || lifted q) ∧ passes env q c ∧
      (exitedOk q c && statusOk env q c) := by
  rw [qualifies, Bool.and_assoc, Bool.and_assoc, Bool.and_eq_true, Bool.and_eq_true]

/-- One round of the loop once `Before` is found, or if it is not set. -/
theorem writeCont_found {st : ListState} (hfound : (q.before.isSome && !st.foundBefore) = false)
    (c : Container) : writeCont env d q st c =
      if (c.running || lifted q) ∧ passes env q c = true then
        if (0 < q.n ∧ st.displayed = q.n) ∨ q.since = some c.id then .error .last
        else if qualifies env q c then
          .ok { st with displayed := st.displayed + 1, containers := st.containers ++ [summary env d q c] }
        else .ok st
      else .ok st := by
  rw [writeCont]
  by_cases hlift : (c.running || lifted q)
  · rw [if_neg (fun h => by rw [hidden_iff, hlift] at h; cases h)]
    by_cases hpass : passes env q c
    · have hin : (c.running || lifted q) ∧ passes env q c := ⟨hlift, hpass⟩
      rw [if_pos hin, if_neg (by simp [hpass]), if_neg (by simp [hfound])]
      by_cases hlimit : 0 < q.n ∧ (st.displayed : Int) = q.n
      · rw [if_pos hlimit, if_pos (.inl hlimit)]
      rw [if_neg hlimit]
      by_cases hs : q.since = some c.id
      · rw [if_pos hs, if_pos (.inr hs)]
      rw [if_neg hs, if_neg (not_or.mpr ⟨hlimit, hs⟩), newC_eq]
      have hq := @qualifies_iff env q c
      simp only [hlift, hpass, true_and, Bool.and_eq_true] at hq
      by_cases he : exitedOk q c
      · by_cases hst : statusOk env q c
        · simp [he, hst, hq.mpr ⟨he, hst⟩]
        · simp [he, hst, hq]
      · simp [he, hq]
    · rw [if_pos (by simp [hpass]), if_neg (fun h => hpass h.2)]
  · rw [if_pos ((hidden_iff c).mpr (by simpa using hlift)), if_neg (fun h => hlift h.1)]

/-- The loop once `Before` is found, or if it is not set. -/
theorem listLoop_found :
    ∀ st : ListState, (q.before.isSome && !st.foundBefore) = false →
      (0 < q.n → (st.displayed : Int) ≤ q.n) →
      listLoop env d q st l = .ok (st.containers ++ (limitedFrom q.n st.displayed
        ((cut env q l).filter (qualifies env q))).map (summary env d q)) := by
  induction l with
  | nil => intro st _ _; simp [listLoop, cut, limitedFrom]
  | cons c l ih =>
    intro st hfound hle
    have hkeep : (c.running || lifted q) = false → q.since ≠ some c.id := by
      intro hlift hs
      simp [lifted, hs] at hlift
    rw [listLoop, writeCont_found hfound, cut_cons]
    by_cases hin : (c.running || lifted q) ∧ passes env q c
    · rw [if_pos hin]
      by_cases hlast : (0 < q.n ∧ (st.displayed : Int) = q.n) ∨ q.since = some c.id
      · rw [if_pos hlast]
        by_cases hs : q.since = some c.id
        · rw [if_pos ⟨hs, hin.2⟩]
          simp [limitedFrom]
        · obtain ⟨hn, heq⟩ := hlast.resolve_right hs
          have hzero : q.n.toNat - st.displayed = 0 := by omega
          simp [limitedFrom, hn, hzero]
      · have hgo : ¬ (q.since = some c.id ∧ passes env q c) := fun h => hlast (.inr h.1)
        rw [if_neg hlast, if_neg hgo]
        rw [not_or, not_and] at hlast
        by_cases hq : qualifies env q c
        · rw [if_pos hq]
          have hroom : 0 < q.n → ((st.displayed + 1 : Nat) : Int) ≤ q.n := by
            intro hn
            have := hle hn
            have := hlast.1 hn
            omega
          refine (ih { st with displayed := st.displayed + 1,
                               containers := st.containers ++ [summary env d q c] } hfound hroom).trans ?_
          rw [filter_cons_of_pos hq]
          by_cases hn : 0 < q.n
          · have := hle hn
            have := hlast.1 hn
            obtain ⟨k, hk⟩ : ∃ k, q.n.toNat - st.displayed = k + 1 :=
              ⟨q.n.toNat - st.displayed - 1, by omega⟩
            have hk' : q.n.toNat - (st.displayed + 1) = k := by omega
            simp [limitedFrom, hn, hk, hk']
          · simp [limitedFrom, hn]
        · rw [if_neg hq]
          simp only
          rw [ih st hfound hle, filter_cons_of_neg hq]
    · rw [if_neg hin]
      have hq : ¬ qualifies env q c := fun h => hin ⟨((qualifies_iff c).mp h).1, ((qualifies_iff c).mp h).2.1⟩
      have hgo : ¬ (q.since = some c.id ∧ passes env q c) := by
        rintro ⟨hs, hp⟩
        rw [not_and'] at hin
        exact hkeep (by simpa using hin hp) hs
      simp only
      rw [if_neg hgo, ih st hfound hle, filter_cons_of_neg hq]

/-- The loop while `Before` is not found. -/
theorem listLoop_search {b : Str} (hb : q.before = some b) (l : List Container) :
    listLoop env d q ⟨false, 0, []⟩ l =
      match l.dropWhile fun c => !(decide (c.id = b) && passes env q c) with
      | [] => .ok []
      | _ :: rest => listLoop env d q ⟨true, 0, []⟩ rest := by
  have hlift : ∀ c : Container, (c.running || lifted q) := fun c => by simp [lifted, hb]
  induction l with
  | nil => rfl
  | cons c l ih =>
    have hround : writeCont env d q ⟨false, 0, []⟩ c =
        .ok (if c.id = b ∧ passes env q c = true then ⟨true, 0, []⟩ else ⟨false, 0, []⟩) := by
      rw [writeCont, if_neg (fun h => by rw [hidden_iff, hlift] at h; cases h)]
      by_cases hpass : passes env q c
      · by_cases hid : c.id = b
        · simp [hpass, hb, hid]
        · simp [hpass, hb, hid, Ne.symm hid]
      · simp [hpass]
    rw [listLoop, hround, dropWhile_cons]
    by_cases hc : c.id = b ∧ passes env q c
    · simp [hc.1, hc.2]
    rw [if_neg hc, if_pos]
    · exact ih
    rw [not_and] at hc
    by_cases hid : c.id = b
    · simp [hid, hc hid]
    · simp [hid]

/-- The containers the loop looks at: those after `Before`, if that is seen, up to `Since`, if that is
seen. -/
def visited (env : Env) (q : Query) (l : List Container) : List Container :=
  match q.before with
  | none => cut env q l
  | some b => cut env q (l.dropWhile fun c => !(decide (c.id = b) && passes env q c)).tail

/-- **What the loop returns.** -/
theorem listLoop_eq : listLoop env d q ⟨false, 0, []⟩ l =
    .ok ((limited q.n ((visited env q l).filter (qualifies env q))).map (summary env d q)) := by
  have hlimited : ∀ x : List Container, limitedFrom q.n 0 x = limited q.n x := by
    intro x
    rw [limitedFrom, limited, Nat.sub_zero]
  rw [visited]
  cases hb : q.before with
  | none =>
    rw [listLoop_found l _ (by simp [hb]) (fun h => by simp only; omega), hlimited]
    rfl
  | some b =>
    rw [listLoop_search hb]
    simp only
    cases hd : l.dropWhile fun c => !(decide (c.id = b) && passes env q c) with
    | nil => simp [cut, limited]
    | cons c rest =>
      simp only
      rw [listLoop_found rest _ (by simp) (fun h => by simp only; omega), hlimited]
      rfl

end Loop

/-! ## Cut-offs -/

section CutOffs

variable {env : Env} {q : Query} {l : List Container} {b : Container}

theorem takeWhile_congr_mem {A : Type} {p p' : A → Bool} {l : List A} (h : ∀ a ∈ l, p a = p' a) :
    l.takeWhile p = l.takeWhile p' ∧ l.dropWhile p = l.dropWhile p' := by
  induction l with
  | nil => exact ⟨rfl, rfl⟩
  | cons a l ih =>
    have ⟨ht, hd⟩ := ih (forall_mem_cons.mp h).2
    simp only [takeWhile_cons, dropWhile_cons, h a mem_cons_self, ht, hd, and_self]

/-- `Before` is not set, or passes the tests by name, id and label. -/
def BeforePasses (env : Env) (q : Query) (l : List Container) : Prop :=
  ∀ c ∈ l, q.before = some c.id → passes env q c = true

theorem visited_seen (h : BeforePasses env q l) : visited env q l = cut env q (after q.before l) := by
  rw [visited]
  cases hb : q.before with
  | none => rfl
  | some b =>
    have hcongr : ∀ c ∈ l, (!(decide (c.id = b) && passes env q c)) = decide (c.id ≠ b) := by
      intro c hc
      by_cases hid : c.id = b
      · simp [hid, h c hc (by rw [hb, hid])]
      · simp [hid]
    simp only [after]
    rw [(takeWhile_congr_mem hcongr).2]

theorem visited_missed (hnd : (l.map Container.id).Nodup) (hb : b ∈ l)
    (hid : q.before = some b.id) (hpass : passes env q b = false) : visited env q l = [] := by
  have hnone : l.dropWhile (fun c => !(decide (c.id = b.id) && passes env q c)) = [] := by
    refine dropWhile_eq_nil_iff.mpr fun c hc => ?_
    by_cases hcb : c.id = b.id
    · rw [inj_on_of_nodup_map hnd hc hb hcb, hpass]
      simp
    · simp [hcb]
  rw [visited, hid]
  simp only
  rw [hnone]
  rfl

/-- A container that is passed over ends nothing. -/
theorem cut_missed (h : ∀ c ∈ l, q.since = some c.id → passes env q c = false) : cut env q l = l := by
  refine takeWhile_eq_self_iff.mpr fun c hc => ?_
  by_cases hs : q.since = some c.id
  · simp [h c hc hs]
  · simp [hs]

theorem cut_seen (hnd : (l.map Container.id).Nodup) (hs : s ∈ l)
    (hid : q.since = some s.id) (hpass : passes env q s) :
    cut env q l = l.takeWhile fun c => c.id ≠ s.id := by
  refine (takeWhile_congr_mem fun c hc => ?_).1
  by_cases hcs : c.id = s.id
  · rw [inj_on_of_nodup_map hnd hc hs hcs, hid, hpass]
    simp
  · simp [hid, hcs, Ne.symm hcs]

/-- A list with a container in it, taken apart there. -/
theorem split_at (hnd : (l.map Container.id).Nodup) (hb : b ∈ l) :
    ∃ newer older, l = newer ++ b :: older ∧ (∀ c ∈ newer, c.id ≠ b.id) ∧ (∀ c ∈ older, c.id ≠ b.id) := by
  obtain ⟨newer, older, rfl⟩ := append_of_mem hb
  rw [map_append, map_cons, nodup_append, nodup_cons] at hnd
  refine ⟨newer, older, rfl, fun c hc he => ?_, fun c hc he => ?_⟩
  · exact hnd.2.2 c.id (mem_map_of_mem hc) b.id mem_cons_self he
  · exact hnd.2.1.1 (he ▸ mem_map_of_mem hc)

theorem after_split {newer older : List Container} (h : ∀ c ∈ newer, c.id ≠ b.id) :
    after (some b.id) (newer ++ b :: older) = older := by
  rw [after, dropWhile_append_of_pos (by simpa using h), dropWhile_cons_of_neg (by simp), tail_cons]

section

variable (hnd : (l.map Container.id).Nodup) (hbefore : ∀ b, q.before = some b → ∃ c ∈ l, c.id = b)
include hnd hbefore

/-- The window, when `Since` comes after `Before`. -/
theorem window_of_mem (hs : s ∈ after q.before l) (hid : q.since = some s.id) :
    window q l = (after q.before l).takeWhile fun c => c.id ≠ s.id := by
  rw [window, hid, upTo]
  cases hb : q.before with
  | none => rfl
  | some b =>
    obtain ⟨c, hc, rfl⟩ := hbefore b hb
    obtain ⟨newer, older, rfl, hnewer, -⟩ := split_at hnd hc
    rw [hb, after_split hnewer] at hs
    have happ : newer ++ c :: older = (newer ++ [c]) ++ older := by simp
    -- neither `Before` nor what is newer is `Since`
    have hne : ∀ x ∈ newer ++ [c], x.id ≠ s.id := by
      intro x hx hxs
      rw [happ, map_append, nodup_append] at hnd
      exact hnd.2.2 x.id (mem_map_of_mem hx) s.id (mem_map_of_mem hs) hxs
    rw [after_split hnewer, happ, takeWhile_append_of_pos (by simpa using hne), append_assoc, singleton_append,
      after_split hnewer]

/-- The window is empty when `Since` does not come after `Before`. -/
theorem window_of_not_mem (hs : s ∈ l)
    (hnot : s ∉ after q.before l) (hid : q.since = some s.id) : window q l = [] := by
  rw [window, hid, upTo]
  cases hb : q.before with
  | none => rw [hb] at hnot; exact absurd hs hnot
  | some b =>
    obtain ⟨c, hc, rfl⟩ := hbefore b hb
    obtain ⟨newer, older, rfl, hnewer, -⟩ := split_at hnd hc
    rw [hb, after_split hnewer] at hnot
    -- what comes before `Since` is newer than `Before`
    have hpre : ∀ x ∈ (newer ++ c :: older).takeWhile (fun x => x.id ≠ s.id), x ∈ newer := by
      rw [takeWhile_append]
      split
      next hall =>
        have hnew : s ∉ newer := by
          rw [← List.IsPrefix.eq_of_length ( takeWhile_prefix _) hall]
          exact fun h => by simpa using mem_takeWhile_imp h
        have hsc : s = c := by simpa [hnew, hnot] using hs
        simp [hsc]
      · exact fun x hx => takeWhile_subset _ hx
    rw [after, dropWhile_eq_nil_iff.mpr fun x hx => by simpa using hnewer x (hpre x hx)]
    rfl

end

/-- A limit does not show that more would follow, exactly if it is reached or nothing follows. -/
theorem limited_append {A : Type} (n : Int) (w r : List A) :
    limited n (w ++ r) = limited n w ↔ (0 < n ∧ n ≤ w.length) ∨ r = [] := by
  rw [limited, limited]
  by_cases hn : 0 < n
  · rw [if_pos hn, if_pos hn]
    constructor
    · intro h
      by_cases hle : n ≤ w.length
      · exact .inl ⟨hn, hle⟩
      · have hlen := congrArg length h
        rw [length_take, length_take, length_append] at hlen
        exact .inr (eq_nil_of_length_eq_zero (by omega))
    · rintro (⟨-, hle⟩ | rfl)
      · exact take_append_of_le_length (by omega)
      · rw [append_nil]
  · rw [if_neg hn, if_neg hn]
    constructor
    · intro h
      exact .inr (append_right_eq_self.mp h)
    · rintro (⟨h, -⟩ | rfl)
      · exact absurd h hn
      · exact append_nil w

theorem limited_eq_nil {A : Type} {n : Int} {l : List A} : limited n l = [] ↔ l = [] := by
  rw [limited]
  split
  · rw [take_eq_nil_iff]
    exact ⟨fun h => h.resolve_left (by omega), .inr⟩
  · rfl

end CutOffs

/-! ## Listing against the options -/

section Main

variable {env : Env} {d : Daemon} {q : Query} {config : ContainersConfig}

/-- **When the cut-offs are seen.** Either `Before` is not set or it passes the tests by name, id and
label; otherwise no container of the window qualifies. And either `Since` is not set, or it passes these
tests and comes after `Before`; otherwise the limit is reached before it, or no container that comes
after `Before`, and not before `Since`, qualifies. -/
def CutOffsSeen (env : Env) (q : Query) (l : List Container) : Prop :=
  (¬ BeforePasses env q l → ∀ x ∈ window q l, qualifies env q x = false) ∧
  (BeforePasses env q l → q.since ≠ none →
    (∃ c ∈ after q.before l, q.since = some c.id ∧ passes env q c = true) ∨
    (0 < q.n ∧ q.n ≤ ((window q l).filter (qualifies env q)).length) ∨
    ∀ x ∈ after q.before l, x ∉ window q l → qualifies env q x = false)

theorem after_sublist (b : Option Str) (l : List Container) : (after b l).Sublist l := by
  cases b with
  | none => exact List.Sublist.refl l
  | some b => exact (tail_sublist _).trans (dropWhile_sublist _)

variable {l : List Container}

section

variable (hnd : (l.map Container.id).Nodup) (hbefore : ∀ b, q.before = some b → ∃ c ∈ l, c.id = b)
include hnd hbefore

theorem visited_iff
    (hsince : ∀ s, q.since = some s → ∃ c ∈ l, c.id = s) :
    limited q.n ((visited env q l).filter (qualifies env q)) = described env q l ↔ CutOffsSeen env q l := by
  have hnd' : ((after q.before l).map Container.id).Nodup := ((after_sublist _ l).map _).nodup hnd
  by_cases hpass : BeforePasses env q l
  · rw [visited_seen hpass]
    cases hs : q.since with
    | none =>
      refine iff_of_true ?_ ⟨absurd hpass, fun _ => absurd hs⟩
      have hcut : cut env q (after q.before l) = after q.before l := cut_missed fun c _ h => by rw [hs] at h; cases h
      rw [hcut, described, window, hs]
      rfl
    | some i =>
      obtain ⟨s, hmem, rfl⟩ := hsince i hs
      by_cases hseen : ∃ c ∈ after q.before l, q.since = some c.id ∧ passes env q c
      · obtain ⟨c, hc, hid, hp⟩ := hseen
        refine iff_of_true ?_ ⟨absurd hpass, fun _ _ => .inl ⟨c, hc, hid, hp⟩⟩
        rw [cut_seen hnd' hc hid hp, described, window_of_mem hnd hbefore hc hid]
      · -- the loop goes on after `Since`
        have hcut : cut env q (after q.before l) = after q.before l := by
          refine cut_missed fun c hc hid => ?_
          by_contra hp
          exact hseen ⟨c, hc, hid, by simpa using hp⟩
        obtain ⟨rest, hrest⟩ : ∃ rest, after q.before l = window q l ++ rest := by
          by_cases hafter : s ∈ after q.before l
          · exact ⟨_, by rw [window_of_mem hnd hbefore hafter hs]; exact takeWhile_append_dropWhile.symm⟩
          · exact ⟨_, by rw [window_of_not_mem hnd hbefore hmem hafter hs]; exact (nil_append _).symm⟩
        have hnot : ∀ x ∈ rest, x ∉ window q l := by
          have hdistinct := hnd'.of_map
          rw [hrest, nodup_append] at hdistinct
          exact fun x hx hx' => hdistinct.2.2 x hx' x hx rfl
        have hrestIff : rest.filter (qualifies env q) = [] ↔
            ∀ x ∈ after q.before l, x ∉ window q l → qualifies env q x = false := by
          rw [filter_eq_nil_iff, hrest]
          constructor
          · intro h x hx hx'
            simpa using h x ((mem_append.mp hx).resolve_left hx')
          · intro h x hx
            simpa using h x (mem_append_right _ hx) (hnot x hx)
        rw [hcut, described, hrest, filter_append, limited_append, hrestIff]
        constructor
        · intro h
          exact ⟨absurd hpass, fun _ _ => .inr h⟩
        · intro h
          refine (h.2 hpass (by rw [hs]; exact Option.some_ne_none _)).resolve_left hseen
  · have hmissed : ∃ b ∈ l, q.before = some b.id ∧ passes env q b = false := by
      simpa [BeforePasses] using hpass
    obtain ⟨b, hb, hid, hp⟩ := hmissed
    rw [visited_missed hnd hb hid hp, filter_nil, eq_comm, limited_eq_nil.mpr rfl, described,
      limited_eq_nil, filter_eq_nil_iff]
    constructor
    · exact fun h => ⟨fun _ => by simpa using h, fun h => absurd h hpass⟩
    · exact fun h => by simpa using h.1 hpass

end

theorem readContainer_mem {s : Str} {o : Option Str} (h : readContainer d s = .ok o) :
    ∀ i, o = some i → ∃ c ∈ d.list, c.id = i := by
  rw [readContainer] at h
  split at h
  · cases h
    exact nofun
  split at h
  · cases h
  next c hc =>
    cases h
    intro i hi
    exact ⟨c, d.get_mem s c hc, Option.some.inj hi⟩

theorem readConfig_mem (h : readConfig env d config = .ok q) :
    (∀ b, q.before = some b → ∃ c ∈ d.list, c.id = b) ∧
      ∀ s, q.since = some s → ∃ c ∈ d.list, c.id = s := by
  rw [readConfig] at h
  split at h
  · cases h
  next psFilters _ =>
    obtain ⟨codes, -, h⟩ := bind_eq_ok.mp h
    simp only at h
    split at h
    · obtain ⟨before, hb, h⟩ := bind_eq_ok.mp h
      obtain ⟨since, hs, h⟩ := bind_eq_ok.mp h
      cases h
      exact ⟨readContainer_mem hb, readContainer_mem hs⟩
    · cases h

theorem limited_subset {A : Type} {n : Int} {l : List A} {a : A} (h : a ∈ limited n l) : a ∈ l := by
  rw [limited] at h
  split at h
  · exact mem_of_mem_take h
  · exact h

theorem window_sublist (l : List Container) : (window q l).Sublist l := by
  refine (after_sublist _ _).trans ?_
  cases q.since with
  | none => exact List.Sublist.refl l
  | some s => exact takeWhile_sublist _

theorem eq_of_ids {l₁ l₂ : List Container} (hnd : (l.map Container.id).Nodup)
    (h₁ : ∀ c ∈ l₁, c ∈ l) (h₂ : ∀ c ∈ l₂, c ∈ l) (h : l₁.map Container.id = l₂.map Container.id) :
    l₁ = l₂ := by
  induction l₁ generalizing l₂ with
  | nil => exact (map_eq_nil_iff.mp h.symm).symm
  | cons c l₁ ih =>
    obtain ⟨c', l₂', rfl, hc, hl⟩ := map_eq_cons_iff.mp h.symm
    rw [inj_on_of_nodup_map hnd (h₁ c mem_cons_self) (h₂ c' mem_cons_self) hc.symm,
      ih (forall_mem_cons.mp h₁).2 (forall_mem_cons.mp h₂).2 hl.symm]

/-- **Listing means what its options say, exactly if the cut-offs are seen.** -/
theorem containers_iff (h : readConfig env d config = .ok q) :
    containers env d config = .ok ((described env q d.list).map (summary env d q)) ↔ CutOffsSeen env q d.list := by
  obtain ⟨hbefore, hsince⟩ := readConfig_mem h
  rw [← visited_iff d.nodup hbefore hsince, containers, h]
  change listLoop env d q ⟨false, 0, []⟩ d.list = _ ↔ _
  rw [listLoop_eq, Except.ok.injEq]
  refine ⟨fun heq => ?_, fun heq => by rw [heq]⟩
  -- containers are told apart by their ids
  have hids := congrArg (map Summary.id) heq
  rw [map_map, map_map] at hids
  refine eq_of_ids d.nodup (fun c hc => ?_) (fun c hc => ?_) hids
  · have hc := (mem_filter.mp (limited_subset hc)).1
    rw [visited] at hc
    split at hc
    · exact (takeWhile_sublist _).subset hc
    · exact ((takeWhile_sublist _).trans ((tail_sublist _).trans (dropWhile_sublist _))).subset hc
  · exact (window_sublist d.list).subset (mem_filter.mp (limited_subset hc)).1

end Main

/-- A container that runs under its id. -/
def running (id : Str) : Container where
  id := id
  name := id
  running := true
  paused := false
  restarting := false
  dead := false
  started := true
  exitCode := 0
  labels := .empty
  image := []
  path := []
  args := []
  created := 0
  networkMode := []
  ports := .empty
  ports_ok := nofun

/-- Expressions are plain texts; the parameter of the filters is a name. -/
def plainEnv : Env where
  fromParam s := some (if s = [] then .empty else ⟨[("name".toList, [s])], nodup_singleton _⟩)
  matchString p s := some (p == s)
  atoi _ := none
  statusString _ := []
  getSize _ := (0, 0)

/-- Three containers, the newest first. -/
def three : Daemon where
  list := [running ['3'], running ['2'], running ['1']]
  get s := [running ['3'], running ['2'], running ['1']].find? fun c => c.id == s
  names _ := []
  nodup := by decide
  get_mem _ _ h := mem_of_find?_eq_some h

/-- All containers between two, with a given name. -/
def between (before since name : Str) : ContainersConfig := ⟨false, since, before, 0, false, name⟩

theorem containers_middle : ∃ q, readConfig plainEnv three (between ['3'] ['1'] []) = .ok q ∧
    containers plainEnv three (between ['3'] ['1'] []) =
      .ok ((described plainEnv q three.list).map (summary plainEnv three q)) := by
  obtain ⟨q, hq⟩ : ∃ q, readConfig plainEnv three (between ['3'] ['1'] []) = .ok q := ⟨_, rfl⟩
  refine ⟨q, hq, (containers_iff hq).mpr ?_⟩
  cases hq
  refine ⟨fun h => absurd ?_ h, fun _ _ => .inl ⟨running ['1'], ?_, rfl, rfl⟩⟩
  · intro c hc _
    rfl
  · exact mem_cons_of_mem _ mem_cons_self

/-- A container that the filter by name leaves out is not seen as `Before`, and one that is newer than
`Before` is not seen as `Since`: the first list lacks the container `1`, the second one should be
empty. -/
theorem containers_missed :
    (∃ q, readConfig plainEnv three (between ['3'] [] ['1']) = .ok q ∧
      (containers plainEnv three (between ['3'] [] ['1'])).toOption.map (map Summary.id) = some [] ∧
      (described plainEnv q three.list).map Container.id = [['1']]) ∧
    ∃ q, readConfig plainEnv three (between ['2'] ['3'] []) = .ok q ∧
      (containers plainEnv three (between ['2'] ['3'] [])).toOption.map (map Summary.id) = some [['1']] ∧
      (described plainEnv q three.list).map Container.id = [] :=
  ⟨⟨_, rfl, rfl, rfl⟩, _, rfl, rfl, rfl⟩

end DockerEngine.Containers.Listing
