import DockerEngine.Builder.Evaluator

/-!
# Builds with more than one `FROM`

Each `FROM` of a Dockerfile should start afresh: what it and the instructions after it make should not depend on
those before. `FROM` sets the image, and the configuration if the image has one. The maintainer and the mark that
there was a `CMD` stay as they are, and so does the configuration on an image that has none and on `scratch`.

If nothing of that is left over (`Clean`), the build is the one without the instructions before. If something is,
there are instructions that show it, provided that the daemon makes containers and has an image with a command
(`from_afresh_iff`). The triggers that an image has may hide what is left over, so this is for a `FROM` without any.
-/

namespace DockerEngine.Builder.Evaluator

open Bytes Outcome

variable {L : Type} {go : Go} {d : Daemon L} {b : BuilderState L} {name : Bytes}

/-! ## The number of a step -/

section Number

variable {onFrom : BuilderState L → Call → Result (BuilderState L)}

section

variable (hfrom : ∀ b call m, onFrom b { call with message := m } = onFrom b call)
include hfrom

theorem performCall_evaluate (env : List Bytes) (ast sub : Node) (strs : List Bytes) (msg msg' : Bytes) :
    performCall onFrom go d b (some (evaluate go env ast sub strs msg)) =
      performCall onFrom go d b (some (evaluate go env ast sub strs msg')) := by
  cases hwords : expand env ast.value sub.args with
  | error e => simp only [evaluate, hwords]
  | ok words =>
    simp only [evaluate, hwords]
    split
    · simp only [performCall, perform]
      cases instructionOf ast.value with
      | none => rfl
      | some i =>
        cases i with
        | fromImage => exact hfrom b ⟨ast.value, strs ++ words, ast.flags, ast.json, ast.original, _⟩ _
        | _ => rfl
    · rfl

/-- The number of a step is only printed. -/
theorem dispatchWith_stepN (n m : Nat)
    (ast : Node) : dispatchWith onFrom go d n b ast = dispatchWith onFrom go d m b ast := by
  by_cases honbuild : ast.value = text "onbuild"
  · cases hnext : ast.next with
    | none => simp only [dispatchWith, dispatch, if_pos honbuild, hnext]
    | some next =>
      cases hchildren : next.children with
      | nil => simp only [dispatchWith, dispatch, if_pos honbuild, hnext, hchildren]
      | cons c cs =>
        cases c with
        | none => simp only [dispatchWith, dispatch, if_pos honbuild, hnext, hchildren]
        | some sub =>
          simp only [dispatchWith, dispatch, if_pos honbuild, hnext, hchildren]
          exact performCall_evaluate hfrom _ _ _ _ _ _
  · simp only [dispatchWith, dispatch, if_neg honbuild]
    exact performCall_evaluate hfrom _ _ _ _ _ _

end

end Number

theorem steps_cons (n : Nat) (ast : Node) (asts : List Node) :
    steps go d n b (ast :: asts) =
      dispatchWith (fromImage go d) go d n b ast >>= fun b => steps go d (n + 1) b asts := rfl

theorem steps_stepN (n m : Nat) (asts : List Node) : steps go d n b asts = steps go d m b asts := by
  induction asts generalizing b n m with
  | nil => rfl
  | cons ast asts ih =>
    rw [steps_cons, steps_cons, dispatchWith_stepN (fun _ _ _ => rfl) n m]
    congr 1
    exact funext fun b => ih (n + 1) (m + 1)

theorem steps_append (n : Nat) (asts asts' : List Node) :
    steps go d n b (asts ++ asts') = steps go d n b asts >>= fun b => steps go d 0 b asts' := by
  induction asts generalizing b n with
  | nil => exact steps_stepN n 0 asts'
  | cons ast asts ih =>
    rw [List.cons_append, steps_cons, steps_cons, bind_assoc]
    congr 1
    exact funext fun b => ih (n + 1)

/-! ## Instructions -/

/-- An instruction without flags. -/
def node (name : String) (args : List Bytes) (json : Bool) : Node := .mk (text name) (chain args) [] json [] []

/-- `FROM` of a name. -/
def fromNode (name : Bytes) : Node := node "from" [name] false

theorem expand_plain {cmd : Bytes} (h : cmd ∉ replaceEnvAllowed) (env words : List Bytes) :
    expand env cmd words = .ok words := by
  simp only [expand, if_neg h]
  induction words with
  | nil => rfl
  | cons w words ih =>
    rw [List.mapM_cons, ih]
    rfl

/-- An instruction whose words are not expanded. -/
theorem dispatchWith_node (go : Go) (d : Daemon L) (b : BuilderState L) (n : Nat) (name : String)
    (hname : text name ∉ replaceEnvAllowed ∧ text name ≠ text "onbuild" ∧ text name ∈ evaluateTable)
    (args : List Bytes) (json : Bool) :
    ∃ msg, dispatchWith (fromImage go d) go d n b (node name args json) =
      perform (fromImage go d) go d b ⟨text name, args, [], json, [], msg⟩ := by
  have hargs : (node name args json).args = args := values_chain args
  have hvalue : (node name args json).value = text name := rfl
  rw [dispatchWith, dispatch, hvalue, if_neg hname.2.1, evaluate, hvalue, expand_plain hname.1, hargs]
  simp only [if_pos hname.2.2]
  exact ⟨_, rfl⟩

theorem dispatchWith_from (n : Nat) (name : Bytes) :
    dispatchWith (fromImage go d) go d n b (fromNode name) = fromName go d b name := by
  obtain ⟨msg, h⟩ := dispatchWith_node go d b n "from" (by decide) [name] false
  rw [fromNode, h]
  rfl

variable {before : List Node}

/-- The build from a `FROM` on, for a builder that has come to it. -/
theorem build_from (hb : steps go d 0 .new before = .ok b) (name : Bytes) (after : List Node) :
    build go d (before ++ fromNode name :: after) =
      fromName go d b name >>= fun b => steps go d 0 b after >>= BuilderState.result := by
  have hrest : ∀ b : BuilderState L, steps go d 1 b after = steps go d 0 b after := fun b => steps_stepN 1 0 after
  rw [build, steps_append, hb, bind_assoc]
  show steps go d 0 b (fromNode name :: after) >>= BuilderState.result = _
  rw [steps_cons, dispatchWith_from, bind_assoc]
  simp [hrest]

theorem build_first (name : Bytes) (after : List Node) :
    build go d (fromNode name :: after) =
      fromName go d .new name >>= fun b => steps go d 0 b after >>= BuilderState.result := by
  have hnew : steps go d 0 .new [] = .ok .new := rfl
  exact build_from hnew name after

/-! ## What is left over -/

/-- The configurations are equal, but for the order of maps. -/
structure SameConfig (a b : Config) : Prop where
  user : a.user = b.user
  exposedPorts : a.exposedPorts.Same b.exposedPorts
  env : a.env = b.env
  cmd : a.cmd = b.cmd
  volumes : a.volumes.Same b.volumes
  workingDir : a.workingDir = b.workingDir
  entrypoint : a.entrypoint = b.entrypoint
  onBuild : a.onBuild = b.onBuild
  labels : a.labels.Same b.labels

/-- Two images have equal configurations and authors. -/
def SameImage (i i' : Image L) : Prop :=
  i.author = i'.author ∧
    match i.config, i'.config with
    | some c, some c' => SameConfig c c'
    | none, none => True
    | _, _ => False

/-- The instructions before a `FROM` do not matter to the build. -/
def Afresh (go : Go) (d : Daemon L) (before : List Node) (name : Bytes) : Prop :=
  ∀ after i i', build go d (before ++ fromNode name :: after) = .ok i → build go d (fromNode name :: after) = .ok i' →
    SameImage i i'

/-- Nothing is left over that `FROM` does not set. -/
structure Clean (d : Daemon L) (b : BuilderState L) (name : Bytes) : Prop where
  maintainer : b.maintainer = []
  cmdSet : b.cmdSet = false
  scratch : name = noBaseImageSpecifier → b.config = .zero
  noConfig : name ≠ noBaseImageSpecifier → ∀ img, d.lookup name = some img → img.config = none →
    b.config.withPath = Config.zero.withPath

theorem SameConfig.refl (c : Config) : SameConfig c c :=
  ⟨rfl, fun _ => rfl, rfl, rfl, fun _ => rfl, rfl, rfl, rfl, fun _ => rfl⟩

theorem SameImage.refl (i : Image L) : SameImage i i := by
  refine ⟨rfl, ?_⟩
  cases i.config with
  | none => trivial
  | some c => exact .refl c

/-- **`FROM` starts afresh** if nothing is left over. -/
theorem fromName_clean (h : Clean d b name) : fromName go d b name = fromName go d .new name := by
  obtain ⟨base, author, set, config⟩ := b
  obtain ⟨rfl, rfl, hscratch, hnone⟩ := h
  simp only [fromName]
  split
  next hname =>
    have hconfig : config = .zero := hscratch hname
    rw [hconfig]
    rfl
  next hname =>
    cases hlookup : d.lookup name with
    | none => rfl
    | some img =>
      simp only [processImageFrom]
      cases hconfig : img.config with
      | some c => rfl
      | none =>
        have hpath : config.withPath = Config.zero.withPath := hnone hname img hlookup hconfig
        simp only [Option.map_none, Option.getD_none, hpath]
        rfl

theorem afresh_of_clean (hb : steps go d 0 .new before = .ok b)
    (h : Clean d b name) : Afresh go d before name := by
  intro after i i' hi hi'
  rw [build_from hb, fromName_clean h] at hi
  rw [build_first] at hi'
  cases hi.symm.trans hi'
  exact .refl i

/-! ## Instructions that show it -/

/-- Containers are made, and there is an image with a command and without triggers. -/
structure Obliging (d : Daemon L) : Prop where
  creates : ∀ img c, d.creates img c = true
  command : ∃ name img c, name ≠ noBaseImageSpecifier ∧ d.lookup name = some img ∧ img.config = some c ∧
    (d.stored c).cmd ≠ none ∧ (d.stored c).onBuild = []

/-- `FROM` finds its image, and there are no triggers. -/
inductive Quiet (d : Daemon L) (b : BuilderState L) (name : Bytes) : Prop where
  | scratch (h : name = noBaseImageSpecifier)
  | image (h : name ≠ noBaseImageSpecifier) {img : Image L} (hlookup : d.lookup name = some img)
      (htriggers : ((img.config.map d.stored).getD b.config).onBuild = [])

/-- The builder after an instruction that only sets the configuration. -/
def committed (d : Daemon L) (b : BuilderState L) (comment : Bytes) : BuilderState L :=
  let merged := mergeImage d b.base.image? { b.config with cmd := some (nop comment) }
  let c := { merged with cmd := b.config.cmd }
  { b with base := .image ⟨some c, b.maintainer, b.contents d⟩, config := c }

theorem commit_eq (hcreates : ∀ img c, d.creates img c) (hset : b.base.isSet) (comment : Bytes) :
    commit d b comment = .ok (committed d b comment) := by
  -- a command is not replaced by that of the image
  have hcmd : (mergeImage d b.base.image? { b.config with cmd := some (nop comment) }).cmd = some (nop comment) := by
    rw [mergeImage]
    split
    · exact if_neg fun hlen => absurd hlen.2 (by simp [len, nop])
    · rfl
  have hverify : mergeAndVerifyConfig d b.base.image? { b.config with cmd := some (nop comment) } =
      .ok (mergeImage d b.base.image? { b.config with cmd := some (nop comment) }) := by
    refine if_neg fun hlen => ?_
    rw [hcmd] at hlen
    exact absurd hlen.2 (by simp [len, nop])
  simp only [commit, create, daemonCreate, commitContainer, BuilderState.setCmd, hset, hverify, hcreates]
  show ensure b.base.isSet BuildErr.noSource >>= _ = _
  rw [hset]
  rfl

theorem steps_one (ast : Node) : steps go d 0 b [ast] = dispatchWith (fromImage go d) go d 0 b ast := by
  rw [steps_cons]
  exact bind_pure _

theorem checkFlags_nil {call : Call} (h : call.flags = []) : checkFlags call = .ok () := by
  rw [checkFlags, h]
  rfl

section Shown

variable (hcreates : ∀ img c, d.creates img c) (hset : b.base.isSet)

include hcreates hset

theorem entrypoint_eq (go : Go) (call : Call) (hflags : call.flags = []) :
    ∃ comment, entrypoint go d b call = .ok (committed d { b with config := { b.config with
      entrypoint := entrypointOf call.args call.json
      cmd := if b.cmdSet then b.config.cmd else none } } comment) := by
  have hcommit := commit_eq (b := { b with config := { b.config with
    entrypoint := entrypointOf call.args call.json
    cmd := if b.cmdSet then b.config.cmd else none } }) hcreates hset
  simp only [entrypoint, checkFlags_nil hflags, hcommit]
  exact ⟨_, rfl⟩

/-- `CMD` commits with the maintainer that the builder has. -/
theorem shown_by_cmd (go : Go) : ∃ i, steps go d 0 b [node "cmd" [text "x"] true] >>= BuilderState.result = .ok i ∧
    i.author = b.maintainer := by
  obtain ⟨msg, h⟩ := dispatchWith_node go d b 0 "cmd" (by decide) [text "x"] true
  have hcommit := commit_eq (b := b.setCmd (some (shellArgs [text "x"] true))) hcreates hset
  let call : Call := ⟨text "cmd", [text "x"], [], true, [], msg⟩
  have hperform : perform (fromImage go d) go d b call = cmd go d b call := rfl
  rw [steps_one, h, hperform, cmd, checkFlags_nil rfl]
  simp only [call, hcommit]
  exact ⟨_, rfl, rfl⟩

/-- `MAINTAINER` commits the configuration that the builder has, on a base without one. -/
theorem shown_by_maintainer (go : Go) (hbase : b.base.image?.bind Image.config = none) :
    ∃ i, steps go d 0 b [node "maintainer" [text "x"] false] >>= BuilderState.result = .ok i ∧
      i.config = some b.config := by
  obtain ⟨msg, h⟩ := dispatchWith_node go d b 0 "maintainer" (by decide) [text "x"] false
  have hcommit := commit_eq (b := { b with maintainer := text "x" }) hcreates hset
  let call : Call := ⟨text "maintainer", [text "x"], [], false, [], msg⟩
  have hperform : perform (fromImage go d) go d b call = maintainer d b call := rfl
  rw [steps_one, h, hperform, maintainer, checkFlags_nil rfl]
  simp only [call, hcommit]
  refine ⟨_, rfl, ?_⟩
  simp only [mergeImage, hbase]

end Shown

/-- `FROM` without triggers. -/
theorem fromName_image (go : Go) (b : BuilderState L) {img : Image L}
    (hname : name ≠ noBaseImageSpecifier) (hlookup : d.lookup name = some img) (htriggers : ((img.config.map d.stored).getD b.config).onBuild = []) :
    fromName go d b name = .ok { b with
      base := .image img
      config := { ((img.config.map d.stored).getD b.config).withPath with onBuild := [] } } := by
  have honBuild : ((img.config.map d.stored).getD b.config).withPath.onBuild = [] := htriggers
  simp only [fromName, if_neg hname, hlookup, processImageFrom, honBuild]
  rfl

/-- `ENTRYPOINT` takes the command of an image away, unless there was a `CMD`. -/
theorem shown_by_entrypoint (go : Go) (b : BuilderState L) (hcreates : ∀ img c, d.creates img c) {img : Image L} {c : Config} (hname : name ≠ noBaseImageSpecifier)
    (hlookup : d.lookup name = some img) (hconfig : img.config = some c)
    (htriggers : (d.stored c).onBuild = []) :
    ∃ i c', steps go d 0 b [fromNode name, node "entrypoint" [text "x"] true] >>= BuilderState.result = .ok i ∧
      i.config = some c' ∧ c'.cmd = if b.cmdSet then (d.stored c).cmd else none := by
  have hfrom := fromName_image go b hname hlookup (by simpa [hconfig] using htriggers)
  simp only [hconfig, Option.map_some, Option.getD_some] at hfrom
  let b' : BuilderState L :=
    { b with base := .image img, config := { (d.stored c).withPath with onBuild := [] } }
  obtain ⟨msg, h⟩ := dispatchWith_node go d b' 1 "entrypoint" (by decide) [text "x"] true
  let call : Call := ⟨text "entrypoint", [text "x"], [], true, [], msg⟩
  have hperform : perform (fromImage go d) go d b' call = entrypoint go d b' call := rfl
  obtain ⟨comment, hentrypoint⟩ := entrypoint_eq (b := b') hcreates rfl go call rfl
  have hsteps : steps go d 1 b' [node "entrypoint" [text "x"] true] = entrypoint go d b' call := by
    rw [steps_cons, h, hperform]
    exact bind_pure _
  rw [steps_cons, dispatchWith_from, hfrom]
  show ∃ i c', steps go d 1 b' [node "entrypoint" [text "x"] true] >>= BuilderState.result = .ok i ∧ _
  rw [hsteps, hentrypoint]
  exact ⟨_, _, rfl, rfl, rfl⟩

/-! ## `FROM` starts afresh -/

/-- Without ports, volumes and labels there is no order. -/
theorem SameConfig.eq {a b : Config} (h : SameConfig a b) (hports : b.exposedPorts = .empty)
    (hvolumes : b.volumes = .empty) (hlabels : b.labels = .empty) : a = b := by
  have hports' : a.exposedPorts = b.exposedPorts := by
    rw [hports]
    exact GoMap.Same.eq_empty (hports ▸ h.exposedPorts)
  have hvolumes' : a.volumes = b.volumes := by
    rw [hvolumes]
    exact GoMap.Same.eq_empty (hvolumes ▸ h.volumes)
  have hlabels' : a.labels = b.labels := by
    rw [hlabels]
    exact GoMap.Same.eq_empty (hlabels ▸ h.labels)
  cases a
  cases b
  simp only [Config.mk.injEq]
  exact ⟨h.user, hports', h.env, h.cmd, hvolumes', h.workingDir, h.entrypoint, h.onBuild, hlabels'⟩

section Necessary

variable {before after : List Node} {name : Bytes} {b₁ b₁' : BuilderState L}

section

variable (h : Afresh go d before name) (hb : steps go d 0 .new before = .ok b)
include h hb

/-- The two builds from the `FROM` on. -/
theorem Afresh.same
    (hfrom : fromName go d b name = .ok b₁) (hfrom' : fromName go d .new name = .ok b₁') {i i' : Image L}
    (hi : steps go d 0 b₁ after >>= BuilderState.result = .ok i)
    (hi' : steps go d 0 b₁' after >>= BuilderState.result = .ok i') : SameImage i i' := by
  refine h after i i' ?_ ?_
  · rw [build_from hb, hfrom]
    exact hi
  · rw [build_first, hfrom']
    exact hi'

section

variable (ho : Obliging d) (hfrom : fromName go d b name = .ok b₁) (hfrom' : fromName go d .new name = .ok b₁')
include ho hfrom hfrom'

theorem Afresh.maintainer (hset : b₁.base.isSet) (hset' : b₁'.base.isSet) : b₁.maintainer = b₁'.maintainer := by
  obtain ⟨i, hi, hauthor⟩ := shown_by_cmd ho.creates hset go
  obtain ⟨i', hi', hauthor'⟩ := shown_by_cmd ho.creates hset' go
  rw [← hauthor, ← hauthor']
  exact (h.same hb hfrom hfrom' hi hi').1

theorem Afresh.cmdSet : b₁.cmdSet = b₁'.cmdSet := by
  obtain ⟨y, img, c, hy, hlookup, hconfig, hcmd, htriggers⟩ := ho.command
  obtain ⟨i, ci, hi, hci, hcmdi⟩ := shown_by_entrypoint go b₁ ho.creates hy hlookup hconfig htriggers
  obtain ⟨i', ci', hi', hci', hcmdi'⟩ := shown_by_entrypoint go b₁' ho.creates hy hlookup hconfig htriggers
  have hsame := (h.same hb hfrom hfrom' hi hi').2
  simp only [hci, hci'] at hsame
  have heq := hsame.cmd
  rw [hcmdi, hcmdi'] at heq
  cases hset : b₁.cmdSet <;> cases hset' : b₁'.cmdSet <;> simp_all

theorem Afresh.config (hset : b₁.base.isSet) (hset' : b₁'.base.isSet)
    (hbase : b₁.base.image?.bind Image.config = none) (hbase' : b₁'.base.image?.bind Image.config = none) :
    SameConfig b₁.config b₁'.config := by
  obtain ⟨i, hi, hconfig⟩ := shown_by_maintainer ho.creates hset go hbase
  obtain ⟨i', hi', hconfig'⟩ := shown_by_maintainer ho.creates hset' go hbase'
  have hsame := (h.same hb hfrom hfrom' hi hi').2
  simpa only [hconfig, hconfig'] using hsame

end

end

theorem clean_of_afresh (hb : steps go d 0 .new before = .ok b) (ho : Obliging d) (hq : Quiet d b name)
    (h : Afresh go d before name) : Clean d b name := by
  cases hq with
  | scratch hname =>
    have hfrom : ∀ b : BuilderState L, fromName go d b name = .ok { b with base := .scratch } := fun b => if_pos hname
    refine ⟨?_, ?_, fun _ => ?_, absurd hname⟩
    · exact h.maintainer hb ho (hfrom b) (hfrom .new) rfl rfl
    · exact h.cmdSet hb ho (hfrom b) (hfrom .new)
    · exact (h.config hb ho (hfrom b) (hfrom .new) rfl rfl rfl rfl).eq rfl rfl rfl
  | @image hname img hlookup htriggers =>
    have htriggers' : ((img.config.map d.stored).getD Config.zero).onBuild = [] := by
      cases hconfig : img.config with
      | none => rfl
      | some c => simpa [hconfig] using htriggers
    have hfrom := fromName_image go b hname hlookup htriggers
    have hfrom' := fromName_image go .new hname hlookup htriggers'
    refine ⟨?_, ?_, fun hscratch => absurd hscratch hname, fun _ img' hlookup' hconfig => ?_⟩
    · exact h.maintainer hb ho hfrom hfrom' rfl rfl
    · exact h.cmdSet hb ho hfrom hfrom'
    · cases hlookup.symm.trans hlookup'
      have hsame := (h.config hb ho hfrom hfrom' rfl rfl hconfig hconfig).eq
        (by simp [hconfig]; rfl) (by simp [hconfig]; rfl) (by simp [hconfig]; rfl)
      simp only [hconfig, Option.map_none, Option.getD_none] at hsame htriggers
      have honBuild : b.config.withPath.onBuild = [] := htriggers
      calc b.config.withPath = { b.config.withPath with onBuild := b.config.withPath.onBuild } := rfl
        _ = { b.config.withPath with onBuild := [] } := by rw [honBuild]
        _ = Config.zero.withPath := hsame

end Necessary

/-- **Each `FROM` starts afresh** after instructions that leave nothing over. Otherwise, if the daemon does its part
and the image has no triggers, there are instructions after it with which the images differ. -/
theorem from_afresh_iff (go : Go) (d : Daemon L) {before : List Node} {b : BuilderState L}
    (hb : steps go d 0 .new before = .ok b) (name : Bytes) :
    (Clean d b name → Afresh go d before name) ∧
      (Obliging d → Quiet d b name → (Afresh go d before name ↔ Clean d b name)) :=
  ⟨afresh_of_clean hb, fun ho hq => ⟨clean_of_afresh hb ho hq, afresh_of_clean hb⟩⟩

/-- A daemon that has one image, with a command. -/
def plainDaemon : Daemon Unit where
  lookup name := if name = text "a" then some ⟨some { Config.zero with cmd := some [text "sh"] }, [], ()⟩ else none
  stored := id
  empty := ()
  creates _ _ := true
  run _ _ := some ()
  hash _ := some []
  copy _ _ := some ()
  parseIP _ := false
  join := List.flatten

theorem from_afresh_twice : Afresh plainGo plainDaemon [fromNode (text "a")] (text "a") := by
  have hb : steps plainGo plainDaemon 0 .new [fromNode (text "a")] =
      .ok ⟨.image ⟨some { Config.zero with cmd := some [text "sh"] }, [], ()⟩, [], false,
        { Config.zero with cmd := some [text "sh"], env := [defaultPathEnv] }⟩ := rfl
  refine (from_afresh_iff plainGo plainDaemon hb (text "a")).1 ⟨rfl, rfl, fun h => absurd h (by decide), ?_⟩
  intro _ img hlookup hconfig
  cases hlookup
  cases hconfig

/-- The two Dockerfiles make different images. -/
def Differ (before : List Node) (name : Bytes) (after : List Node) : Prop :=
  ∃ i i', build plainGo plainDaemon (before ++ fromNode name :: after) = .ok i ∧
    build plainGo plainDaemon (fromNode name :: after) = .ok i' ∧ ¬ SameImage i i'

/-- A maintainer, the mark of a `CMD` and, on `scratch`, a configuration are left over. -/
theorem from_leftovers :
    Differ [fromNode (text "a"), node "maintainer" [text "m"] false] (text "a") [node "cmd" [text "x"] true] ∧
    Differ [fromNode (text "a"), node "cmd" [text "x"] true] (text "a") [node "entrypoint" [text "e"] true] ∧
    Differ [fromNode (text "a")] (text "scratch") [node "maintainer" [text "m"] false] := by
  refine ⟨⟨_, _, rfl, rfl, fun h => ?_⟩, ⟨_, _, rfl, rfl, fun h => ?_⟩, ⟨_, _, rfl, rfl, fun h => ?_⟩⟩
  · exact absurd h.1 (by decide)
  · exact absurd h.2.cmd (by decide)
  · exact absurd h.2.cmd (by decide)

end DockerEngine.Builder.Evaluator
