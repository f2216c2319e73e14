import DockerEngine.Containers.Names

/-!
# Creating a container: `Daemon.Create`

`Daemon.Create` reserves a name, registers the container, makes its two layers in the storage driver, sets
its mount points and links, and prepares its volumes. Each of these steps may fail, and nothing is undone:
a failed creation leaves what the steps before it have made. `create_traceless_iff` says that a failed
creation leaves no trace exactly when it fails no later than in the choice of the name.

Which steps fail is given, besides the errors that the request and the daemon's own state lead to. Of the
state of the daemon the model has what is looked at afterwards: the container table, the index of ids, the
name graph, and the layers. The network modes of the containers are given too. Following them from a linked
container may never end, so it has a number of rounds; the results hold for every number.
-/

namespace DockerEngine.Containers

open Filepath Images Database Proc

/-- A step for a volume of the configuration. -/
inductive VolumeStep where
  | getResourcePath
  /-- "cannot mount volume over existing file, file exists " + path. -/
  | overFile
  | createVolume
  | relabel
  | copyImagePathContent
  deriving DecidableEq, Repr

/-- The steps that can fail by themselves. -/
inductive Point where
  | lookupImage
  | checkDepth
  | mergeAndVerifyConfig
  | generateSecurityOpt
  /-- The name graph does not answer. -/
  | nameGraph
  | verifyVolumesInfo
  | prepareMountPoints
  | mkdir
  | createInit
  | getInit
  | setupInitLayer
  | createLayer
  | parseSecurityOpt
  | registerMountPoints
  /-- The name graph does not take the link. -/
  | setLink (spec : Str)
  | writeHostConfig
  | mount
  | volume (destination : Str) (step : VolumeStep)
  | toDisk
  deriving DecidableEq, Repr

/-- The errors of a creation. -/
inductive CreateErr where
  | step (p : Point)
  | name (e : NameErr)
  /-- "empty string specified for links". -/
  | emptyLink
  /-- "bad format for links: " + val. -/
  | badLink (val : Str)
  /-- "Could not get container for " + name. -/
  | linked (name : Str)
  /-- `ErrConflictHostNetworkAndLinks`. -/
  | conflictHostNetworkAndLinks
  | db (e : DbErr)
  /-- The rounds are used up: no error of the source. -/
  | unfinished
  deriving DecidableEq, Repr

/-- What a creation asks for. -/
structure Config where
  image : Str
  name : Str
  /-- Security options are given. -/
  securityOpt : Bool
  /-- The links as they are written; `none` for a nil slice. -/
  links : Option (List Str)
  /-- The destinations that the binds and the volumes of other containers are mounted on. -/
  mounted : List Str
  /-- The volumes as they are written, in the order in which the map gives them. -/
  volumes : List Str

/-- What happens outside the daemon's own tables. -/
structure Setting where
  /-- The steps that fail. -/
  fails : Point → Bool
  /-- The network modes of the containers. -/
  networkMode : Container → Str
  /-- How far network modes are followed. -/
  rounds : Nat

/-- The part behind the last slash, which `path.Split` returns second. -/
def lastElem (path : Str) : Str := (path.reverse.takeWhile fun c => c ≠ '/').reverse

/-- `ParseLink`: the name and the alias. -/
def parseLink (val : Str) : Except CreateErr (Str × Str) :=
  if val = [] then .error .emptyLink
  else
    match val.splitOn ':' with
    | [_] => .ok (val, val)
    -- the form `/foo:/c1/bar` of a container that was created before
    | [name, linkName] => if name.head? = some '/' then .ok (name.tail, lastElem linkName) else .ok (name, linkName)
    | _ => .error (.badLink val)

/-- The container that a network mode names: `IsContainer`, and the part behind the colon. -/
def networkContainer (mode : Str) : Option Str :=
  if "container:".toList <+: mode then some (mode.drop "container:".toList.length) else none

/-- The destination of a volume of the configuration. -/
def volumeDestination (spec : Str) : Str :=
  match spec.splitOn ':' with
  | [_, destination] => clean destination
  | parts => clean (parts.headD [])

section Create

variable (w : Setting)

/-- A step that may fail by itself. -/
def attempt (p : Point) : Proc Daemon CreateErr Unit :=
  if w.fails p then fail (.step p) else pure ()

section

variable (id : Str) (c : Container)

/-- The layers get one more. -/
def addLayer : Proc Daemon CreateErr Unit := fun d => (.ok (), { d with layers := id :: d.layers })

/-- `createRootfs`. -/
def createRootfs : Proc Daemon CreateErr Unit := do
  attempt w .mkdir
  attempt w .createInit
  addLayer (id ++ "-init".toList)
  attempt w .getInit
  attempt w .setupInitLayer
  attempt w .createLayer
  addLayer id

/-- `RegisterLink`. -/
def registerLink (parentName childID linkName : Str) : Proc Daemon CreateErr Unit := fun d =>
  if (d.graph.get (join [parentName, linkName])).isSome then (.ok (), d)
  else
    match d.graph.set (join [parentName, linkName]) childID with
    | .error e => (.error (.db e), d)
    | .ok g => (.ok (), { d with graph := g })

/-- `daemon.Get` in `RegisterLinks`, where each error becomes the same one. -/
def getLinked (name : Str) : Proc Daemon CreateErr Container := do
  let found ← read fun d => d.get name
  match found with
  | none => fail (.linked name)
  | some c => pure c

/-- The container whose network the linked one uses: the inner loop of `RegisterLinks`. -/
def networkOf : Nat → Container → Proc Daemon CreateErr Container
  | 0, _ => fail .unfinished
  | rounds + 1, child =>
    match networkContainer (w.networkMode child) with
    | none => pure child
    | some name => do
      let next ← getLinked name
      networkOf rounds next

/-- One round of `RegisterLinks`. -/
def linkOne (l : Str) : Proc Daemon CreateErr Unit :=
  match parseLink l with
  | .error e => fail e
  | .ok (name, linkName) => do
    let child ← getLinked name
    let child ← networkOf w w.rounds child
    if w.networkMode child = "host".toList then fail .conflictHostNetworkAndLinks
    else do
      attempt w (.setLink l)
      registerLink c.name child.id linkName

/-- `RegisterLinks`. -/
def registerLinks : Option (List Str) → Proc Daemon CreateErr Unit
  | none => pure ()
  | some links => do
    links.forM (linkOne w c)
    attempt w .writeHostConfig

/-- `setHostConfig`. The error of its last step, `toDisk`, is dropped. -/
def setHostConfig (links : Option (List Str)) : Proc Daemon CreateErr Unit := do
  attempt w .parseSecurityOpt
  attempt w .registerMountPoints
  registerLinks w c links

/-- The volumes of the configuration, with the destinations that something is mounted on already. -/
def createVolumes : List Str → List Str → Proc Daemon CreateErr Unit
  | _, [] => pure ()
  | mounted, spec :: specs =>
    if volumeDestination spec ∈ mounted then createVolumes mounted specs
    else do
      attempt w (.volume (volumeDestination spec) .getResourcePath)
      attempt w (.volume (volumeDestination spec) .overFile)
      attempt w (.volume (volumeDestination spec) .createVolume)
      attempt w (.volume (volumeDestination spec) .relabel)
      attempt w (.volume (volumeDestination spec) .copyImagePathContent)
      createVolumes (volumeDestination spec :: mounted) specs

/-- The steps before the choice of the name. -/
def verifySteps (cfg : Config) : List Point :=
  (if cfg.image = [] then [] else [.lookupImage, .checkDepth]) ++ [.mergeAndVerifyConfig] ++
    (if cfg.securityOpt then [] else [.generateSecurityOpt]) ++ [.nameGraph]

/-- The steps behind the registration. -/
def equip (cfg : Config) : Proc Daemon CreateErr Container := do
  attempt w .verifyVolumesInfo
  attempt w .prepareMountPoints
  createRootfs w c.id
  setHostConfig w c cfg.links
  attempt w .mount
  createVolumes w cfg.mounted cfg.volumes
  attempt w .toDisk
  pure c

/-- `Daemon.Create`, with the id and the names that will be generated. -/
def create (names : List Str) (cfg : Config) : Proc Daemon CreateErr Container := do
  (verifySteps cfg).forM (attempt w)
  let name ← (generateIdAndName id names cfg.name).mapError .name
  (register ⟨id, name⟩).mapError .name
  equip w ⟨id, name⟩ cfg

end

end Create

/-- The stores have the same containers, ids, names and layers. -/
structure Same (d d' : Daemon) : Prop where
  containers : ∀ c, c ∈ d'.containers ↔ c ∈ d.containers
  idIndex : ∀ i, i ∈ d'.idIndex ↔ i ∈ d.idIndex
  names : ∀ path, d'.graph.get path = d.graph.get path
  layers : ∀ l, l ∈ d'.layers ↔ l ∈ d.layers

/-- The name cannot be reserved: it is not valid, or a container of the table has it, or the words of
`GetByName` for an unknown name are found in what it leads to. -/
def Daemon.Refuses (d : Daemon) (name : Str) : Prop :=
  validContainerName name = false ∨ ∃ e ∈ d.graph.get (fullName name),
    (d.byID e).isSome = true ∨ "Could not find entity".toList <:+: (LookupErr.noContainer e).text

/-- No name can be given to the container: the one asked for is refused, or none is asked for and all
generated names and the beginning of the id are in use. -/
def NoName (id : Str) (names : List Str) (name : Str) (d : Daemon) : Prop :=
  if name = [] then (∀ n ∈ names, d.graph.get (fullName n) ≠ none) ∧ d.graph.get ('/' :: truncateID id) ≠ none
  else d.Refuses name

/-- The creation fails before the container has a name. -/
def FailsEarly (w : Setting) (id : Str) (names : List Str) (cfg : Config) (d : Daemon) : Prop :=
  (∃ p ∈ verifySteps cfg, w.fails p = true) ∨ NoName id names cfg.name d

/-! ## What the steps leave -/

section Trace

variable {w : Setting} {d d' : Daemon} {id : Str} {names : List Str} {cfg : Config}

theorem Same.refl (d : Daemon) : Same d d :=
  ⟨fun _ => .rfl, fun _ => .rfl, fun _ => rfl, fun _ => .rfl⟩

theorem attempt_run (p : Point) (d : Daemon) :
    attempt w p d = if w.fails p then (.error (.step p), d) else (.ok (), d) := by
  unfold attempt
  split <;> rfl

/-- Steps that only may fail stop at the first one that does. -/
theorem attempts_run (ps : List Point) (d : Daemon) : ps.forM (attempt w) d =
    match ps.find? w.fails with
    | none => (.ok (), d)
    | some p => (.error (.step p), d) := by
  induction ps with
  | nil => rfl
  | cons p ps ih =>
    cases hp : w.fails p with
    | true =>
      have hrun : attempt w p d = (.error (.step p), d) := by rw [attempt_run, hp]; rfl
      rw [forM_cons_error hrun, List.find?_cons_of_pos hp]
    | false =>
      have hrun : attempt w p d = (.ok (), d) := by rw [attempt_run, hp]; rfl
      rw [forM_cons_ok hrun, List.find?_cons_of_neg (by simp [hp]), ih]

/-- A step that may fail keeps what holds. -/
theorem attempt_keeps (p : Point) (P : Daemon → Prop) : Preserves P (attempt w p) := by
  apply Triple.of_snd
  intro d hd
  rw [attempt_run]
  split <;> exact hd

theorem attempt_then {α : Type} {p : Point} {P : Daemon → Prop} {m : Proc Daemon CreateErr α} (h : Preserves P m) :
    Preserves P (attempt w p >>= fun _ => m) :=
  (attempt_keeps p P).bind fun _ => h

section Equip

variable {c : Container}

/-- The container is in the table. -/
def Registered (c : Container) (d : Daemon) : Prop := c ∈ d.containers

theorem addLayer_registered (id : Str) : Preserves (Registered c) (addLayer id) := Triple.of_snd fun _ hd => hd

theorem createRootfs_registered (id : Str) : Preserves (Registered c) (createRootfs w id) := by
  unfold createRootfs
  apply attempt_then
  apply attempt_then
  apply (addLayer_registered _).bind fun _ => ?_
  apply attempt_then
  apply attempt_then
  apply attempt_then
  exact addLayer_registered _

theorem getLinked_registered (name : Str) : Preserves (Registered c) (getLinked name) := by
  apply Triple.read_bind
  intro found
  cases found with
  | none => exact .fail _ fun _ hd => hd.1
  | some child => exact .pure _ fun _ hd => hd.1

theorem networkOf_registered (rounds : Nat) (child : Container) :
    Preserves (Registered c) (networkOf w rounds child) := by
  induction rounds generalizing child with
  | zero => exact .fail _ fun _ hd => hd
  | succ rounds ih =>
    unfold networkOf
    split
    · exact .pure _ fun _ hd => hd
    · exact (getLinked_registered _).bind ih

theorem linkOne_registered (p : Container) (l : Str) : Preserves (Registered c) (linkOne w p l) := by
  unfold linkOne
  split
  · exact .fail _ fun _ hd => hd
  apply (getLinked_registered _).bind fun _ => ?_
  apply (networkOf_registered _ _).bind fun _ => ?_
  split
  · exact .fail _ fun _ hd => hd
  refine attempt_then (Triple.of_snd fun d hd => ?_)
  unfold registerLink
  split
  · exact hd
  · split <;> exact hd

theorem setHostConfig_registered (p : Container) (links : Option (List Str)) :
    Preserves (Registered c) (setHostConfig w p links) := by
  unfold setHostConfig
  apply attempt_then
  apply attempt_then
  cases links with
  | none => exact .pure _ fun _ hd => hd
  | some links =>
    have hlinks := Triple.forM links fun l _ => linkOne_registered (w := w) (c := c) p l
    exact hlinks.bind fun _ => attempt_keeps _ _

theorem createVolumes_registered (mounted specs : List Str) :
    Preserves (Registered c) (createVolumes w mounted specs) := by
  induction specs generalizing mounted with
  | nil => exact .pure _ fun _ hd => hd
  | cons spec specs ih =>
    unfold createVolumes
    split
    · exact ih mounted
    apply attempt_then
    apply attempt_then
    apply attempt_then
    apply attempt_then
    apply attempt_then
    exact ih _

/-- Nothing behind the registration takes the container out of the table. -/
theorem equip_registered (cfg : Config) : Preserves (Registered c) (equip w c cfg) := by
  unfold equip
  apply attempt_then
  apply attempt_then
  apply (createRootfs_registered _).bind fun _ => ?_
  apply (setHostConfig_registered _ _).bind fun _ => ?_
  apply attempt_then
  apply (createVolumes_registered _ _).bind fun _ => ?_
  apply attempt_then
  exact .pure _ fun _ hd => hd

end Equip

/-- A name is reserved unless it is refused. -/
theorem reserveName_fails_iff (hroot : rootID ≠ id) {name : Str} :
    (∃ e, (reserveName id name d).1 = .error e) ↔ d.Refuses name := by
  unfold Daemon.Refuses
  cases hvalid : validContainerName name with
  | false =>
    rw [reserveName, if_neg (by simp [hvalid])]
    exact ⟨fun _ => .inl rfl, fun _ => ⟨_, rfl⟩⟩
  | true =>
    rw [fullName_eq, get_simple (simple_of_valid hvalid)]
    cases hchild : d.graph.child rootID (simpleName name) with
    | none =>
      rw [reserveName_free hvalid hroot hchild]
      simp
    | some e =>
      cases hc : d.byID e with
      | some c =>
        have hfails : ∀ n, (reserveName id name d).1 ≠ .ok n := (reserveName_taken hvalid hchild hc).2
        refine ⟨fun _ => .inr ⟨e, rfl, .inl (by simp [hc])⟩, fun _ => ?_⟩
        cases hrun : (reserveName id name d).1 with
        | error e' => exact ⟨e', rfl⟩
        | ok n => exact absurd hrun (hfails n)
      | none =>
        rw [reserveName_leftover hvalid hroot hchild hc]
        split
        next hwords => exact ⟨fun _ => .inr ⟨e, rfl, .inr hwords⟩, fun _ => ⟨_, rfl⟩⟩
        next hwords =>
          constructor
          · rintro ⟨_, herror⟩
            cases herror
          rintro (hfalse | ⟨e', he', hsome | hin⟩)
          · cases hfalse
          · cases he'
            simp [hc] at hsome
          · cases he'
            exact absurd hin hwords

section

variable (hid : validID id) (hnames : ∀ n ∈ names, validContainerName n)
include hid hnames

/-- A name is generated unless all are in use. -/
theorem generateNewName_fails_iff :
    (∃ e, (generateNewName id names d).1 = .error e) ↔
      (∀ n ∈ names, d.graph.get (fullName n) ≠ none) ∧ d.graph.get ('/' :: truncateID id) ≠ none := by
  have hroot : rootID ≠ id := (ne_rootID hid).symm
  induction names with
  | nil =>
    have hs : Simple (truncateID id) := simple_of_valid (valid_truncateID hid)
    unfold generateNewName
    rw [set_simple hs, get_simple hs, if_neg hroot]
    by_cases hnone : d.graph.child rootID (truncateID id) = none
    · simp [hnone]
    · simp [hnone]
  | cons name names ih =>
    have hs := simple_of_valid (hnames name List.mem_cons_self)
    unfold generateNewName
    rw [List.forall_mem_cons, fullName_eq, set_simple hs, get_simple hs, if_neg hroot, and_assoc]
    have hrest := ih (List.forall_mem_cons.mp hnames).2
    by_cases hnone : d.graph.child rootID (simpleName name) = none
    · simp [hnone]
    · simp only [dif_neg hnone, notUnique_unique, if_true]
      exact ⟨fun h => ⟨hnone, hrest.mp h⟩, fun h => hrest.mpr h.2⟩

theorem generateIdAndName_fails_iff {name : Str} :
    (∃ e, (generateIdAndName id names name d).1 = .error e) ↔ NoName id names name d := by
  unfold generateIdAndName NoName
  split
  · exact generateNewName_fails_iff hid hnames
  · exact reserveName_fails_iff (ne_rootID hid).symm

/-- A name that was chosen is a change of the name graph, and of nothing else. -/
theorem generateIdAndName_spec {name : Str} :
    (∀ n, generateIdAndName id names name d = (.ok n, d') →
      d'.containers = d.containers ∧ ∃ path, d'.graph.get path ≠ d.graph.get path) ∧
      ∀ e, generateIdAndName id names name d = (.error e, d') → d' = d := by
  have hgiven : ∀ {m}, Given d id m d' →
      d'.containers = d.containers ∧ ∃ path, d'.graph.get path ≠ d.graph.get path := by
    intro m hgiven
    refine ⟨hgiven.same.1, '/' :: m, ?_⟩
    rw [hgiven.get, get_simple hgiven.simple, hgiven.free]
    nofun
  unfold generateIdAndName
  split
  · refine ⟨fun n hok => ?_, (generateNewName_spec hid hnames).2⟩
    obtain ⟨m, -, hm⟩ := (generateNewName_spec hid hnames).1 n hok
    exact hgiven hm
  · refine ⟨fun n hok => ?_, fun e => reserveName_error⟩
    obtain ⟨-, hvalid, -, hm | ⟨hleft, hnone, hsame⟩⟩ := reserveName_ok hok
    · exact hgiven hm
    have hs := simple_of_valid hvalid
    obtain ⟨e, he, -⟩ := (leftover_iff hs).mp hleft
    refine ⟨hsame, '/' :: simpleName name, ?_⟩
    rw [get_simple hs, get_simple hs, hnone, he]
    nofun

end

/-- A registration refuses the container and changes nothing, or the container was not there before. -/
theorem register_spec {c : Container} :
    (∀ e, register c d = (.error e, d') → d' = d) ∧
      ∀ u, register c d = (.ok u, d') → c ∉ d.containers ∧ Registered c d' := by
  unfold register
  split
  · refine ⟨fun e h => ?_, nofun⟩
    cases h
    rfl
  next hget =>
    split
    · refine ⟨fun e h => ?_, nofun⟩
      cases h
      rfl
    · refine ⟨nofun, fun u h => ?_⟩
      cases h
      refine ⟨fun hmem => ?_, List.mem_cons_self⟩
      have hsome : (d.byID c.id).isSome := by
        unfold Daemon.byID
        rw [List.find?_isSome]
        exact ⟨c, hmem, by simp⟩
      obtain ⟨c', hc'⟩ := Option.isSome_iff_exists.mp hsome
      simp [Daemon.get, hc'] at hget

end Trace

/-- A failed creation leaves no trace exactly when it fails no later than in the choice of the name. -/
theorem create_traceless_iff (w : Setting) (id : Str) (hid : validID id = true)
    (names : List Str) (hnames : ∀ n ∈ names, validContainerName n = true) (cfg : Config) (d d' : Daemon)
    (e : CreateErr) (h : create w id names cfg d = (.error e, d')) :
    Same d d' ↔ FailsEarly w id names cfg d := by
  unfold create at h
  cases hfind : (verifySteps cfg).find? w.fails with
  | some p =>
    have hrun : (verifySteps cfg).forM (attempt w) d = (.error (.step p), d) := by
      rw [attempts_run, hfind]
    rw [bind_run_error hrun] at h
    cases h
    exact ⟨fun _ => .inl ⟨p, List.mem_of_find?_eq_some hfind, List.find?_some hfind⟩, fun _ => .refl d⟩
  | none =>
    have hrun : (verifySteps cfg).forM (attempt w) d = (.ok (), d) := by
      rw [attempts_run, hfind]
    rw [bind_run_ok hrun] at h
    have hverified : ¬ ∃ p ∈ verifySteps cfg, w.fails p = true := by
      rintro ⟨p, hp, hfail⟩
      exact List.find?_eq_none.mp hfind p hp hfail
    rcases hgen : generateIdAndName id names cfg.name d with ⟨e₁ | name, d₁⟩
    · rw [bind_run_error (mapError_run_error hgen)] at h
      cases h
      rw [(generateIdAndName_spec hid hnames).2 e₁ hgen]
      have hnone : NoName id names cfg.name d := (generateIdAndName_fails_iff hid hnames).mp ⟨e₁, by rw [hgen]⟩
      exact ⟨fun _ => .inr hnone, fun _ => .refl d⟩
    · rw [bind_run_ok (mapError_run_ok hgen)] at h
      obtain ⟨hsame, path, hpath⟩ := (generateIdAndName_spec hid hnames).1 name hgen
      have hlate : ¬ FailsEarly w id names cfg d := by
        rintro (hp | hnone)
        · exact hverified hp
        · obtain ⟨e₁, he₁⟩ := (generateIdAndName_fails_iff hid hnames).mpr hnone
          rw [hgen] at he₁
          cases he₁
      refine ⟨fun hS => ?_, fun hearly => absurd hearly hlate⟩
      exfalso
      rcases hreg : register ⟨id, name⟩ d₁ with ⟨e₂ | u, d₂⟩
      · rw [bind_run_error (mapError_run_error hreg)] at h
        cases h
        rw [register_spec.1 e₂ hreg] at hS
        exact hpath (hS.names path)
      · rw [bind_run_ok (mapError_run_ok hreg)] at h
        obtain ⟨hnew, hin⟩ := register_spec.2 u hreg
        have hend : Registered ⟨id, name⟩ d' := (equip_registered cfg d₂ hin).2 e d' h
        rw [hsame] at hnew
        exact hnew ((hS.containers _).mp hend)

/-- A daemon with nothing in it. -/
def emptyDaemon : Daemon := ⟨⟨[], by decide⟩, [], [], []⟩

/-- The container `web`, from no image. -/
def webConfig : Config := ⟨[], "web".toList, false, none, [], []⟩

/-- The one step fails. -/
def failingAt (p : Point) : Setting := ⟨fun q => q = p, fun _ => [], 1⟩

theorem create_traceless_verify :
    ∃ e d', create (failingAt .mergeAndVerifyConfig) (List.replicate 64 'a') [] webConfig emptyDaemon =
      (.error e, d') ∧ Same emptyDaemon d' := by
  refine ⟨_, _, rfl, ?_⟩
  apply (create_traceless_iff (failingAt .mergeAndVerifyConfig) (List.replicate 64 'a') (by decide) []
    nofun webConfig emptyDaemon _ _ rfl).mpr
  exact .inl ⟨.mergeAndVerifyConfig, by decide, by decide⟩

/-- When the directory of the container cannot be made, the container stays in the table, under its name. -/
theorem create_leaves_container :
    ∃ e d', create (failingAt .mkdir) (List.replicate 64 'a') [] webConfig emptyDaemon = (.error e, d') ∧
      ¬ Same emptyDaemon d' := by
  refine ⟨_, _, rfl, fun h => ?_⟩
  have hmem := (h.containers ⟨List.replicate 64 'a', "/web".toList⟩).mp (by decide +kernel)
  cases hmem

end DockerEngine.Containers
