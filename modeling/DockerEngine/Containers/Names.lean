import DockerEngine.Containers.NameGraph
import DockerEngine.Images.Names
import DockerEngine.Lib.Proc
import DockerEngine.Lib.Trace

/-!
# Names of containers: reserving, renaming, removing

A container is known by its name in the name graph, by its entry in the container table, and by its own
`Name`. `reserveName` sets the name in the graph. If the name is taken by an entity that is not in the table,
a leftover, it deletes the name from the graph and returns it as reserved. It does not set it: the name
belongs to nobody, and the next creation of that name succeeds, with two containers of one name
(`two_of_one_name`).

`names_of_run` says that this is the only way in which a returned name is not reserved, and that as long as
no leftover name is asked for, and no removal fails for good after the names were purged, every container is
the one found by its name, and no two have the same.

A creation is modelled up to the registration of the container. Which container `Get` finds, the conflict and
error texts, and the undo of a failed rename are as in the code. The database and the disk may fail where a
rename has an undo for it, and where a removal goes on; elsewhere they work. Links are not changed.
-/

namespace DockerEngine.Containers

open Filepath Images Trace Database List

/-! ## The daemon -/

/-- A container, as the table has it. -/
structure Container where
  id : Str
  name : Str
  deriving DecidableEq, Repr

/-- The stores a creation touches: the name graph, the container table, the index of ids, and the layers of
the storage driver. -/
structure Daemon where
  graph : Database
  containers : List Container
  idIndex : List Str
  layers : List Str

section

variable (d : Daemon) (id : Str) (name : Str)

/-- `containers.Get`. -/
def Daemon.byID : Option Container := d.containers.find? fun c => c.id = id

/-- A name with its leading slash. -/
def fullName : Str := if name.head? = some '/' then name else '/' :: name

/-- A name without it. -/
def simpleName : Str := if name.head? = some '/' then name.tail else name

/-- A character that may follow the first one in a name. -/
def isNameChar (c : Char) : Bool := c.isAlphanum || c == '_' || c == '.' || c == '-'

/-- `validContainerNamePattern`. -/
def validContainerName : Bool :=
  match simpleName name with
  | [] => false
  | c :: rest => c.isAlphanum && !rest.isEmpty && rest.all isNameChar

/-- The errors of lookups by name. -/
inductive LookupErr where
  /-- "Container name cannot be empty". -/
  | emptyName
  /-- "Could not find entity for " + name. -/
  | noEntity (name : Str)
  /-- "Could not find container for entity id " + id. -/
  | noContainer (id : Str)
  deriving DecidableEq, Repr

/-- The texts of the errors. -/
def LookupErr.text : LookupErr → Str
  | .emptyName => "Container name cannot be empty".toList
  | .noEntity name => "Could not find entity for ".toList ++ name
  | .noContainer id => "Could not find container for entity id ".toList ++ id

/-- `GetByName`. -/
def Daemon.getByName : Except LookupErr Container :=
  if name = [] then .error .emptyName
  else
    match d.graph.get (fullName name) with
    | none => .error (.noEntity name)
    | some e =>
      match d.byID e with
      | none => .error (.noContainer e)
      | some c => .ok c

/-- `idIndex.Get`. -/
def Daemon.indexed (s : Str) : Option Str :=
  if s = [] then none
  else
    match d.idIndex.filter fun id => s.isPrefixOf id with
    | [id] => some id
    | _ => none

/-- `Daemon.Get`: by id, by name, or by what an id begins with. -/
def Daemon.get (ref : Str) : Option Container :=
  match d.byID ref with
  | some c => some c
  | none =>
    match d.getByName ref with
    | .ok c => some c
    | .error _ => (d.indexed ref).bind d.byID

/-- The errors of the operations on names. -/
inductive NameErr where
  /-- "Invalid container name (" + name + "), only [a-zA-Z0-9][a-zA-Z0-9_.-] are allowed". -/
  | invalid (name : Str)
  | db (e : DbErr)
  | lookup (e : LookupErr)
  /-- "Conflict. The name " + name + " is already in use by container " + id + ". You have to delete (or
  rename) that container to be able to reuse that name." -/
  | conflict (name id : Str)
  /-- "Container is already loaded". -/
  | alreadyLoaded
  /-- "Invalid empty id". -/
  | emptyID
  /-- "usage: docker rename OLD_NAME NEW_NAME". -/
  | usage
  | noSuchContainer
  | deleteFailed
  | toDisk
  | removal
  deriving DecidableEq, Repr

/-- `reserveName`. -/
def reserveName : Proc Daemon NameErr Str := fun d =>
  if validContainerName name then
    match d.graph.set (fullName name) id with
    | .ok g => (.ok (fullName name), { d with graph := g })
    | .error e =>
      if isNonUniqueNameError e then
        match d.getByName (fullName name) with
        | .ok c => (.error (.conflict (simpleName name) (truncateID c.id)), d)
        | .error e =>
          if "Could not find entity".toList <:+: e.text then (.error (.lookup e), d)
          else
            match d.graph.delete (fullName name) with
            | .error e => (.error (.db e), d)
            | .ok g => (.ok (fullName name), { d with graph := g })
      else (.error (.db e), d)
  else (.error (.invalid name), d)

/-- `generateNewName`, with the names that `namesgenerator` will give. -/
def generateNewName (id : Str) : List Str → Proc Daemon NameErr Str
  | [] => fun d =>
    match d.graph.set ('/' :: truncateID id) id with
    | .ok g => (.ok ('/' :: truncateID id), { d with graph := g })
    | .error e => (.error (.db e), d)
  | name :: names => fun d =>
    match d.graph.set (fullName name) id with
    | .ok g => (.ok (fullName name), { d with graph := g })
    | .error e => if isNonUniqueNameError e then generateNewName id names d else (.error (.db e), d)

/-- `generateIdAndName`, with the id that will be generated. -/
def generateIdAndName (names : List Str) (name : Str) : Proc Daemon NameErr Str :=
  if name = [] then generateNewName id names else reserveName id name

/-- `register`, up to the entries in the table and in the index. A container that is created has a name. -/
def register (c : Container) : Proc Daemon NameErr Unit := fun d =>
  if (d.get c.id).isSome then (.error .alreadyLoaded, d)
  else if c.id = [] then (.error .emptyID, d)
  else (.ok (), { d with containers := c :: d.containers, idIndex := c.id :: d.idIndex })

/-- The part of `Daemon.Create` that names and registers a container. -/
def newContainer (names : List Str) (name : Str) : Proc Daemon NameErr Unit := do
  let name ← generateIdAndName id names name
  register ⟨id, name⟩

/-- The container gets another name in the table. -/
def Daemon.setName : Daemon :=
  { d with containers := d.containers.map fun c => if c.id = id then { c with name := name } else c }

/-- A name is deleted from the graph, if that succeeds. -/
def Daemon.deleteName : Daemon :=
  match d.graph.delete name with
  | .ok g => { d with graph := g }
  | .error _ => d

/-- The undo of a rename: the old name is reserved again and the new one deleted. -/
def undoRename (c : Container) (newName : Str) (d : Daemon) : Daemon :=
  (reserveName c.id c.name (d.setName c.id c.name)).2.deleteName newName

/-- `ContainerRename`. The deletion of the old name and the write to disk may fail. -/
def containerRename (oldName newName : Str) (deleteFails toDiskFails : Bool) : Proc Daemon NameErr Unit :=
  fun d =>
    if oldName = [] ∨ newName = [] then (.error .usage, d)
    else
      match d.get oldName with
      | none => (.error .noSuchContainer, d)
      | some c =>
        match reserveName c.id newName d with
        | (.error e, d) => (.error e, d)
        | (.ok name, d) =>
          let d := d.setName c.id name
          if deleteFails then (.error .deleteFailed, undoRename c name d)
          else
            match d.graph.delete c.name with
            | .error e => (.error (.db e), undoRename c name d)
            | .ok g =>
              let d := { d with graph := g }
              if toDiskFails then (.error .toDisk, undoRename c name d) else (.ok (), d)

/-- How a removal ends: it is refused before anything is done, it fails after the names were purged, or it
succeeds. -/
inductive Fate where
  | refused
  | failed
  | removed
  deriving DecidableEq, Repr

/-- The container is taken out of the table and the index. -/
def Daemon.drop : Daemon :=
  { d with containers := d.containers.filter fun c => c.id ≠ id
           idIndex := d.idIndex.filter fun i => i ≠ id }

/-- `ContainerRm` with `rm`. An error of the purge is only logged. -/
def containerRm (force purgeFails : Bool) (fate : Fate) : Proc Daemon NameErr Unit := fun d =>
  match d.get name with
  | none => (.error .noSuchContainer, d)
  | some c =>
    let purged := if purgeFails then d else { d with graph := d.graph.purge c.id }
    match fate with
    | .refused => (.error .removal, d)
    | .failed => (.error .removal, if force then purged.drop c.id else purged)
    | .removed => (.ok (), purged.drop c.id)

/-! ## Runs -/

/-- The requests. The id of a creation is 64 hexadecimal characters, and the generated names are valid. -/
inductive Request where
  | create (id : { i : Str // validID i = true }) (names : List { n : Str // validContainerName n = true })
      (name : Str)
  | rename (oldName newName : Str) (deleteFails toDiskFails : Bool)
  | remove (name : Str) (force purgeFails : Bool) (fate : Fate)

/-- What a request does to the daemon, whether it returns an error or not. -/
def Daemon.serve : Request → Option Daemon
  | .create id names name => some (newContainer id.1 (names.map Subtype.val) name d).2
  | .rename oldName newName deleteFails toDiskFails =>
    some (containerRename oldName newName deleteFails toDiskFails d).2
  | .remove name force purgeFails fate => some (containerRm name force purgeFails fate d).2

/-- The name is taken by an entity that is not a container of the table. -/
def Daemon.Leftover : Prop := ∃ e ∈ d.graph.get (fullName name), d.byID e = none

instance (d : Daemon) (name : Str) : Decidable (d.Leftover name) := by
  unfold Daemon.Leftover
  infer_instance

/-- No leftover name is asked for, and a removal that purged the names and then fails is forced. -/
def Fresh : Request → Prop
  | .create _ _ name => name ≠ [] → ¬ d.Leftover name
  | .rename _ newName _ _ => ¬ d.Leftover newName
  | .remove _ force purgeFails fate => fate = .failed → force = true ∨ purgeFails = true

instance decidableFresh (d : Daemon) (r : Request) : Decidable (Fresh d r) := by
  cases r <;> unfold Fresh <;> infer_instance

/-- No two containers have one name, and every container is found by its name. -/
structure Named (d : Daemon) : Prop where
  unique : ∀ c ∈ d.containers, ∀ c' ∈ d.containers, c.name = c'.name → c = c'
  found : ∀ c ∈ d.containers, d.getByName c.name = .ok c

/-- A daemon to begin with: ids are ids and occur once, and each container has a valid name that the graph
gives to it. There may be any other names in the graph. -/
structure Consistent (d : Daemon) : Prop where
  ids : (d.containers.map Container.id).Nodup
  valid : ∀ c ∈ d.containers, validID c.id = true
  named : ∀ c ∈ d.containers, ∃ n, c.name = '/' :: n ∧ validContainerName c.name = true ∧
    d.graph.child rootID n = some c.id

/-! ## Valid names -/

theorem fullName_eq : fullName name = '/' :: simpleName name := by
  unfold fullName simpleName
  split
  next h =>
    cases name with
    | nil => cases h
    | cons c cs =>
      cases h
      rfl
  · rfl

end

theorem simpleName_slash (n : Str) : simpleName ('/' :: n) = n := rfl

theorem fullName_slash (n : Str) : fullName ('/' :: n) = '/' :: n := rfl

theorem simple_of_valid {name : Str} (h : validContainerName name) : Simple (simpleName name) := by
  unfold validContainerName at h
  split at h
  · cases h
  next c rest hname =>
    simp only [Bool.and_eq_true] at h
    rw [hname]
    refine ⟨cons_ne_nil _ _, fun hmem => ?_⟩
    rcases mem_cons.mp hmem with heq | hrest
    · have hc := h.1.1
      rw [← heq] at hc
      revert hc
      decide
    · have hslash := all_eq_true.mp h.2 '/' hrest
      revert hslash
      decide

/-- The beginning of an id is a valid name. -/
theorem valid_truncateID {id : Str} (h : validID id) : validContainerName ('/' :: truncateID id) := by
  have hlen := validID_length h
  have hall : ∀ c ∈ id, c.isAlphanum := by
    simp only [validID, Bool.and_eq_true] at h
    exact fun c hc => isAlphanum_of_isHex (all_eq_true.mp h.2 c hc)
  rcases id with _ | ⟨a, _ | ⟨b, rest⟩⟩
  · cases hlen
  · cases hlen
  unfold validContainerName
  rw [simpleName_slash, truncateID, take_succ_cons, take_succ_cons]
  simp only [Bool.and_eq_true]
  refine ⟨⟨hall a (by simp), rfl⟩, all_eq_true.mpr fun c hc => ?_⟩
  have hmem : c ∈ a :: b :: rest := by
    rcases mem_cons.mp hc with rfl | hc
    · simp
    · exact mem_cons_of_mem _ (mem_cons_of_mem _ (mem_of_mem_take hc))
  simp [isNameChar, hall c hmem]

theorem ne_rootID {id : Str} (h : validID id) : id ≠ rootID := by
  rintro rfl
  revert h
  decide

/-! ## Reserving a name -/

variable {c : Container}

section Reserve

variable {d d' : Daemon} {id name n : Str}

/-- The daemon with a name given to an id. -/
structure Given (d : Daemon) (id n : Str) (d' : Daemon) : Prop where
  valid : validContainerName ('/' :: n) = true
  free : d.graph.child rootID n = none
  same : d'.containers = d.containers ∧ d'.idIndex = d.idIndex ∧ d'.layers = d.layers
  child : ∀ parent m, d'.graph.child parent m =
    if rootID = parent ∧ n = m then some id else d.graph.child parent m

theorem Given.simple (h : Given d id n d') : Simple n := simple_of_valid h.valid

theorem Given.get (h : Given d id n d') : d'.graph.get ('/' :: n) = some id := by
  rw [get_simple h.simple, h.child, if_pos ⟨rfl, rfl⟩]

/-- A new name takes no name away. -/
theorem Given.kept (h : Given d id n d') {m e : Str} (hm : d.graph.child rootID m = some e) :
    m ≠ n ∧ d'.graph.child rootID m = some e := by
  have hne : m ≠ n := by
    rintro rfl
    rw [h.free] at hm
    cases hm
  exact ⟨hne, by rw [h.child, if_neg fun hboth => hne hboth.2.symm, hm]⟩

theorem given_insert (hvalid : validContainerName ('/' :: n)) (hfree : d.graph.child rootID n = none) :
    Given d id n { d with graph := d.graph.insert ⟨rootID, n, id⟩ hfree } :=
  ⟨hvalid, hfree, ⟨rfl, rfl, rfl⟩, fun _ _ => child_insert (h := hfree)⟩

theorem leftover_iff (hs : Simple (simpleName name)) : d.Leftover name ↔
    ∃ e, d.graph.child rootID (simpleName name) = some e ∧ d.byID e = none := by
  unfold Daemon.Leftover
  rw [fullName_eq, get_simple hs]
  rfl

theorem selfChild_not_unique : isNonUniqueNameError .selfChild = false := by decide +kernel

theorem notUnique_unique : isNonUniqueNameError .notUnique := by decide +kernel

theorem getByName_simple (hs : Simple n) : d.getByName ('/' :: n) =
    match d.graph.child rootID n with
    | none => .error (.noEntity ('/' :: n))
    | some e =>
      match d.byID e with
      | none => .error (.noContainer e)
      | some c => .ok c := by
  rw [Daemon.getByName, if_neg (cons_ne_nil _ _), fullName_slash, get_simple hs]

theorem reserveName_root (h : rootID = id) : (reserveName id name d).2 = d ∧
    ∀ n, (reserveName id name d).1 ≠ .ok n := by
  unfold reserveName
  split
  next hvalid =>
    rw [fullName_eq, set_simple (simple_of_valid hvalid), if_pos h]
    simp only [selfChild_not_unique, Bool.false_eq_true, if_false]
    exact ⟨trivial, nofun⟩
  · exact ⟨rfl, nofun⟩

section

variable (hvalid : validContainerName name)
include hvalid

theorem reserveName_free (hroot : rootID ≠ id) (hnone : d.graph.child rootID (simpleName name) = none) :
    reserveName id name d = (.ok ('/' :: simpleName name),
      { d with graph := d.graph.insert ⟨rootID, simpleName name, id⟩ hnone }) := by
  rw [reserveName, if_pos hvalid, fullName_eq, set_simple (simple_of_valid hvalid), if_neg hroot,
    dif_pos hnone]

/-- A name in use is refused. -/
theorem reserveName_taken {e : Str}
    (hchild : d.graph.child rootID (simpleName name) = some e) (hc : d.byID e = some c) :
    (reserveName id name d).2 = d ∧ ∀ n, (reserveName id name d).1 ≠ .ok n := by
  by_cases hroot : rootID = id
  · exact reserveName_root hroot
  have hs := simple_of_valid hvalid
  rw [reserveName, if_pos hvalid, fullName_eq, set_simple hs, if_neg hroot, dif_neg (by simp [hchild])]
  simp only [notUnique_unique, if_true, getByName_simple hs, hchild, hc]
  exact ⟨trivial, nofun⟩

/-- A leftover name is refused if the text of the error has the words the code looks for, and deleted
otherwise. -/
theorem reserveName_leftover {e : Str}
    (hroot : rootID ≠ id) (hchild : d.graph.child rootID (simpleName name) = some e)
    (hc : d.byID e = none) :
    reserveName id name d =
      if "Could not find entity".toList <:+: (LookupErr.noContainer e).text then
        (.error (.lookup (.noContainer e)), d)
      else (.ok ('/' :: simpleName name), { d with
        graph := d.graph.keep fun e => ¬ (e.parent = rootID ∧ e.name = simpleName name) }) := by
  have hs := simple_of_valid hvalid
  rw [reserveName, if_pos hvalid, fullName_eq, set_simple hs, if_neg hroot, dif_neg (by simp [hchild])]
  simp only [notUnique_unique, if_true, getByName_simple hs, hchild, hc, delete_simple hs]

end

/-- The name is given to the id, or was left over and is deleted. -/
def Reserved (d : Daemon) (id name : Str) (d' : Daemon) : Prop :=
  validContainerName name ∧ rootID ≠ id ∧
    (Given d id (simpleName name) d' ∨
      d.Leftover name ∧ d'.graph.child rootID (simpleName name) = none ∧ d'.containers = d.containers)

theorem reserveName_cases (id name : Str) (d : Daemon) :
    (reserveName id name d).2 = d ∧ (∀ n, (reserveName id name d).1 ≠ .ok n) ∨
      ∃ d', reserveName id name d = (.ok ('/' :: simpleName name), d') ∧ Reserved d id name d' := by
  by_cases hvalid : validContainerName name
  · by_cases hroot : rootID = id
    · exact .inl (reserveName_root hroot)
    · cases hchild : d.graph.child rootID (simpleName name) with
      | none =>
        exact .inr ⟨_, reserveName_free hvalid hroot hchild, hvalid, hroot, .inl (given_insert hvalid hchild)⟩
      | some e =>
        cases hc : d.byID e with
        | some c => exact .inl (reserveName_taken hvalid hchild hc)
        | none =>
          have hleft := reserveName_leftover hvalid hroot hchild hc
          split at hleft
          · rw [hleft]
            exact .inl ⟨rfl, nofun⟩
          · refine .inr ⟨_, hleft, hvalid, hroot, .inr ⟨?_, child_keep_none (by simp), rfl⟩⟩
            exact (leftover_iff (simple_of_valid hvalid)).mpr ⟨e, hchild, hc⟩
  · rw [reserveName, if_neg hvalid]
    exact .inl ⟨rfl, nofun⟩

theorem reserveName_ok (h : reserveName id name d = (.ok n, d')) :
    n = '/' :: simpleName name ∧ Reserved d id name d' := by
  obtain ⟨-, hne⟩ | ⟨d₁, heq, hrest⟩ := reserveName_cases id name d
  · exact absurd (by rw [h]) (hne n)
  · cases heq.symm.trans h
    exact ⟨rfl, hrest⟩

theorem reserveName_error {e : NameErr} (h : reserveName id name d = (.error e, d')) : d' = d := by
  obtain ⟨hsame, -⟩ | ⟨d₁, heq, -⟩ := reserveName_cases id name d
  · rw [← hsame, h]
  · cases heq.symm.trans h

/-- A generated name is given to the id. -/
theorem generateNewName_spec (hid : validID id) {names : List Str} (hnames : ∀ n ∈ names, validContainerName n) :
    (∀ n, generateNewName id names d = (.ok n, d') → ∃ m, n = '/' :: m ∧ Given d id m d') ∧
      ∀ e, generateNewName id names d = (.error e, d') → d' = d := by
  have hroot : rootID ≠ id := (ne_rootID hid).symm
  induction names with
  | nil =>
    have hvalid := valid_truncateID hid
    have hs : Simple (truncateID id) := simple_of_valid hvalid
    unfold generateNewName
    rw [set_simple hs, if_neg hroot]
    by_cases hnone : d.graph.child rootID (truncateID id) = none
    · rw [dif_pos hnone]
      refine ⟨fun n h => ?_, nofun⟩
      cases h
      exact ⟨_, rfl, given_insert hvalid hnone⟩
    · rw [dif_neg hnone]
      refine ⟨nofun, fun e h => ?_⟩
      cases h
      rfl
  | cons name names ih =>
    have hvalid := hnames name mem_cons_self
    have hs := simple_of_valid hvalid
    unfold generateNewName
    rw [fullName_eq, set_simple hs, if_neg hroot]
    by_cases hnone : d.graph.child rootID (simpleName name) = none
    · rw [dif_pos hnone]
      refine ⟨fun n h => ?_, nofun⟩
      cases h
      exact ⟨_, rfl, given_insert hvalid hnone⟩
    · rw [dif_neg hnone]
      simp only [notUnique_unique, if_true]
      exact ih (forall_mem_cons.mp hnames).2

end Reserve

/-! ## What the requests keep -/

section Requests

variable {d d' : Daemon} {id n : Str}

theorem byID_of_mem (h : Consistent d) (hc : c ∈ d.containers) : d.byID c.id = some c :=
  find?_of_key h.ids hc (by simp)

theorem mem_of_byID (h : d.byID id = some c) : c ∈ d.containers ∧ c.id = id :=
  ⟨mem_of_find?_eq_some h, by simpa using find?_some h⟩

theorem mem_of_get {ref : Str} (h : d.get ref = some c) : c ∈ d.containers := by
  unfold Daemon.get at h
  split at h
  next c' hc' =>
    cases h
    exact (mem_of_byID hc').1
  · split at h
    next c' hc' =>
      cases h
      unfold Daemon.getByName at hc'
      split at hc'
      · cases hc'
      split at hc'
      · cases hc'
      split at hc'
      · cases hc'
      next hbyID =>
        cases hc'
        exact (mem_of_byID hbyID).1
    · obtain ⟨i, -, hi⟩ := Option.bind_eq_some_iff.mp h
      exact (mem_of_byID hi).1

section

variable (h : Consistent d)
include h

/-- A consistent daemon is named as it should be. -/
theorem Consistent.named_ok : Named d := by
  have hchild : ∀ c ∈ d.containers, ∃ n, c.name = '/' :: n ∧ Simple n ∧
      d.graph.child rootID n = some c.id := by
    intro c hc
    obtain ⟨n, hname, hvalid, hn⟩ := h.named c hc
    rw [hname] at hvalid
    exact ⟨n, hname, simple_of_valid hvalid, hn⟩
  constructor
  · intro c hc c' hc' heq
    obtain ⟨n, hname, -, hn⟩ := hchild c hc
    obtain ⟨n', hname', -, hn'⟩ := hchild c' hc'
    rw [hname, hname'] at heq
    cases heq
    rw [hn] at hn'
    exact inj_on_of_nodup_map h.ids hc hc' (Option.some.inj hn')
  · intro c hc
    obtain ⟨n, hname, hs, hn⟩ := hchild c hc
    rw [hname, getByName_simple hs, hn]
    simp only [byID_of_mem h hc]

/-- The graph may change as long as it gives each container its name. -/
theorem Consistent.of_graph (hsame : d'.containers = d.containers)
    (hkeep : ∀ c ∈ d.containers, ∀ n, c.name = '/' :: n → d.graph.child rootID n = some c.id →
      d'.graph.child rootID n = some c.id) : Consistent d' where
  ids := by rw [hsame]; exact h.ids
  valid := by rw [hsame]; exact h.valid
  named := by
    rw [hsame]
    intro c hc
    obtain ⟨n, hname, hvalid, hn⟩ := h.named c hc
    exact ⟨n, hname, hvalid, hkeep c hc n hname hn⟩

theorem Consistent.given (hgiven : Given d id n d') : Consistent d' :=
  h.of_graph hgiven.same.1 fun _ _ _ _ hm => (hgiven.kept hm).2

theorem register_consistent (hid : validID c.id) (hvalid : validContainerName c.name) (hn : c.name = '/' :: n)
    (hchild : d.graph.child rootID n = some c.id) : Consistent (register c d).2 := by
  unfold register
  split
  · exact h
  next hget =>
    split
    · exact h
    have hnew : ∀ c' ∈ d.containers, c'.id ≠ c.id := by
      intro c' hc' heq
      have hbyID := byID_of_mem h hc'
      rw [heq] at hbyID
      simp [Daemon.get, hbyID] at hget
    refine ⟨?_, ?_, ?_⟩
    · rw [map_cons, nodup_cons]
      refine ⟨fun hmem => ?_, h.ids⟩
      obtain ⟨c', hc', heq⟩ := mem_map.mp hmem
      exact hnew c' hc' heq
    · exact forall_mem_cons.mpr ⟨hid, h.valid⟩
    · exact forall_mem_cons.mpr ⟨⟨n, hn, hvalid, hchild⟩, h.named⟩

theorem newContainer_consistent (hid : validID id) {names : List Str}
    (hnames : ∀ n ∈ names, validContainerName n) {name : Str}
    (hfresh : name ≠ [] → ¬ d.Leftover name) : Consistent (newContainer id names name d).2 := by
  have hgen : (∀ n d', generateIdAndName id names name d = (.ok n, d') →
      ∃ m, n = '/' :: m ∧ Given d id m d') ∧
      ∀ e d', generateIdAndName id names name d = (.error e, d') → d' = d := by
    unfold generateIdAndName
    split
    · exact ⟨fun n d' => (generateNewName_spec hid hnames).1 n, fun e d' =>
        (generateNewName_spec hid hnames).2 e⟩
    next hne =>
      refine ⟨fun n d' hok => ?_, fun e d' => reserveName_error⟩
      obtain ⟨rfl, -, -, hgiven | ⟨hleft, -⟩⟩ := reserveName_ok hok
      · exact ⟨_, rfl, hgiven⟩
      · exact absurd hleft (hfresh hne)
  unfold newContainer
  rcases hrun : generateIdAndName id names name d with ⟨e | n, d₁⟩
  · rw [Proc.bind_run_error hrun, hgen.2 e d₁ hrun]
    exact h
  obtain ⟨m, rfl, hgiven⟩ := hgen.1 n d₁ hrun
  rw [Proc.bind_run_ok hrun]
  apply register_consistent (h.given hgiven) hid hgiven.valid rfl
  rw [hgiven.child, if_pos ⟨rfl, rfl⟩]

end

/-! ### Renaming -/

theorem setName_setName (d : Daemon) (id a b : Str) : (d.setName id a).setName id b = d.setName id b := by
  unfold Daemon.setName
  simp only [map_map, Daemon.mk.injEq, true_and, and_true]
  apply map_congr_left
  intro c _
  simp only [Function.comp_apply]
  by_cases hc : c.id = id <;> simp [hc]

theorem setName_self (h : Consistent d) (hc : c ∈ d.containers) : d.setName c.id c.name = d := by
  have hmap : (d.containers.map fun c' => if c'.id = c.id then { c' with name := c.name } else c') =
      d.containers := by
    conv_rhs => rw [← map_id d.containers]
    apply map_congr_left
    intro c' hc'
    split
    next heq =>
      rw [inj_on_of_nodup_map h.ids hc' hc heq]
      rfl
    · rfl
  unfold Daemon.setName
  rw [hmap]

theorem child_keep_ne {db : Database} {m e : Str} (hne : m ≠ n) (h : db.child rootID m = some e) :
    (db.keep fun e => ¬ (e.parent = rootID ∧ e.name = n)).child rootID m = some e :=
  child_keep.mpr ⟨h, by simpa using hne⟩

section Rename

variable {c : Container} {old new : Str} {d₁ : Daemon}

/-- The container has moved from the old name to the new one. -/
theorem renamed_consistent (h : Consistent d) (hchild : d.graph.child rootID old = some c.id)
    (hgiven : Given d c.id new d₁) :
    Consistent { d₁.setName c.id ('/' :: new) with
      graph := d₁.graph.keep fun e => ¬ (e.parent = rootID ∧ e.name = old) } := by
  have hne : new ≠ old := (hgiven.kept hchild).1.symm
  have hids : ((d.containers.map fun c' => if c'.id = c.id then { c' with name := '/' :: new } else c').map
      Container.id) = d.containers.map Container.id := by
    rw [map_map]
    apply map_congr_left
    intro c' _
    simp only [Function.comp_apply]
    split <;> rfl
  refine ⟨?_, ?_, ?_⟩
  · show (((d₁.containers.map _).map Container.id)).Nodup
    rw [hgiven.same.1, hids]
    exact h.ids
  · show ∀ c' ∈ d₁.containers.map _, _
    rw [hgiven.same.1]
    intro c' hc'
    obtain ⟨c₀, hc₀, rfl⟩ := mem_map.mp hc'
    split <;> exact h.valid c₀ hc₀
  · show ∀ c' ∈ d₁.containers.map _, _
    rw [hgiven.same.1]
    intro c' hc'
    obtain ⟨c₀, hc₀, rfl⟩ := mem_map.mp hc'
    split
    next heq =>
      refine ⟨new, rfl, hgiven.valid, child_keep_ne hne ?_⟩
      rw [hgiven.child, if_pos ⟨rfl, rfl⟩, heq]
    next hid =>
      obtain ⟨m, hname, hvalid, hm⟩ := h.named c₀ hc₀
      have hmold : m ≠ old := by
        rintro rfl
        rw [hchild] at hm
        exact hid (Option.some.inj hm).symm
      exact ⟨m, hname, hvalid, child_keep_ne hmold (hgiven.kept hm).2⟩

/-- What the undo leaves has every container under its old name. -/
theorem undoRename_consistent (h : Consistent d) (hc : c ∈ d.containers) (hold : c.name = '/' :: old)
    (hvalid : validContainerName c.name) (hchild : d.graph.child rootID old = some c.id)
    (hgiven : Given d c.id new d₁) {g : Database}
    (hg : g = d₁.graph ∨ g = d₁.graph.keep fun e => ¬ (e.parent = rootID ∧ e.name = old)) :
    Consistent (undoRename c ('/' :: new) { d₁.setName c.id ('/' :: new) with graph := g }) := by
  have hcons := h.given hgiven
  have hc₁ : c ∈ d₁.containers := by rw [hgiven.same.1]; exact hc
  have hset : ({ d₁.setName c.id ('/' :: new) with graph := g } : Daemon).setName c.id c.name =
      { d₁ with graph := g } := by
    have hself := (setName_setName d₁ c.id ('/' :: new) c.name).trans (setName_self hcons hc₁)
    exact congrArg (fun d : Daemon => { d with graph := g }) hself
  unfold undoRename
  rw [hset, Daemon.deleteName, delete_simple hgiven.simple]
  rcases hg with rfl | rfl
  · -- the old name was never deleted, so it is refused to the container that has it
    have hold₁ : d₁.graph.child rootID (simpleName c.name) = some c.id := by
      rw [hold, simpleName_slash]
      exact (hgiven.kept hchild).2
    have htaken : (reserveName c.id c.name d₁).2 = d₁ := (reserveName_taken hvalid hold₁ (byID_of_mem hcons hc₁)).1
    rw [htaken]
    refine h.of_graph hgiven.same.1 fun c' _ m _ hm => ?_
    exact child_keep_ne (hgiven.kept hm).1 (hgiven.kept hm).2
  · obtain ⟨d₂, hd₂⟩ : ∃ d₂ : Daemon, d₂ = { d₁ with
        graph := d₁.graph.keep fun e => ¬ (e.parent = rootID ∧ e.name = old) } := ⟨_, rfl⟩
    have hgraph : d₂.graph = d₁.graph.keep fun e => ¬ (e.parent = rootID ∧ e.name = old) := by rw [hd₂]
    have hsame : d₂.containers = d.containers := by rw [hd₂, ← hgiven.same.1]
    have hnone : d₂.graph.child rootID (simpleName c.name) = none := by
      rw [hgraph, hold, simpleName_slash]
      exact child_keep_none (by simp)
    rw [← hd₂, reserveName_free hvalid (ne_rootID (h.valid c hc)).symm hnone]
    refine h.of_graph hsame fun c' _ m _ hm => ?_
    apply child_keep_ne (hgiven.kept hm).1
    rw [child_insert, hold, simpleName_slash]
    by_cases heq : old = m
    · subst heq
      rw [if_pos ⟨rfl, rfl⟩]
      exact hchild.symm.trans hm
    · rw [if_neg fun hboth => heq hboth.2, hgraph]
      exact child_keep_ne (Ne.symm heq) (hgiven.kept hm).2

theorem containerRename_consistent (h : Consistent d) {oldName newName : Str}
    (hfresh : ¬ d.Leftover newName) (deleteFails toDiskFails : Bool) :
    Consistent (containerRename oldName newName deleteFails toDiskFails d).2 := by
  unfold containerRename
  split
  · exact h
  split
  · exact h
  next c hget =>
    have hc := mem_of_get hget
    obtain ⟨old, hold, hvalid, hchild⟩ := h.named c hc
    split
    next e d₁ hres =>
      rw [reserveName_error hres]
      exact h
    next name d₁ hres =>
      obtain ⟨rfl, -, -, hgiven | ⟨hleft, -⟩⟩ := reserveName_ok hres
      · have hs : Simple old := by
          rw [hold] at hvalid
          exact simple_of_valid hvalid
        simp only [hold, delete_simple hs]
        split
        · exact undoRename_consistent h hc hold hvalid hchild hgiven (.inl rfl)
        · split
          · exact undoRename_consistent h hc hold hvalid hchild hgiven (.inr rfl)
          · exact renamed_consistent h hchild hgiven
      · exact absurd hleft hfresh

end Rename

/-! ### Removing -/

theorem purge_consistent (h : Consistent d) (hc : c ∈ d.containers) (purgeFails : Bool) :
    Consistent ((if purgeFails then d else { d with graph := d.graph.purge c.id }).drop c.id) := by
  have hdrop : ∀ d' : Daemon, d'.containers = d.containers →
      (∀ c' ∈ d.containers, c'.id ≠ c.id → ∀ n, d.graph.child rootID n = some c'.id →
        d'.graph.child rootID n = some c'.id) → Consistent (d'.drop c.id) := by
    intro d' hsame hkeep
    have hmem : ∀ c' ∈ (d'.drop c.id).containers, c' ∈ d.containers ∧ c'.id ≠ c.id := by
      intro c' hc'
      obtain ⟨hc', hne⟩ := mem_filter.mp hc'
      rw [hsame] at hc'
      exact ⟨hc', by simpa using hne⟩
    refine ⟨?_, fun c' hc' => h.valid c' (hmem c' hc').1, fun c' hc' => ?_⟩
    · have hsub : ((d'.drop c.id).containers.map Container.id).Sublist (d.containers.map Container.id) := by
        rw [← hsame]
        exact filter_sublist.map _
      exact h.ids.sublist hsub
    · obtain ⟨hc₀, hne⟩ := hmem c' hc'
      obtain ⟨n, hname, hvalid, hn⟩ := h.named c' hc₀
      exact ⟨n, hname, hvalid, hkeep c' hc₀ hne n hn⟩
  cases purgeFails with
  | true => exact hdrop d rfl fun _ _ _ _ hn => hn
  | false =>
    apply hdrop { d with graph := d.graph.purge c.id } rfl
    intro c' _ hne n hn
    refine child_keep.mpr ⟨hn, ?_⟩
    simpa using ⟨hne, (ne_rootID (h.valid c hc)).symm⟩

theorem containerRm_consistent (h : Consistent d) {name : Str} {force purgeFails : Bool} {fate : Fate}
    (hfresh : fate = .failed → force ∨ purgeFails) :
    Consistent (containerRm name force purgeFails fate d).2 := by
  unfold containerRm
  split
  · exact h
  next c hget =>
    have hpurge := purge_consistent h (mem_of_get hget) purgeFails
    cases fate with
    | refused => exact h
    | removed => exact hpurge
    | failed =>
      cases force with
      | true => exact hpurge
      | false =>
        have hfails : purgeFails := (hfresh rfl).resolve_left nofun
        subst hfails
        exact h

end Requests

/-! ## Whole runs -/

theorem serve_consistent (d : Daemon) (r : Request) (d' : Daemon) (h : Consistent d) (hfresh : Fresh d r)
    (hserve : d.serve r = some d') : Consistent d' := by
  cases r with
  | create id names name =>
    cases hserve
    apply newContainer_consistent h id.2 _ hfresh
    intro n hn
    obtain ⟨n', -, rfl⟩ := mem_map.mp hn
    exact n'.2
  | rename oldName newName deleteFails toDiskFails =>
    cases hserve
    exact containerRename_consistent h hfresh deleteFails toDiskFails
  | remove name force purgeFails fate =>
    cases hserve
    exact containerRm_consistent h hfresh

/-- A name that `reserveName` returns belongs to the id exactly when it was not a leftover. As long as no
leftover name is asked for, and no removal fails for good after its purge, names are unique and every
container is found by its own. -/
theorem names_of_run (d : Daemon) :
    (∀ id name n d', reserveName id name d = (.ok n, d') → (d'.graph.get n = some id ↔ ¬ d.Leftover name)) ∧
    (Consistent d → ∀ rs d', Along Daemon.serve Fresh d rs → exec Daemon.serve d rs = some d' → Named d') := by
  constructor
  · intro id name n d' h
    obtain ⟨rfl, hvalid, -, hgiven | ⟨hleft, hnone, -⟩⟩ := reserveName_ok h
    · have hs := simple_of_valid hvalid
      refine ⟨fun _ hleft => ?_, fun _ => hgiven.get⟩
      obtain ⟨e, he, -⟩ := (leftover_iff hs).mp hleft
      rw [hgiven.free] at he
      cases he
    · rw [get_simple (simple_of_valid hvalid), hnone]
      exact ⟨nofun, absurd hleft⟩
  · intro hd rs d' hfresh hexec
    exact (exec_inv serve_consistent hd hfresh hexec).named_ok

/-- The ids of two containers. -/
def idOf (c : Char) (h : validID (replicate 64 c) = true) : { i : Str // validID i = true } :=
  ⟨replicate 64 c, h⟩

/-- A daemon without containers, whose graph has a name left over. -/
def leftoverDaemon : Daemon where
  graph := ⟨[⟨rootID, "web".toList, replicate 64 'f'⟩], by decide⟩
  containers := []
  idIndex := []
  layers := []

/-- A creation and a rename. -/
def createAndRename : List Request :=
  [.create (idOf 'a' (by decide)) [] "db".toList, .rename "db".toList "app".toList false false]

theorem names_of_run_rename : ∃ d', exec Daemon.serve leftoverDaemon createAndRename = some d' ∧ Named d' :=
  ⟨_, rfl, (names_of_run leftoverDaemon).2 ⟨by decide, nofun, nofun⟩ createAndRename _ (by decide +kernel) rfl⟩

/-- Two creations of the leftover name succeed, the first one without the name in the graph. -/
theorem two_of_one_name :
    Consistent leftoverDaemon ∧
      (reserveName (replicate 64 'a') "web".toList leftoverDaemon).1 = .ok "/web".toList ∧
      (reserveName (replicate 64 'a') "web".toList leftoverDaemon).2.graph.get "/web".toList = none ∧
      ∃ d', exec Daemon.serve leftoverDaemon
        [.create (idOf 'a' (by decide)) [] "web".toList, .create (idOf 'b' (by decide)) [] "web".toList] =
          some d' ∧ ¬ Named d' := by
  refine ⟨⟨by decide, nofun, nofun⟩, by decide +kernel, by decide +kernel, _, rfl, fun h => ?_⟩
  have heq := h.unique ⟨replicate 64 'b', "/web".toList⟩ (by decide +kernel)
    ⟨replicate 64 'a', "/web".toList⟩ (by decide +kernel) rfl
  revert heq
  decide

end DockerEngine.Containers
