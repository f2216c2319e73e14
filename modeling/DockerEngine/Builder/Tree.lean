import DockerEngine.Builder.Dockerfile
import DockerEngine.Builder.ShellWord

/-!
# The parsed tree and its evaluation

`Node.Dump` and `builder.dispatch` follow the pointers of a parsed tree without looking if they are nil. Here a
nil pointer that is followed, or an index out of range, is the result `none`.

The only node with children is the root and the argument of `ONBUILD`, whose one child is what `parseLine` makes
of the rest of the line. That is nil if the rest is a comment, or ends in a continuation (`Hollow`). A tree is
safe to follow exactly if no line of its text is hollow (`sound_iff`). The evaluators that `dispatch` calls are not
modelled here, only what they are called with.
-/

namespace DockerEngine.Builder

open Bytes Outcome List Option

/-! ## Following a tree -/

mutual

/-- The value of a node, and those of the nodes that follow. -/
def valuesFrom : Node → List Bytes
  | .mk v next _ _ _ _ => v :: values next
termination_by structural n => n

/-- The values of the nodes that follow. -/
def values : Option Node → List Bytes
  | none => []
  | some n => valuesFrom n
termination_by structural o => o

end

/-- The arguments of an instruction. -/
def Node.args (node : Node) : List Bytes := values node.next

theorem values_chain (vs : List Bytes) : values (chain vs) = vs := by
  induction vs with
  | nil => rfl
  | cons v vs ih => rw [chain, values, valuesFrom, ih]

/-- `fmt.Sprintf(" %q", flags)`, for flags that there are. -/
def dumpFlags (go : Go) (flags : List Bytes) : Bytes :=
  if flags = [] then [] else text " [" ++ (text " ").intercalate (flags.map go.quote) ++ text "]"

mutual

/-- `Node.Dump`. -/
def dump (go : Go) : Node → Option Bytes
  | .mk value next children _ _ flags => do
    let cs ← dumpChildren go children
    let ns ← dumpNext go next
    return trimSpace (value ++ dumpFlags go flags ++ cs ++ ns)
termination_by structural n => n

/-- The loop over the children. -/
def dumpChildren (go : Go) : List (Option Node) → Option Bytes
  | [] => some []
  | none :: _ => none
  | some n :: cs => do
    let d ← dump go n
    let ds ← dumpChildren go cs
    return text "(" ++ d ++ text ")\n" ++ ds
termination_by structural cs => cs

/-- The loop over the nodes that follow. -/
def dumpNext (go : Go) : Option Node → Option Bytes
  | none => some []
  | some (.mk v next children json original flags) => do
    let d ← if children.isEmpty then some (go.quote v) else dump go (.mk v next children json original flags)
    let ds ← dumpNext go next
    return text " " ++ d ++ ds
termination_by structural o => o

end

inductive DispatchErr where
  /-- "ONBUILD requires at least one argument" -/
  | onbuildArguments
  /-- An error of `ProcessWord`. -/
  | word (e : WordErr)
  /-- "Unknown instruction: %s" -/
  | unknown (name : Bytes)
  deriving DecidableEq, Repr

/-- What an evaluator is called with, and the message printed before. -/
structure Call where
  cmd : Bytes
  args : List Bytes
  flags : List Bytes
  json : Bool
  original : Bytes
  message : Bytes
  deriving DecidableEq, Repr

/-- The instructions whose words are expanded: `replaceEnvAllowed`. -/
def replaceEnvAllowed : List Bytes := ["env", "label", "add", "copy", "workdir", "expose", "volume", "user"].map text

/-- The instructions of `evaluateTable`. -/
def evaluateTable : List Bytes :=
  ["env", "label", "maintainer", "add", "copy", "from", "onbuild", "workdir", "run", "cmd", "entrypoint",
    "expose", "volume", "user"].map text

/-- The words of an instruction, each expanded in the environment before it. -/
def expand (env : List Bytes) (cmd : Bytes) (words : List Bytes) : Except WordErr (List Bytes) :=
  words.mapM fun w => if cmd ∈ replaceEnvAllowed then processWord w env else .ok w

/-- Flags as they are printed. -/
def showFlags (flags : List Bytes) : Bytes :=
  if flags = [] then [] else text " " ++ (text " ").intercalate flags

/-- The second half of `dispatch`: the words behind `sub` are expanded, and the evaluator called. -/
def evaluate (go : Go) (env : List Bytes) (ast sub : Node) (strs : List Bytes) (msg : Bytes) :
    Except DispatchErr Call :=
  match expand env ast.value sub.args with
  | .error e => .error (.word e)
  | .ok words =>
    if ast.value ∈ evaluateTable then
      .ok ⟨ast.value, strs ++ words, ast.flags, ast.json, ast.original,
        msg ++ text " " ++ (text " ").intercalate sub.args⟩
    else .error (.unknown (go.toUpper ast.value))

/-- `dispatch`. -/
def dispatch (go : Go) (env : List Bytes) (stepN : Nat) (ast : Node) : Option (Except DispatchErr Call) :=
  let msg := text "Step " ++ text (toString stepN) ++ text " : " ++ go.toUpper ast.value ++ showFlags ast.flags
  if ast.value = text "onbuild" then
    match ast.next with
    | none => some (.error .onbuildArguments)
    | some next =>
      match next.children with
      | some sub :: _ =>
        some (evaluate go env ast sub [sub.value] (msg ++ text " " ++ sub.value ++ showFlags sub.flags))
      | _ => none
  else some (evaluate go env ast ast [] msg)

/-! ## Nodes that are reached -/

/-- The second node is reached from the first through `Next` and `Children`. -/
inductive Reaches : Node → Node → Prop where
  | refl (n : Node) : Reaches n n
  | next {n m k : Node} : n.next = some m → Reaches m k → Reaches n k
  | child {n m k : Node} : some m ∈ n.children → Reaches m k → Reaches n k

/-- A property of every node that is reached. -/
def Everywhere (P : Node → Prop) (n : Node) : Prop := ∀ m, Reaches n m → P m

variable {P : Node → Prop} {n : Node}

theorem everywhere_iff : Everywhere P n ↔ P n ∧ (∀ m, n.next = some m → Everywhere P m) ∧
      ∀ m, some m ∈ n.children → Everywhere P m := by
  constructor
  · intro h
    exact ⟨h n (.refl n), fun m hm k hk => h k (.next hm hk), fun m hm k hk => h k (.child hm hk)⟩
  rintro ⟨hn, hnext, hchild⟩ m hm
  cases hm with
  | refl => exact hn
  | next hm hk => exact hnext _ hm _ hk
  | child hm hk => exact hchild _ hm _ hk

/-- No child of the node is nil. -/
def Filled (n : Node) : Prop := none ∉ n.children

/-- An instruction of names and values has them in pairs. -/
def EvenArgs (n : Node) : Prop := n.value = text "env" ∨ n.value = text "label" → n.args.length % 2 = 0

/-- The children of a node are instructions with their arguments in pairs. -/
def Paired (n : Node) : Prop := ∀ c, some c ∈ n.children → EvenArgs c

/-- Nodes without children have every property of children. -/
theorem everywhere_chain (h : ∀ n : Node, n.children = [] → P n) (vs : List Bytes)
    (n : Node) (hn : chain vs = some n) : Everywhere P n := by
  induction vs generalizing n with
  | nil => cases hn
  | cons v vs ih =>
    cases hn
    refine everywhere_iff.mpr ⟨h _ rfl, ih, ?_⟩
    intro m hm
    cases hm

theorem filled_of_no_children (h : n.children = []) : Filled n := by
  rw [Filled, h]
  exact not_mem_nil

theorem paired_of_no_children (h : n.children = []) : Paired n := by
  intro c hc
  rw [h] at hc
  cases hc

mutual

theorem dump_isSome (go : Go) : (n : Node) → Everywhere Filled n → (dump go n).isSome
  | .mk value next children json original flags, h => by
    obtain ⟨hfilled, hnext, hchild⟩ := everywhere_iff.mp h
    obtain ⟨cs, hcs⟩ := isSome_iff_exists.mp (dumpChildren_isSome go children hfilled hchild)
    obtain ⟨ns, hns⟩ := isSome_iff_exists.mp (dumpNext_isSome go next hnext)
    rw [dump, hcs, hns]
    rfl
termination_by structural n => n

theorem dumpChildren_isSome (go : Go) : (cs : List (Option Node)) → none ∉ cs →
    (∀ m, some m ∈ cs → Everywhere Filled m) → (dumpChildren go cs).isSome
  | [], _, _ => by rw [dumpChildren]; rfl
  | none :: _, h, _ => (h mem_cons_self).elim
  | some n :: cs, h, hall => by
    obtain ⟨d, hd⟩ := isSome_iff_exists.mp (dump_isSome go n (hall n mem_cons_self))
    obtain ⟨ds, hds⟩ := isSome_iff_exists.mp
      (dumpChildren_isSome go cs (fun hc => h (mem_cons_of_mem _ hc)) fun m hm => hall m (mem_cons_of_mem _ hm))
    rw [dumpChildren, hd, hds]
    rfl
termination_by structural cs => cs

theorem dumpNext_isSome (go : Go) : (o : Option Node) → (∀ m, o = some m → Everywhere Filled m) →
    (dumpNext go o).isSome
  | none, _ => by rw [dumpNext]; rfl
  | some (.mk v next children json original flags), h => by
    have hn := h _ rfl
    obtain ⟨d, hd⟩ := isSome_iff_exists.mp (dump_isSome go (.mk v next children json original flags) hn)
    obtain ⟨ds, hds⟩ := isSome_iff_exists.mp (dumpNext_isSome go next (everywhere_iff.mp hn).2.1)
    rw [dumpNext, hd, hds]
    split <;> rfl
termination_by structural o => o

end

/-! ## Hollow lines -/

/-- A line of `ONBUILD` whose instruction, or the instruction in that, is a comment or continued. -/
inductive Hollow (go : Go) : Bytes → Prop where
  | here {line : Bytes} : (splitCommand go line).cmd = text "onbuild" → (splitCommand go line).args ≠ [] →
      ¬ Waiting (splitCommand go line).args ∨ continued (splitCommand go line).args = true →
      Hollow go line
  | under {line : Bytes} : (splitCommand go line).cmd = text "onbuild" → (splitCommand go line).args ≠ [] →
      Hollow go (splitCommand go line).args → Hollow go line

variable {go : Go} {line : Bytes}

theorem not_hollow_of_cmd (h : (splitCommand go line).cmd ≠ text "onbuild") : ¬ Hollow go line := by
  intro hh
  cases hh with
  | here hc => exact h hc
  | under hc => exact h hc

/-- A line of `ONBUILD` is as hollow as its instruction, if that is complete. -/
theorem Hollow.of_complete (hw : Waiting (splitCommand go line).args)
    (hk : continued (splitCommand go line).args = false) (h : Hollow go line) :
    Hollow go (splitCommand go line).args := by
  cases h with
  | here _ _ hhere =>
    rcases hhere with hnw | hc
    · exact (hnw hw).elim
    · rw [hk] at hc
      cases hc
  | under _ _ hsub => exact hsub

/-- What holds of the node of a line. -/
structure Fits (go : Go) (line : Bytes) (node : Node) : Prop where
  paired : Everywhere Paired node
  filled : Everywhere Filled node ↔ ¬ Hollow go line
  evenArgs : EvenArgs node
  sub : node.value = text "onbuild" → ∀ next, node.next = some next → next.children ≠ []

/-- What holds of the result of `parseLine`. -/
def ChildFits (go : Go) (line : Bytes) : Option Node → Prop
  | none => ¬ Waiting line ∨ continued line = true
  | some node => Waiting line ∧ continued line = false ∧ Fits go line node

variable {json : Bool}

/-- The node of an instruction with plain arguments. -/
theorem fits_of_arguments {next : Option Node}
    (hollow : ¬ Hollow go line) (hsub : (splitCommand go line).cmd = text "onbuild" → next = none)
    (h : IsArguments (splitCommand go line).cmd next) :
    Fits go line (.mk (splitCommand go line).cmd next [] json line (splitCommand go line).flags) := by
  obtain ⟨vs, rfl, heven⟩ := h
  have hall : ∀ P : Node → Prop, (∀ n : Node, n.children = [] → P n) → Everywhere P
      (.mk (splitCommand go line).cmd (chain vs) [] json line (splitCommand go line).flags) := by
    intro P hP
    refine everywhere_iff.mpr ⟨hP _ rfl, everywhere_chain hP vs, ?_⟩
    intro m hm
    cases hm
  refine ⟨hall Paired fun _ => paired_of_no_children, ?_, ?_, ?_⟩
  · exact iff_of_true (hall Filled fun _ => filled_of_no_children) hollow
  · intro hv
    rw [Node.args, Node.next, values_chain]
    exact heven hv
  · intro hc next hnext
    rw [Node.next, hsub hc] at hnext
    cases hnext

variable {child : Option Node}

/-- The node of `ONBUILD` and its argument have the property, and so has the tree of its child. -/
theorem everywhere_onbuild {cmd : Bytes} {flags : List Bytes} (h : ∀ n : Node, n.children = [] → P n) :
    Everywhere P (.mk cmd (some (.mk [] none [child] false [] [])) [] json line flags) ↔
      P (.mk [] none [child] false [] []) ∧ ∀ m, child = some m → Everywhere P m := by
  rw [everywhere_iff]
  constructor
  · rintro ⟨_, hnext, _⟩
    obtain ⟨hinner, _, hchild⟩ := everywhere_iff.mp (hnext _ rfl)
    exact ⟨hinner, fun m hm => hchild m (by simp [Node.children, hm])⟩
  · rintro ⟨hinner, hchild⟩
    refine ⟨h _ rfl, ?_, fun m hm => (by cases hm)⟩
    intro m hm
    cases hm
    refine everywhere_iff.mpr ⟨hinner, fun m hm => (by cases hm), fun m hm => hchild m ?_⟩
    exact (mem_singleton.mp hm).symm

/-- The node of `ONBUILD`, from what its instruction was parsed to. -/
theorem fits_of_child (hcmd : (splitCommand go line).cmd = text "onbuild") (hargs : (splitCommand go line).args ≠ [])
    (h : ChildFits go (splitCommand go line).args child) :
    Fits go line (.mk (splitCommand go line).cmd (some (.mk [] none [child] false [] [])) [] json line
      (splitCommand go line).flags) := by
  refine ⟨(everywhere_onbuild fun _ => paired_of_no_children).mpr ⟨?_, ?_⟩, ?_, ?_, ?_⟩
  · intro c hc
    rw [← mem_singleton.mp hc] at h
    exact h.2.2.evenArgs
  · rintro m rfl
    exact h.2.2.paired
  · rw [everywhere_onbuild fun _ => filled_of_no_children]
    cases child with
    | none =>
      refine iff_of_false (fun hf => hf.1 mem_cons_self) ?_
      exact fun hh => hh (.here hcmd hargs h)
    | some node =>
      obtain ⟨hw, hk, hfits⟩ := h
      have hinner : Filled (.mk [] none [some node] false [] []) := by
        intro hn
        cases mem_singleton.mp hn
      rw [and_iff_right hinner]
      constructor
      · intro hnode hline
        exact hfits.filled.mp (hnode node rfl) (hline.of_complete hw hk)
      · rintro hline m ⟨⟩
        exact hfits.filled.mpr fun hsub => hline (.under hcmd hargs hsub)
  · intro hv
    have hne : (splitCommand go line).cmd ≠ text "env" ∧ (splitCommand go line).cmd ≠ text "label" := by
      rw [hcmd]
      decide
    exact (hv.elim hne.1 hne.2).elim
  · rintro _ next ⟨⟩
    exact cons_ne_nil _ _

variable {node : Node}

/-- The node of a line, from what the parser of the instruction of `ONBUILD` returns. -/
theorem parseNode_fits {parse : Bytes → Except ParseErr (Bytes × Option Node)}
    (hparse : ∀ rest child, parse (splitCommand go line).args = .ok (rest, child) →
      ChildFits go (splitCommand go line).args child)
    (h : parseNode go parse line = .ok node) : Fits go line node := by
  obtain ⟨⟨next, json⟩, hp, rfl⟩ := map_eq_ok h
  by_cases hcmd : (splitCommand go line).cmd = text "onbuild"
  · rw [fullDispatch, if_pos hcmd, parseSubCommand] at hp
    split at hp
    next hargs =>
      cases hp
      have hollow : ¬ Hollow go line := by
        intro hh
        cases hh with
        | here _ hne => exact hne hargs
        | under _ hne => exact hne hargs
      exact fits_of_arguments hollow (fun _ => rfl) ⟨[], rfl, fun _ => rfl⟩
    next hargs =>
      obtain ⟨⟨rest, child⟩, hc, hpair⟩ := map_eq_ok hp
      cases hpair
      exact fits_of_child hcmd hargs (hparse rest child hc)
  · exact fits_of_arguments (not_hollow_of_cmd hcmd) (fun hc => (hcmd hc).elim)
      ((fullDispatch_delivers go parse _ hcmd).1 _ hp)

theorem parseLineIn_fits (go : Go) (n : Nat) {rest : Bytes}
    (h : parseLineIn go n line = .ok (rest, child)) : ChildFits go line child := by
  induction n generalizing line rest child with
  | zero => cases h
  | succ n ih =>
    rw [parseLineIn] at h
    split at h
    next hc =>
      cases h
      exact .inl fun hw => hw hc
    next hc =>
      split at h
      next hk =>
        cases h
        exact .inr hk
      next hk =>
        obtain ⟨node, hnode, hpair⟩ := map_eq_ok h
        cases hpair
        exact ⟨hc, Bool.eq_false_iff.mpr hk, parseNode_fits (fun _ _ => ih) hnode⟩

/-! ## Safe trees -/

/-- An evaluator of names and values is called with pairs. -/
def EvenCall (call : Call) : Prop := call.cmd = text "env" ∨ call.cmd = text "label" → call.args.length % 2 = 0

/-- A tree that can be dumped and dispatched: nothing that is followed is nil, and names have values. -/
structure Sound (go : Go) (root : Node) : Prop where
  filled : ∀ m, Reaches root m → none ∉ m.children
  paired : ∀ m, Reaches root m → ∀ c, some c ∈ m.children →
    c.value = text "env" ∨ c.value = text "label" → c.args.length % 2 = 0
  dumps : ∃ out, dump go root = some out
  dispatches : ∀ c ∈ root.children, ∃ node, c = some node ∧ ∀ env stepN, ∃ r,
    dispatch go env stepN node = some r ∧ ∀ call, r = .ok call → EvenCall call

/-- What an evaluator is called with. -/
theorem evaluate_call {env : List Bytes} {ast sub : Node} {strs : List Bytes} {msg : Bytes}
    {call : Call} (h : evaluate go env ast sub strs msg = .ok call) :
    call.cmd = ast.value ∧ ∃ words, expand env ast.value sub.args = .ok words ∧ call.args = strs ++ words := by
  rw [evaluate] at h
  split at h
  · cases h
  next words hwords =>
    split at h
    · cases h
      exact ⟨rfl, words, hwords, rfl⟩
    · cases h

/-- A node whose children are not nil can be dispatched. -/
theorem Fits.dispatches (h : Fits go line node) (hf : Everywhere Filled node) (env : List Bytes) (stepN : Nat) :
    ∃ r, dispatch go env stepN node = some r ∧ ∀ call, r = .ok call → EvenCall call := by
  by_cases hcmd : node.value = text "onbuild"
  · -- what is called is the evaluator of `ONBUILD`
    have hcall : ∀ call : Call, call.cmd = node.value → EvenCall call := by
      intro call hc hv
      rw [hc, hcmd] at hv
      exact absurd hv (by decide)
    simp only [dispatch, if_pos hcmd]
    cases hnext : node.next with
    | none => exact ⟨_, rfl, fun call hc => nomatch hc⟩
    | some next =>
      have hfilled : Filled next := (everywhere_iff.mp hf).2.1 next hnext next (.refl next)
      obtain ⟨c, cs, hcs⟩ := exists_cons_of_ne_nil (h.sub hcmd next hnext)
      rw [Filled, hcs] at hfilled
      cases c with
      | none => exact (hfilled mem_cons_self).elim
      | some sub =>
        simp only [hcs]
        exact ⟨_, rfl, fun call hc => hcall call (evaluate_call hc).1⟩
  · simp only [dispatch, if_neg hcmd]
    refine ⟨_, rfl, fun call hc hv => ?_⟩
    obtain ⟨hvalue, words, hwords, hargs⟩ := evaluate_call hc
    rw [hargs, nil_append, ← (mapM_eq_ok hwords).length_eq]
    rw [hvalue] at hv
    exact h.evenArgs hv

variable {ls : List Bytes} {nodes : List Node}

/-- The nodes of lines are filled exactly if no line is hollow. -/
theorem filled_iff_of_fits (h : List.Forall₂ (Fits go) ls nodes) :
    (∀ n ∈ nodes, Everywhere Filled n) ↔ ∀ l ∈ ls, ¬ Hollow go l := by
  induction h with
  | nil => simp
  | cons hfits _ ih => rw [forall_mem_cons, forall_mem_cons, hfits.filled, ih]

theorem exists_line_of_fits (h : List.Forall₂ (Fits go) ls nodes) (hn : n ∈ nodes) : ∃ l, Fits go l n := by
  induction h with
  | nil => cases hn
  | cons hfits _ ih =>
    rcases mem_cons.mp hn with rfl | hn
    · exact ⟨_, hfits⟩
    · exact ih hn

/-- A parsed tree can be followed exactly if none of the lines it was made of is hollow. -/
theorem sound_iff (go : Go) (s : Bytes) (root : Node) (h : parse go s = .ok root) :
    Sound go root ↔ ∀ l ∈ complete (logicalLines (scanLines s)), ¬ Hollow go l := by
  obtain ⟨nodes, hnodes, rfl⟩ := parse_children h
  have hfits := (mapM_eq_ok hnodes).imp fun l _ => parseNode_fits fun _ _ => parseLineIn_fits go l.length
  have hmem : ∀ m : Node, some m ∈ nodes.map some ↔ m ∈ nodes := by simp
  rw [← filled_iff_of_fits hfits]
  constructor
  · intro hsound n hn m hm
    exact hsound.filled m (.child ((hmem n).mpr hn) hm)
  intro hall
  have hfilled : Everywhere Filled (.mk [] none (nodes.map some) false [] []) := by
    refine everywhere_iff.mpr ⟨?_, fun m hm => (by cases hm), fun m hm => hall m ((hmem m).mp hm)⟩
    simp [Filled, Node.children]
  have hpaired : Everywhere Paired (.mk [] none (nodes.map some) false [] []) := by
    refine everywhere_iff.mpr ⟨?_, fun m hm => (by cases hm), ?_⟩
    · intro c hc
      obtain ⟨l, hl⟩ := exists_line_of_fits hfits ((hmem c).mp hc)
      exact hl.evenArgs
    · intro m hm
      obtain ⟨l, hl⟩ := exists_line_of_fits hfits ((hmem m).mp hm)
      exact hl.paired
  refine ⟨hfilled, hpaired, isSome_iff_exists.mp (dump_isSome go _ hfilled), ?_⟩
  intro c hc
  obtain ⟨node, hnode, rfl⟩ := mem_map.mp hc
  obtain ⟨l, hl⟩ := exists_line_of_fits hfits hnode
  exact ⟨node, rfl, hl.dispatches (hall node hnode)⟩

/-- A text with an instruction in `ONBUILD`. -/
def triggered : Bytes := text "FROM a\nENV x=1 y=2\nONBUILD RUN b"

theorem sound_triggered : ∃ root, parse plainGo triggered = .ok root ∧ Sound plainGo root := by
  have hok : (parse plainGo triggered).isOk = true := by decide +kernel
  have hlines : complete (logicalLines (scanLines triggered)) =
      [text "FROM a", text "ENV x=1 y=2", text "ONBUILD RUN b"] := by decide +kernel
  have hargs : (splitCommand plainGo (text "ONBUILD RUN b")).args = text "RUN b" := by decide +kernel
  obtain ⟨root, h⟩ := exists_of_isOk hok
  refine ⟨root, h, (sound_iff plainGo triggered root h).mpr ?_⟩
  rw [hlines]
  simp only [forall_mem_cons, not_mem_nil, false_implies, implies_true, and_true]
  refine ⟨not_hollow_of_cmd (by decide +kernel), not_hollow_of_cmd (by decide +kernel), fun hh => ?_⟩
  have hsub := hh.of_complete (by rw [hargs, Waiting]; decide +kernel) (by decide +kernel)
  rw [hargs] at hsub
  exact not_hollow_of_cmd (by decide +kernel) hsub

/-- A comment in `ONBUILD`: neither the tree nor its instruction can be followed. -/
theorem hollow_onbuild :
    ((parse plainGo (text "ONBUILD #x")).map fun root =>
      (dump plainGo root, root.children.map fun c => c.map fun n => (dispatch plainGo [] 0 n).isSome)) =
        .ok (none, [some false]) := by
  decide +kernel

end DockerEngine.Builder
