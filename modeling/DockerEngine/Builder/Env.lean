import DockerEngine.Builder.Assign
import DockerEngine.Builder.Tree
import DockerEngine.Lib.Trace

/-!
# The environment of a build

The evaluator of `ENV` keeps the environment as a list of entries `name=value`, and `ProcessWord` reads it. An
assignment replaces the first entry with its name, or appends one. The words of an instruction are expanded before
the first of its assignments is made, and its names are expanded like its values.

As long as no name that is assigned has an equals sign, the environment is a function: names stay distinct, and a
name has the value that was assigned to it last (`env_function`). An equals sign can come into a name from the
value of a variable. The entry then has another name than the one that was looked for, and a second entry of
that name may be made.
-/

namespace DockerEngine.Builder

open Bytes Outcome List Trace

/-! ## The evaluator -/

/-- `strings.SplitN(e, "=", 2)[0]`. -/
def nameOf (e : Bytes) : Bytes :=
  match cut (ch '=') e with
  | none => e
  | some p => p.1

/-- The value of an entry, as `getEnv` reads it. -/
def valueOf (e : Bytes) : Bytes :=
  match cut (ch '=') e with
  | none => []
  | some p => p.2

/-- One assignment: the first entry with the name is replaced, or an entry is appended. -/
def setEnv (name value : Bytes) : List Bytes → List Bytes
  | [] => [name ++ ch '=' :: value]
  | e :: es => if nameOf e = name then (name ++ ch '=' :: value) :: es else e :: setEnv name value es

/-- Arguments as pairs of names and values. -/
def pairsOf : List Bytes → List (Bytes × Bytes)
  | name :: value :: rest => (name, value) :: pairsOf rest
  | _ => []

/-- The assignments of an instruction, one after the other. -/
def setAll (ps : List (Bytes × Bytes)) (env : List Bytes) : List Bytes :=
  ps.foldl (fun env p => setEnv p.1 p.2 env) env

inductive EnvErr where
  /-- "ENV requires at least one argument" -/
  | noArguments
  /-- "Bad input to ENV, too many args" -/
  | tooMany
  /-- "Arg should start with -- : %s" -/
  | notFlag (arg : Bytes)
  /-- "Unknown flag: %s" -/
  | unknownFlag (name : Bytes)
  /-- The layer could not be committed. -/
  | commit
  deriving DecidableEq, Repr

/-- `BFlags.Parse` for an instruction that has no flags. -/
def parseFlags : List Bytes → Except EnvErr Unit
  | [] => .ok ()
  | arg :: _ =>
    if (text "--").isPrefixOf arg then
      if arg = text "--" then .ok () else .error (.unknownFlag (nameOf (arg.drop 2)))
    else .error (.notFlag arg)

/-- The evaluator `env`; `commits` says if the layer can be committed. -/
def evalEnv (call : Call) (commits : Bool) (env : List Bytes) : Except EnvErr (List Bytes) :=
  if call.args = [] then .error .noArguments
  else if call.args.length % 2 ≠ 0 then .error .tooMany
  else
    match parseFlags call.flags with
    | .error e => .error e
    | .ok () => if commits then .ok (setAll (pairsOf call.args) env) else .error .commit

/-- An `ENV` instruction of a Dockerfile: its number, its line, and if its layer can be committed. -/
structure EnvLine where
  stepN : Nat
  line : Bytes
  commits : Bool

/-- What the evaluator is called with, if the line is an `ENV` instruction that parses and is dispatched. -/
def envCall (go : Go) (env : List Bytes) (i : EnvLine) : Option Call :=
  match instruction go i.line with
  | .error _ => none
  | .ok node =>
    if node.value = text "env" then
      match dispatch go env i.stepN node with
      | some (.ok call) => some call
      | _ => none
    else none

/-- The environment after an instruction, if it is made without an error. -/
def envStep (go : Go) (env : List Bytes) (i : EnvLine) : Option (List Bytes) :=
  match envCall go env i with
  | none => none
  | some call => (evalEnv call i.commits env).toOption

/-! ## Assignments -/

variable {name : Bytes}

theorem nameOf_assignment (h : ch '=' ∉ name) (v : Bytes) : nameOf (name ++ ch '=' :: v) = name := by
  rw [nameOf, cut_append h]

theorem valueOf_assignment (h : ch '=' ∉ name) (v : Bytes) : valueOf (name ++ ch '=' :: v) = v := by
  rw [valueOf, cut_append h]

theorem getEnv_cons (name e : Bytes) (es : List Bytes) :
    getEnv name (e :: es) = if name = nameOf e then valueOf e else getEnv name es := by
  rw [getEnv, nameOf, valueOf]
  cases cut (ch '=') e <;> rfl

/-- An assignment leaves the names as they are, or adds one that was not there. -/
theorem names_setEnv (h : ch '=' ∉ name) (v : Bytes) (env : List Bytes) : (setEnv name v env).map nameOf =
      if name ∈ env.map nameOf then env.map nameOf else env.map nameOf ++ [name] := by
  induction env with
  | nil =>
    rw [setEnv, map_singleton, nameOf_assignment h]
    simp
  | cons e es ih =>
    rw [setEnv]
    by_cases he : nameOf e = name
    · rw [if_pos he, map_cons, nameOf_assignment h, map_cons, he, if_pos mem_cons_self]
    rw [if_neg he, map_cons, ih, map_cons]
    by_cases hm : name ∈ es.map nameOf
    · rw [if_pos hm, if_pos (mem_cons_of_mem _ hm)]
    · rw [if_neg hm, if_neg (by simp [Ne.symm he, hm])]
      rfl

variable {env : List Bytes}

/-- The value of a name after an assignment. -/
theorem getEnv_setEnv (h : ch '=' ∉ name) (v m : Bytes) (env : List Bytes) :
    getEnv m (setEnv name v env) = if name = m then v else getEnv m env := by
  induction env with
  | nil =>
    rw [setEnv, getEnv_cons, nameOf_assignment h, valueOf_assignment h]
    simp only [eq_comm]
  | cons e es ih =>
    rw [setEnv]
    by_cases he : nameOf e = name
    · rw [if_pos he, getEnv_cons, nameOf_assignment h, valueOf_assignment h, getEnv_cons, he]
      by_cases hm : name = m
      · rw [if_pos hm.symm, if_pos hm]
      · rw [if_neg (Ne.symm hm), if_neg hm, if_neg (Ne.symm hm)]
    · rw [if_neg he, getEnv_cons, getEnv_cons, ih]
      by_cases hm : name = m
      · rw [if_pos hm, if_pos hm, if_neg (fun hme => he (hme.symm.trans hm.symm))]
      · rw [if_neg hm, if_neg hm]

/-- The value that was assigned last, or the one from before. -/
def latest (m : Bytes) (before : Bytes) (ps : List (Bytes × Bytes)) : Bytes :=
  ps.foldl (fun v p => if p.1 = m then p.2 else v) before

variable {ps : List (Bytes × Bytes)}

theorem nodup_setAll (h : ∀ p ∈ ps, ch '=' ∉ p.1)
    (henv : (env.map nameOf).Nodup) : ((setAll ps env).map nameOf).Nodup := by
  induction ps generalizing env with
  | nil => exact henv
  | cons p ps ih =>
    refine ih (forall_mem_cons.mp h).2 ?_
    rw [names_setEnv (h p mem_cons_self)]
    split
    · exact henv
    next hm =>
      refine nodup_append.mpr ⟨henv, by simp, ?_⟩
      intro a ha b hb hab
      rw [hab, mem_singleton.mp hb] at ha
      exact hm ha

theorem getEnv_setAll (h : ∀ p ∈ ps, ch '=' ∉ p.1) (m : Bytes) (env : List Bytes) :
    getEnv m (setAll ps env) = latest m (getEnv m env) ps := by
  induction ps generalizing env with
  | nil => rfl
  | cons p ps ih =>
    have hrest := ih (forall_mem_cons.mp h).2 (setEnv p.1 p.2 env)
    rw [getEnv_setEnv (h p mem_cons_self)] at hrest
    exact hrest

/-! ## Expanded names -/

/-- No variable has a value with an equals sign. -/
def PlainValues (env : List Bytes) : Prop := ∀ e ∈ env, ch '=' ∉ valueOf e

/-- A word that is expanded to a text without an equals sign: it has none, and none comes from a variable. -/
def Clean (env : List Bytes) (w : Bytes) : Prop := ch '=' ∉ w ∧ (ch '$' ∈ w → PlainValues env)

instance (env : List Bytes) : Decidable (PlainValues env) := inferInstanceAs (Decidable (∀ e ∈ env, _))

instance (env : List Bytes) (w : Bytes) : Decidable (Clean env w) := inferInstanceAs (Decidable (_ ∧ _))

theorem PlainValues.getEnv (h : PlainValues env) (name : Bytes) : ch '=' ∉ getEnv name env := by
  induction env with
  | nil => exact not_mem_nil
  | cons e es ih =>
    rw [getEnv_cons]
    split
    · exact h e mem_cons_self
    · exact ih (forall_mem_cons.mp h).2

variable {s : Bytes}

theorem Clean.mono {w : Bytes} (h : Clean env w) (hs : s ⊆ w) : Clean env s :=
  ⟨fun hm => h.1 (hs hm), fun hm => h.2 (hs hm)⟩

/-- The bytes of the encoding of another byte are not those of an equals sign. -/
theorem equals_not_mem_encode {c : UInt8} : c ≠ ch '=' → ch '=' ∉ encode c := byte_cases c (by decide +kernel)

/-- What a scanner makes of a clean text, and what it leaves. -/
def Kept (s : Bytes) (r : Except WordErr (Bytes × Bytes)) : Prop := ∀ p, r = .ok p → ch '=' ∉ p.1 ∧ p.2 ⊆ s

theorem Kept.prepend {t piece : Bytes} {r : Except WordErr (Bytes × Bytes)} (h : Kept t r) (ht : t ⊆ s)
    (hpiece : ch '=' ∉ piece) : Kept s (prepend piece r) := by
  intro p hp
  obtain ⟨q, hq, rfl⟩ := map_eq_ok hp
  obtain ⟨hr, hrest⟩ := h q hq
  refine ⟨fun hm => ?_, fun c hc => ht (hrest hc)⟩
  rcases mem_append.mp hm with hm | hm
  · exact hpiece hm
  · exact hr hm

theorem Kept.ok {r u : Bytes} (hr : ch '=' ∉ r) (hu : u ⊆ s) : Kept s (.ok (r, u)) := by
  rintro p ⟨⟩
  exact ⟨hr, hu⟩

theorem Kept.error (e : WordErr) : Kept s (.error e) := by
  intro p hp
  cases hp

/-- What is made of a text, and then of what was left of it. -/
theorem Kept.after {t : Bytes} {x : Except WordErr (Bytes × Bytes)} {f : Bytes → Except WordErr (Bytes × Bytes)}
    (ht : t ⊆ s) (hf : ∀ u, u ⊆ s → Kept u (f u)) :
    Kept t x → Kept s (match x with | .error e => .error e | .ok (r, u) => Builder.prepend r (f u)) := by
  intro h
  split
  · exact .error _
  next r u =>
    obtain ⟨hr, hu⟩ := h _ rfl
    have hsub : u ⊆ s := fun c hc => ht (hu hc)
    exact (hf u hsub).prepend hsub hr

theorem processSingleQuote_clean (h : ch '=' ∉ s) :
    ch '=' ∉ (processSingleQuote s).1 ∧ (processSingleQuote s).2 ⊆ s := by
  induction s with
  | nil => exact ⟨not_mem_nil, List.Subset.refl _⟩
  | cons c s ih =>
    obtain ⟨hr, hrest⟩ := ih fun hm => h (mem_cons_of_mem _ hm)
    have hc : c ≠ ch '=' := fun hc => h (hc ▸ mem_cons_self)
    rw [processSingleQuote]
    split
    · exact ⟨not_mem_nil, subset_cons_self c s⟩
    refine ⟨fun hm => ?_, fun d hd => mem_cons_of_mem _ (hrest hd)⟩
    rcases mem_append.mp hm with hm | hm
    · exact equals_not_mem_encode hc hm
    · exact hr hm

theorem processName_rest (s : Bytes) : (processName s).2 ⊆ s := by
  cases s with
  | nil => exact List.Subset.refl _
  | cons c s =>
    rw [processName]
    split
    · exact subset_cons_self c s
    · exact (dropWhile_suffix _).subset

mutual

variable {env : List Bytes}

theorem processStopOn_clean : (n : Nat) → (stop : Option UInt8) → (s : Bytes) →
    Clean env s → Kept s (processStopOn env n stop s)
  | 0, _, _, _ => .error _
  | _ + 1, _, [], _ => .ok not_mem_nil (List.Subset.refl _)
  | n + 1, stop, c :: s, h => by
    have hsub : s ⊆ c :: s := subset_cons_self c s
    have htail : s.tail ⊆ c :: s := fun d hd => hsub (mem_of_mem_tail hd)
    have hrest := fun t (ht : t ⊆ c :: s) => processStopOn_clean n stop t (h.mono ht)
    rw [processStopOn]
    split
    · exact .ok not_mem_nil hsub
    split
    · obtain ⟨hr, hq⟩ := processSingleQuote_clean (h.mono hsub).1
      have hquoted : (processSingleQuote s).2 ⊆ c :: s := fun d hd => hsub (hq hd)
      exact (hrest _ hquoted).prepend hquoted hr
    split
    · exact .after hsub hrest (processDoubleQuote_clean n s (h.mono hsub))
    split
    next hdollar =>
      have henv : PlainValues env := h.2 (hdollar ▸ mem_cons_self)
      exact .after hsub hrest (processDollar_clean n s (h.mono hsub) henv)
    split
    · split
      · exact fun p hp => ⟨(hrest _ htail p hp).1, fun d hd => htail ((hrest _ htail p hp).2 hd)⟩
      next hzero =>
      -- the escaped byte is one of the text
      have hhead : s.headD 0 ∈ c :: s := by
        cases s with
        | nil => exact (hzero rfl).elim
        | cons d s => simp
      exact (hrest _ htail).prepend htail (equals_not_mem_encode fun he => h.1 (he ▸ hhead))
    · exact (hrest s hsub).prepend hsub (equals_not_mem_encode fun he => h.1 (he ▸ mem_cons_self))

theorem processDoubleQuote_clean : (n : Nat) → (s : Bytes) → Clean env s → Kept s (processDoubleQuote env n s)
  | 0, _, _ => .error _
  | _ + 1, [], _ => .ok not_mem_nil (List.Subset.refl _)
  | n + 1, c :: s, h => by
    have hsub : s ⊆ c :: s := subset_cons_self c s
    have htail : s.tail ⊆ c :: s := fun d hd => hsub (mem_of_mem_tail hd)
    have hrest := fun t (ht : t ⊆ c :: s) => processDoubleQuote_clean n t (h.mono ht)
    have hc : ch '=' ∉ encode c := equals_not_mem_encode fun he => h.1 (he ▸ mem_cons_self)
    rw [processDoubleQuote]
    split
    · exact .ok not_mem_nil hsub
    split
    next hdollar =>
      have henv : PlainValues env := h.2 (hdollar ▸ mem_cons_self)
      exact .after hsub hrest (processDollar_clean n s (h.mono hsub) henv)
    split
    · split
      · exact fun p hp => ⟨(hrest _ hsub p hp).1, fun d hd => hsub ((hrest _ hsub p hp).2 hd)⟩
      split
      next hescaped =>
        refine (hrest _ htail).prepend htail (equals_not_mem_encode ?_)
        rcases hescaped with he | he <;> rw [he] <;> decide
      · exact (hrest s hsub).prepend hsub hc
    · exact (hrest s hsub).prepend hsub hc

theorem processDollar_clean : (n : Nat) → (s : Bytes) → Clean env s → PlainValues env → Kept s (processDollar env n s)
  | 0, _, _, _ => .error _
  | n + 1, [], _, _ => .ok (by decide) (List.Subset.refl _)
  | n + 1, c :: s, h, henv => by
    have hname : (processName s).2 ⊆ c :: s := fun d hd => mem_cons_of_mem _ (processName_rest s hd)
    rw [processDollar]
    split
    · split
      · exact .error _
      next d t ht =>
      have htsub : t ⊆ c :: s := fun e he => hname (ht ▸ mem_cons_of_mem _ he)
      have htail : t.tail ⊆ c :: s := fun e he => htsub (mem_of_mem_tail he)
      split
      · exact .ok (henv.getEnv _) htsub
      split
      · have hword := processStopOn_clean n (some (ch '}')) t.tail (h.mono htail)
        split
        · exact .error _
        next word u hu =>
          intro p hp
          obtain ⟨v, hv, rfl⟩ := map_eq_ok hp
          obtain ⟨hw, hrest⟩ := hword _ hu
          have hvalue := henv.getEnv (processName s).1
          have hclean : ch '=' ∉ v := by
            rw [substitute] at hv
            split_ifs at hv <;> cases hv <;> assumption
          exact ⟨hclean, fun e he => htail (hrest he)⟩
      · exact .error _
    split
    · have hdollar : ch '=' ∉ [ch '$'] := by decide
      exact .ok hdollar (processName_rest (c :: s))
    · exact .ok (henv.getEnv _) (processName_rest (c :: s))

end

/-! ## One instruction -/

theorem expand_env (env words : List Bytes) :
    expand env (text "env") words = words.mapM fun w => processWord w env := by
  have hmem : text "env" ∈ replaceEnvAllowed := by decide
  simp only [expand, if_pos hmem]

variable {go : Go}

/-- The words of an `ENV` instruction are those that `parseNameVal` finds in its arguments. -/
theorem instruction_env {line : Bytes} {node : Node} (h : instruction go line = .ok node)
    (henv : node.value = text "env") :
    nameVal (splitCommand go line).args (text "ENV") = .ok node.args := by
  obtain ⟨⟨next, json⟩, hp, rfl⟩ := map_eq_ok h
  have hcmd : (splitCommand go line).cmd = text "env" := henv
  have hne : text "env" ≠ text "onbuild" := by decide
  rw [fullDispatch, hcmd, if_neg hne, if_pos rfl] at hp
  obtain ⟨words, hwords, hpair⟩ := map_eq_ok hp
  cases hpair
  rw [hwords, Node.args, Node.next, values_chain]

/-- What an instruction does: its words are expanded in the environment before it, and then assigned. -/
def Expands (go : Go) (env : List Bytes) (i : EnvLine) (words vs : List Bytes) : Prop :=
  nameVal (splitCommand go i.line).args (text "ENV") = .ok words ∧
    (words.mapM fun w => processWord w env) = .ok vs

variable {i : EnvLine}

theorem envCall_expands {call : Call}
    (h : envCall go env i = some call) : ∃ words, Expands go env i words call.args := by
  rw [envCall] at h
  split at h
  · cases h
  next node hnode =>
  split at h
  next henv =>
    have hne : node.value ≠ text "onbuild" := by
      rw [henv]
      decide
    simp only [dispatch, if_neg hne] at h
    split at h
    next c hc =>
      cases h
      obtain ⟨_, words, hwords, hargs⟩ := evaluate_call (Option.some.inj hc)
      rw [henv, expand_env] at hwords
      rw [hargs]
      exact ⟨node.args, instruction_env hnode henv, hwords⟩
    · cases h
  · cases h

variable {env' : List Bytes}

/-- The pairs that an instruction assigns. -/
def assignedBy (go : Go) (env : List Bytes) (i : EnvLine) : List (Bytes × Bytes) :=
  match envCall go env i with
  | none => []
  | some call => pairsOf call.args

theorem envStep_cases (h : envStep go env i = some env') :
    ∃ words vs, Expands go env i words vs ∧ assignedBy go env i = pairsOf vs ∧
      env' = setAll (assignedBy go env i) env := by
  rw [envStep] at h
  split at h
  · cases h
  next call hcall =>
  have heval : evalEnv call i.commits env = .ok env' := by
    cases he : evalEnv call i.commits env with
    | error e =>
      rw [he] at h
      cases h
    | ok env'' =>
      rw [he] at h
      cases h
      rfl
  obtain ⟨words, hwords⟩ := envCall_expands hcall
  have hassigned : assignedBy go env i = pairsOf call.args := by rw [assignedBy, hcall]
  refine ⟨words, call.args, hwords, hassigned, ?_⟩
  rw [hassigned]
  rw [evalEnv] at heval
  split at heval
  · cases heval
  split at heval
  · cases heval
  split at heval
  · cases heval
  split at heval
  · cases heval
    rfl
  · cases heval

/-- A pair of expanded words comes from a pair of words. -/
theorem pairsOf_expanded {words vs : List Bytes}
    (h : words.Forall₂ (processWord · env = .ok ·) vs) {p : Bytes × Bytes} (hp : p ∈ pairsOf vs) :
    ∃ q ∈ pairsOf words, processWord q.1 env = .ok p.1 ∧ processWord q.2 env = .ok p.2 := by
  fun_induction pairsOf words generalizing vs with
  | case1 name value rest ih =>
    obtain _ | ⟨hn, _ | ⟨hv, hvs⟩⟩ := h
    rcases mem_cons.mp hp with rfl | hp
    · exact ⟨(name, value), mem_cons_self, hn, hv⟩
    · obtain ⟨q, hq, hpair⟩ := ih hvs hp
      exact ⟨q, mem_cons_of_mem _ hq, hpair⟩
  | case2 words hshort =>
    cases words with
    | nil =>
      cases h
      cases hp
    | cons w ws =>
      cases ws with
      | nil =>
        obtain _ | ⟨-, ⟨⟩⟩ := h
        cases hp
      | cons w' ws => exact (hshort w w' ws rfl).elim

/-- The names of an instruction have no equals sign, and none comes into them from a variable. -/
def CleanNames (go : Go) (env : List Bytes) (i : EnvLine) : Prop :=
  ∀ words, nameVal (splitCommand go i.line).args (text "ENV") = .ok words → ∀ p ∈ pairsOf words, Clean env p.1

instance (go : Go) (env : List Bytes) (i : EnvLine) : Decidable (CleanNames go env i) :=
  match h : nameVal (splitCommand go i.line).args (text "ENV") with
  | .error _ => .isTrue fun _ hwords => nomatch h.symm.trans hwords
  | .ok words =>
    decidable_of_iff (∀ p ∈ pairsOf words, Clean env p.1)
      ⟨fun hall _ hw => Except.ok.inj (h.symm.trans hw) ▸ hall, fun hall => hall words h⟩

theorem envStep_clean (hclean : CleanNames go env i)
    (h : envStep go env i = some env') : ∀ p ∈ assignedBy go env i, ch '=' ∉ p.1 := by
  obtain ⟨words, vs, ⟨hwords, hvs⟩, hassigned, _⟩ := envStep_cases h
  intro p hp
  rw [hassigned] at hp
  obtain ⟨q, hq, hname, _⟩ := pairsOf_expanded (mapM_eq_ok hvs) hp
  obtain ⟨r, hr, hv⟩ := map_eq_ok hname
  rw [← hv]
  exact (processStopOn_clean _ none _ (hclean words hwords q hq) r hr).1

/-! ## Runs -/

/-- All pairs that the instructions of a run assign, in order. -/
def assigned (go : Go) : List Bytes → List EnvLine → List (Bytes × Bytes)
  | _, [] => []
  | env, i :: is =>
    match envStep go env i with
    | none => []
    | some env' => assignedBy go env i ++ assigned go env' is

/-- The value of a name after a run is the one that was assigned to it last. -/
theorem getEnv_run {is : List EnvLine} (hgood : Trace.Along (envStep go) (CleanNames go) env is)
    (h : exec (envStep go) env is = some env') (m : Bytes) :
    getEnv m env' = latest m (getEnv m env) (assigned go env is) := by
  induction is generalizing env with
  | nil =>
    cases h
    rfl
  | cons i is ih =>
    obtain ⟨env₁, hi, h⟩ := exec_cons_iff.mp h
    rw [along_cons hi] at hgood
    obtain ⟨_, _, _, _, henv₁⟩ := envStep_cases hi
    have hset := getEnv_setAll (envStep_clean hgood.1 hi) m env
    rw [assigned, hi, ih hgood.2 h, henv₁, hset]
    exact foldl_append.symm

/-- As long as names are clean the environment is a function: names are distinct, a name has the value that was
assigned to it last, and each instruction is expanded in the environment before it. -/
theorem env_function (go : Go) (env env' : List Bytes) (is : List EnvLine) (hnames : (env.map nameOf).Nodup)
    (hgood : Trace.Along (envStep go) (CleanNames go) env is)
    (h : exec (envStep go) env is = some env') :
    (env'.map nameOf).Nodup ∧
      (∀ m, getEnv m env' = latest m (getEnv m env) (assigned go env is)) ∧
      Trace.Along (envStep go) (fun env i => ∃ words vs, Expands go env i words vs ∧
        envStep go env i = some (setAll (pairsOf vs) env)) env is := by
  refine ⟨?_, getEnv_run hgood h, ?_⟩
  · refine exec_inv (I := fun env => (env.map nameOf).Nodup) ?_ hnames hgood h
    intro env i env' hinv hclean hstep
    obtain ⟨_, _, _, _, rfl⟩ := envStep_cases hstep
    exact nodup_setAll (envStep_clean hclean hstep) hinv
  · refine along_of_inv (I := fun _ => True) (fun _ _ _ _ _ _ => trivial) ?_ trivial hgood
    intro env i env' _ _ hstep
    obtain ⟨words, vs, hwords, hassigned, henv⟩ := envStep_cases hstep
    rw [hassigned] at henv
    exact ⟨words, vs, hwords, by rw [hstep, henv]⟩

/-- The second instruction of the run uses what the first one has set, and the first what there was before. -/
theorem env_function_twice :
    ∃ env', exec (envStep plainGo) [text "a=0"]
        [⟨0, text "ENV a=1 b=$a", true⟩, ⟨1, text "ENV c=$b", true⟩] = some env' ∧
      (env'.map nameOf).Nodup ∧ ∀ m, getEnv m env' =
        latest m (getEnv m [text "a=0"]) [(text "a", text "1"), (text "b", text "0"), (text "c", text "0")] := by
  obtain ⟨env', henv, hassigned⟩ : ∃ env' ∈ exec (envStep plainGo) [text "a=0"]
      [⟨0, text "ENV a=1 b=$a", true⟩, ⟨1, text "ENV c=$b", true⟩],
      assigned plainGo [text "a=0"] [⟨0, text "ENV a=1 b=$a", true⟩, ⟨1, text "ENV c=$b", true⟩] =
        [(text "a", text "1"), (text "b", text "0"), (text "c", text "0")] := by
    decide +kernel
  have h := env_function plainGo [text "a=0"] env' _ (by decide +kernel) (by decide +kernel) henv
  rw [hassigned] at h
  exact ⟨env', henv, h.1, h.2.1⟩

/-- A name that is expanded to a text with an equals sign: two entries have the name `a`. -/
theorem env_two_entries :
    (([text "a=0", text "x=a=b"] : List Bytes).map nameOf).Nodup ∧
      exec (envStep plainGo) [text "a=0", text "x=a=b"] [⟨0, text "ENV $x=1", true⟩] =
        some [text "a=0", text "x=a=b", text "a=b=1"] ∧
      nameOf (text "a=b=1") = nameOf (text "a=0") := by
  decide +kernel

/-! ## Values that are set -/

/-- The pair is parsed to its name and value, and sets the name to the value, byte for byte. -/
def SetsValue (name v : Bytes) : Prop :=
  parseEnv (name ++ ch '=' :: v) = .ok (chain [name, v], false) ∧
    ∀ env, processWord v env = .ok v ∧ expand env (text "env") [name, v] = .ok [name, v] ∧
      getEnv name (setAll (pairsOf [name, v]) env) = v

/-- A value without special characters is set as it is written exactly if it is ASCII. -/
theorem setsValue_iff (name v : Bytes) (hname : ∀ c ∈ name, isNameChar c = true)
    (hv : ∀ c ∈ v, isBare c = true) : SetsValue name v ↔ ∀ c ∈ v, c < 128 := by
  have hplain : ∀ c ∈ v, isPlain c = true := fun c hc => isBare_plain (hv c hc)
  constructor
  · -- a byte outside ASCII makes the expanded value longer
    intro h c hc
    by_contra hhigh
    have hword := (h.2 []).1
    rw [processWord_text [] hplain] at hword
    have hlt := length_flatMap_encode_lt hc hhigh
    rw [Except.ok.inj hword] at hlt
    omega
  · intro hascii
    have hvalue : ∀ env, processWord v env = .ok v := by
      intro env
      rw [processWord_text env hplain, flatMap_encode_ascii hascii]
    have hnameWord : ∀ env, processWord name env = .ok name := by
      intro env
      rw [processWord_text env fun c hc => (isNameChar_ordinary (hname c hc)).2.1,
        flatMap_encode_ascii fun c hc => isNameChar_lt (hname c hc)]
    have hequals : ch '=' ∉ name := fun hm => (isNameChar_ordinary (hname _ hm)).2.2 rfl
    refine ⟨?_, fun env => ⟨hvalue env, ?_, ?_⟩⟩
    · rw [parseEnv, parseNameVal, nameVal_bare (text "ENV") hname hv hascii]
      rfl
    · rw [expand_env, mapM_cons, hnameWord, mapM_cons, hvalue]
      rfl
    · exact (getEnv_setEnv hequals v name env).trans (if_pos rfl)

theorem setsValue_path : SetsValue (text "PATH") (text "/bin:x=1") :=
  (setsValue_iff (text "PATH") (text "/bin:x=1") (by decide +kernel) (by decide +kernel)).mpr (by decide +kernel)

/-- The letter with the encoding C3 A9: each of its bytes is written as a letter of its own, by both scanners. -/
theorem accent_doubled :
    (parseEnv (text "x=" ++ [0xC3, 0xA9])).map (fun p => values p.1) = .ok [text "x", [0xC3, 0x83, 0xC2, 0xA9]] ∧
      processWord [0xC3, 0xA9] [] = .ok [0xC3, 0x83, 0xC2, 0xA9] := by
  decide +kernel

end DockerEngine.Builder
