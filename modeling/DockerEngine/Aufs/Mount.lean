import DockerEngine.Lib.Bytes
import DockerEngine.Lib.Loop
import DockerEngine.Lib.Words

/-!
# The layers of an aufs mount

The kernel takes the options of a mount in one page. `aufsMount` packs branches into a buffer that leaves room
for the other options and the label, mounts what fits, and appends every layer that is left by a remount. The
two loops share the index of the layer: what the first mount has no room for is where the remounts begin.

A mount that fails ends the function; here the mounts succeed.
-/

namespace DockerEngine.Aufs

open List Bytes

/-- What does not change between the calls: the size of a page, `useDirperm()`, and the label. -/
structure Setup where
  page : Nat
  dirperm : Bool
  label : Bytes

/-- A call of `mount`: whether it has the flag `MsRemount`, and its data. -/
structure Call where
  remount : Bool
  data : Bytes

def escape (b : UInt8) : Bytes := if b = ch '"' ∨ b = ch '\\' then [ch '\\', b] else [b]

/-- `%q` of a text of printable ASCII characters. -/
def quote (s : Bytes) : Bytes := ch '"' :: s.flatMap escape ++ [ch '"']

/-- `label.FormatMountLabel`. -/
def formatMountLabel (src label : Bytes) : Bytes :=
  if label = [] then src
  else if src = [] then text "context=" ++ quote label else src ++ text ",context=" ++ quote label

def branch (path : Bytes) : Bytes := path ++ text "=ro+wh"

def layer (path : Bytes) : Bytes := text ":" ++ branch path

variable (m : Setup)

/-- The length of the buffer: what the page has left for branches. -/
def size : Nat := m.page - m.label.length - (54 + if m.dirperm then (text "dirperm1").length else 0)

def opts : Bytes := text "dio,xino=/dev/shm/aufs.xino" ++ if m.dirperm then text ",dirperm1" else []

/-- The first mount, of the branches in the buffer. -/
def mountOf (buf : Bytes) : Call := ⟨false, formatMountLabel (buf ++ (text "," ++ opts m)) m.label⟩

/-- The remount that appends a layer. -/
def remountOf (path : Bytes) : Call := ⟨true, formatMountLabel (text "append" ++ layer path) m.label⟩

/-- The variables of the loops: the layers from `ro[i]` on, the text `b[:bp]`, and the calls made so far. -/
structure State where
  ro : List Bytes
  buf : Bytes
  firstMount : Bool
  calls : List Call

/-- The inner loop. -/
def addLayers (firstMount : Bool) (buf : Bytes) (calls : List Call) : List Bytes → State
  | [] => ⟨[], buf, firstMount, calls⟩
  | path :: ro =>
    if firstMount then
      if size m < buf.length + (layer path).length then ⟨path :: ro, buf, firstMount, calls⟩
      else addLayers firstMount (buf ++ layer path) calls ro
    else addLayers firstMount buf (calls ++ [remountOf m path]) ro

/-- One round of the outer loop. -/
def round (s : State) : State ⊕ List Call :=
  let s := addLayers m s.firstMount s.buf s.calls s.ro
  let s := if s.firstMount then { s with firstMount := false, calls := s.calls ++ [mountOf m s.buf] } else s
  if s.ro = [] then .inr s.calls else .inl s

/-- `aufsMount`, in at most `fuel` rounds of its outer loop: the calls that it makes. -/
def aufsMount (ro : List Bytes) (rw : Bytes) (fuel : Nat) : Option (List Call) :=
  Loop.run (round m) fuel ⟨ro, (text "br:" ++ rw ++ text "=rw").take (size m), true, []⟩

/-! ## What a call names -/

/-- The branches of the first option of a mount: the words behind `br` or `append`. -/
def branches (c : Call) : List Bytes := ((c.data.takeWhile (· ≠ ch ',')).splitOn (ch ':')).tail

/-- A text that a branch can hold. -/
abbrev Plain (s : Bytes) : Prop := ch ',' ∉ s ∧ ch ':' ∉ s

/-- A character of a label that `%q` leaves as it is. -/
abbrev PlainLabel (b : UInt8) : Prop := 32 ≤ b ∧ b < 127 ∧ b ≠ ch '"' ∧ b ≠ ch '\\'

/-- An option with branches. -/
def joined (kind : Bytes) (ws : List Bytes) : Bytes := kind ++ ws.flatMap (ch ':' :: ·)

variable {m} {kind : Bytes} {ws : List Bytes}

theorem splitOn_joined (hkind : ch ':' ∉ kind) (hws : ∀ w ∈ ws, Plain w) :
    (joined kind ws).splitOn (ch ':') = kind :: ws := by
  induction ws generalizing kind with
  | nil => rw [joined, flatMap_nil, append_nil, splitOn_eq_singleton hkind]
  | cons w ws ih =>
    obtain ⟨hw, hws⟩ := forall_mem_cons.mp hws
    rw [joined, flatMap_cons, cons_append, Words.splitOn_cons hkind]
    exact congrArg (kind :: ·) (ih hw.2 hws)

/-- The branches of a call are those that were written, and a plain label is quoted as it is. -/
theorem call_spec (remount : Bool) (kind more : Bytes) (hkind : kind ≠ [] ∧ Plain kind)
    (hws : ∀ w ∈ ws, Plain w) (hmore : more.takeWhile (· ≠ ch ',') = [])
    (hlabel : ∀ b ∈ m.label, PlainLabel b) :
    branches ⟨remount, formatMountLabel (joined kind ws ++ more) m.label⟩ = ws ∧
      (formatMountLabel (joined kind ws ++ more) m.label).length ≤
        (joined kind ws).length + more.length + m.label.length + 11 := by
  have hcomma : ∀ x ∈ joined kind ws, decide (x ≠ ch ',') := by
    apply Words.all_ne
    simp only [joined, mem_append, mem_flatMap, mem_cons, not_or, not_exists, not_and]
    exact ⟨hkind.2.1, fun w hw => ⟨by decide, (hws w hw).1⟩⟩
  have hbranches : ∀ rest, rest.takeWhile (· ≠ ch ',') = [] →
      branches ⟨remount, joined kind ws ++ rest⟩ = ws := by
    intro rest hrest
    rw [branches, takeWhile_append_of_pos hcomma, hrest, append_nil, splitOn_joined hkind.2.2 hws, tail_cons]
  rw [formatMountLabel]
  split
  · refine ⟨hbranches more hmore, ?_⟩
    rw [length_append]
    omega
  · have hquote : ∀ b ∈ m.label, escape b = [b] := fun b hb => if_neg (not_or.mpr (hlabel b hb).2.2)
    rw [if_neg (by simp [joined, hkind.1]), append_assoc, append_assoc, quote, flatMap_congr hquote,
      flatMap_singleton']
    constructor
    · apply hbranches
      cases more with
      | nil => rfl
      | cons b more => simpa [takeWhile_cons] using hmore
    · simp [text]
      omega

/-! ## The two rounds -/

theorem addLayers_first (ro : List Bytes) (h : (joined kind ws).length ≤ size m) :
    ∃ done rest, ro = done ++ rest ∧ (joined kind (ws ++ done.map branch)).length ≤ size m ∧
      addLayers m true (joined kind ws) [] ro = ⟨rest, joined kind (ws ++ done.map branch), true, []⟩ := by
  induction ro generalizing ws with
  | nil => exact ⟨[], [], rfl, by simpa using h, by simp [addLayers]⟩
  | cons path ro ih =>
    have hlayer : joined kind ws ++ layer path = joined kind (ws ++ [branch path]) := by simp [joined, layer, text]
    rw [addLayers, if_pos rfl, ← length_append, hlayer]
    split
    · exact ⟨[], path :: ro, rfl, by simpa using h, by simp⟩
    next hfits =>
      obtain ⟨done, rest, rfl, hdone, heq⟩ := ih (Nat.not_lt.mp hfits)
      rw [append_assoc] at hdone heq
      exact ⟨path :: done, rest, rfl, hdone, heq⟩

theorem addLayers_rest (buf : Bytes) (calls : List Call) (ro : List Bytes) :
    addLayers m false buf calls ro = ⟨[], buf, false, calls ++ ro.map (remountOf m)⟩ := by
  induction ro generalizing calls with
  | nil => simp [addLayers]
  | cons path ro ih =>
    rw [addLayers, if_neg (by decide), ih]
    simp

/-- The first round mounts, the second appends what is left. -/
theorem run_round {b buf : Bytes} {ro rest : List Bytes} {fuel : Nat} (hfuel : 2 ≤ fuel)
    (hadd : addLayers m true b [] ro = ⟨rest, buf, true, []⟩) :
    Loop.run (round m) fuel ⟨ro, b, true, []⟩ = some (mountOf m buf :: rest.map (remountOf m)) := by
  have hround : round m ⟨ro, b, true, []⟩ =
      if rest = [] then .inr [mountOf m buf] else .inl ⟨rest, buf, false, [mountOf m buf]⟩ := by
    simp only [round, hadd]
    rfl
  apply Loop.run_mono hfuel
  by_cases hrest : rest = []
  · rw [if_pos hrest] at hround
    rw [Loop.run_leave hround, hrest, map_nil]
  · rw [if_neg hrest] at hround
    rw [Loop.run_continue hround]
    exact Loop.run_leave (by simp [round, addLayers_rest])

/-- An aufs mount has the read-write branch and then every layer, once and in order, and its options fit into
the page: two rounds of the loop suffice. -/
theorem aufsMount_layers (m : Setup) (ro : List Bytes) (rw : Bytes) (fuel : Nat) (hfuel : 2 ≤ fuel)
    (hpaths : ∀ path ∈ rw :: ro, Plain path) (hlabel : ∀ b ∈ m.label, PlainLabel b)
    (hroom : (text "br:" ++ rw ++ text "=rw").length ≤ size m) :
    ∃ first rest, aufsMount m ro rw fuel = some (first :: rest) ∧ first.remount = false ∧
      (∀ c ∈ rest, c.remount = true) ∧
      (first :: rest).flatMap branches = (rw ++ text "=rw") :: ro.map branch ∧ first.data.length < m.page := by
  have hplain : ∀ path ∈ rw :: ro, Plain (path ++ text "=rw") ∧ Plain (branch path) := by
    intro path hpath
    have hp := hpaths path hpath
    simp only [Plain, branch, mem_append, not_or]
    exact ⟨⟨⟨hp.1, by decide⟩, hp.2, by decide⟩, ⟨hp.1, by decide⟩, hp.2, by decide⟩
  have hstart : text "br:" ++ rw ++ text "=rw" = joined (text "br") [rw ++ text "=rw"] := by simp [joined, text]
  rw [aufsMount, take_of_length_le hroom]
  rw [hstart] at hroom ⊢
  obtain ⟨done, rest, rfl, hlen, hadd⟩ := addLayers_first ro hroom
  have hdone : ∀ w ∈ [rw ++ text "=rw"] ++ done.map branch, Plain w := by
    simp only [singleton_append, forall_mem_cons, forall_mem_map]
    exact ⟨(hplain rw (by simp)).1, fun path hpath => (hplain path (by simp [hpath])).2⟩
  obtain ⟨hfirst, hlength⟩ := call_spec false (text "br") (text "," ++ opts m) (by decide) hdone rfl hlabel
  refine ⟨_, _, run_round hfuel hadd, rfl, by simp [remountOf], ?_, Nat.lt_of_le_of_lt hlength ?_⟩
  · have happend : ∀ path ∈ rest, branches (remountOf m path) = [branch path] := by
      intro path hpath
      have hbranch := (hplain path (by simp [hpath])).2
      have hspec := call_spec true (text "append") [] (by decide) (forall_mem_singleton.mpr hbranch) rfl hlabel
      simpa [joined, layer, text, remountOf] using hspec.1
    rw [flatMap_cons, mountOf, hfirst, flatMap_map, flatMap_congr happend, map_append, ← map_eq_flatMap]
    rfl
  · have hpos : 0 < size m := Nat.lt_of_lt_of_le (by simp [joined, text]) hlen
    rw [size] at hlen hpos
    rw [opts]
    cases hm : m.dirperm
    all_goals
      simp [hm, text] at hlen hpos ⊢
      omega

/-- Three layers, the last of which the page has no room for. -/
theorem aufsMount_layers_three :
    ∃ first rest, aufsMount ⟨90, true, text "x:y"⟩ [text "a", text "b", text "c"] (text "w") 2 =
        some (first :: rest) ∧ first.remount = false ∧ (∀ c ∈ rest, c.remount = true) ∧
      (first :: rest).flatMap branches = [text "w=rw", text "a=ro+wh", text "b=ro+wh", text "c=ro+wh"] ∧
      first.data.length < 90 :=
  aufsMount_layers ⟨90, true, text "x:y"⟩ _ (text "w") 2 (by decide) (by decide) (by decide +kernel) (by decide)

end DockerEngine.Aufs
