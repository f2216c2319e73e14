import DockerEngine.Lib.Bytes
import DockerEngine.Lib.Outcome

/-!
# The line parsers of Dockerfiles

`builder/parser` makes a node of each instruction: its name, flags and arguments. How the arguments are split
depends on the instruction (`dispatch` in `parser.go`, `line_parsers.go`). `ONBUILD` has an instruction of its
own as a child, which is parsed as a line again; the first argument of `parseLineIn` bounds how often, and the
length of the line is enough (`parseLine_ne_depth`).

A pointer to a node may be nil, so the children of a node are a list of optional nodes. Functions of the Go
library are given: lower and upper case, quoting, and the decoding of a JSON array, with `none` for an element
that is not a string.
-/

namespace DockerEngine.Builder

open Bytes Outcome List

/-- Functions of the Go library. -/
structure Go where
  toLower : Bytes → Bytes
  toUpper : Bytes → Bytes
  quote : Bytes → Bytes
  json : Bytes → Option (List (Option Bytes))

/-- The library on ASCII text, with no text taken for JSON. -/
def plainGo : Go where
  toLower := map fun b => if 65 ≤ b ∧ b ≤ 90 then b + 32 else b
  toUpper := map fun b => if 97 ≤ b ∧ b ≤ 122 then b - 32 else b
  quote := fun s => text "\"" ++ s ++ text "\""
  json := fun _ => none

/-- `parser.Node`. `json` is the attribute of that name. -/
inductive Node where
  | mk (value : Bytes) (next : Option Node) (children : List (Option Node)) (json : Bool)
    (original : Bytes) (flags : List Bytes)

namespace Node

def value : Node → Bytes
  | .mk v _ _ _ _ _ => v

def next : Node → Option Node
  | .mk _ n _ _ _ _ => n

def children : Node → List (Option Node)
  | .mk _ _ cs _ _ _ => cs

def json : Node → Bool
  | .mk _ _ _ j _ _ => j

def original : Node → Bytes
  | .mk _ _ _ _ o _ => o

def flags : Node → List Bytes
  | .mk _ _ _ _ _ fs => fs

end Node

/-- Arguments as a chain of nodes. -/
def chain : List Bytes → Option Node
  | [] => none
  | v :: vs => some (.mk v (chain vs) [] false [] [])

inductive ParseErr where
  /-- key + " must have two arguments" -/
  | twoArguments (key : Bytes)
  /-- "Syntax error - can't find = in %q. Must be of the form: name=value" -/
  | noEquals (word : Bytes)
  /-- `errDockerfileNotStringArray` -/
  | notStringArray
  /-- The bound on the depth of `ONBUILD` was too small. -/
  | depth
  deriving DecidableEq, Repr

/-! ## Splitting lines -/

/-- A byte of `tokenWhitespace`. -/
def isToken (b : UInt8) : Bool := b == 9 || b == 11 || b == 12 || b == 13 || b == 32

/-- `tokenWhitespace.Split(s, 2)`: the text before the first white space, and the text behind it. -/
def splitToken (s : Bytes) : Bytes × Option Bytes :=
  (s.takeWhile fun b => !isToken b,
    match s.dropWhile fun b => !isToken b with
    | [] => none
    | b :: t => some ((b :: t).dropWhile isToken))

/-- `tokenWhitespace.Split(s, -1)`, with the bound `n` on the number of parts. -/
def splitTokens : Nat → Bytes → List Bytes
  | 0, s => [s]
  | n + 1, s =>
    match splitToken s with
    | (t, none) => [t]
    | (t, some rest) => t :: splitTokens n rest

/-- A blank of `tokenLineContinuation`. -/
def isBlank (b : UInt8) : Bool := b == 32 || b == 9

/-- `tokenLineContinuation` matches: the line ends in a backslash and blanks. -/
def continued (line : Bytes) : Bool := (line.rdropWhile isBlank).getLast? == some (ch '\\')

/-- The line without this end. -/
def uncontinue (line : Bytes) : Bytes := (line.rdropWhile isBlank).dropLast

/-- `stripComments`. -/
def stripComments (line : Bytes) : Bytes := if line.head? = some (ch '#') then [] else line

/-- Where a scanner is: between words, in a word, or in quotes. -/
inductive Phase where
  | spaces
  | word
  | quote (q : UInt8)
  deriving DecidableEq, Repr

/-- The words found, and the one that is being read. -/
structure Words where
  words : List Bytes
  word : Bytes
  blankOK : Bool

namespace Words

/-- A byte taken for a rune and added to the word. -/
def add (w : Words) (c : UInt8) : Words := { w with word := w.word ++ encode c }

/-- A word may be empty if it had quotes. -/
def found (w : Words) : Bool := w.blankOK || w.word != []

/-- The word is at its end. -/
def close (w : Words) : Words := ⟨if w.found then w.words ++ [w.word] else w.words, [], false⟩

end Words

def isQuote (c : UInt8) : Bool := c == ch '\'' || c == ch '"'

/-- `extractBuilderFlags`: the rest of the line, and the flags in front of it. -/
def extractFlags : Phase → Words → Bytes → Bytes × List Bytes
  | .spaces, w, [] => ([], w.words)
  | _, w, [] => ([], if w.word ≠ text "--" ∧ w.found then w.words ++ [w.word] else w.words)
  | .quote q, w, c :: s =>
    if c = q then extractFlags .word w s
    else if c = ch '\\' then
      match s with
      | [] => extractFlags .word w []
      | d :: s' => extractFlags (.quote q) (w.add d) s'
    else extractFlags (.quote q) (w.add c) s
  | phase, w, c :: s =>
    if phase = .spaces ∧ isSpace c then extractFlags .spaces w s
    else if phase = .spaces ∧ (c ≠ ch '-' ∨ s.head? ≠ some (ch '-')) then (c :: s, w.words)
    else if isSpace c then
      if w.word = text "--" then (c :: s, w.words) else extractFlags .spaces w.close s
    else if isQuote c then extractFlags (.quote c) { w with blankOK := true } s
    else if c = ch '\\' then
      match s with
      | [] => extractFlags .word w []
      | d :: s' => extractFlags .word (w.add d) s'
    else extractFlags .word (w.add c) s

section

variable (go : Go) (line : Bytes) (rest : Bytes)

def extractBuilderFlags : Bytes × List Bytes := extractFlags .spaces ⟨[], [], false⟩ line

/-- The parts of a line: `splitCommand`. -/
structure Command where
  cmd : Bytes
  flags : List Bytes
  args : Bytes

/-- `splitCommand`. -/
def splitCommand : Command :=
  match splitToken (trimSpace line) with
  | (cmd, none) => ⟨go.toLower cmd, [], []⟩
  | (cmd, some rest) =>
    ⟨go.toLower cmd, (extractBuilderFlags rest).2, trimSpace (extractBuilderFlags rest).1⟩

/-! ## Arguments -/

/-- The words of `parseNameVal`. If the first one has no equals sign, the rest of the line is the second. -/
def scanWords : Phase → Words → Bytes → List Bytes
  | .spaces, w, [] => w.words
  | _, w, [] => w.close.words
  | .quote q, w, c :: s =>
    if c = ch '\\' ∧ q ≠ ch '\'' then
      match s with
      | [] => scanWords .word w []
      | d :: s' => scanWords (.quote q) ((w.add c).add d) s'
    else scanWords (if c = q then .word else .quote q) (w.add c) s
  | phase, w, c :: s =>
    if isSpace c then
      if phase = .spaces then scanWords .spaces w s
      else if w.found ∧ ch '=' ∉ w.word then w.words ++ [w.word, trimSpace (c :: s)]
      else scanWords .spaces w.close s
    else if isQuote c then scanWords (.quote c) { w.add c with blankOK := true } s
    else if c = ch '\\' then
      match s with
      | [] => scanWords .word w []
      | d :: s' => scanWords .word ((w.add c).add d) s'
    else scanWords .word (w.add c) s

/-- The pairs of the words that have an equals sign, one after the other. -/
def pairs : List Bytes → Except ParseErr (List Bytes)
  | [] => .ok []
  | w :: ws =>
    match cut (ch '=') w with
    | none => .error (.noEquals w)
    | some (name, value) => (pairs ws).map fun rest => name :: value :: rest

section

variable (key : Bytes) (parse : Bytes → Except ParseErr (Bytes × Option Node))

/-- The arguments that `parseNameVal` finds. -/
def nameVal : Except ParseErr (List Bytes) :=
  match scanWords .spaces ⟨[], [], false⟩ rest with
  | [] => .ok []
  | w :: ws =>
    if ch '=' ∉ w then
      match splitToken rest with
      | (_, none) => .error (.twoArguments key)
      | (name, some value) => .ok [name, value]
    else pairs (w :: ws)

/-- What a line parser returns: the arguments, and the attribute `json`. -/
abbrev Parsed : Type := Except ParseErr (Option Node × Bool)

/-- `parseNameVal`. -/
def parseNameVal : Parsed := (nameVal rest key).map fun args => (chain args, false)

def parseEnv : Parsed := parseNameVal rest (text "ENV")

def parseLabel : Parsed := parseNameVal rest (text "LABEL")

def parseIgnore : Parsed := .ok (some (.mk [] none [] false [] []), false)

def parseStringsWhitespaceDelimited : Parsed :=
  if rest = [] then .ok (none, false) else .ok (chain (splitTokens rest.length rest), false)

def parseString : Parsed := if rest = [] then .ok (none, false) else .ok (chain [rest], false)

/-- The strings of an array, if all its elements are strings. -/
def strings : List (Option Bytes) → Option (List Bytes)
  | [] => some []
  | none :: _ => none
  | some s :: l => (strings l).map (s :: ·)

/-- `parseJSON`, and what is done if the text is not an array. -/
def parseJSON (otherwise : Parsed) : Parsed :=
  match go.json rest with
  | none => otherwise
  | some l =>
    match strings l with
    | none => .error .notStringArray
    | some vs => .ok (chain vs, true)

def parseMaybeJSON : Parsed :=
  if rest = [] then .ok (none, false) else parseJSON go rest (.ok (chain [rest], false))

def parseMaybeJSONToList : Parsed := parseJSON go rest (parseStringsWhitespaceDelimited rest)

/-- `parseSubCommand`, with the parser of lines that it calls. -/
def parseSubCommand (rest : Bytes) : Parsed :=
  if rest = [] then .ok (none, false)
  else (parse rest).map fun p => (some (.mk [] none [p.2] false [] []), false)

/-- The names of the instructions by the way their arguments are parsed. -/
def fullDispatch (cmd args : Bytes) : Parsed :=
  if cmd = text "onbuild" then parseSubCommand parse args
  else if cmd = text "env" then parseEnv args
  else if cmd = text "label" then parseLabel args
  else if cmd ∈ ["user", "workdir", "maintainer", "from"].map text then parseString args
  else if cmd ∈ ["add", "copy", "volume"].map text then parseMaybeJSONToList go args
  else if cmd ∈ ["run", "cmd", "entrypoint"].map text then parseMaybeJSON go args
  else if cmd = text "expose" then parseStringsWhitespaceDelimited args
  else parseIgnore

/-- The second half of `parseLine`: the node of a line that is complete. -/
def parseNode (line : Bytes) : Except ParseErr Node :=
  (fullDispatch go parse (splitCommand go line).cmd (splitCommand go line).args).map fun p =>
    .mk (splitCommand go line).cmd p.1 [] p.2 line (splitCommand go line).flags

/-- `parseLine`: what is left to be joined with the next line, or the node. -/
def parseLineIn (go : Go) : Nat → Bytes → Except ParseErr (Bytes × Option Node)
  | 0, _ => .error .depth
  | n + 1, line =>
    if stripComments line = [] then .ok ([], none)
    else if continued line then .ok (uncontinue line, none)
    else (parseNode go (parseLineIn go n) line).map fun node => ([], some node)

def parseLine : Except ParseErr (Bytes × Option Node) := parseLineIn go (line.length + 1) line

theorem parseLine_eq : parseLine go line =
    if stripComments line = [] then .ok ([], none)
    else if continued line then .ok (uncontinue line, none)
    else (parseNode go (parseLineIn go line.length) line).map fun node => ([], some node) := rfl

/-! ## What the line parsers return -/

/-- A chain of arguments, in pairs if the instruction is one of names and values. -/
def IsArguments (cmd : Bytes) (next : Option Node) : Prop :=
  ∃ vs, next = chain vs ∧ (cmd = text "env" ∨ cmd = text "label" → vs.length % 2 = 0)

theorem map_ne_error {ε α β : Type} (f : α → β) {x : Except ε α} {e : ε} (h : x ≠ .error e) : x.map f ≠ .error e := by
  cases x with
  | error d =>
    intro hd
    exact h (congrArg Except.error (Except.error.inj hd))
  | ok a => exact fun ha => nomatch ha

/-- Names with their values, or an error of the arguments. -/
def InPairs (r : Except ParseErr (List Bytes)) : Prop :=
  (∀ vs, r = .ok vs → vs.length % 2 = 0) ∧ r ≠ .error .depth

theorem inPairs_ok {vs : List Bytes} (h : vs.length % 2 = 0) : InPairs (.ok vs) := by
  refine ⟨?_, nofun⟩
  rintro _ ⟨⟩
  exact h

theorem pairs_inPairs (ws : List Bytes) : InPairs (pairs ws) := by
  induction ws with
  | nil => exact inPairs_ok rfl
  | cons w ws ih =>
    rw [pairs]
    split
    · exact ⟨nofun, nofun⟩
    refine ⟨fun vs h => ?_, map_ne_error _ ih.2⟩
    obtain ⟨rest, hws, rfl⟩ := map_eq_ok h
    have hrest := ih.1 rest hws
    simp only [length_cons]
    omega

theorem nameVal_inPairs : InPairs (nameVal rest key) := by
  rw [nameVal]
  split
  · exact inPairs_ok rfl
  split
  · split
    · exact ⟨nofun, nofun⟩
    · exact inPairs_ok (by simp)
  · exact pairs_inPairs _

end

end

/-- A parser that returns arguments or an error of its own. -/
def Delivers (cmd : Bytes) (r : Parsed) : Prop := (∀ p, r = .ok p → IsArguments cmd p.1) ∧ r ≠ .error .depth

theorem parseNameVal_delivers (cmd rest key : Bytes) : Delivers cmd (parseNameVal rest key) := by
  have hpairs := nameVal_inPairs rest key
  refine ⟨fun p h => ?_, map_ne_error _ hpairs.2⟩
  obtain ⟨vs, hvs, rfl⟩ := map_eq_ok h
  exact ⟨vs, rfl, fun _ => hpairs.1 vs hvs⟩

section Plain

variable {cmd : Bytes} (hcmd : ¬ (cmd = text "env" ∨ cmd = text "label"))

include hcmd

theorem delivers_chain (vs : List Bytes) (json : Bool) : Delivers cmd (.ok (chain vs, json)) := by
  refine ⟨fun p h => ?_, fun h => (nomatch h)⟩
  cases h
  exact ⟨vs, rfl, fun h => (hcmd h).elim⟩

theorem parseIgnore_delivers : Delivers cmd parseIgnore := delivers_chain hcmd [[]] false

theorem parseStringsWhitespaceDelimited_delivers (rest : Bytes) :
    Delivers cmd (parseStringsWhitespaceDelimited rest) := by
  rw [parseStringsWhitespaceDelimited]
  split
  · exact delivers_chain hcmd [] false
  · exact delivers_chain hcmd _ false

theorem parseJSON_delivers (go : Go) (rest : Bytes) {otherwise : Parsed} (h : Delivers cmd otherwise) :
    Delivers cmd (parseJSON go rest otherwise) := by
  rw [parseJSON]
  split
  · exact h
  · split
    · exact ⟨fun p h => (nomatch h), fun h => (nomatch h)⟩
    · exact delivers_chain hcmd _ true

end Plain

/-- Every instruction but `ONBUILD` gets a chain of arguments. -/
theorem fullDispatch_delivers (go : Go) (parse : Bytes → Except ParseErr (Bytes × Option Node))
    {cmd : Bytes} (args : Bytes) (hcmd : cmd ≠ text "onbuild") :
    Delivers cmd (fullDispatch go parse cmd args) := by
  rw [fullDispatch, if_neg hcmd]
  by_cases henv : cmd = text "env"
  · rw [if_pos henv]
    exact parseNameVal_delivers cmd args (text "ENV")
  by_cases hlabel : cmd = text "label"
  · rw [if_neg henv, if_pos hlabel]
    exact parseNameVal_delivers cmd args (text "LABEL")
  have hplain : ¬ (cmd = text "env" ∨ cmd = text "label") := not_or.mpr ⟨henv, hlabel⟩
  rw [if_neg henv, if_neg hlabel]
  split
  · rw [parseString]
    split
    · exact delivers_chain hplain [] false
    · exact delivers_chain hplain [args] false
  split
  · exact parseJSON_delivers hplain go args (parseStringsWhitespaceDelimited_delivers hplain args)
  split
  · rw [parseMaybeJSON]
    split
    · exact delivers_chain hplain [] false
    · exact parseJSON_delivers hplain go args (delivers_chain hplain [args] false)
  split
  · exact parseStringsWhitespaceDelimited_delivers hplain args
  · exact parseIgnore_delivers hplain

/-! ## The depth of instructions -/

theorem extractFlags_suffix (phase : Phase) (w : Words) (s : Bytes) : (extractFlags phase w s).1 <:+ s := by
  fun_induction extractFlags phase w s <;>
    first
      | exact suffix_rfl
      | exact nil_suffix
      | exact List.IsSuffix.trans (by assumption) (suffix_cons _ _)
      | exact List.IsSuffix.trans (by assumption) ((suffix_cons _ _).trans (suffix_cons _ _))

theorem length_splitToken_lt {s t rest : Bytes} (h : splitToken s = (t, some rest)) : rest.length < s.length := by
  have hrest := congrArg Prod.snd h
  simp only [splitToken] at hrest
  split at hrest
  · cases hrest
  next b u hdrop =>
  -- the byte at which the first part ends is white space itself
  have hb : isToken b := by
    have hhead := head?_dropWhile_not (fun b => !isToken b) s
    simpa [hdrop] using hhead
  rw [dropWhile_cons_of_pos hb, Option.some.injEq] at hrest
  have hu := (dropWhile_suffix isToken (l := u)).length_le
  have hs := (dropWhile_suffix (fun b => !isToken b) (l := s)).length_le
  rw [hdrop, length_cons] at hs
  rw [← hrest]
  omega

variable {line : Bytes} {go : Go}

/-- The arguments are shorter than the line. -/
theorem length_args_lt (h : (splitCommand go line).args ≠ []) : (splitCommand go line).args.length < line.length := by
  rw [splitCommand] at h ⊢
  split at h
  · exact (h rfl).elim
  next cmd rest hsplit =>
  have hrest := length_splitToken_lt hsplit
  have hflags := (extractFlags_suffix .spaces ⟨[], [], false⟩ rest).length_le
  have hargs := length_trimSpace_le (extractBuilderFlags rest).1
  have hline := length_trimSpace_le line
  simp only [extractBuilderFlags] at hargs ⊢
  omega

theorem parseNode_ne_depth {parse : Bytes → Except ParseErr (Bytes × Option Node)}
    (h : (splitCommand go line).args ≠ [] → parse (splitCommand go line).args ≠ .error .depth) :
    parseNode go parse line ≠ .error .depth := by
  refine map_ne_error _ ?_
  by_cases hcmd : (splitCommand go line).cmd = text "onbuild"
  · rw [fullDispatch, if_pos hcmd, parseSubCommand]
    split
    · exact fun h => nomatch h
    next hargs => exact map_ne_error _ (h hargs)
  · exact (fullDispatch_delivers go parse _ hcmd).2

theorem parseLineIn_ne_depth (go : Go) {n : Nat} (h : line.length < n) : parseLineIn go n line ≠ .error .depth := by
  induction n generalizing line with
  | zero => omega
  | succ n ih =>
    rw [parseLineIn]
    split
    · exact fun h => nomatch h
    split
    · exact fun h => nomatch h
    refine map_ne_error _ (parseNode_ne_depth fun hargs => ih ?_)
    have hlt := length_args_lt hargs
    omega

theorem parseLine_ne_depth (go : Go) (line : Bytes) : parseLine go line ≠ .error .depth :=
  parseLineIn_ne_depth go (Nat.lt_succ_self _)

/-! ## The exec form -/

/-- A JSON value, as far as `parseJSON` tells one from another. An element that is not a string is `none`. -/
inductive Json where
  | array (elements : List (Option Bytes))
  | null
  | other

/-- `json.Decoder` on a text: the first value, and what is behind it. -/
structure Decoder where
  first : Bytes → Option (Json × Bytes)
  first_nil : first [] = none

section

variable (d : Decoder) (rest : Bytes)

/-- `Decode` into a slice. It does not look behind the value, and `null` is no error. -/
def Decoder.decode : Option (List (Option Bytes)) :=
  match d.first rest with
  | some (.array l, _) => some l
  | some (.null, _) => some []
  | _ => none

/-- JSON white space. -/
def isJsonSpace (b : UInt8) : Bool := b == 32 || b == 9 || b == 10 || b == 13

/-- The elements, if the text is one array and white space. -/
def Decoder.wholeArray : Option (List (Option Bytes)) :=
  match d.first rest with
  | some (.array l, tail) => if tail.all isJsonSpace then some l else none
  | _ => none

/-- What is to be made of the text: the strings of the array it is, an error if one element is no string, and
the text itself if it is no array. -/
def Decoder.execForm : Parsed :=
  match d.wholeArray rest with
  | none => .ok (chain [rest], false)
  | some l =>
    match strings l with
    | none => .error .notStringArray
    | some vs => .ok (chain vs, true)

/-- The text is not empty, does not begin with `null`, and is white space behind an array. -/
def Decoder.Plain : Prop :=
  rest ≠ [] ∧
    match d.first rest with
    | some (.array _, tail) => tail.all isJsonSpace = true
    | some (.null, _) => False
    | _ => True

end

/-- What `parseJSON` accepts or refuses is not the text as one argument. -/
theorem parseJSON_ne (l : List (Option Bytes)) (next : Option Node) :
    (match strings l with | none => .error .notStringArray | some vs => .ok (chain vs, true) : Parsed) ≠
      .ok (next, false) := by
  cases strings l with
  | none => nofun
  | some vs => exact fun h => nomatch (Prod.mk.inj (Except.ok.inj h)).2

theorem parseMaybeJSON_execForm_iff (d : Decoder) (go : Go) (hgo : go.json = d.decode) (rest : Bytes) :
    parseMaybeJSON go rest = d.execForm rest ↔ d.Plain rest := by
  by_cases hrest : rest = []
  · subst hrest
    refine iff_of_false ?_ fun h => h.1 rfl
    simp [parseMaybeJSON, Decoder.execForm, Decoder.wholeArray, d.first_nil, chain]
  rw [parseMaybeJSON, if_neg hrest, parseJSON, hgo, Decoder.decode, Decoder.execForm, Decoder.wholeArray,
    Decoder.Plain, and_iff_right hrest]
  rcases d.first rest with _ | ⟨⟨l⟩ | _ | _, tail⟩
  · simp
  · dsimp only
    by_cases htail : tail.all isJsonSpace = true
    · rw [if_pos htail]
      exact iff_of_true rfl htail
    · rw [if_neg htail]
      exact iff_of_false (parseJSON_ne l _) htail
  · exact iff_of_false (parseJSON_ne [] _) id
  · simp

/-- A decoder that knows one array and takes `null` for what it is. -/
def oneArray : Decoder where
  first s :=
    if (text "[\"a\"]").isPrefixOf s then some (.array [some (text "a")], s.drop 5)
    else if (text "null").isPrefixOf s then some (.null, s.drop 4)
    else none
  first_nil := rfl

theorem parseMaybeJSON_execForm_array :
    parseMaybeJSON { plainGo with json := oneArray.decode } (text "[\"a\"]") = oneArray.execForm (text "[\"a\"]") :=
  (parseMaybeJSON_execForm_iff oneArray _ rfl _).mpr ⟨by decide, rfl⟩

/-- The text behind an array is lost, and `null` is an array without elements. -/
theorem parseMaybeJSON_drops :
    parseMaybeJSON { plainGo with json := oneArray.decode } (text "[\"a\"] b") = .ok (chain [text "a"], true) ∧
      parseMaybeJSON { plainGo with json := oneArray.decode } (text "null") = .ok (none, true) := by
  exact ⟨rfl, rfl⟩

end DockerEngine.Builder
