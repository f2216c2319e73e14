import DockerEngine.Lib.Bytes

/-!
# Expansion of words

`builder.ProcessWord` replaces the variables in a word of a Dockerfile instruction and removes its quotes. A
word is scanned from the left; each function below returns what it has made and the text it has left. The
default of a substitution is scanned by the same functions, so they call each other. Every call has less text
before it than the one before; the first argument bounds the depth of the calls, and a bound greater than the
length of the text is enough.

The words are also described as a syntax (`Word`), with what a shell makes of them (`Word.value`). Scanning a
word as it is written gives its value (`processWord_render`), for words of ASCII characters in which each
special character is quoted or escaped.
-/

namespace DockerEngine.Builder

open Bytes List Bool

/-! ## The scanner -/

/-- The errors of `ProcessWord`. -/
inductive WordErr where
  /-- "Unsupported modifier (%c) in substitution: %s" -/
  | unsupportedModifier (c : UInt8)
  /-- "Missing ':' in substitution: %s" -/
  | missingColon
  /-- The bound on the depth of calls was too small. -/
  | depth
  deriving DecidableEq, Repr

/-- `getEnv`: the value of the first entry with the name. -/
def getEnv (name : Bytes) : List Bytes → Bytes
  | [] => []
  | e :: es =>
    match cut (ch '=') e with
    | none => if name = e then [] else getEnv name es
    | some (n, v) => if name = n then v else getEnv name es

/-- A character of a name. -/
def isNameByte (b : UInt8) : Bool := isLetter b || isDigit b || b == ch '_'

/-- `processName`: a name, or one digit. -/
def processName : Bytes → Bytes × Bytes
  | [] => ([], [])
  | c :: s =>
    if isDigit c then (encode c, s)
    else (((c :: s).takeWhile isNameByte).flatMap encode, (c :: s).dropWhile isNameByte)

/-- `processSingleQuote`, behind the quote. -/
def processSingleQuote : Bytes → Bytes × Bytes
  | [] => ([], [])
  | c :: s =>
    if c = 0 ∨ c = ch '\'' then ([], s)
    else (encode c ++ (processSingleQuote s).1, (processSingleQuote s).2)

/-- What a substitution with a modifier makes of the value of the variable and of the word behind it. -/
def substitute (modifier : UInt8) (value word : Bytes) : Except WordErr Bytes :=
  if modifier = ch '+' then .ok (if value ≠ [] then word else value)
  else if modifier = ch '-' then .ok (if value = [] then word else value)
  else .error (.unsupportedModifier modifier)

/-- A piece of the result in front of what the rest of the scan makes. -/
def prepend (piece : Bytes) (rest : Except WordErr (Bytes × Bytes)) : Except WordErr (Bytes × Bytes) :=
  rest.map fun p => (piece ++ p.1, p.2)

mutual

/-- `processStopOn`: up to the stop character, or to the end of the text. -/
def processStopOn (env : List Bytes) : Nat → Option UInt8 → Bytes → Except WordErr (Bytes × Bytes)
  | 0, _, _ => .error .depth
  | _ + 1, _, [] => .ok ([], [])
  | n + 1, stop, c :: s =>
    if stop = some c then .ok ([], s)
    else if c = ch '\'' then
      prepend (processSingleQuote s).1 (processStopOn env n stop (processSingleQuote s).2)
    else if c = ch '"' then
      match processDoubleQuote env n s with
      | .error e => .error e
      | .ok (r, s') => prepend r (processStopOn env n stop s')
    else if c = ch '$' then
      match processDollar env n s with
      | .error e => .error e
      | .ok (r, s') => prepend r (processStopOn env n stop s')
    else if c = ch '\\' then
      -- A backslash before a zero byte is taken for one at the end of the word.
      if s.headD 0 = 0 then processStopOn env n stop s.tail
      else prepend (encode (s.headD 0)) (processStopOn env n stop s.tail)
    else prepend (encode c) (processStopOn env n stop s)

/-- `processDoubleQuote`, behind the quote. -/
def processDoubleQuote (env : List Bytes) : Nat → Bytes → Except WordErr (Bytes × Bytes)
  | 0, _ => .error .depth
  | _ + 1, [] => .ok ([], [])
  | n + 1, c :: s =>
    if c = ch '"' then .ok ([], s)
    else if c = ch '$' then
      match processDollar env n s with
      | .error e => .error e
      | .ok (r, s') => prepend r (processDoubleQuote env n s')
    else if c = ch '\\' then
      if s.headD 0 = 0 then processDoubleQuote env n s
      else if s.headD 0 = ch '"' ∨ s.headD 0 = ch '$' then
        prepend (encode (s.headD 0)) (processDoubleQuote env n s.tail)
      else prepend (encode c) (processDoubleQuote env n s)
    else prepend (encode c) (processDoubleQuote env n s)

/-- `processDollar`, behind the dollar sign. -/
def processDollar (env : List Bytes) : Nat → Bytes → Except WordErr (Bytes × Bytes)
  | 0, _ => .error .depth
  | n + 1, s =>
    match s with
    | c :: s₁ =>
      if c = ch '{' then
        match (processName s₁).2 with
        | [] => .error .missingColon
        | d :: s₂ =>
          if d = ch '}' then .ok (getEnv (processName s₁).1 env, s₂)
          else if d = ch ':' then
            match processStopOn env n (some (ch '}')) s₂.tail with
            | .error e => .error e
            | .ok (word, s₃) =>
              (substitute (s₂.headD 0) (getEnv (processName s₁).1 env) word).map fun v => (v, s₃)
          else .error .missingColon
      else if (processName s).1 = [] then .ok ([ch '$'], (processName s).2)
      else .ok (getEnv (processName s).1 env, (processName s).2)
    | [] => .ok ([ch '$'], [])

end

/-- `ProcessWord`. -/
def processWord (word : Bytes) (env : List Bytes) : Except WordErr Bytes :=
  (processStopOn env (word.length + 1) none word).map Prod.fst

/-! ## The branches of the scanner -/

section Branches

variable {env : List Bytes} {n : Nat} {stop : Option UInt8} {c : UInt8} {s s' : Bytes}

/-- A character that is not quoted: the four others have a meaning. -/
def isPlain (c : UInt8) : Bool := c != ch '\'' && c != ch '"' && c != ch '$' && c != ch '\\'

/-- A stop character is a closing brace. -/
def IsStop (stop : Option UInt8) : Prop := stop = none ∨ stop = some (ch '}')

theorem IsStop.ne (h : IsStop stop) (hc : c ≠ ch '}') : stop ≠ some c := by
  rcases h with rfl | rfl
  · nofun
  · intro heq
    exact hc (Option.some.inj heq).symm

theorem prepend_ok (piece : Bytes) (p : Bytes × Bytes) : prepend piece (.ok p) = .ok (piece ++ p.1, p.2) := rfl

theorem processStopOn_plain (hstop : stop ≠ some c) (hc : isPlain c) :
    processStopOn env (n + 1) stop (c :: s) = prepend (encode c) (processStopOn env n stop s) := by
  simp only [isPlain, and_eq_true, bne_iff_ne] at hc
  refine (if_neg hstop).trans ?_
  rw [if_neg hc.1.1.1, if_neg hc.1.1.2, if_neg hc.1.2, if_neg hc.2]

section

variable (hstop : IsStop stop)
include hstop

theorem processStopOn_escape (hc : c ≠ 0) :
    processStopOn env (n + 1) stop (ch '\\' :: c :: s) = prepend (encode c) (processStopOn env n stop s) := by
  refine (if_neg (hstop.ne (by decide))).trans ?_
  rw [if_neg (by decide), if_neg (by decide), if_neg (by decide), if_pos rfl]
  exact if_neg hc

end

variable {name : Bytes}

theorem processDollar_name (hc : c ≠ ch '{') (h : processName (c :: s) = (name, s'))
    (hname : name ≠ []) : processDollar env (n + 1) (c :: s) = .ok (getEnv name env, s') := by
  refine (if_neg hc).trans ?_
  rw [h]
  exact if_neg hname

theorem processDollar_modifier {word rest : Bytes} (h : processName s = (name, ch ':' :: c :: s'))
    (hword : processStopOn env n (some (ch '}')) s' = .ok (word, rest)) :
    processDollar env (n + 1) (ch '{' :: s) =
      (substitute c (getEnv name env) word).map fun v => (v, rest) := by
  show (match (processName s).2 with | [] => _ | d :: s₂ => _) = _
  rw [h]
  show (if ch ':' = ch '}' then _ else if ch ':' = ch ':' then _ else _) = _
  rw [if_neg (by decide), if_pos rfl]
  show (match processStopOn env n (some (ch '}')) s' with | .error e => _ | .ok (word, s₃) => _) = _
  rw [hword]
  rfl

end Branches

/-! ## The language -/

/-- The name of a variable: a letter or an underscore, then letters, digits and underscores. -/
structure Name where
  first : UInt8
  rest : Bytes
  first_ok : (isAsciiLetter first || first == ch '_') = true
  rest_ok : (rest.all fun b => isAsciiLetter b || isDigit b || b == ch '_') = true

def Name.bytes (name : Name) : Bytes := name.first :: name.rest

mutual

/-- A word: characters as they are, escaped characters, text in single quotes, parts in double quotes, and
expansions. -/
inductive Word where
  | nil
  | lit (c : UInt8) (w : Word)
  | esc (c : UInt8) (w : Word)
  | single (s : Bytes) (w : Word)
  | double (q : Quoted) (w : Word)
  | exp (e : Expansion) (w : Word)

/-- A part in double quotes. -/
inductive Quoted where
  | nil
  | lit (c : UInt8) (q : Quoted)
  | esc (c : UInt8) (q : Quoted)
  | exp (e : Expansion) (q : Quoted)

/-- `$name`, `${name}`, `${name:-word}` and `${name:+word}`. -/
inductive Expansion where
  | var (name : Name)
  | braced (name : Name)
  | default (name : Name) (w : Word)
  | alternative (name : Name) (w : Word)

end

mutual

/-- The word as it is written. -/
def Word.render : Word → Bytes
  | .nil => []
  | .lit c w => c :: w.render
  | .esc c w => ch '\\' :: c :: w.render
  | .single s w => ch '\'' :: (s ++ ch '\'' :: w.render)
  | .double q w => ch '"' :: (q.render ++ ch '"' :: w.render)
  | .exp e w => ch '$' :: (e.render ++ w.render)

def Quoted.render : Quoted → Bytes
  | .nil => []
  | .lit c q => c :: q.render
  | .esc c q => ch '\\' :: c :: q.render
  | .exp e q => ch '$' :: (e.render ++ q.render)

/-- The expansion behind its dollar sign. -/
def Expansion.render : Expansion → Bytes
  | .var name => name.bytes
  | .braced name => ch '{' :: (name.bytes ++ [ch '}'])
  | .default name w => ch '{' :: (name.bytes ++ ch ':' :: ch '-' :: (w.render ++ [ch '}']))
  | .alternative name w => ch '{' :: (name.bytes ++ ch ':' :: ch '+' :: (w.render ++ [ch '}']))

end

mutual

/-- What a word stands for. -/
def Word.value (env : List Bytes) : Word → Bytes
  | .nil => []
  | .lit c w => c :: w.value env
  | .esc c w => c :: w.value env
  | .single s w => s ++ w.value env
  | .double q w => q.value env ++ w.value env
  | .exp e w => e.value env ++ w.value env

def Quoted.value (env : List Bytes) : Quoted → Bytes
  | .nil => []
  | .lit c q => c :: q.value env
  | .esc c q => c :: q.value env
  | .exp e q => e.value env ++ q.value env

/-- The value of the first entry with the name; a default if it is empty, an alternative if it is not. -/
def Expansion.value (env : List Bytes) : Expansion → Bytes
  | .var name => getEnv name.bytes env
  | .braced name => getEnv name.bytes env
  | .default name w => if getEnv name.bytes env = [] then w.value env else getEnv name.bytes env
  | .alternative name w => if getEnv name.bytes env = [] then [] else w.value env

end

/-- The text does not go on with a character of a name. -/
def EndsName (s : Bytes) : Prop := ∀ c ∈ s.head?, isNameByte c = false

/-- An ASCII character other than the zero byte. -/
def IsAscii (c : UInt8) : Prop := c ≠ 0 ∧ c < 128

/-- A name without braces has to end where it is written to. -/
def Expansion.IsVar : Expansion → Prop
  | .var _ => True
  | _ => False

mutual

/-- The word belongs to the language. Inside of braces a closing brace has to be quoted as well. -/
def Word.Legal (braces : Bool) : Word → Prop
  | .nil => True
  | .lit c w => IsAscii c ∧ isPlain c = true ∧ (braces = true → c ≠ ch '}') ∧ w.Legal braces
  | .esc c w => IsAscii c ∧ w.Legal braces
  | .single s w => (∀ c ∈ s, IsAscii c ∧ c ≠ ch '\'') ∧ w.Legal braces
  | .double q w => q.Legal ∧ w.Legal braces
  | .exp e w => e.Legal ∧ (e.IsVar → EndsName w.render) ∧ w.Legal braces

/-- A backslash is itself only where it escapes nothing. -/
def Quoted.Legal : Quoted → Prop
  | .nil => True
  | .lit c q => IsAscii c ∧ c ≠ ch '"' ∧ c ≠ ch '$' ∧
    (c = ch '\\' → q.render ≠ [] ∧ q.render.head? ≠ some (ch '$')) ∧ q.Legal
  | .esc c q => (c = ch '"' ∨ c = ch '$') ∧ q.Legal
  | .exp e q => e.Legal ∧ (e.IsVar → EndsName q.render) ∧ q.Legal

def Expansion.Legal : Expansion → Prop
  | .var _ => True
  | .braced _ => True
  | .default _ w => w.Legal true
  | .alternative _ w => w.Legal true

end

/-! ## Names and single quotes -/

variable (name : Name)

variable {b : UInt8} {s tail : Bytes}

section

variable (hb : b ∈ name.bytes)
include hb

theorem Name.mem_bytes : (isAsciiLetter b || isDigit b || b == ch '_') := by
  rcases mem_cons.mp hb with rfl | hb
  · have h := name.first_ok
    simp only [or_eq_true] at h ⊢
    tauto
  · exact all_eq_true.mp name.rest_ok b hb

theorem Name.ascii : b < 128 := by
  have h := name.mem_bytes hb
  simp only [or_eq_true, beq_iff_eq] at h
  rcases h with (h | h) | rfl
  · exact isAsciiLetter_lt h
  · exact isDigit_lt h
  · decide

theorem Name.isNameByte : isNameByte b := by
  have h := name.mem_bytes hb
  simp only [or_eq_true] at h
  simp only [Builder.isNameByte, or_eq_true]
  rcases h with (h | h) | h
  · exact .inl (.inl (by simp [isLetter, h]))
  · exact .inl (.inr h)
  · exact .inr h

end

/-- A name is read to its end. -/
theorem processName_bytes (htail : EndsName tail) : processName (name.bytes ++ tail) = (name.bytes, tail) := by
  have hdigit : isDigit name.first = false := by
    have h := name.first_ok
    simp only [or_eq_true, beq_iff_eq] at h
    rcases h with h | h
    · exact isAsciiLetter_not_digit h
    · rw [h]
      decide
  have hall : ∀ b ∈ name.bytes, isNameByte b := fun b => name.isNameByte
  have htake : (name.bytes ++ tail).takeWhile isNameByte = name.bytes := by
    rw [takeWhile_append_of_pos hall]
    cases tail with
    | nil => simp
    | cons c s => simp [htail c rfl]
  have hdrop : (name.bytes ++ tail).dropWhile isNameByte = tail := by
    rw [dropWhile_append_of_pos hall]
    cases tail with
    | nil => rfl
    | cons c s => simp [htail c rfl]
  show (if isDigit name.first = true then _ else _) = _
  rw [hdigit, if_neg Bool.false_ne_true]
  show (((name.bytes ++ tail).takeWhile isNameByte).flatMap encode, (name.bytes ++ tail).dropWhile isNameByte) = _
  rw [htake, hdrop, flatMap_encode_ascii fun b => name.ascii]

theorem processSingleQuote_text (hs : ∀ c ∈ s, IsAscii c ∧ c ≠ ch '\'') :
    processSingleQuote (s ++ ch '\'' :: tail) = (s, tail) := by
  induction s with
  | nil => rfl
  | cons c s ih =>
    obtain ⟨⟨hzero, hascii⟩, hquote⟩ := hs c (by simp)
    have hrest := ih (forall_mem_cons.mp hs).2
    have hgo : ¬ (c = 0 ∨ c = ch '\'') := fun h => h.elim hzero hquote
    rw [cons_append, processSingleQuote, if_neg hgo, hrest, encode_ascii hascii]
    rfl

theorem endsName_cons {c : UInt8} (hc : isNameByte c = false) : EndsName (c :: s) := by
  intro d hd
  cases hd
  exact hc

/-- What follows a text without a name at its end. -/
theorem EndsName.append (hs : EndsName s) (htail : EndsName tail) : EndsName (s ++ tail) := by
  cases s with
  | nil => exact htail
  | cons c s => exact endsName_cons (hs c rfl)

/-! ## Words -/

/-- What stands in double quotes does not begin with a quote. -/
theorem Quoted.Legal.head {q : Quoted} (hq : q.Legal) {d : UInt8} (h : q.render = d :: s) : d ≠ 0 ∧ d ≠ ch '"' := by
  cases q with
  | nil => cases h
  | lit c q =>
    cases h
    exact ⟨hq.1.1, hq.2.1⟩
  | esc c q =>
    cases h
    exact ⟨by decide, by decide⟩
  | exp e q =>
    cases h
    exact ⟨by decide, by decide⟩

/-- A closing brace ends the word in a substitution. -/
theorem processStopOn_brace (env : List Bytes) (tail : Bytes) (n : Nat) (hn : (ch '}' :: tail).length < n) :
    processStopOn env n (some (ch '}')) (ch '}' :: tail) = .ok ([], tail) := by
  obtain ⟨n, rfl⟩ : ∃ m, n = m + 1 := ⟨n - 1, by omega⟩
  exact if_pos rfl

mutual

/-- A word in front of a text from which the scanner makes `r` is scanned to its value. -/
theorem processStopOn_word (env : List Bytes) {braces : Bool} {stop : Option UInt8}
    (hstop : IsStop stop) (hbraces : stop = some (ch '}') → braces) {tail r rest : Bytes}
    (hname : EndsName tail) (htail : ∀ n, tail.length < n → processStopOn env n stop tail = .ok (r, rest)) :
    ∀ (w : Word), w.Legal braces → ∀ n, (w.render ++ tail).length < n →
      processStopOn env n stop (w.render ++ tail) = .ok (w.value env ++ r, rest)
  | .nil, _, n, hn => htail n hn
  | .lit c w, hw, n + 1, hn => by
    obtain ⟨hascii, hplain, hbrace, hw⟩ := hw
    have hne : stop ≠ some c := by
      intro h
      rcases hstop with rfl | rfl
      · cases h
      · cases h
        exact hbrace (hbraces rfl) rfl
    simp only [Word.render, cons_append, length_cons] at hn ⊢
    rw [processStopOn_plain hne hplain,
      processStopOn_word env hstop hbraces hname htail w hw n (by omega), encode_ascii hascii.2, prepend_ok]
    rfl
  | .esc c w, hw, n + 1, hn => by
    obtain ⟨hascii, hw⟩ := hw
    simp only [Word.render, cons_append, length_cons] at hn ⊢
    rw [processStopOn_escape hstop hascii.1,
      processStopOn_word env hstop hbraces hname htail w hw n (by omega), encode_ascii hascii.2, prepend_ok]
    rfl
  | .single s w, hw, n + 1, hn => by
    obtain ⟨hs, hw⟩ := hw
    simp only [Word.render, cons_append, append_assoc, length_cons, length_append] at hn ⊢
    refine (if_neg (hstop.ne (by decide))).trans ?_
    rw [if_pos rfl, processSingleQuote_text hs,
      processStopOn_word env hstop hbraces hname htail w hw n (by simp; omega), prepend_ok]
    simp [Word.value]
  | .double q w, hw, n + 1, hn => by
    obtain ⟨hq, hw⟩ := hw
    simp only [Word.render, cons_append, append_assoc, length_cons, length_append] at hn ⊢
    refine (if_neg (hstop.ne (by decide))).trans ?_
    rw [if_neg (by decide), if_pos rfl, processDoubleQuote_quoted env q hq (w.render ++ tail) n (by simp; omega)]
    dsimp only
    rw [processStopOn_word env hstop hbraces hname htail w hw n (by simp; omega), prepend_ok]
    simp [Word.value]
  | .exp e w, hw, n + 1, hn => by
    obtain ⟨he, hvar, hw⟩ := hw
    simp only [Word.render, cons_append, append_assoc, length_cons, length_append] at hn ⊢
    refine (if_neg (hstop.ne (by decide))).trans ?_
    rw [if_neg (by decide), if_neg (by decide), if_pos rfl, processDollar_expansion env e he (w.render ++ tail)
      (fun h => (hvar h).append hname) n (by simp; omega)]
    dsimp only
    rw [processStopOn_word env hstop hbraces hname htail w hw n (by simp; omega), prepend_ok]
    simp [Word.value]

/-- A part in double quotes is scanned up to its closing quote. -/
theorem processDoubleQuote_quoted (env : List Bytes) : ∀ (q : Quoted), q.Legal → ∀ (tail : Bytes) (n : Nat),
    (q.render ++ ch '"' :: tail).length < n →
      processDoubleQuote env n (q.render ++ ch '"' :: tail) = .ok (q.value env, tail)
  | .nil, _, tail, n + 1, _ => by
    exact if_pos rfl
  | .lit c q, hq, tail, n + 1, hn => by
    obtain ⟨hascii, hquote, hdollar, hback, hq⟩ := hq
    simp only [Quoted.render, cons_append, length_cons] at hn ⊢
    have hrest := processDoubleQuote_quoted env q hq tail n (by omega)
    by_cases hc : c = ch '\\'
    · obtain ⟨hne, hd⟩ := hback hc
      obtain ⟨d, s, hrender⟩ := exists_cons_of_ne_nil hne
      rw [hrender, head?_cons, ne_eq, Option.some.injEq] at hd
      obtain ⟨hzero, hd'⟩ := hq.head hrender
      rw [hrender] at hrest
      subst hc
      rw [hrender, cons_append]
      refine (if_neg (by decide)).trans ?_
      rw [if_neg (by decide), if_pos rfl]
      refine (if_neg hzero).trans ((if_neg fun h => h.elim hd' hd).trans ?_)
      rw [← cons_append, hrest, prepend_ok]
      rfl
    · refine (if_neg hquote).trans ((if_neg hdollar).trans ((if_neg hc).trans ?_))
      rw [hrest, encode_ascii hascii.2, prepend_ok]
      rfl
  | .esc c q, hq, tail, n + 1, hn => by
    obtain ⟨hc, hq⟩ := hq
    have hascii : c ≠ 0 ∧ c < 128 := by
      rcases hc with rfl | rfl
      · decide
      · decide
    simp only [Quoted.render, cons_append, length_cons] at hn ⊢
    refine (if_neg (by decide)).trans ?_
    rw [if_neg (by decide), if_pos rfl]
    refine (if_neg hascii.1).trans ((if_pos hc).trans ?_)
    rw [tail_cons, processDoubleQuote_quoted env q hq tail n (by omega), headD_cons, encode_ascii hascii.2,
      prepend_ok]
    rfl
  | .exp e q, hq, tail, n + 1, hn => by
    obtain ⟨he, hvar, hq⟩ := hq
    simp only [Quoted.render, cons_append, append_assoc, length_cons, length_append] at hn ⊢
    refine (if_neg (by decide)).trans ?_
    rw [if_pos rfl, processDollar_expansion env e he (q.render ++ ch '"' :: tail)
      (fun h => (hvar h).append (endsName_cons (by decide))) n (by simp; omega)]
    dsimp only
    rw [processDoubleQuote_quoted env q hq tail n (by simp; omega), prepend_ok]
    rfl

/-- An expansion is replaced by its value. -/
theorem processDollar_expansion (env : List Bytes) : ∀ (e : Expansion), e.Legal → ∀ (tail : Bytes),
    (e.IsVar → EndsName tail) → ∀ n, (e.render ++ tail).length < n →
      processDollar env n (e.render ++ tail) = .ok (e.value env, tail)
  | .var name, _, tail, hvar, n + 1, _ => by
    have hfirst : name.first ≠ ch '{' := by
      intro h
      have hbyte := name.isNameByte (b := name.first) (by simp [Name.bytes])
      rw [h] at hbyte
      exact absurd hbyte (by decide)
    exact processDollar_name hfirst (processName_bytes name (hvar trivial)) (by simp [Name.bytes])
  | .braced name, _, tail, _, n + 1, _ => by
    simp only [Expansion.render, cons_append, append_assoc, nil_append]
    show (match (processName _).2 with | [] => _ | d :: s₂ => _) = _
    rw [processName_bytes name (endsName_cons (by decide))]
    exact if_pos rfl
  | .default name w, he, tail, _, n + 1, hn => by
    simp only [Expansion.render, cons_append, append_assoc, nil_append, length_cons, length_append] at hn ⊢
    have hword := processStopOn_word env (.inr rfl) (fun _ => rfl) (endsName_cons (by decide))
      (processStopOn_brace env tail) w he n (by simp; omega)
    rw [processDollar_modifier (processName_bytes name (endsName_cons (by decide))) hword, append_nil]
    rfl
  | .alternative name w, he, tail, _, n + 1, hn => by
    simp only [Expansion.render, cons_append, append_assoc, nil_append, length_cons, length_append] at hn ⊢
    have hword := processStopOn_word env (.inr rfl) (fun _ => rfl) (endsName_cons (by decide))
      (processStopOn_brace env tail) w he n (by simp; omega)
    rw [processDollar_modifier (processName_bytes name (endsName_cons (by decide))) hword, append_nil,
      substitute, if_pos rfl, Expansion.value]
    by_cases hempty : getEnv name.bytes env = []
    · rw [hempty, if_neg (by simp), if_pos rfl]
      rfl
    · rw [if_pos hempty, if_neg hempty]
      rfl

end

/-- `ProcessWord` makes of every word of the language what it stands for. -/
theorem processWord_render (env : List Bytes) (w : Word) (hw : w.Legal false) :
    processWord w.render env = .ok (w.value env) := by
  have hend : ∀ n, ([] : Bytes).length < n → processStopOn env n none [] = .ok ([], []) := by
    intro n hn
    obtain ⟨n, rfl⟩ : ∃ m, n = m + 1 := ⟨n - 1, by omega⟩
    rfl
  have hname : EndsName ([] : Bytes) := nofun
  have h := processStopOn_word env (.inl rfl) nofun hname hend w hw (w.render.length + 1) (by simp)
  rw [append_nil, append_nil] at h
  rw [processWord, h]
  rfl

/-- The word `a${X:-"b$Y"}'c d'`. -/
def nested : Word :=
  .lit (ch 'a') (.exp (.default ⟨ch 'X', [], by decide, by decide⟩
    (.double (.lit (ch 'b') (.exp (.var ⟨ch 'Y', [], by decide, by decide⟩) .nil)) .nil))
    (.single (text "c d") .nil))

theorem processWord_nested : nested.Legal false ∧
    processWord (text "a$\x7bX:-\"b$Y\"\x7d'c d'") [text "X=", text "Y=1=2"] = .ok (text "ab1=2c d") := by
  have hlegal : nested.Legal false := by
    simp only [nested, Word.Legal, Quoted.Legal, Expansion.Legal, Expansion.IsVar, IsAscii, EndsName]
    decide +kernel
  have hrender : nested.render = text "a$\x7bX:-\"b$Y\"\x7d'c d'" := by decide +kernel
  have hvalue : nested.value [text "X=", text "Y=1=2"] = text "ab1=2c d" := by decide +kernel
  rw [← hrender, ← hvalue]
  exact ⟨hlegal, processWord_render [text "X=", text "Y=1=2"] nested hlegal⟩

end DockerEngine.Builder
