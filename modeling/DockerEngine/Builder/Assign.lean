import DockerEngine.Builder.Parser
import DockerEngine.Builder.ShellWord

/-!
# Names and values as they are written

An `ENV` or `LABEL` instruction passes two scanners. `parseNameVal` splits its text into words and keeps quotes and
backslashes; `ProcessWord` expands each word and removes them. Both walk over bytes, and both write a byte as the
rune of that number.

ASCII values come through: written plainly if they have no special character (`nameVal_bare`), and with a
backslash before each character that is not a letter or digit whatever they are (`parse_escaped`). A value with a
byte outside ASCII gets longer.
-/

namespace DockerEngine.Builder

open Bytes List Bool Words

/-! ## Pieces of a word -/

/-- A byte that the scanner of words adds to the word, and nothing else. -/
def isOrdinary (c : UInt8) : Bool := !isSpace c && !isQuote c && c != ch '\\'

/-- The word with a text added byte by byte. -/
def Words.addAll (w : Words) (s : Bytes) : Words := { w with word := w.word ++ s.flatMap encode }

theorem Words.addAll_cons (w : Words) (c : UInt8) (s : Bytes) : w.addAll (c :: s) = (w.add c).addAll s := by
  rw [addAll, addAll, add, flatMap_cons, append_assoc]

variable {c : UInt8}

theorem scanWords_ordinary (hc : isOrdinary c) {phase : Phase}
    (hphase : phase = .spaces ∨ phase = .word) (w : Words) (s : Bytes) :
    scanWords phase w (c :: s) = scanWords .word (w.add c) s := by
  simp only [isOrdinary, and_eq_true, not_eq_true', bne_iff_ne] at hc
  obtain ⟨⟨hspace, hquote⟩, hslash⟩ := hc
  rcases hphase with rfl | rfl
  · rw [scanWords.eq_def]
    simp [hspace, hquote, hslash]
  · rw [scanWords.eq_def]
    simp [hspace, hquote, hslash]

theorem scanWords_backslash (w : Words) (c : UInt8) (s : Bytes) :
    scanWords .word w (ch '\\' :: c :: s) = scanWords .word ((w.add (ch '\\')).add c) s := by
  have hspace : isSpace (ch '\\') = false := by decide
  have hquote : isQuote (ch '\\') = false := by decide
  rw [scanWords.eq_def]
  simp [hspace, hquote]

theorem scanWords_run {t : Bytes} (ht : ∀ c ∈ t, isOrdinary c) (w : Words) (s : Bytes) :
    scanWords .word w (t ++ s) = scanWords .word (w.addAll t) s := by
  induction t generalizing w with
  | nil => simp [addAll]
  | cons c t ih =>
    rw [cons_append, scanWords_ordinary (ht c (by simp)) (.inr rfl), addAll_cons,
      ih (forall_mem_cons.mp ht).2]

/-- A word that has an equals sign ends at the next blank. -/
theorem scanWords_blank {w : Words} (hw : ch '=' ∈ w.word) (s : Bytes) :
    scanWords .word w (ch ' ' :: s) = scanWords .spaces ⟨w.words ++ [w.word], [], false⟩ s := by
  have hspace : isSpace (ch ' ') := by decide
  have hfound : w.found := by
    have hne : w.word ≠ [] := ne_nil_of_mem hw
    simp [found, hne]
  rw [scanWords.eq_def]
  simp [hspace, hw, close, hfound]

theorem scanWords_end {w : Words} (hw : ch '=' ∈ w.word) : scanWords .word w [] = w.words ++ [w.word] := by
  have hne : w.word ≠ [] := ne_nil_of_mem hw
  rw [scanWords.eq_def]
  simp [close, found, hne]

/-! ## Texts of names and values -/

/-- A character of the names that the instructions are written with. -/
def isNameChar (c : UInt8) : Bool := isAsciiLetter c || isDigit c || c == ch '_'

theorem isNameChar_lt : isNameChar c → c < 128 := byte_cases c (by decide +kernel)

/-- A byte that no scanner gives a meaning to. -/
theorem isNameChar_ordinary : isNameChar c → isOrdinary c ∧ isPlain c ∧ c ≠ ch '=' := byte_cases c (by decide +kernel)

/-- Words that are written out unchanged in their pairs. -/
theorem pairs_assigned (ps : List (Bytes × Bytes)) (h : ∀ p ∈ ps, ch '=' ∉ p.1) :
    pairs (ps.map fun p => p.1 ++ ch '=' :: p.2) = .ok (ps.flatMap fun p => [p.1, p.2]) := by
  induction ps with
  | nil => rfl
  | cons p ps ih =>
    rw [map_cons, pairs, cut_append (h p (by simp)), ih (forall_mem_cons.mp h).2]
    rfl

variable {ps : List (Bytes × Bytes)} (env : List Bytes)

/-- The arguments that are found if the words are those of pairs. -/
theorem nameVal_assigned {rest : Bytes} (key : Bytes)
    (hscan : scanWords .spaces ⟨[], [], false⟩ rest = ps.map fun p => p.1 ++ ch '=' :: p.2)
    (h : ∀ p ∈ ps, ch '=' ∉ p.1) : nameVal rest key = .ok (ps.flatMap fun p => [p.1, p.2]) := by
  have hpairs := pairs_assigned ps h
  rw [nameVal, hscan]
  cases ps with
  | nil => rfl
  | cons p ps =>
    rw [map_cons] at hpairs ⊢
    have hmem : ch '=' ∈ p.1 ++ ch '=' :: p.2 := by simp
    simp only [hmem, not_true_eq_false, if_false]
    exact hpairs

/-- Plain text is expanded to itself, byte by byte. -/
theorem processStopOn_text {s : Bytes} (h : ∀ c ∈ s, isPlain c) {n : Nat}
    (hn : s.length < n) : processStopOn env n none s = .ok (s.flatMap encode, []) := by
  induction s generalizing n with
  | nil =>
    obtain ⟨m, rfl⟩ : ∃ m, n = m + 1 := ⟨n - 1, by omega⟩
    rfl
  | cons c s ih =>
    obtain ⟨m, rfl⟩ : ∃ m, n = m + 1 := ⟨n - 1, by omega⟩
    rw [length_cons] at hn
    rw [processStopOn_plain (by simp) (h c (by simp)), ih (forall_mem_cons.mp h).2 (by omega)]
    rfl

theorem processWord_text {s : Bytes} (h : ∀ c ∈ s, isPlain c) : processWord s env = .ok (s.flatMap encode) := by
  rw [processWord, processStopOn_text env h (Nat.lt_succ_self _)]
  rfl

/-! ## Values written plainly -/

/-- White space of ASCII. -/
def isAsciiSpace (c : UInt8) : Bool := (9 ≤ c && c ≤ 13) || c == 32

/-- A byte of a value that needs no quotes: no white space of ASCII, quote, backslash, dollar sign or NUL. -/
def isBare (c : UInt8) : Bool := !isAsciiSpace c && isPlain c && c != 0

theorem isBare_ordinary : isBare c → c < 128 → isOrdinary c := byte_cases c (by decide +kernel)

theorem isBare_plain (h : isBare c) : isPlain c := by
  simp only [isBare, and_eq_true] at h
  exact h.1.2

/-- The name of a pair and the equals sign. -/
theorem scanWords_name {name : Bytes} (hname : ∀ c ∈ name, isNameChar c) (ws : List Bytes) (s : Bytes) :
    scanWords .spaces ⟨ws, [], false⟩ (name ++ ch '=' :: s) = scanWords .word ⟨ws, name ++ [ch '='], false⟩ s := by
  have hequals : isOrdinary (ch '=') := by decide
  have hascii : ∀ c ∈ name ++ [ch '='], c < 128 :=
    forall_mem_append.mpr ⟨fun c hc => isNameChar_lt (hname c hc), forall_mem_singleton.mpr (by decide)⟩
  have hordinary : ∀ c ∈ name ++ [ch '='], isOrdinary c :=
    forall_mem_append.mpr ⟨fun c hc => (isNameChar_ordinary (hname c hc)).1, forall_mem_singleton.mpr hequals⟩
  rw [append_cons]
  obtain ⟨c, t, ht⟩ := exists_cons_of_ne_nil (l := name ++ [ch '=']) (by simp)
  have hflat := flatMap_encode_ascii hascii
  rw [ht] at hordinary hflat ⊢
  have hword : (add ⟨ws, [], false⟩ c).addAll t = ⟨ws, c :: t, false⟩ := by
    rw [← addAll_cons, addAll, hflat]
    rfl
  rw [cons_append, scanWords_ordinary (hordinary c (by simp)) (.inl rfl),
    scanWords_run (forall_mem_cons.mp hordinary).2, hword]

variable {v : Bytes}

/-- A pair whose value is ASCII without special characters is one word. -/
theorem nameVal_bare {name : Bytes} (key : Bytes) (hname : ∀ c ∈ name, isNameChar c)
    (hv : ∀ c ∈ v, isBare c) (hascii : ∀ c ∈ v, c < 128) :
    nameVal (name ++ ch '=' :: v) key = .ok [name, v] := by
  have hordinary : ∀ c ∈ v, isOrdinary c := fun c hc => isBare_ordinary (hv c hc) (hascii c hc)
  have hscan : scanWords .spaces ⟨[], [], false⟩ (name ++ ch '=' :: v) = [name ++ ch '=' :: v] := by
    have hrun := scanWords_run hordinary ⟨[], name ++ [ch '='], false⟩ []
    rw [append_nil] at hrun
    rw [scanWords_name hname, hrun, scanWords_end (by simp [addAll])]
    simp [addAll, flatMap_encode_ascii hascii]
  have hno : ch '=' ∉ name := fun hm => (isNameChar_ordinary (hname _ hm)).2.2 rfl
  have hassigned : ∀ p ∈ [(name, v)], ch '=' ∉ p.1 := by
    intro p hp
    rwa [mem_singleton.mp hp]
  exact nameVal_assigned key hscan hassigned

/-! ## Values written with backslashes -/

/-- A backslash before a character that is not a letter or digit. -/
def escapeByte (c : UInt8) : Bytes := if isAsciiLetter c || isDigit c then [c] else [ch '\\', c]

def escape (v : Bytes) : Bytes := v.flatMap escapeByte

/-- Pairs with blanks between them. -/
def renderPairs : List (Bytes × Bytes) → Bytes
  | [] => []
  | [p] => p.1 ++ ch '=' :: escape p.2
  | p :: ps => p.1 ++ ch '=' :: (escape p.2 ++ ch ' ' :: renderPairs ps)

theorem scanWords_escape (hv : ∀ c ∈ v, c < 128) (ws : List Bytes) (word s : Bytes) :
    scanWords .word ⟨ws, word, false⟩ (escape v ++ s) = scanWords .word ⟨ws, word ++ escape v, false⟩ s := by
  induction v generalizing word with
  | nil => simp [escape]
  | cons c v ih =>
    have hc : encode c = [c] := encode_ascii (hv c (by simp))
    have hslash : encode (ch '\\') = [ch '\\'] := rfl
    have hrest := fun word => ih (forall_mem_cons.mp hv).2 word
    rw [escape, flatMap_cons, append_assoc, escapeByte]
    by_cases halnum : (isAsciiLetter c || isDigit c)
    · have hname : isNameChar c := by rw [isNameChar, halnum, Bool.true_or]
      rw [if_pos halnum, singleton_append, scanWords_ordinary (isNameChar_ordinary hname).1 (.inr rfl)]
      refine (hrest _).trans ?_
      simp [hc, escape]
    · rw [if_neg halnum, cons_append, cons_append, nil_append, scanWords_backslash]
      refine (hrest _).trans ?_
      simp only [add, hc, hslash, append_assoc, cons_append, nil_append, escape]

/-- The words of the rendered pairs. The induction is on the pairs, with the words before them in general. -/
theorem scanWords_renderPairs (hnames : ∀ p ∈ ps, ∀ c ∈ p.1, isNameChar c)
    (hvalues : ∀ p ∈ ps, ∀ c ∈ p.2, c < 128) (ws : List Bytes) :
    scanWords .spaces ⟨ws, [], false⟩ (renderPairs ps) = ws ++ ps.map fun p => p.1 ++ ch '=' :: escape p.2 := by
  induction ps generalizing ws with
  | nil =>
    rw [renderPairs, scanWords.eq_def]
    simp
  | cons p ps ih =>
    have hmem : ch '=' ∈ (p.1 ++ [ch '=']) ++ escape p.2 := by simp
    cases ps with
    | nil =>
      rw [renderPairs, scanWords_name (hnames p (by simp)), ← append_nil (escape p.2),
        scanWords_escape (hvalues p (by simp)), scanWords_end hmem]
      simp
    | cons q ps =>
      rw [renderPairs, scanWords_name (hnames p (by simp)), scanWords_escape (hvalues p (by simp)),
        scanWords_blank hmem, ih (forall_mem_cons.mp hnames).2 (forall_mem_cons.mp hvalues).2]
      · simp
      · simp

theorem processStopOn_escaped (hv : ∀ c ∈ v, c < 128 ∧ c ≠ 0) {n : Nat}
    (hn : (escape v).length < n) : processStopOn env n none (escape v) = .ok (v, []) := by
  induction v generalizing n with
  | nil =>
    obtain ⟨m, rfl⟩ : ∃ m, n = m + 1 := ⟨n - 1, by omega⟩
    rfl
  | cons c v ih =>
    obtain ⟨m, rfl⟩ : ∃ m, n = m + 1 := ⟨n - 1, by omega⟩
    obtain ⟨hascii, hzero⟩ := hv c (by simp)
    have hrest := fun hm => ih (forall_mem_cons.mp hv).2 (n := m) hm
    rw [escape, flatMap_cons, escapeByte] at hn ⊢
    by_cases halnum : (isAsciiLetter c || isDigit c)
    · have hname : isNameChar c := by rw [isNameChar, halnum, Bool.true_or]
      rw [if_pos halnum, singleton_append] at hn ⊢
      rw [length_cons] at hn
      rw [processStopOn_plain (by simp) (isNameChar_ordinary hname).2.1, encode_ascii hascii]
      exact congrArg (prepend [c]) (hrest (by rw [escape]; omega))
    · rw [if_neg halnum, cons_append, singleton_append] at hn ⊢
      rw [length_cons, length_cons] at hn
      rw [processStopOn_escape (.inl rfl) hzero, encode_ascii hascii]
      exact congrArg (prepend [c]) (hrest (by rw [escape]; omega))

theorem nameVal_renderPairs (key : Bytes)
    (hnames : ∀ p ∈ ps, ∀ c ∈ p.1, isNameChar c) (hvalues : ∀ p ∈ ps, ∀ c ∈ p.2, c < 128) :
    nameVal (renderPairs ps) key = .ok (ps.flatMap fun p => [p.1, escape p.2]) := by
  have hscan := scanWords_renderPairs hnames hvalues []
  rw [nil_append] at hscan
  have hno : ∀ p ∈ ps.map fun p => (p.1, escape p.2), ch '=' ∉ p.1 := by
    intro p hp hm
    obtain ⟨q, hq, rfl⟩ := mem_map.mp hp
    exact (isNameChar_ordinary (hnames q hq _ hm)).2.2 rfl
  have h : nameVal (renderPairs ps) key = .ok ((ps.map fun p => (p.1, escape p.2)).flatMap fun p => [p.1, p.2]) :=
    nameVal_assigned key (by rw [hscan, map_map]; rfl) hno
  rw [h, flatMap_map]

/-- Rendered pairs are parsed to the names and the escaped values, and an escaped value is expanded to the
value. -/
theorem parse_escaped (ps : List (Bytes × Bytes)) (hnames : ∀ p ∈ ps, ∀ c ∈ p.1, isNameChar c = true)
    (hvalues : ∀ p ∈ ps, ∀ c ∈ p.2, c < 128 ∧ c ≠ 0) :
    parseEnv (renderPairs ps) = .ok (chain (ps.flatMap fun p => [p.1, escape p.2]), false) ∧
      parseLabel (renderPairs ps) = .ok (chain (ps.flatMap fun p => [p.1, escape p.2]), false) ∧
      ∀ p ∈ ps, ∀ env, processWord (escape p.2) env = .ok p.2 := by
  have hargs := fun key => nameVal_renderPairs key hnames fun p hp c hc => (hvalues p hp c hc).1
  refine ⟨?_, ?_, fun p hp env => ?_⟩
  · rw [parseEnv, parseNameVal, hargs]
    rfl
  · rw [parseLabel, parseNameVal, hargs]
    rfl
  · rw [processWord, processStopOn_escaped env (hvalues p hp) (Nat.lt_succ_self _)]
    rfl

/-- A value with a blank, an equals sign, a dollar sign, a quote and a backslash, and an empty one. -/
theorem parse_escaped_special :
    parseEnv (renderPairs [(text "A", text "a =$\"\\"), (text "B_1", [])]) =
      .ok (chain [text "A", text "a\\ \\=\\$\\\"\\\\", text "B_1", []], false) :=
  (parse_escaped [(text "A", text "a =$\"\\"), (text "B_1", [])] (by decide +kernel)
    (by decide +kernel)).1

end DockerEngine.Builder
