import DockerEngine.Builder.Parser

/-!
# Parsing a Dockerfile

`parser.Parse` reads a text line by line. A line that ends in a backslash is joined with the next one that is
neither blank nor a comment, and what the joined text parses to becomes a child of the root. Two loops share the
scanner; here they are one recursion over the lines, with the text that waits to be joined, if the inner loop
runs.

What the lines of a text mean is said by `logicalLines`. The nodes are those of the logical lines that do not end
in a continuation themselves (`parse_originals`). Such a line is the last one of a text that ends in two
continuations: one is removed where the scanner meets the end of the text, and the second makes `parseLine`
return no node.
-/

namespace DockerEngine.Builder

open Bytes Outcome List

/-! ## The scanner -/

/-- The pieces between line feeds, without an empty last one; `line` is the beginning of the first. -/
def rawLinesFrom : Bytes → Bytes → List Bytes
  | line, [] => if line = [] then [] else [line]
  | line, c :: s => if c = ch '\n' then line :: rawLinesFrom [] s else rawLinesFrom (line ++ [c]) s

def rawLines (s : Bytes) : List Bytes := rawLinesFrom [] s

/-- A carriage return at the end of a line is dropped. -/
def dropCR (line : Bytes) : Bytes := if line.getLast? = some (ch '\r') then line.dropLast else line

/-- The size of the scanner's buffer, `bufio.MaxScanTokenSize`. -/
def maxScanTokenSize : Nat := 64 * 1024

/-- The lines that the scanner delivers: it stops at one that does not fit into its buffer. -/
def scanLines (s : Bytes) : List Bytes := ((rawLines s).takeWhile fun l => l.length < maxScanTokenSize).map dropCR

/-! ## The parser -/

/-- The loops of `Parse`; the first argument is the text to be joined while the inner one runs. -/
def parseLines (go : Go) : Option Bytes → List Bytes → Except ParseErr (List Node)
  | none, [] => .ok []
  | some line, [] => if line = [] then .ok [] else (parseLine go line).map fun p => p.2.toList
  | none, l :: ls =>
    match parseLine go (trimLeft l) with
    | .error e => .error e
    | .ok (_, some node) => (parseLines go none ls).map (node :: ·)
    | .ok (line, none) => if line = [] then parseLines go none ls else parseLines go (some line) ls
  | some line, l :: ls =>
    if stripComments (trimSpace l) = [] then parseLines go (some line) ls
    else
      match parseLine go (line ++ l) with
      | .error e => .error e
      | .ok (_, some node) => (parseLines go none ls).map (node :: ·)
      | .ok (line', none) => parseLines go (some line') ls

/-- `Parse`: the root has the nodes as its children. -/
def parse (go : Go) (s : Bytes) : Except ParseErr Node :=
  (parseLines go none (scanLines s)).map fun nodes => .mk [] none (nodes.map some) false [] []

/-! ## Logical lines -/

/-- A line that is blank, or a comment. -/
def Dropped (l : Bytes) : Prop := stripComments (trimSpace l) = []

instance : DecidablePred Dropped := fun _ => inferInstanceAs (Decidable (_ = _))

/-- A line behind the text that waits for it. Without such a text the line is the first of a logical line. -/
def attach (line l : Bytes) : Bytes := if line = [] then trimLeft l else line ++ l

/-- Lines joined at continuations; `line` is the text that waits for the next one. A continuation before the
end of the text joins with nothing. -/
def joinLines : Bytes → List Bytes → List Bytes
  | line, [] => if line = [] then [] else [line]
  | line, l :: ls =>
    if continued (attach line l) then joinLines (uncontinue (attach line l)) ls
    else attach line l :: joinLines [] ls

/-- The logical lines: blank lines and comments dropped, the others joined. -/
def logicalLines (ls : List Bytes) : List Bytes := joinLines [] (ls.filter fun l => ¬ Dropped l)

/-! ## What a line parses to -/

/-- The node of a logical line. -/
def instruction (go : Go) (line : Bytes) : Except ParseErr Node := parseNode go (parseLineIn go line.length) line

variable {go : Go} {line : Bytes}

variable {s : Bytes}

theorem stripComments_eq_nil : stripComments s = [] ↔ s.head? = none ∨ s.head? = some (ch '#') := by
  rw [stripComments]
  split
  next h => simp [h]
  next h => simp [h]

/-- Only the beginning of a line decides if it is dropped, and trimming at its end leaves that. -/
theorem dropped_iff (l : Bytes) : Dropped l ↔ stripComments (trimLeft l) = [] := by
  rw [Dropped, stripComments_eq_nil, stripComments_eq_nil, head_trimSpace]

/-- A text that can wait to be joined: it is not empty, and not a comment. -/
def Waiting (line : Bytes) : Prop := stripComments line ≠ []

theorem Waiting.ne_nil (h : Waiting line) : line ≠ [] := by
  rintro rfl
  exact h rfl

theorem Waiting.parseLine_continued (go : Go) (hw : Waiting line)
    (h : continued line) : parseLine go line = .ok (uncontinue line, none) := by
  rw [parseLine_eq, if_neg hw, if_pos h]

theorem Waiting.parseLine_complete (go : Go) (hw : Waiting line) (h : continued line = false) :
    parseLine go line = (instruction go line).map fun node => ([], some node) := by
  rw [parseLine_eq, if_neg hw, if_neg (Bool.eq_false_iff.mp h)]
  rfl

/-- The beginning of a text decides if it can wait. -/
theorem waiting_iff_of_begins {a b : Bytes} (hab : a <+: b) (ha : a ≠ []) : Waiting b ↔ Waiting a := by
  obtain ⟨t, rfl⟩ := hab
  obtain ⟨c, u, rfl⟩ := exists_cons_of_ne_nil ha
  rw [Waiting, Waiting, ne_eq, ne_eq, stripComments_eq_nil, stripComments_eq_nil]
  rfl

theorem Waiting.append (h : Waiting line) (l : Bytes) : Waiting (line ++ l) :=
  (waiting_iff_of_begins (prefix_append line l) h.ne_nil).mpr h

theorem Waiting.uncontinue (h : Waiting line) (hne : uncontinue line ≠ []) : Waiting (uncontinue line) :=
  (waiting_iff_of_begins (( dropLast_prefix _).trans ( rdropWhile_prefix _ _)) hne).mp h

variable {l : Bytes}

theorem dropped_of_blank (h : ∀ b ∈ l, isBlank b) : Dropped l := by
  rw [dropped_iff]
  cases ht : trimLeft l with
  | nil => rfl
  | cons c t =>
    -- the first byte left would be a space or a tab, which trimming removes
    have hmem : c ∈ trimLeft l := by
      rw [ht]
      exact mem_cons_self
    have hc : isBlank c := h c ((dropSpaces_suffix _ l).mem hmem)
    have hspace : [c] ∈ spaces := by
      simp only [isBlank, Bool.or_eq_true, beq_iff_eq] at hc
      rcases hc with rfl | rfl <;> decide
    refine (trimLeft_begins (s := l) hspace ?_).elim
    rw [ht]
    exact ⟨t, rfl⟩

/-- Something is left of a waiting text with a line behind it: the line has more than its continuation. -/
theorem uncontinue_append_ne_nil (hw : Waiting line) (hl : ¬ Dropped l)
    (hk : continued (line ++ l)) : uncontinue (line ++ l) ≠ [] := by
  intro hnil
  rw [continued, beq_iff_eq] at hk
  rw [uncontinue] at hnil
  have hlast := dropLast_append_getLast? _ hk
  rw [hnil, nil_append] at hlast
  obtain ⟨c, s, rfl⟩ := exists_cons_of_ne_nil hw.ne_nil
  apply hl
  apply dropped_of_blank
  intro d hd
  have hsplit : [ch '\\'] ++ (c :: s ++ l).rtakeWhile isBlank = c :: s ++ l := by
    rw [hlast]
    exact rdropWhile_append_rtakeWhile
  have htail : (c :: s ++ l).rtakeWhile isBlank = s ++ l := (cons.inj hsplit).2
  have hmem : d ∈ (c :: s ++ l).rtakeWhile isBlank := by
    rw [htail]
    exact mem_append_right s hd
  exact mem_rtakeWhile_imp hmem

/-! ## One node for each logical line -/

/-- Where the loops are with a text that may be waiting. -/
def pending (line : Bytes) : Option Bytes := if line = [] then none else some line

theorem pending_nil : pending [] = none := rfl

theorem Waiting.pending (h : Waiting line) : pending line = some line := if_neg h.ne_nil

theorem attach_waiting (hw : line = [] ∨ Waiting line) (hl : ¬ Dropped l) : Waiting (attach line l) := by
  rcases hw with rfl | hw
  · rw [attach, if_pos rfl]
    exact fun h => hl ((dropped_iff l).mpr h)
  · rw [attach, if_neg hw.ne_nil]
    exact hw.append l

theorem parseLines_continued (go : Go) (ls : List Bytes) (hw : line = [] ∨ Waiting line)
    (hl : ¬ Dropped l) (hk : continued (attach line l)) :
    parseLines go (pending line) (l :: ls) = parseLines go (pending (uncontinue (attach line l))) ls := by
  have hline := (attach_waiting hw hl).parseLine_continued go hk
  rcases hw with rfl | hw
  · rw [attach, if_pos rfl] at hline
    rw [attach, if_pos rfl, pending_nil, parseLines, hline, pending]
    exact (apply_ite (fun o => parseLines go o ls) _ _ _).symm
  · rw [attach, if_neg hw.ne_nil] at hline hk ⊢
    have hne := uncontinue_append_ne_nil hw hl hk
    rw [hw.pending, parseLines, hline, pending, if_neg hne]
    exact if_neg hl

theorem parseLines_complete (go : Go) (ls : List Bytes) (hw : line = [] ∨ Waiting line)
    (hl : ¬ Dropped l) (hk : continued (attach line l) = false) :
    parseLines go (pending line) (l :: ls) =
      (do
        let node ← instruction go (attach line l)
        let nodes ← parseLines go none ls
        return node :: nodes) := by
  have hline := (attach_waiting hw hl).parseLine_complete go hk
  rcases hw with rfl | hw
  · rw [attach, if_pos rfl] at hline ⊢
    rw [pending_nil, parseLines, hline]
    cases instruction go (trimLeft l) with
    | error e => rfl
    | ok node => cases parseLines go none ls <;> rfl
  · rw [attach, if_neg hw.ne_nil] at hline ⊢
    rw [hw.pending, parseLines, hline]
    refine (if_neg hl).trans ?_
    cases instruction go (line ++ l) with
    | error e => rfl
    | ok node => cases parseLines go none ls <;> rfl

/-- The joined lines that are parsed: a line that still ends in a continuation gives no node. -/
def complete (ls : List Bytes) : List Bytes := ls.filter fun l => !continued l

/-- The loops parse the joined lines one after the other. The induction is on the lines, with the text that
waits in general. -/
theorem parseLines_eq (go : Go) (ls : List Bytes) (hw : line = [] ∨ Waiting line) :
    parseLines go (pending line) ls =
      (complete (joinLines line (ls.filter fun l => ¬ Dropped l))).mapM (instruction go) := by
  induction ls generalizing line with
  | nil =>
    rcases hw with rfl | hw
    · rfl
    rw [hw.pending, parseLines, if_neg hw.ne_nil, filter_nil, joinLines, if_neg hw.ne_nil, complete]
    cases hk : continued line with
    | true =>
      rw [hw.parseLine_continued go hk, filter_cons_of_neg (by simp [hk])]
      rfl
    | false =>
      rw [hw.parseLine_complete go hk, filter_cons_of_pos (by simp [hk])]
      cases hi : instruction go line <;> simp [hi, Except.map]
  | cons l ls ih =>
    by_cases hl : Dropped l
    · rw [filter_cons_of_neg (by simp [hl]), ← ih hw]
      rcases hw with rfl | hw
      · rw [pending_nil, parseLines, parseLine_eq, if_pos ((dropped_iff l).mp hl)]
        exact if_pos rfl
      · rw [hw.pending, parseLines]
        exact if_pos hl
    rw [filter_cons_of_pos (by simp [hl]), joinLines]
    have hattach := attach_waiting hw hl
    cases hk : continued (attach line l) with
    | true =>
      rw [parseLines_continued go ls hw hl hk, if_pos rfl]
      apply ih
      by_cases hne : uncontinue (attach line l) = []
      · exact .inl hne
      · exact .inr (hattach.uncontinue hne)
    | false =>
      rw [parseLines_complete go ls hw hl hk, if_neg Bool.false_ne_true, complete,
        filter_cons_of_pos (by simp [hk]), mapM_cons, ← pending_nil, ih (.inl rfl)]
      rfl

/-- The nodes under the root, from the logical lines of what the scanner delivers. -/
theorem parse_children {root : Node} (h : parse go s = .ok root) :
    ∃ nodes, (complete (logicalLines (scanLines s))).mapM (instruction go) = .ok nodes ∧
      root = .mk [] none (nodes.map some) false [] [] := by
  have heq := parseLines_eq go (scanLines s) (.inl rfl : ([] : Bytes) = [] ∨ Waiting [])
  rw [pending_nil] at heq
  rw [parse, heq] at h
  change Except.map _ ((complete (logicalLines (scanLines s))).mapM (instruction go)) = _ at h
  obtain ⟨nodes, hnodes, rfl⟩ := map_eq_ok h
  exact ⟨nodes, hnodes, rfl⟩

theorem parse_originals {root : Node} (h : parse go s = .ok root) :
    root.children.map (Option.map Node.original) = (complete (logicalLines (scanLines s))).map some := by
  obtain ⟨nodes, hnodes, rfl⟩ := parse_children h
  have hall : List.Forall₂ (· = ·) (complete (logicalLines (scanLines s))) (nodes.map Node.original) := by
    refine forall₂_map_right_iff.mpr ((mapM_eq_ok hnodes).imp fun _ _ hl => ?_)
    obtain ⟨p, -, rfl⟩ := map_eq_ok hl
    rfl
  rw [forall₂_eq_eq_eq] at hall
  rw [hall]
  simp [Node.children]

/-- Lines that fit into the buffer are all delivered. -/
theorem scanLines_short (h : ∀ l ∈ rawLines s, l.length < maxScanTokenSize) :
    scanLines s = (rawLines s).map dropCR := by
  have hall : ∀ l ∈ rawLines s, decide (l.length < maxScanTokenSize) := by simpa using h
  rw [scanLines, takeWhile_eq_self_iff.mpr hall]

/-- The root has one child for each logical line exactly if no logical line ends in a continuation. -/
theorem one_node_per_line (go : Go) (s : Bytes) (root : Node)
    (hshort : ∀ l ∈ rawLines s, l.length < maxScanTokenSize) (h : parse go s = .ok root) :
    root.children.map (Option.map Node.original) = (logicalLines ((rawLines s).map dropCR)).map some ↔
      ∀ l ∈ logicalLines ((rawLines s).map dropCR), continued l = false := by
  rw [parse_originals h, scanLines_short hshort, map_inj_right fun _ _ => Option.some.inj,
    complete, filter_eq_self]
  simp only [Bool.not_eq_true']

/-- A text with a comment and a blank line between the parts of an instruction, and a backslash at its end. -/
def joined : Bytes := text "FROM a\nRUN b \\\n\n# c\n  d \\ \n"

theorem one_node_per_line_joined :
    logicalLines ((rawLines joined).map dropCR) = [text "FROM a", text "RUN b   d "] ∧
      ∃ root, parse plainGo joined = .ok root ∧
        root.children.map (Option.map Node.original) = (logicalLines ((rawLines joined).map dropCR)).map some := by
  refine ⟨by decide +kernel, ?_⟩
  have hok : (parse plainGo joined).isOk = true := by decide +kernel
  obtain ⟨root, h⟩ := exists_of_isOk hok
  exact ⟨root, h, (one_node_per_line plainGo joined root (by decide +kernel) h).mpr (by decide +kernel)⟩

/-- Two backslashes at the end of the text: the instruction is lost. -/
theorem instruction_lost :
    logicalLines ((rawLines (text "RUN foo \\\\")).map dropCR) = [text "RUN foo \\"] ∧
      (parse plainGo (text "RUN foo \\\\")).map (fun root => root.children.length) = .ok 0 := by
  decide +kernel

/-! ## What is left unread -/

/-- What is read: the text, and how much of it if the reader fails. -/
structure Reader where
  content : Bytes
  failsAt : Option Nat

/-- What the scanner gets to see. It delivers the beginning of a line before a failure. -/
def Reader.delivered (r : Reader) : Bytes :=
  match r.failsAt with
  | none => r.content
  | some n => r.content.take n

/-- A line that the scanner can deliver. -/
def fits (l : Bytes) : Bool := l.length < maxScanTokenSize

/-- What one line adds in the loops of `Parse`: a node, or text to be joined. -/
def parseRound (go : Go) : Option Bytes → Bytes → Except ParseErr (Option Node × Option Bytes)
  | none, l => (parseLine go (trimLeft l)).map fun p =>
      match p with
      | (_, some node) => (some node, none)
      | (line, none) => (none, if line = [] then none else some line)
  | some line, l =>
    if stripComments (trimSpace l) = [] then .ok (none, some line)
    else (parseLine go (line ++ l)).map fun p =>
      match p with
      | (_, some node) => (some node, none)
      | (line', none) => (none, some line')

/-- `Parse` on the scanner: the nodes, and the lines that are left in it. `Scan` is false at the end and at a line
that does not fit, and `Parse` does not ask which it was. -/
def parseScan (go : Go) : Option Bytes → List Bytes → Except ParseErr (List Node × List Bytes)
  | waiting, [] => (parseLines go waiting []).map fun nodes => (nodes, [])
  | waiting, l :: ls =>
    if fits l then
      match parseRound go waiting (dropCR l) with
      | .error e => .error e
      | .ok (node, waiting') => (parseScan go waiting' ls).map fun p => (node.toList ++ p.1, p.2)
    else (parseLines go waiting []).map fun nodes => (nodes, l :: ls)

theorem map_nil_append (x : Except ParseErr (List Node)) : (x.map fun nodes => [] ++ nodes) = x := by
  cases x with
  | error e => rfl
  | ok nodes => rfl

theorem parseLines_cons (waiting : Option Bytes) (l : Bytes) (ls : List Bytes) :
    parseLines go waiting (l :: ls) =
      match parseRound go waiting l with
      | .error e => .error e
      | .ok (node, waiting') => (parseLines go waiting' ls).map fun nodes => node.toList ++ nodes := by
  cases waiting with
  | none =>
    rw [parseLines, parseRound]
    rcases parseLine go (trimLeft l) with e | ⟨line, _ | node⟩
    · rfl
    · refine Eq.trans ?_ (map_nil_append _).symm
      by_cases hline : line = []
      · simp [hline]
      · simp [hline]
    · rfl
  | some line =>
    rw [parseLines, parseRound]
    split
    · exact (map_nil_append _).symm
    rcases parseLine go (line ++ l) with e | ⟨line', _ | node⟩
    · rfl
    · exact (map_nil_append _).symm
    · rfl

/-- The lines from the first one that does not fit are left. -/
theorem parseScan_eq (waiting : Option Bytes) (ls : List Bytes) :
    parseScan go waiting ls =
      (parseLines go waiting ((ls.takeWhile fits).map dropCR)).map fun nodes => (nodes, ls.dropWhile fits) := by
  induction ls generalizing waiting with
  | nil => rfl
  | cons l ls ih =>
    rw [parseScan]
    split
    next hl =>
      rw [takeWhile_cons_of_pos hl, dropWhile_cons_of_pos hl, map_cons, parseLines_cons]
      rcases parseRound go waiting (dropCR l) with e | ⟨node, waiting'⟩
      · rfl
      dsimp only
      rw [ih]
      cases parseLines go waiting' ((ls.takeWhile fits).map dropCR) with
      | error e => rfl
      | ok nodes => rfl
    next hl => rw [takeWhile_cons_of_neg hl, dropWhile_cons_of_neg hl, map_nil]

/-- `Parse` and the lines it has left. -/
theorem parse_eq_parseScan : parse go s = (parseScan go none (rawLines s)).map fun p =>
    .mk [] none (p.1.map some) false [] [] := by
  rw [parseScan_eq, parse]
  show (parseLines go none (scanLines s)).map _ = ((parseLines go none (scanLines s)).map _).map _
  cases parseLines go none (scanLines s) with
  | error e => rfl
  | ok nodes => rfl

/-- Every line of the content was read. -/
def Reader.ReadBy (r : Reader) (left : List Bytes) : Prop := r.delivered = r.content ∧ left = []

/-- A Dockerfile that is accepted was read to its end exactly if the reader gave all of it and all lines fit. -/
theorem parse_reads_all_iff (go : Go) (r : Reader) (root : Node) (h : parse go r.delivered = .ok root) :
    ∃ nodes left, parseScan go none (rawLines r.delivered) = .ok (nodes, left) ∧
      (r.ReadBy left ↔ r.delivered = r.content ∧ ∀ l ∈ rawLines r.content, l.length < maxScanTokenSize) := by
  rw [parse_eq_parseScan] at h
  obtain ⟨⟨nodes, left⟩, hscan, -⟩ := map_eq_ok h
  refine ⟨nodes, left, hscan, and_congr_right fun hall => ?_⟩
  rw [parseScan_eq] at hscan
  obtain ⟨_, -, hleft⟩ := map_eq_ok hscan
  rw [← (Prod.mk.inj hleft).2, hall, dropWhile_eq_nil_iff]
  simp [fits]

theorem parse_reads_all_joined : ∃ nodes left, parseScan plainGo none (rawLines joined) = .ok (nodes, left) ∧
    Reader.ReadBy ⟨joined, none⟩ left := by
  have hok : (parse plainGo joined).isOk = true := by decide +kernel
  obtain ⟨root, h⟩ := exists_of_isOk hok
  obtain ⟨nodes, left, hscan, hread⟩ := parse_reads_all_iff plainGo ⟨joined, none⟩ root h
  exact ⟨nodes, left, hscan, hread.mpr ⟨rfl, by decide +kernel⟩⟩

/-- A Dockerfile whose reader fails behind its first line. -/
def cutOff : Reader := ⟨text "FROM a\nRUN b\n", some 7⟩

theorem parse_accepts_cutOff : cutOff.delivered ≠ cutOff.content ∧
    (parse plainGo cutOff.delivered).map (fun root => root.children.length) = .ok 1 := by
  decide +kernel

end DockerEngine.Builder
