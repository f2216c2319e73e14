import Mathlib

/-!
# Shell file name patterns

Patterns as Go documents them for `filepath.Match`: `*` and `?` stand for characters other than the separator, a
character class for one character that is in it, or is not. A pattern has to match the whole name. A pattern that
cannot be read matches nothing and is reported.

A class may have the separator in it, and a negated one has it unless it is named. So a pattern may match a name
with another number of elements than its own. Without a class it cannot (`match_count`).
-/

namespace DockerEngine.Glob

open List

/-- A piece of a pattern. -/
inductive Term where
  | star
  | any
  | cls (negated : Bool) (ranges : List (Char × Char))
  | lit (c : Char)
  deriving DecidableEq, Repr

/-! ## Reading a pattern -/

/-- One end of a range, which may be written with a backslash. -/
def readChar (s : List Char) : Option (Char × List Char) :=
  match s with
  | [] => none
  | c :: s =>
    if c = '-' ∨ c = ']' then none
    else if c = '\\' then s.head?.map fun d => (d, s.tail)
    else some (c, s)

/-- The ranges of a class up to its closing bracket, of which there has to be one at least; the first argument
bounds their number. -/
def readRanges : Nat → Bool → List Char → Option (List (Char × Char) × List Char)
  | 0, _, _ => none
  | n + 1, first, s =>
    if !first ∧ s.head? = some ']' then some ([], s.tail)
    else
      match readChar s with
      | none => none
      | some (lo, s₁) =>
        if s₁.head? = some '-' then
          match readChar s₁.tail with
          | none => none
          | some (hi, s₂) => (readRanges n false s₂).map fun p => ((lo, hi) :: p.1, p.2)
        else (readRanges n false s₁).map fun p => ((lo, lo) :: p.1, p.2)

/-- The pieces of a pattern; the first argument bounds their number. -/
def readTerms : Nat → List Char → Option (List Term)
  | _, [] => some []
  | 0, _ :: _ => none
  | n + 1, c :: s =>
    if c = '*' then (readTerms n s).map (.star :: ·)
    else if c = '?' then (readTerms n s).map (.any :: ·)
    else if c = '[' then
      match readRanges s.length true (if s.head? = some '^' then s.tail else s) with
      | none => none
      | some (rs, rest) => (readTerms n rest).map (.cls (s.head? == some '^') rs :: ·)
    else if c = '\\' then
      match s.head? with
      | none => none
      | some d => (readTerms n s.tail).map (.lit d :: ·)
    else (readTerms n s).map (.lit c :: ·)

/-! ## Matching -/

/-- A character is in one of the ranges. -/
def inRanges (c : Char) (rs : List (Char × Char)) : Bool := rs.any fun r => r.1 ≤ c && c ≤ r.2

/-- The pieces match the whole name. -/
def matchTerms : List Term → List Char → Bool
  | [], s => s.isEmpty
  | .star :: ts, s =>
    (range (s.length + 1)).any fun i => decide ('/' ∉ s.take i) && matchTerms ts (s.drop i)
  | .any :: ts, s =>
    match s with
    | [] => false
    | c :: s => c != '/' && matchTerms ts s
  | .cls negated rs :: ts, s =>
    match s with
    | [] => false
    | c :: s => inRanges c rs != negated && matchTerms ts s
  | .lit d :: ts, s =>
    match s with
    | [] => false
    | c :: s => c == d && matchTerms ts s

/-- `filepath.Match`; `none` is the error for a malformed pattern. -/
def globMatch (pattern name : List Char) : Option Bool :=
  (readTerms pattern.length pattern).map fun ts => matchTerms ts name

/-! ## Separators -/

/-- How many separators a piece is. -/
def Term.separators : Term → Nat
  | .lit c => if c = '/' then 1 else 0
  | _ => 0

def Term.isClass : Term → Bool
  | .cls _ _ => true
  | _ => false

variable {ts : List Term} {p s : List Char}

/-- A pattern that is read without meeting a bracket has no class, and has its separators in its pieces. -/
theorem readTerms_plain {n : Nat} (hp : '[' ∉ p) (h : readTerms n p = some ts) :
    (∀ t ∈ ts, t.isClass = false) ∧ (ts.map Term.separators).sum = p.count '/' := by
  induction n generalizing p ts with
  | zero =>
    cases p with
    | nil =>
      cases h
      simp
    | cons c s => cases h
  | succ n ih =>
    cases p with
    | nil =>
      cases h
      simp
    | cons c s =>
      have hs : '[' ∉ s := fun hm => hp (mem_cons_of_mem _ hm)
      have hc : c ≠ '[' := fun hc => hp (hc ▸ mem_cons_self)
      -- a piece that is no class, in front of what the rest of the pattern is read to
      have hcons : ∀ {t : Term} {q : List Char}, t.isClass = false → '[' ∉ q →
          (readTerms n q).map (t :: ·) = some ts → t.separators + q.count '/' = (c :: s).count '/' →
          (∀ t ∈ ts, t.isClass = false) ∧ (ts.map Term.separators).sum = (c :: s).count '/' := by
        intro t q ht hq hread hcount
        obtain ⟨us, hus, rfl⟩ := Option.map_eq_some_iff.mp hread
        obtain ⟨hclass, hsum⟩ := ih hq hus
        refine ⟨forall_mem_cons.mpr ⟨ht, hclass⟩, ?_⟩
        rw [map_cons, sum_cons, hsum, hcount]
      rw [readTerms, if_neg hc] at h
      split at h
      next hstar => exact hcons rfl hs h (by simp [Term.separators, hstar])
      split at h
      next hany => exact hcons rfl hs h (by simp [Term.separators, hany])
      split at h
      next hslash =>
        cases s with
        | nil => cases h
        | cons d s =>
          have htail : '[' ∉ s := fun hm => hs (mem_cons_of_mem _ hm)
          refine hcons (t := .lit d) rfl htail h ?_
          simp [Term.separators, hslash, count_cons, Nat.add_comm]
      · exact hcons (t := .lit c) rfl hs h (by simp [Term.separators, count_cons, Nat.add_comm])

/-- Pieces that are no classes match names with as many separators as they are. -/
theorem matchTerms_count (hts : ∀ t ∈ ts, t.isClass = false)
    (h : matchTerms ts s) : s.count '/' = (ts.map Term.separators).sum := by
  induction ts generalizing s with
  | nil =>
    rw [matchTerms, List.isEmpty_iff] at h
    simp [h]
  | cons t ts ih =>
    have hrest := fun {s} => ih (s := s) (forall_mem_cons.mp hts).2
    rw [map_cons, sum_cons]
    cases t with
    | star =>
      rw [matchTerms, any_eq_true] at h
      obtain ⟨i, _, hi⟩ := h
      rw [Bool.and_eq_true, decide_eq_true_eq] at hi
      have hsplit : s.count '/' = (s.take i).count '/' + (s.drop i).count '/' := by
        rw [← count_append, take_append_drop]
      rw [hsplit, count_eq_zero_of_not_mem hi.1, hrest hi.2]
      rfl
    | any =>
      cases s with
      | nil => cases h
      | cons c s =>
        simp only [matchTerms, Bool.and_eq_true, bne_iff_ne] at h
        rw [count_cons_of_ne h.1, hrest h.2]
        simp [Term.separators]
    | cls negated rs => exact absurd (hts _ mem_cons_self) (by simp [Term.isClass])
    | lit d =>
      cases s with
      | nil => cases h
      | cons c s =>
        simp only [matchTerms, Bool.and_eq_true, beq_iff_eq] at h
        rw [count_cons, hrest h.2, h.1, Nat.add_comm]
        simp [Term.separators]

/-- A pattern without a bracket matches only names with as many separators as it has. -/
theorem match_count (hp : '[' ∉ p) (h : globMatch p s = some true) : s.count '/' = p.count '/' := by
  obtain ⟨ts, hts, hmatch⟩ := Option.map_eq_some_iff.mp h
  obtain ⟨hclass, hsum⟩ := readTerms_plain hp hts
  rw [matchTerms_count hclass hmatch, hsum]

end DockerEngine.Glob
