import Mathlib

/-!
# Words inside texts

When a text can be cut in two ways at a word. Words that do not start inside each other stand either at
the same place or one behind the other (`append_word_cases`), so that a text cut at a word can be cut
elsewhere only if the word occurs in what is before it or in what is behind it.

`span_unique` and `last_span_unique` are the cuts at the end of a run of characters of one kind.
-/

namespace DockerEngine.Words

open List

variable {α : Type}

/-- No text that begins with `w'` begins inside `w`, behind its first letter. -/
def NoStart (w w' : List α) : Prop := ∀ d e, w = d ++ e → d ≠ [] → e ≠ [] → ¬ e <+: w' ∧ ¬ w' <+: e

instance decidableNoStart [DecidableEq α] (w w' : List α) : Decidable (NoStart w w') :=
  decidable_of_iff (∀ n < w.length, n = 0 ∨ ¬ w.drop n <+: w' ∧ ¬ w' <+: w.drop n) <| by
    constructor
    · rintro h d e rfl hd he
      have hlen := length_pos_iff.mpr he
      have hd' := length_pos_iff.mpr hd
      have := h d.length (by rw [length_append]; omega)
      rw [drop_left] at this
      exact this.resolve_left (by omega)
    · intro h n hn
      refine or_iff_not_imp_left.mpr fun hne => ?_
      refine h (w.take n) (w.drop n) (take_append_drop n w).symm ?_ ?_
      · rw [← length_pos_iff, length_take]
        omega
      · rw [← length_pos_iff, length_drop]
        omega

variable {p : α → Bool} {sep c' c : α} {s w' b' n' r' w b n r : List α}

/-- The second of two words begins where the first does, or behind it. -/
theorem append_word_right {d : List α} (hw : NoStart w w')
    (h : w ++ b = d ++ (w' ++ b')) : d = [] ∨ ∃ c, d = w ++ c ∧ b = c ++ (w' ++ b') := by
  obtain ⟨c, hd, hb⟩ | ⟨e, hwe, hb⟩ := append_eq_append_iff.mp h
  · exact .inr ⟨c, hd, hb⟩
  by_cases hd : d = []
  · exact .inl hd
  by_cases he : e = []
  · rw [he, append_nil] at hwe
    rw [he, nil_append] at hb
    exact .inr ⟨[], by rw [hwe, append_nil], hb.symm⟩
  · -- then the second word starts inside the first
    have hno := hw d e hwe hd he
    obtain ⟨x, hx, -⟩ | ⟨x, hx, -⟩ := append_eq_append_iff.mp hb
    · exact absurd ⟨x, hx.symm⟩ hno.2
    · exact absurd ⟨x, hx.symm⟩ hno.1

/-- Two words in one text: at the same place, or one before the other. -/
theorem append_word_cases {a a' : List α} (hw : NoStart w w') (hw' : NoStart w' w)
    (h : a ++ (w ++ b) = a' ++ (w' ++ b')) :
    (a = a' ∧ w ++ b = w' ++ b') ∨ (∃ c, a' = a ++ (w ++ c) ∧ b = c ++ (w' ++ b')) ∨
      ∃ c, a = a' ++ (w' ++ c) ∧ b' = c ++ (w ++ b) := by
  obtain ⟨d, ha, hb⟩ | ⟨d, ha, hb⟩ := append_eq_append_iff.mp h
  · obtain rfl | ⟨c, rfl, hc⟩ := append_word_right hw hb
    · exact .inl ⟨by rw [ha, append_nil], hb⟩
    · exact .inr (.inl ⟨c, ha, hc⟩)
  · obtain rfl | ⟨c, rfl, hc⟩ := append_word_right hw' hb
    · exact .inl ⟨by rw [ha, append_nil], hb.symm⟩
    · exact .inr (.inr ⟨c, ha, hc⟩)

section

variable (hn : ∀ x ∈ n, p x) (hn' : ∀ x ∈ n', p x) (hc : p c = false) (hc' : p c' = false)
include hn hn' hc hc'

/-- A run of characters of one kind ends at the first one of another kind. -/
theorem span_unique
    (h : n ++ c :: r = n' ++ c' :: r') : n = n' ∧ c :: r = c' :: r' := by
  have htake : ∀ {n c} r, (∀ x ∈ n, p x) → p c = false → (n ++ c :: r).takeWhile p = n := by
    intro n c r hn hc
    rw [takeWhile_append_of_pos hn, takeWhile_cons_of_neg (by simp [hc]), append_nil]
  have hnn : n = n' := by rw [← htake r hn hc, h, htake r' hn' hc']
  subst hnn
  exact ⟨rfl, append_cancel_left h⟩

/-- The last run of characters of one kind begins behind the last one of another kind. -/
theorem last_span_unique
    (h : r ++ c :: n = r' ++ c' :: n') : r = r' ∧ c = c' ∧ n = n' := by
  have hrev : n.reverse ++ c :: r.reverse = n'.reverse ++ c' :: r'.reverse := by
    simpa using congrArg reverse h
  obtain ⟨hnn, hcr⟩ := span_unique (fun x hx => hn x (mem_reverse.mp hx))
    (fun x hx => hn' x (mem_reverse.mp hx)) hc hc' hrev
  obtain ⟨hcc, hrr⟩ := cons.inj hcr
  exact ⟨reverse_inj.mp hrr, hcc, reverse_inj.mp hnn⟩

end

/-! ## Texts cut at separators -/

variable [DecidableEq α]

theorem all_ne (h : sep ∉ s) : ∀ x ∈ s, decide (x ≠ sep) := fun _ hx => decide_eq_true fun he => h (he ▸ hx)

/-- The first place of a separator is one place. -/
theorem append_cons_inj (hn : sep ∉ n) (hn' : sep ∉ n') (h : n ++ sep :: r = n' ++ sep :: r') : n = n' ∧ r = r' := by
  obtain ⟨hnn, hr⟩ := span_unique (all_ne hn) (all_ne hn') (by simp) (by simp) h
  exact ⟨hnn, (cons.inj hr).2⟩

theorem splitOn_cons (hn : sep ∉ n) (r : List α) : (n ++ sep :: r).splitOn sep = n :: r.splitOn sep := by
  rw [splitOn_append_cons_self, splitOn_eq_singleton hn, singleton_append]

theorem length_splitOn (s : List α) : (s.splitOn sep).length = s.count sep + 1 := by
  induction s with
  | nil => rfl
  | cons c s ih =>
    rw [splitOn_cons_eq_if_modifyHead, count_cons]
    split
    · simp [ih]
    · simp [ih]

theorem not_mem_of_mem_splitOn {s c : List α} (h : c ∈ s.splitOn sep) : sep ∉ c := by
  by_cases hs : sep ∈ s
  · obtain ⟨u, r, rfl, hu⟩ := eq_append_cons_of_mem hs
    rw [splitOn_cons hu, mem_cons] at h
    rcases h with rfl | h
    · exact hu
    · exact not_mem_of_mem_splitOn h
  · rw [splitOn_eq_singleton hs, mem_singleton] at h
    rwa [h]
termination_by s.length
decreasing_by grind

/-- The parts of a text are those that make it up and have no separator. -/
theorem splitOn_eq_iff {parts : List (List α)} :
    s.splitOn sep = parts ↔ parts ≠ [] ∧ (∀ p ∈ parts, sep ∉ p) ∧ s = [sep].intercalate parts := by
  constructor
  · rintro rfl
    exact ⟨splitOn_ne_nil _ _, fun p => not_mem_of_mem_splitOn, (intercalate_splitOn sep).symm⟩
  · rintro ⟨hne, hsep, rfl⟩
    exact splitOn_intercalate sep hsep hne

end DockerEngine.Words
