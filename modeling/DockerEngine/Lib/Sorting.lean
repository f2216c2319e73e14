import Mathlib

/-!
# Sorting by a comparison

Insertion sort as package `sort` of the Go library has it, for a comparison that need not be an order, and
what may be assumed of `sort.Sort`: it permutes, it is insertion sort on few elements, and it sorts when the
comparison is a strict weak order.
-/

namespace DockerEngine.Sorting

open List

variable {α β : Type}

/-- The inner loop of `insertionSort`: the element moves to the left of those that it is less than. The list
is what is sorted already, from its end. -/
def sink (less : α → α → Bool) (x : α) : List α → List α
  | [] => [x]
  | y :: ys => if less x y then y :: sink less x ys else x :: y :: ys

/-- The outer loop, with the elements before it in `acc`, from their end. -/
def sinkAll (less : α → α → Bool) (acc l : List α) : List α := l.foldl (fun acc x => sink less x acc) acc

/-- `insertionSort`. -/
def insertionSort (less : α → α → Bool) (l : List α) : List α := (sinkAll less [] l).reverse

/-- The comparison is a strict weak order on the elements of the list. -/
structure StrictWeakOn (less : α → α → Bool) (l : List α) : Prop where
  asymm : ∀ a ∈ l, ∀ b ∈ l, less a b = true → less b a = false
  negTrans : ∀ a ∈ l, ∀ b ∈ l, ∀ c ∈ l, less a b = false → less b c = false → less a c = false

theorem StrictWeakOn.congr {less less' : α → α → Bool} {l : List α} (hweak : StrictWeakOn less l)
    (h : ∀ a ∈ l, ∀ b ∈ l, less' a b = less a b) : StrictWeakOn less' l := by
  refine ⟨fun a ha b hb => ?_, fun a ha b hb c hc => ?_⟩
  · rw [h a ha b hb, h b hb a ha]
    exact hweak.asymm a ha b hb
  · rw [h a ha b hb, h b hb c hc, h a ha c hc]
    exact hweak.negTrans a ha b hb c hc

/-- What is assumed of `sort.Sort`. -/
structure Sorts (sort : (α → α → Bool) → List α → List α) : Prop where
  few : ∀ less l, l.length < 12 → sort less l = insertionSort less l
  perm : ∀ less l, (sort less l).Perm l
  sorted : ∀ less l, StrictWeakOn less l → (sort less l).Pairwise fun p q => less q p = false

section Sink

variable {less : α → α → Bool}

/-- Where an element comes to stand. -/
theorem sink_split (less : α → α → Bool) (x : α) (acc : List α) : ∃ ys zs, acc = ys ++ zs ∧
    sink less x acc = ys ++ x :: zs ∧ (∀ y ∈ ys, less x y) ∧ ∀ z ∈ zs.head?, less x z = false := by
  induction acc with
  | nil => exact ⟨[], [], rfl, rfl, nofun, nofun⟩
  | cons y acc ih =>
    rw [sink]
    by_cases hless : less x y
    · obtain ⟨ys, zs, hacc, hsink, hys, hz⟩ := ih
      rw [if_pos hless, hsink]
      exact ⟨y :: ys, zs, by rw [hacc]; rfl, rfl, forall_mem_cons.mpr ⟨hless, hys⟩, hz⟩
    · rw [if_neg hless]
      refine ⟨[], y :: acc, rfl, rfl, nofun, fun z hz => ?_⟩
      rw [← Option.some.inj hz]
      exact Bool.not_eq_true _ ▸ hless

/-- An element does not pass one that it is not less than. -/
theorem sink_stops {x z : α} (hz : less x z = false) (us vs : List α) : ∃ ys zs, us = ys ++ zs ∧
    sink less x (us ++ z :: vs) = ys ++ x :: (zs ++ z :: vs) ∧ ∀ y ∈ ys, less x y := by
  obtain ⟨ys, zs, hacc, hsink, hys, -⟩ := sink_split less x (us ++ z :: vs)
  obtain ⟨passed, rfl, hzs⟩ | ⟨zs, rfl, rfl⟩ := append_eq_append_iff.mp hacc
  · cases passed with
    | nil => exact ⟨us, [], by simp, by rw [hsink, hzs]; simp, by simpa using hys⟩
    | cons _ passed =>
      cases hzs
      exact absurd (hys z (by simp)) (by simp [hz])
  · exact ⟨ys, zs, rfl, hsink, hys⟩

theorem sink_perm (less : α → α → Bool) (x : α) (acc : List α) : (sink less x acc).Perm (x :: acc) := by
  obtain ⟨ys, zs, rfl, hsink, -⟩ := sink_split less x acc
  rw [hsink]
  exact perm_middle

@[simp]
theorem sinkAll_nil (acc : List α) : sinkAll less acc [] = acc := rfl

@[simp]
theorem sinkAll_cons (acc : List α) (x : α) (l : List α) :
    sinkAll less acc (x :: l) = sinkAll less (sink less x acc) l := rfl

theorem sinkAll_append (acc l l' : List α) :
    sinkAll less acc (l ++ l') = sinkAll less (sinkAll less acc l) l' := foldl_append

/-- The run lemma of the outer loop: what holds of the elements done and the sorted part at the start, and is
kept by each round, holds at the end. -/
theorem sinkAll_induct (less : α → α → Bool) {P : List α → List α → Prop} (l : List α) (h0 : P [] [])
    (hstep : ∀ done x rest acc, done ++ x :: rest = l → acc = sinkAll less [] done → P done acc →
      P (done ++ [x]) (sink less x acc)) : P l (sinkAll less [] l) := by
  have hrun : ∀ done rest, done ++ rest = l → P done (sinkAll less [] done) := by
    intro done
    induction done using reverseRecOn with
    | nil => exact fun _ _ => h0
    | append_singleton done x ih =>
      intro rest hl
      rw [append_assoc] at hl
      rw [sinkAll_append]
      exact hstep done x rest _ hl rfl (ih _ hl)
  exact hrun l [] (append_nil l)

theorem sinkAll_perm (less : α → α → Bool) (l : List α) : (sinkAll less [] l).Perm l := by
  refine sinkAll_induct less (P := fun done acc => acc.Perm done) l .rfl fun done x rest acc _ _ h => ?_
  exact (sink_perm less x acc).trans ((h.cons x).trans (perm_append_singleton x done).symm)

theorem insertionSort_perm (less : α → α → Bool) (l : List α) : (insertionSort less l).Perm l :=
  (reverse_perm _).trans (sinkAll_perm less l)

/-- Comparisons that agree on a list sort it the same way. -/
theorem insertionSort_map {less' : β → β → Bool} {f : α → β} {l : List α}
    (h : ∀ done x rest, l = done ++ x :: rest → ∀ y ∈ done, less' (f x) (f y) = less x y) :
    insertionSort less' (l.map f) = (insertionSort less l).map f := by
  have hsink : ∀ x acc, (∀ y ∈ acc, less' (f x) (f y) = less x y) →
      sink less' (f x) (acc.map f) = (sink less x acc).map f := by
    intro x acc hacc
    induction acc with
    | nil => rfl
    | cons y acc ih =>
      rw [map_cons, sink, sink, hacc y mem_cons_self, ih fun z hz => hacc z (mem_cons_of_mem y hz)]
      split <;> rfl
  have hrun : sinkAll less' [] (l.map f) = (sinkAll less [] l).map f := by
    refine sinkAll_induct less (P := fun done acc => sinkAll less' [] (done.map f) = acc.map f) l rfl ?_
    rintro done x rest _ hl rfl hP
    rw [map_append, sinkAll_append, hP]
    exact hsink x _ fun y hy => h done x rest hl.symm y ((sinkAll_perm less done).mem_iff.mp hy)
  rw [insertionSort, hrun, insertionSort, map_reverse]

/-- Insertion sort sorts by a strict weak order. -/
theorem insertionSort_sorted {l : List α} (h : StrictWeakOn less l) :
    (insertionSort less l).Pairwise fun p q => less q p = false := by
  rw [insertionSort, pairwise_reverse]
  refine sinkAll_induct less (P := fun _ acc => acc.Pairwise fun q p => less q p = false) l .nil ?_
  intro done x rest acc hl hacc hP
  have hx : x ∈ l := by simp [← hl]
  have hmem : ∀ y ∈ acc, y ∈ l := fun y hy => by
    rw [hacc] at hy
    simp [← hl, (sinkAll_perm less done).mem_iff.mp hy]
  obtain ⟨ys, zs, rfl, hsink, hys, hz⟩ := sink_split less x acc
  obtain ⟨hpy, hpz, hcross⟩ := pairwise_append.mp hP
  rw [hsink, pairwise_append, pairwise_cons]
  refine ⟨hpy, ⟨fun p hp => ?_, hpz⟩, fun q hq p hp => ?_⟩
  · -- all that are left of the place are not greater than the first of them
    cases zs with
    | nil => cases hp
    | cons z zs =>
      have hxz := hz z rfl
      obtain rfl | hp := mem_cons.mp hp
      · exact hxz
      · have hzl : z ∈ l := hmem z (by simp)
        exact h.negTrans x hx z hzl p (hmem p (by simp [hp])) hxz ((pairwise_cons.mp hpz).1 p hp)
  · obtain rfl | hp := mem_cons.mp hp
    · exact h.asymm p hx q (hmem q (by simp [hq])) (hys q hq)
    · exact hcross q hq p hp

theorem insertionSort_sorts : Sorts (insertionSort : (α → α → Bool) → List α → List α) where
  few _ _ _ := rfl
  perm := insertionSort_perm
  sorted _ _ := insertionSort_sorted

end Sink

end DockerEngine.Sorting
