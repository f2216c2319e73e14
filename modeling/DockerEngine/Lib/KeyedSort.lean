import DockerEngine.Lib.Sorting
import DockerEngine.Lib.Words

/-!
# Sorting by value, with elements of one key in their order

Elements with a key and a value, compared by their values if their keys differ, and by their places in the
list if not. The comparison can run in a circle: of two elements of one key with falling values and a third
one in between, each comes before the next.

`Steady` says that this does not happen. Then insertion sort gives the same values for every arrangement of
the list that keeps the order of the elements of each key (`ordered_unique`, `ordered_keySort`). If it does
happen, there is an arrangement for which it gives others (`exists_keySort_ne`).
-/

namespace DockerEngine.Sorting

open List

variable {α K V : Type} [DecidableEq K] {key : α → K} {val : α → V} {l l' : List α}

section

variable [LinearOrder V] (key : α → K) (val : α → V)

/-- The comparison of an element with one that was before it in the list. -/
def keyLess (x y : α) : Bool := key x ≠ key y ∧ val x < val y

/-- Each key has the same elements, in the same order. -/
def SameKeys (l l' : List α) : Prop := ∀ k, (l.filter fun x => key x = k) = l'.filter fun x => key x = k

/-- Elements of different keys stand in the order of their values. -/
def Ordered (l : List α) : Prop := l.Pairwise fun p q => key p ≠ key q → val p ≤ val q

/-- The value of `b` lies between the falling values of `a` and `c`. -/
def Between (a c b : α) : Prop := val c ≤ val b ∧ val b ≤ val a ∧ val c < val a

/-- No element has a value between falling values of another key. -/
def Steady (l : List α) : Prop := l.Pairwise fun a c => key a = key c → ∀ b ∈ l, key b ≠ key a → ¬ Between val a c b

end

/-! ## Lists with the same keys -/

theorem SameKeys.mem (h : SameKeys key l l') {x : α} (hx : x ∈ l) : x ∈ l' := by
  have hmem : x ∈ l'.filter fun y => key y = key x := by
    rw [← h (key x)]
    exact mem_filter.mpr ⟨hx, by simp⟩
  exact (mem_filter.mp hmem).1

theorem SameKeys.symm (h : SameKeys key l l') : SameKeys key l' l := fun k => (h k).symm

theorem SameKeys.trans {l l' l'' : List α} (h : SameKeys key l l') (h' : SameKeys key l' l'') :
    SameKeys key l l'' := fun k => (h k).trans (h' k)

/-- Lists with the same elements of each key are permutations of each other. -/
theorem SameKeys.perm (h : SameKeys key l l') : l.Perm l' := by
  classical
  refine perm_iff_count.mpr fun x => ?_
  have hcount : ∀ m : List α, (m.filter fun y => key y = key x).count x = m.count x := fun m =>
    count_filter (by simp)
  rw [← hcount l, h (key x), hcount l']

/-- Relations between elements of one key depend on the elements of each key only. -/
theorem pairwise_key {Q : α → α → Prop} :
    (l.Pairwise fun a c => key a = key c → Q a c) ↔ ∀ k, (l.filter fun x => key x = k).Pairwise Q := by
  simp only [pairwise_filter, decide_eq_true_eq]
  simp only [pairwise_iff_forall_sublist]
  constructor
  · intro h k a c hsub ha hc
    exact h hsub (ha.trans hc.symm)
  · intro h a c hsub hkey
    exact h (key a) hsub rfl hkey.symm

theorem SameKeys.pairwise {Q : α → α → Prop} (h : SameKeys key l l')
    (hl : l.Pairwise fun a c => key a = key c → Q a c) : l'.Pairwise fun a c => key a = key c → Q a c := by
  rw [pairwise_key] at hl ⊢
  exact fun k => h k ▸ hl k

theorem filter_of_key {us : List α} {k : K} (h : ∀ u ∈ us, key u = k) (j : K) :
    (us.filter fun x => key x = j) = if k = j then us else [] := by
  split
  next hkj => exact filter_eq_self.mpr fun u hu => by simp [h u hu, hkj]
  next hkj => exact filter_eq_nil_iff.mpr fun u hu => by simp [h u hu, hkj]

/-- The elements of two keys, in whatever way they are merged, followed by all others. -/
theorem sameKeys_merge {l ws vs m : List α} {k k' : K} (hne : k ≠ k')
    (hws : (l.filter fun x => key x = k) = ws) (hvs : (l.filter fun x => key x = k') = vs)
    (hk : (m.filter fun x => key x = k) = ws) (hk' : (m.filter fun x => key x = k') = vs)
    (hm : ∀ x ∈ m, key x = k ∨ key x = k') :
    SameKeys key (m ++ l.filter fun x => key x ≠ k ∧ key x ≠ k') l := by
  intro j
  rw [filter_append, filter_filter]
  by_cases hj : j = k ∨ j = k'
  · have hnil : (l.filter fun x => (decide (key x = j) && decide (key x ≠ k ∧ key x ≠ k'))) = [] := by
      rw [filter_eq_nil_iff]
      intro x _
      obtain rfl | rfl := hj
      · simp +contextual
      · simp +contextual
    rw [hnil, append_nil]
    obtain rfl | rfl := hj
    · rw [hk, hws]
    · rw [hk', hvs]
  · rw [not_or] at hj
    have hnil : (m.filter fun x => key x = j) = [] := by
      rw [filter_eq_nil_iff]
      intro x hx
      obtain h | h := hm x hx
      · simpa [h] using Ne.symm hj.1
      · simpa [h] using Ne.symm hj.2
    rw [hnil, nil_append]
    refine filter_congr fun x _ => ?_
    by_cases hx : key x = j
    · simp [hx, hj.1, hj.2]
    · simp [hx]

theorem exists_of_not_pairwise {Q : α → α → Prop} (h : ¬ l.Pairwise Q) :
    ∃ l₁ a l₂, l = l₁ ++ a :: l₂ ∧ ∃ c ∈ l₂, ¬ Q a c := by
  induction l with
  | nil => exact absurd .nil h
  | cons a l ih =>
    by_cases hl : l.Pairwise Q
    · rw [pairwise_cons, not_and_or] at h
      have hex := h.resolve_right (not_not.mpr hl)
      push Not at hex
      obtain ⟨c, hc, hQ⟩ := hex
      exact ⟨[], a, l, rfl, c, hc, hQ⟩
    · obtain ⟨l₁, a', l₂, rfl, hc⟩ := ih hl
      exact ⟨a :: l₁, a', l₂, rfl, hc⟩

variable [LinearOrder V]

/-- A list that is ordered has its values determined by the elements of each key. -/
theorem ordered_unique (hl : Ordered key val l) (hl' : Ordered key val l')
    (h : SameKeys key l l') : l.map val = l'.map val := by
  induction l generalizing l' with
  | nil =>
    cases l' with
    | nil => rfl
    | cons q l' => cases h.symm.mem mem_cons_self
  | cons p l ih =>
    obtain ⟨hp, hl⟩ := pairwise_cons.mp hl
    -- the first element of the key of `p` in the other list is `p`
    have hkey := h (key p)
    rw [filter_cons_of_pos (by simp)] at hkey
    obtain ⟨xs, ys, rfl, hxs, -, hys⟩ := filter_eq_cons_iff.mp hkey.symm
    have hnot : ∀ x ∈ xs, key x ≠ key p := by simpa using hxs
    obtain ⟨hpx, hpy, hcross⟩ := pairwise_append.mp hl'
    have hval : ∀ x ∈ xs, val x = val p := by
      intro x hx
      refine le_antisymm (hcross x hx p mem_cons_self (hnot x hx)) ?_
      have hmem : x ∈ p :: l := h.symm.mem (by simp [hx])
      obtain rfl | hmem := mem_cons.mp hmem
      · exact le_rfl
      · exact hp x hmem (hnot x hx).symm
    have hrest : l.map val = (xs ++ ys).map val := by
      refine ih hl (hl'.sublist (List.Sublist.append_left (sublist_cons_self p ys) xs)) fun k => ?_
      have hk := h k
      rw [filter_append, filter_cons, filter_cons] at hk
      rw [filter_append]
      by_cases hpk : key p = k
      · have hnil : (xs.filter fun x => key x = k) = [] := by
          rw [filter_eq_nil_iff]
          intro x hx
          simpa [← hpk] using hnot x hx
        rw [hnil, nil_append] at hk ⊢
        simpa [hpk] using hk
      · simpa [hpk] using hk
    have hrep : xs.map val = replicate xs.length (val p) := by
      rw [eq_replicate_iff]
      refine ⟨length_map .., fun v hv => ?_⟩
      obtain ⟨x, hx, rfl⟩ := mem_map.mp hv
      exact hval x hx
    rw [map_cons, hrest, map_append, map_append, map_cons, hrep, ← cons_append,
      ← replicate_succ, replicate_succ', append_assoc, singleton_append]

/-! ## Insertion sort -/

/-- Insertion sort of the list by `keyLess`. -/
def keySort (key : α → K) (val : α → V) (l : List α) : List α := insertionSort (keyLess key val) l

/-- Elements of one key do not pass each other. -/
theorem sameKeys_keySort (l : List α) : SameKeys key (keySort key val l) l := by
  intro k
  rw [keySort, insertionSort, filter_reverse, reverse_eq_iff]
  refine sinkAll_induct (keyLess key val) (P := fun done acc =>
    (acc.filter fun x => key x = k) = (done.filter fun x => key x = k).reverse) l rfl ?_
  intro done x rest acc _ _ hP
  obtain ⟨ys, zs, rfl, hsink, hys, -⟩ := sink_split (keyLess key val) x acc
  rw [filter_append] at hP
  rw [hsink, filter_append, filter_append, reverse_append, ← hP, filter_cons]
  by_cases hk : key x = k
  · have hnil : (ys.filter fun y => key y = k) = [] := by
      rw [filter_eq_nil_iff]
      intro y hy
      simpa [← hk] using (of_decide_eq_true (hys y hy)).1.symm
    simp [hnil, hk]
  · simp [hk]

/-- A round of insertion sort on a steady list. -/
theorem sink_ordered {l done rest acc : List α} {x : α} (h : Steady key val l) (hl : done ++ x :: rest = l)
    (hkeys : SameKeys key acc.reverse done) (hord : Ordered key val acc.reverse) :
    Ordered key val (sink (keyLess key val) x acc).reverse := by
  have hx : x ∈ l := by simp [← hl]
  have hmem : ∀ y ∈ acc, y ∈ l := fun y hy => by simp [← hl, hkeys.mem (mem_reverse.mpr hy)]
  obtain ⟨hdone, -, hcross⟩ := pairwise_append.mp (hl ▸ h : (done ++ x :: rest).Pairwise _)
  rw [hl] at hdone hcross
  -- pairs of one key in the sorted part come from pairs of the list
  have hpairs : acc.Pairwise fun c a => key a = key c → ∀ b ∈ l, key b ≠ key a → ¬ Between val a c b :=
    pairwise_reverse.mp (hkeys.symm.pairwise hdone)
  have hlast : ∀ y ∈ acc, key y = key x → ∀ b ∈ l, key b ≠ key y → ¬ Between val y x b := fun y hy =>
    hcross y (hkeys.mem (mem_reverse.mpr hy)) x mem_cons_self
  rw [Ordered, pairwise_reverse] at hord ⊢
  obtain ⟨ys, zs, rfl, hsink, hys, hz⟩ := sink_split (keyLess key val) x acc
  obtain ⟨hpy, hpz, hyz⟩ := pairwise_append.mp hord
  obtain ⟨-, hpairs, -⟩ := pairwise_append.mp hpairs
  rw [hsink, pairwise_append, pairwise_cons]
  refine ⟨hpy, ⟨fun p hp hne => ?_, hpz⟩, fun q hq p hp => ?_⟩
  · cases zs with
    | nil => cases hp
    | cons z zs =>
      have hxz : key x = key z ∨ val z ≤ val x := by
        have := hz z rfl
        simp only [keyLess, decide_eq_false_iff_not, not_and_or, not_not, not_lt] at this
        exact this
      have hpl : p ∈ l := hmem p (mem_append_right _ hp)
      by_contra hlt
      rw [not_le] at hlt
      obtain rfl | hp := mem_cons.mp hp
      · exact hxz.elim (fun hk => hne hk.symm) hlt.not_ge
      by_cases hpk : key p = key z
      · -- `x` lies between the values of `p` and `z`
        have hzx : val z ≤ val x := hxz.resolve_left fun hk => hne (hpk.trans hk.symm)
        exact (pairwise_cons.mp hpairs).1 p hp hpk x hx (Ne.symm hne)
          ⟨hzx, hlt.le, hzx.trans_lt hlt⟩
      · have hpz' : val p ≤ val z := (pairwise_cons.mp hpz).1 p hp hpk
        obtain hk | hzx := hxz
        · -- `p` lies between the values of `z` and `x`
          exact hlast z (by simp) hk.symm p hpl hpk ⟨hlt.le, hpz', hlt.trans_le hpz'⟩
        · exact (hpz'.trans hzx).not_gt hlt
  · obtain rfl | hp := mem_cons.mp hp
    · exact fun _ => (of_decide_eq_true (hys q hq)).2.le
    · exact hyz q hq p hp

/-- On a steady list, insertion sort orders the values of different keys. -/
theorem ordered_keySort (h : Steady key val l) : Ordered key val (keySort key val l) := by
  refine sinkAll_induct (keyLess key val) (P := fun _ acc => Ordered key val acc.reverse) l .nil ?_
  rintro done x rest _ hl rfl hord
  exact sink_ordered h hl (sameKeys_keySort done) hord

/-! ## Arrangements that are sorted differently -/

theorem passed_greater {x : α} {v : V} {us : List α} (hv : v ≤ val x) (hus : ∀ y ∈ us, keyLess key val x y) :
    ∀ w ∈ us.map val, decide (v < w) := by
  intro w hw
  obtain ⟨y, hy, rfl⟩ := mem_map.mp hw
  exact decide_eq_true (hv.trans_lt (of_decide_eq_true (hus y hy)).2)

/-- The values tell where the last element was put: behind it there are greater ones only. -/
theorem sink_val_inj {x : α} {acc acc' : List α}
    (h : (sink (keyLess key val) x acc).map val = (sink (keyLess key val) x acc').map val) :
    acc.map val = acc'.map val := by
  obtain ⟨ys, zs, rfl, hsink, hys, -⟩ := sink_split (keyLess key val) x acc
  obtain ⟨ys', zs', rfl, hsink', hys', -⟩ := sink_split (keyLess key val) x acc'
  rw [hsink, hsink', map_append, map_append, map_cons, map_cons] at h
  obtain ⟨hy, hz⟩ := Words.span_unique (passed_greater le_rfl hys) (passed_greater le_rfl hys') (by simp) (by simp) h
  rw [map_append, map_append, hy, (cons.inj hz).2]

theorem sinkAll_val_inj {l acc acc' : List α}
    (h : (sinkAll (keyLess key val) acc l).map val = (sinkAll (keyLess key val) acc' l).map val) :
    acc.map val = acc'.map val := by
  induction l generalizing acc acc' with
  | nil => exact h
  | cons x l ih => exact sink_val_inj (ih h)

/-- Three elements of which each comes before the next, put in in two ways. -/
theorem sink_cycle_ne {a b c : α} (hac : key a = key c) (hbetween : Between val a c b) (acc : List α) :
    (sinkAll (keyLess key val) acc [b, a, c]).map val ≠ (sinkAll (keyLess key val) acc [a, c, b]).map val := by
  obtain ⟨hcb, hba, hca⟩ := hbetween
  have hnot : ∀ {x y : α}, val y ≤ val x → keyLess key val x y = false := by
    intro x y hle
    simp [keyLess, hle]
  have hkey : keyLess key val c a = false := by simp [keyLess, hac]
  -- the first way: `b`, `a` and `c` stand in this order
  obtain ⟨ys, xs, rfl, hb, -, -⟩ := sink_split (keyLess key val) b acc
  obtain ⟨ys2, ys1, rfl, ha, hys2⟩ := sink_stops (hnot hba) ys xs
  obtain ⟨zs2, zs1, rfl, hc, -⟩ := sink_stops hkey ys2 (ys1 ++ b :: xs)
  -- the second way: `a`, `c` and `b` stand in this order
  obtain ⟨us, vs, hacc, ha', hus, -⟩ := sink_split (keyLess key val) a (zs2 ++ zs1 ++ ys1 ++ xs)
  obtain ⟨us2, us1, rfl, hc', -⟩ := sink_stops hkey us vs
  obtain ⟨ws2, ws1, rfl, hb', -⟩ := sink_stops (hnot hcb) us2 (us1 ++ a :: vs)
  simp only [sinkAll_cons, sinkAll_nil]
  rw [hb, ha, hc, ha', hc', hb']
  intro heq
  simp only [map_append, map_cons] at heq
  obtain ⟨hz2, hz1⟩ := forall_mem_append.mp hys2
  obtain ⟨⟨hw2, hw1⟩, -⟩ := (forall_mem_append.mp hus).imp_left forall_mem_append.mp
  obtain ⟨-, heq⟩ := Words.span_unique (passed_greater hba hz2) (passed_greater hba hw2) (by simpa using hcb) (by simp) heq
  obtain ⟨-, heq⟩ := Words.span_unique (passed_greater le_rfl hz1) (passed_greater le_rfl hw1) (by simp)
    (by simpa using hca.le) (cons.inj heq).2
  exact hca.ne (cons.inj heq).1.symm

/-- Values that fall over another one do so from one element to the next. -/
theorem exists_adjacent_between {a c b : α} (hc : c ∈ l) (h : Between val a c b) :
    ∃ l₁ a' c' l₂, a :: l = l₁ ++ a' :: c' :: l₂ ∧ Between val a' c' b := by
  induction l generalizing a with
  | nil => cases hc
  | cons d l ih =>
    obtain ⟨hcb, hba, hca⟩ := h
    by_cases hd : val d ≤ val b ∧ val d < val a
    · exact ⟨[], a, d, l, rfl, hd.1, hba, hd.2⟩
    have hcd : c ≠ d := fun he => hd (he ▸ ⟨hcb, hca⟩)
    have hbd : val b ≤ val d := by
      by_contra hlt
      rw [not_le] at hlt
      exact hd ⟨hlt.le, hlt.trans_le hba⟩
    have hcd' : val c < val d := by
      by_contra hle
      rw [not_lt] at hle
      exact hd ⟨hle.trans hcb, hle.trans_lt hca⟩
    obtain ⟨l₁, a', c', l₂, hl, hbetween⟩ := ih ((mem_cons.mp hc).resolve_left hcd) ⟨hcb, hbd, hcd'⟩
    exact ⟨a :: l₁, a', c', l₂, by rw [hl]; rfl, hbetween⟩

/-- A list that is not steady has an arrangement that is sorted differently. -/
theorem exists_keySort_ne (h : ¬ Steady key val l) : ∃ l', SameKeys key l' l ∧
    (keySort key val l').map val ≠ (keySort key val l).map val := by
  rw [Steady, pairwise_key] at h
  push Not at h
  obtain ⟨k, hk⟩ := h
  obtain ⟨w₀, a₀, w, hw, c₀, hc₀, hQ⟩ := exists_of_not_pairwise hk
  push Not at hQ
  obtain ⟨b, hb, hkey, hbetween₀⟩ := hQ
  have hofk : ∀ x ∈ l.filter fun x => key x = k, key x = k := fun x hx => by
    simpa using (mem_filter.mp hx).2
  have hne : k ≠ key b := by
    have ha₀ := hofk a₀ (by simp [hw])
    exact fun he => hkey (by rw [ha₀, he])
  -- the two elements of the key may be taken next to each other
  obtain ⟨w₁, a, c, w₂, hsplit, hbetween⟩ := exists_adjacent_between hc₀ hbetween₀
  rw [hsplit, ← append_assoc] at hw
  obtain ⟨v₁, v₂, hv⟩ := append_of_mem (mem_filter.mpr ⟨hb, by simp⟩ :
    b ∈ l.filter fun x => key x = key b)
  generalize w₀ ++ w₁ = w₁ at hw
  have hofb : ∀ x ∈ v₁ ++ b :: v₂, key x = key b := fun x hx => by
    rw [← hv] at hx
    simpa using (mem_filter.mp hx).2
  rw [hw, forall_mem_append, forall_mem_cons, forall_mem_cons] at hofk
  rw [forall_mem_append, forall_mem_cons] at hofb
  obtain ⟨hw₁, ha, hc, hw₂⟩ := hofk
  obtain ⟨hv₁, -, hv₂⟩ := hofb
  have harrange : ∀ mid, (mid = [b, a, c] ∨ mid = [a, c, b]) →
      SameKeys key (w₁ ++ v₁ ++ mid ++ (w₂ ++ v₂) ++ l.filter fun x => key x ≠ k ∧ key x ≠ key b) l := by
    intro mid hmid
    refine sameKeys_merge hne hw hv ?_ ?_ fun x hx => ?_
    · obtain rfl | rfl := hmid <;>
        simp [filter_of_key hw₁, filter_of_key hw₂, filter_of_key hv₁, filter_of_key hv₂, ha, hc, hne.symm]
    · obtain rfl | rfl := hmid <;>
        simp [filter_of_key hw₁, filter_of_key hw₂, filter_of_key hv₁, filter_of_key hv₂, ha, hc, hne]
    · obtain rfl | rfl := hmid <;>
        · simp only [mem_append, mem_cons, not_mem_nil, or_false] at hx
          grind
  have hdiffer : ∀ rest, (keySort key val (w₁ ++ v₁ ++ [b, a, c] ++ rest)).map val ≠
      (keySort key val (w₁ ++ v₁ ++ [a, c, b] ++ rest)).map val := by
    intro rest heq
    simp only [keySort, insertionSort, map_reverse, reverse_inj, sinkAll_append] at heq
    exact sink_cycle_ne (ha.trans hc.symm) hbetween _ (sinkAll_val_inj heq)
  have hfirst := harrange [b, a, c] (.inl rfl)
  have hsecond := harrange [a, c, b] (.inr rfl)
  rw [append_assoc] at hfirst hsecond
  by_cases heq : (keySort key val (w₁ ++ v₁ ++ [b, a, c] ++ ((w₂ ++ v₂) ++
      l.filter fun x => key x ≠ k ∧ key x ≠ key b))).map val = (keySort key val l).map val
  · exact ⟨_, hsecond, fun he => hdiffer _ (heq.trans he.symm)⟩
  · exact ⟨_, hfirst, heq⟩

end DockerEngine.Sorting
