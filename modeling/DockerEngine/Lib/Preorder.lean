import DockerEngine.Lib.NameTree

/-!
# Trees built in pre-order

A walk over a tree of names visits the paths of `preorder` one after another; `names p` are the names
it follows below `p`. Whoever builds a tree during such a walk, by putting a leaf under the node of
the parent path, always finds that parent: `foldlM_put` is the rule for such a loop, and says what the
finished tree shows. It holds of every list of paths in which a path comes after its parent and no
path comes twice (`Ordered`), and the paths of `preorder` are such a list (`preorder_ordered`).

Nothing is said about the order of the children of the tree that is built.
-/

namespace DockerEngine

open List Nat

namespace NameTree

variable {N A : Type}

/-! ## Height -/

mutual
/-- The number of nodes on the longest path. -/
def height : NameTree N A → Nat
  | .node _ ks => heightKids ks + 1
def heightKids : List (N × NameTree N A) → Nat
  | [] => 0
  | (_, t) :: ks => max (height t) (heightKids ks)
end

variable {ks : List (N × NameTree N A)}

theorem height_le_heightKids {k : N × NameTree N A} (hk : k ∈ ks) : k.2.height ≤ heightKids ks := by
  induction ks with
  | nil => cases hk
  | cons k' ks ih =>
    rw [heightKids]
    rcases mem_cons.mp hk with rfl | hk
    · exact le_max_left _ _
    · exact (ih hk).trans (le_max_right _ _)

variable [BEq N] [LawfulBEq N]

variable {t : NameTree N A}

theorem length_lt_height {p : List N} (h : t.look p ≠ none) : p.length < t.height := by
  induction p generalizing t with
  | nil => obtain ⟨a, ks⟩ := t; rw [height, length_nil]; omega
  | cons n p ih =>
    obtain ⟨a, ks⟩ := t
    rw [look_cons, child, kids] at h
    cases hl : ks.lookup n with
    | none => rw [hl] at h; exact absurd rfl h
    | some c =>
      rw [hl] at h
      have hlen := ih (t := c) h
      have hle := height_le_heightKids (mem_of_lookup hl)
      simp only at hle
      rw [height, length_cons]
      omega

/-! ## Putting a child -/

/-- The children with the one under `n` set to `c`. -/
def setKid (ks : List (N × NameTree N A)) (n : N) (c : NameTree N A) : List (N × NameTree N A) :=
  (n, c) :: ks.filter fun k => k.1 != n

theorem lookup_setKid_self (ks : List (N × NameTree N A)) (n : N) (c : NameTree N A) :
    (setKid ks n c).lookup n = some c := by
  rw [setKid, lookup_cons, beq_self_eq_true]

variable {n : N}

theorem lookup_setKid_ne {m : N} (h : m ≠ n) (ks : List (N × NameTree N A)) (c : NameTree N A) :
    (setKid ks n c).lookup m = ks.lookup m := by
  have hb : (m == n) = false := by simpa using h
  rw [setKid, lookup_cons, hb, lookup_filter_ne h]

omit [LawfulBEq N] in
theorem mem_setKid {c : NameTree N A} {k : N × NameTree N A} (h : k ∈ setKid ks n c) : k = (n, c) ∨ k ∈ ks := by
  rcases mem_cons.mp h with h | h
  · exact .inl h
  · exact .inr (mem_filter.mp h).1

/-- The tree with `c` as the child `n` of the node at a path; nothing where there is no such node. -/
def put : NameTree N A → List N → N → NameTree N A → Option (NameTree N A)
  | .node a ks, [], n, c => some (.node a (setKid ks n c))
  | .node a ks, m :: ds, n, c =>
    (ks.lookup m).bind fun s => (put s ds n c).map fun s' => .node a (setKid ks m s')

variable {ds : List N}

omit [LawfulBEq N] in
theorem put_ne_none {c : NameTree N A} (h : t.look ds ≠ none) : t.put ds n c ≠ none := by
  induction ds generalizing t with
  | nil => obtain ⟨a, ks⟩ := t; rw [put]; exact Option.some_ne_none _
  | cons m ds ih =>
    obtain ⟨a, ks⟩ := t
    rw [look_cons, child, kids] at h
    rw [put]
    cases hl : ks.lookup m with
    | none => rw [hl] at h; exact absurd rfl h
    | some s =>
      rw [hl] at h
      rw [Option.bind_some, ne_eq, Option.map_eq_none_iff]
      exact ih h

omit [LawfulBEq N] in
theorem look_node_cons (a : A) (ks : List (N × NameTree N A)) (n : N) (r : List N) :
    (node a ks).look (n :: r) = (ks.lookup n).bind fun c => c.look r := look_cons ..

variable {a : A}

/-- A new leaf is the one path a put adds. -/
theorem look_put {t' : NameTree N A}
    (hput : t.put ds n (.node a []) = some t') (hnew : t.look (ds ++ [n]) = none) (r : List N) :
    (r = ds ++ [n] → t'.look r = some a) ∧ (r ≠ ds ++ [n] → t'.look r = t.look r) := by
  induction ds generalizing t t' r with
  | nil =>
    obtain ⟨b, ks⟩ := t
    rw [put] at hput
    cases hput
    rw [nil_append] at hnew ⊢
    cases r with
    | nil => exact ⟨nofun, fun _ => rfl⟩
    | cons m r =>
      rw [look_node_cons]
      by_cases hm : m = n
      · subst hm
        rw [lookup_setKid_self]
        cases r with
        | nil => exact ⟨fun _ => rfl, fun h => absurd rfl h⟩
        | cons x r =>
          refine ⟨nofun, fun _ => ?_⟩
          have hgone : (node b ks).look (m :: x :: r) = none := look_none_of_prefix ⟨x :: r, rfl⟩ hnew
          rw [hgone]
          rfl
      · refine ⟨fun h => absurd (cons.inj h).1 hm, fun _ => ?_⟩
        rw [lookup_setKid_ne hm, look_node_cons]
  | cons m ds ih =>
    obtain ⟨b, ks⟩ := t
    rw [put] at hput
    obtain ⟨s, hs, hput⟩ := Option.bind_eq_some_iff.mp hput
    obtain ⟨s', hs', rfl⟩ := Option.map_eq_some_iff.mp hput
    rw [cons_append, look_node_cons, hs, Option.bind_some] at hnew
    cases r with
    | nil => exact ⟨nofun, fun _ => rfl⟩
    | cons x r =>
      rw [look_node_cons, look_node_cons]
      by_cases hx : x = m
      · subst hx
        rw [lookup_setKid_self, hs, Option.bind_some, Option.bind_some, cons_append, ne_eq,
          cons_inj_right]
        exact ih hs' hnew r
      · refine ⟨fun h => absurd (cons.inj h).1 hx, fun _ => ?_⟩
        rw [lookup_setKid_ne hx]

/-- Children have names of their own with the property `G`, and only nodes with the property `D` have
children. -/
def Named (G : N → Prop) (D : A → Prop) (t : NameTree N A) : Prop :=
  t.All fun a ks => (ks.map Prod.fst).Nodup ∧ (∀ k ∈ ks, G k.1) ∧ (ks ≠ [] → D a)

variable {G : N → Prop} {D : A → Prop}

theorem Named.setKid {b : A} {s : NameTree N A} (h : Named G D (.node b ks)) (hn : G n) (hb : D b)
    (hs : Named G D s) : Named G D (.node b (setKid ks n s)) := by
  obtain ⟨hnd, hG, -⟩ := h.here
  refine .node ⟨nodup_cons.mpr ⟨fun hmem => ?_, (filter_sublist.map Prod.fst).nodup hnd⟩, fun k hk => ?_,
    fun _ => hb⟩ fun k hk => ?_
  · obtain ⟨k, hk, hn⟩ := mem_map.mp hmem
    simpa [hn] using (mem_filter.mp hk).2
  · rcases mem_setKid hk with rfl | hk
    · exact hn
    · exact hG k hk
  · rcases mem_setKid hk with rfl | hk
    · exact hs
    · exact h.kids k hk

theorem named_put {t' : NameTree N A} (h : Named G D t) (hput : t.put ds n (.node a []) = some t') (hn : G n)
    (hd : ∀ b, t.look ds = some b → D b) : Named G D t' := by
  induction ds generalizing t t' with
  | nil =>
    obtain ⟨b, ks⟩ := t
    rw [put] at hput
    cases hput
    exact h.setKid hn (hd b (look_nil _)) (.node ⟨nodup_nil, nofun, absurd rfl⟩ nofun)
  | cons m ds ih =>
    obtain ⟨b, ks⟩ := t
    rw [put] at hput
    obtain ⟨s, hs, hput⟩ := Option.bind_eq_some_iff.mp hput
    obtain ⟨s', hs', rfl⟩ := Option.map_eq_some_iff.mp hput
    obtain ⟨-, hG, hD⟩ := h.here
    have hmem := mem_of_lookup hs
    refine h.setKid (hG _ hmem) (hD (ne_nil_of_mem hmem)) (ih (h.kids _ hmem) hs' fun b' hb' => hd b' ?_)
    rw [look_node_cons, hs]
    exact hb'

theorem Named.names (h : Named G D t) {p : List N} (hl : t.look p ≠ none) : ∀ n ∈ p, G n :=
  All.names (All.mono (fun _ _ h => h.2.1) h) hl

/-- What stands above a node. -/
theorem Named.parent (h : Named G D t) (hl : t.look (ds ++ [n]) = some a) : G n ∧ ∃ b, t.look ds = some b ∧ D b := by
  have hthere : t.look (ds ++ [n]) ≠ none := by simp [hl]
  obtain ⟨b, ks, hb, hwf, hne⟩ := All.above h (by simp) hthere
  exact ⟨h.names hthere n (by simp), b, hb, hwf.2.2 hne⟩

end NameTree

/-! ## Lists of paths -/

variable {N : Type}

/-- Every path of the list comes after its parent and is not there already. `done` are the paths that
are there before. -/
def Ordered : (List N → Prop) → List (List N) → Prop
  | _, [] => True
  | done, p :: ps => (∃ ds n, p = ds ++ [n] ∧ done ds) ∧ ¬ done p ∧ Ordered (fun q => done q ∨ q = p) ps

theorem ordered_congr {done done' : List N → Prop} {ps : List (List N)}
    (h : ∀ q, done q ↔ done' q) (ho : Ordered done ps) : Ordered done' ps := by
  have : done = done' := funext fun q => propext (h q)
  exact this ▸ ho

theorem ordered_append {done : List N → Prop} {ps qs : List (List N)} (hp : Ordered done ps)
    (hq : Ordered (fun q => done q ∨ q ∈ ps) qs) : Ordered done (ps ++ qs) := by
  induction ps generalizing done with
  | nil => exact ordered_congr (by simp) hq
  | cons p ps ih =>
    refine ⟨hp.1, hp.2.1, ih hp.2.2 (ordered_congr (fun q => ?_) hq)⟩
    rw [mem_cons, or_assoc]

/-- The paths a walk visits that starts at `pos`, follows `names p` below a path `p` and goes no
deeper than its fuel. -/
def preorder (names : List N → List N) : Nat → List N → List (List N)
  | 0, _ => []
  | fuel + 1, pos => pos :: (names pos).flatMap fun n => preorder names fuel (pos ++ [n])

/-- The path `r` from `pos` on is one that `names` follows. -/
def Leads (names : List N → List N) : List N → List N → Prop
  | _, [] => True
  | pos, n :: r => n ∈ names pos ∧ Leads names (pos ++ [n]) r

section Leads

variable {names : List N → List N}

theorem leads_append {pos r s : List N} :
    Leads names pos (r ++ s) ↔ Leads names pos r ∧ Leads names (pos ++ r) s := by
  induction r generalizing pos with
  | nil => simp [Leads]
  | cons n r ih => rw [cons_append, Leads, Leads, ih, and_assoc, append_assoc]; rfl

/-- A path that is not followed is left at some name. -/
theorem exists_of_not_leads {pos r : List N} (h : ¬ Leads names pos r) :
    ∃ q n s, r = q ++ n :: s ∧ Leads names pos q ∧ n ∉ names (pos ++ q) := by
  induction r generalizing pos with
  | nil => exact absurd trivial h
  | cons n r ih =>
    rw [Leads] at h
    by_cases hn : n ∈ names pos
    · obtain ⟨q, m, s, rfl, hq, hm⟩ := ih fun hr => h ⟨hn, hr⟩
      exact ⟨n :: q, m, s, rfl, ⟨hn, hq⟩, by rwa [append_assoc] at hm⟩
    · exact ⟨[], n, r, rfl, trivial, by rwa [append_nil]⟩

theorem mem_preorder {fuel : Nat} {pos p : List N} :
    p ∈ preorder names fuel pos ↔ ∃ r, p = pos ++ r ∧ r.length < fuel ∧ Leads names pos r := by
  induction fuel generalizing pos with
  | zero => simp [preorder]
  | succ fuel ih =>
    rw [preorder, mem_cons, mem_flatMap]
    constructor
    · rintro (rfl | ⟨n, hn, hp⟩)
      · exact ⟨[], by simp, succ_pos _, trivial⟩
      · obtain ⟨r, rfl, hlen, hr⟩ := ih.mp hp
        exact ⟨n :: r, by simp, succ_lt_succ hlen, hn, hr⟩
    · rintro ⟨r, rfl, hlen, hr⟩
      cases r with
      | nil => exact .inl (append_nil _)
      | cons n r =>
        exact .inr ⟨n, hr.1, ih.mpr ⟨r, by simp, lt_of_succ_lt_succ hlen, hr.2⟩⟩

/-- The paths below `pos` are in order once `pos` is there and nothing below it. -/
theorem below_ordered {fuel : Nat}
    (ih : ∀ (pos : List N) (done : List N → Prop), (∃ ds n, pos = ds ++ [n] ∧ done ds) →
      (∀ r, ¬ done (pos ++ r)) → Ordered done (preorder names fuel pos))
    (pos : List N) (done : List N → Prop) (hpos : done pos) {ns : List N} (hns : ns.Nodup)
    (hfree : ∀ n ∈ ns, ∀ r, ¬ done (pos ++ n :: r)) :
    Ordered done (ns.flatMap fun n => preorder names fuel (pos ++ [n])) := by
  induction ns generalizing done with
  | nil => trivial
  | cons n ns ihns =>
    rw [nodup_cons] at hns
    rw [flatMap_cons]
    refine ordered_append (ih _ done ⟨pos, n, rfl, hpos⟩ fun r => ?_) (ihns _ (.inl hpos) hns.2 fun m hm r => ?_)
    · rw [append_assoc]
      exact hfree n mem_cons_self r
    -- a path below another name is not among those just visited
    rintro (hdone | hmem)
    · exact hfree m (mem_cons_of_mem _ hm) r hdone
    obtain ⟨s, hs, -, -⟩ := mem_preorder.mp hmem
    rw [append_assoc] at hs
    have hnm : m = n := (List.cons.inj (append_cancel_left hs)).1
    exact hns.1 (hnm ▸ hm)

theorem preorder_ordered (hnd : ∀ p, (names p).Nodup) (fuel : Nat) :
    ∀ (pos : List N) (done : List N → Prop), (∃ ds n, pos = ds ++ [n] ∧ done ds) →
      (∀ r, ¬ done (pos ++ r)) → Ordered done (preorder names fuel pos) := by
  induction fuel with
  | zero => intros; trivial
  | succ fuel ih =>
    intro pos done hparent hfree
    rw [preorder]
    refine ⟨hparent, by simpa using hfree [], ?_⟩
    refine below_ordered ih pos _ (.inr rfl) (hnd pos) fun n _ r h => ?_
    rcases h with h | h
    · exact hfree _ h
    · simp at h

end Leads

/-! ## Loops that put leaves -/

variable {M : Type → Type}

/-- A loop over a flat list is the nested loop. -/
theorem foldlM_flatMap [Monad M] [LawfulMonad M] {X Y S : Type} (f : S → Y → M S)
    (g : X → List Y) (xs : List X) (s : S) :
    (xs.flatMap g).foldlM f s = xs.foldlM (fun s x => (g x).foldlM f s) s := by
  induction xs generalizing s with
  | nil => rfl
  | cons x xs ih =>
    rw [flatMap_cons, foldlM_append, foldlM_cons]
    exact bind_congr ih

theorem foldlM_congr_mem [Monad M] [LawfulMonad M] {X S : Type} {f g : S → X → M S}
    {xs : List X} (h : ∀ s, ∀ x ∈ xs, f s x = g s x) (s : S) : xs.foldlM f s = xs.foldlM g s := by
  induction xs generalizing s with
  | nil => rfl
  | cons x xs ih =>
    rw [foldlM_cons, foldlM_cons, h s x mem_cons_self]
    exact bind_congr fun s' => ih (fun s y hy => h s y (mem_cons_of_mem _ hy)) s'

/-- Two loops that both succeed may be run side by side. -/
theorem foldlM_both {E X S T : Type} {f : S → X → Except E S} {g : T → X → Except E T}
    {xs : List X} {s s' : S} {t t' : T} (hf : xs.foldlM f s = .ok s') (hg : xs.foldlM g t = .ok t') :
    xs.foldlM (fun st x => do let s ← f st.1 x; let t ← g st.2 x; pure (s, t)) (s, t) = .ok (s', t') := by
  induction xs generalizing s t with
  | nil => cases hf; cases hg; rfl
  | cons x xs ih =>
    rw [foldlM_cons] at hf hg ⊢
    cases hs : f s x with
    | error e => rw [hs] at hf; cases hf
    | ok s₁ =>
      cases ht : g t x with
      | error e => rw [ht] at hg; cases hg
      | ok t₁ =>
        rw [hs] at hf
        rw [ht] at hg
        exact ih hf hg

section Build

variable [BEq N] [LawfulBEq N] {A E : Type}

/-- **The loop that builds a tree.** Its step puts a leaf under the parent of a path that has a value
and passes over one that has none. From a tree that shows the values of the paths in `done` it
comes to one that shows those of the listed paths as well, without failing. -/
theorem foldlM_put (value : List N → Option A) (G : N → Prop) (D : A → Prop)
    (step : NameTree N A → List N → Except E (NameTree N A))
    (hparent : ∀ ds n a, value (ds ++ [n]) = some a → G n ∧ ∃ b, value ds = some b ∧ D b)
    {ps : List (List N)} (hskip : ∀ t, ∀ p ∈ ps, value p = none → step t p = .ok t)
    (hput : ∀ t t' ds n a, ds ++ [n] ∈ ps → value (ds ++ [n]) = some a →
      t.put ds n (.node a []) = some t' → step t (ds ++ [n]) = .ok t')
    {done : List N → Prop} (ho : Ordered done ps) {t : NameTree N A}
    (ht : t.Named G D) (hdone : ∀ r, done r → t.look r = value r)
    (hrest : ∀ r, ¬ done r → t.look r = none) :
    ∃ t', ps.foldlM step t = .ok t' ∧ t'.Named G D ∧
      (∀ r, done r ∨ r ∈ ps → t'.look r = value r) ∧
      ∀ r, ¬ (done r ∨ r ∈ ps) → t'.look r = none := by
  induction ps generalizing done t with
  | nil => exact ⟨t, rfl, ht, by simpa using hdone, by simpa using hrest⟩
  | cons p ps ih =>
    obtain ⟨⟨ds, n, rfl, hds⟩, hp, ho⟩ := ho
    -- one step, whatever the value
    obtain ⟨t₁, hstep, ht₁, hlook⟩ : ∃ t₁, step t (ds ++ [n]) = .ok t₁ ∧ t₁.Named G D ∧
        ∀ r, (r = ds ++ [n] → t₁.look r = value r) ∧ (r ≠ ds ++ [n] → t₁.look r = t.look r) := by
      cases hv : value (ds ++ [n]) with
      | none =>
        refine ⟨t, hskip t _ mem_cons_self hv, ht, fun r => ⟨fun h => ?_, fun _ => rfl⟩⟩
        rw [h, hv, hrest _ hp]
      | some a =>
        obtain ⟨hG, b, hb, hD⟩ := hparent ds n a hv
        have hfound : t.look ds = some b := (hdone ds hds).trans hb
        obtain ⟨t₁, ht₁⟩ := Option.ne_none_iff_exists'.mp
          (NameTree.put_ne_none (n := n) (c := .node a []) (by rw [hfound]; exact Option.some_ne_none _))
        refine ⟨t₁, hput t t₁ ds n a mem_cons_self hv ht₁, NameTree.named_put ht ht₁ hG fun b' hb' => ?_, fun r => ?_⟩
        · rw [hfound] at hb'
          exact Option.some.inj hb' ▸ hD
        · obtain ⟨hleaf, hother⟩ := NameTree.look_put ht₁ (hrest _ hp) r
          refine ⟨fun h => ?_, hother⟩
          rw [hleaf h, h, hv]
    obtain ⟨t', hrun, hnamed, hin, hout⟩ := ih (fun t p hp => hskip t p (mem_cons_of_mem _ hp))
      (fun t t' ds n a hp => hput t t' ds n a (mem_cons_of_mem _ hp)) ho ht₁
      (fun r hr => by
        by_cases h : r = ds ++ [n]
        · exact (hlook r).1 h
        · exact ((hlook r).2 h).trans (hdone r (hr.resolve_right h)))
      (fun r hr => by
        rw [not_or] at hr
        exact ((hlook r).2 hr.2).trans (hrest r hr.1))
    refine ⟨t', ?_, hnamed, fun r hr => hin r ?_, fun r hr => hout r ?_⟩
    · rw [foldlM_cons, hstep]
      exact hrun
    · rwa [mem_cons, ← or_assoc] at hr
    · rwa [mem_cons, ← or_assoc] at hr

end Build

end DockerEngine
