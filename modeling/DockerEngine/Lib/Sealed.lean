import DockerEngine.Lib.UnixFs

/-!
# Directories that no symbolic link leaves

When is it enough to look at the text of a path to know that a call stays inside a directory? The
kernel follows symbolic links, so the links inside the directory decide. `Sealed D fs` names a state in
which they are harmless: a link inside `D` has a relative target that goes up at first only, and not
further than to `D`. Nothing is said about where its target leads or whether it exists.

In a sealed state every path below `D` leads to a position below `D`, in every mode
(`Sealed.find_inside`), and every call on such a path leaves the state sealed and all positions
outside `D` as they were, as long as it puts no other links into `D` (`Kept` and the triples about
it). A second name for a link counts as a new link, since what a link reaches depends on where it
stands.
-/

namespace DockerEngine.UnixFs

open Filepath Resolve List Proc Option Fs

/-! ## Paths that climb a bounded number of levels -/

/-- The elements go up at most `d` levels, and no more once they have gone down. -/
def Climbs : Nat → List Str → Prop
  | _, [] => True
  | d, c :: cs =>
    if c = dot then Climbs d cs
    else if c = dotdot then 0 < d ∧ Climbs (d - 1) cs
    else ∀ x ∈ cs, x ≠ dotdot

instance decidableClimbs : ∀ (d : Nat) (cs : List Str), Decidable (Climbs d cs)
  | _, [] => inferInstanceAs (Decidable True)
  | d, c :: cs =>
    have := decidableClimbs d cs
    have := decidableClimbs (d - 1) cs
    inferInstanceAs (Decidable (if c = dot then _ else if c = dotdot then _ ∧ _ else _))

theorem climbs_of_forall {cs : List Str} (h : ∀ x ∈ cs, x ≠ dotdot) (d : Nat) : Climbs d cs := by
  induction cs with
  | nil => trivial
  | cons c cs ih =>
    rw [Climbs]
    split
    · exact ih (forall_mem_cons.mp h).2
    · rw [if_neg (h c (by simp))]
      exact (forall_mem_cons.mp h).2

theorem Climbs.append {d : Nat} {cs ds : List Str} (hc : Climbs d cs) (hd : ∀ x ∈ ds, x ≠ dotdot) :
    Climbs d (cs ++ ds) := by
  induction cs generalizing d with
  | nil => exact climbs_of_forall hd d
  | cons c cs ih =>
    rw [cons_append, Climbs]
    rw [Climbs] at hc
    split
    next h => rw [if_pos h] at hc; exact ih hc
    next h =>
      rw [if_neg h] at hc
      split
      next h => rw [if_pos h] at hc; exact ⟨hc.1, ih hc.2⟩
      next h =>
        rw [if_neg h] at hc
        exact forall_mem_append.mpr ⟨hc, hd⟩

/-- What may stand at a position below `D`: a link must not climb out from there. -/
def FitsAt (D p : List Str) (x : Kind) : Prop :=
  ∀ t, x = .symlink t → ∃ u n, p = D ++ u ++ [n] ∧ isAbs t = false ∧ Climbs u.length (elems t)

theorem fitsAt_of_ne {D p : List Str} {x : Kind} (h : ∀ t, x ≠ .symlink t) : FitsAt D p x :=
  fun t ht => absurd ht (h t)

/-- A condition on what a call found. -/
instance {x : Except Errno (List Str)} {p : List Str → Prop} [DecidablePred p] : Decidable (∀ q, x = .ok q → p q) :=
  match x with
  | .ok q => decidable_of_iff (p q) ⟨fun h _ he => by cases he; exact h, fun h => h q rfl⟩
  | .error _ => isTrue nofun

/-- A condition on the target of a link that a call found. -/
instance {x : Except Errno Kind} {p : Str → Prop} [DecidablePred p] : Decidable (∀ t, x = .ok (.symlink t) → p t) :=
  match x with
  | .ok (.symlink t) => decidable_of_iff (p t) ⟨fun h _ he => by cases he; exact h, fun h => h t rfl⟩
  | .ok .dir => isTrue nofun
  | .ok .other => isTrue nofun
  | .error _ => isTrue nofun

/-! ## Sealed directories -/

/-- The way to `D` is through real directories, no file below `D` has a name outside it, and no link
below `D` climbs out of it. -/
structure Sealed (D : List Str) (fs : Fs) : Prop where
  dirs : ∀ r, r <+: D → r ≠ D → fs.kindAt r = some .dir
  apart : ∀ {p q i}, fs.names p = some i → fs.names q = some i → D <+: p → D <+: q
  fits : ∀ {p x}, D <+: p → fs.kindAt p = some x → FitsAt D p x

variable {q : List Str}

namespace Sealed

variable {D P : List Str} {fs : Fs} {m : Mode}

section

variable (h : Sealed D fs)
include h

/-- From a position below `D`, elements that do not climb further than to `D` lead below `D`. -/
theorem resolve_inside (m : Mode) (k : Nat) (pos cs : List Str) :
    ∀ u, pos = D ++ u → Climbs u.length cs → ∀ r, resolve fs.kindAt m k pos cs = .ok r → D <+: r.1 := by
  induction k, pos, cs using resolve_induct fs.kindAt with
  | nil k pos =>
    rintro u rfl - r hr
    rw [resolve_nil] at hr
    cases hr
    exact prefix_append ..
  | blocked k pos c cs hp =>
    intro u _ _ r hr
    obtain ⟨e, he⟩ := resolve_blocked hp
    rw [he] at hr
    cases hr
  | stay k pos cs hp ih =>
    intro u hu hc r hr
    rw [resolve_dot hp] at hr
    rw [Climbs, if_pos rfl] at hc
    exact ih u hu hc r hr
  | up k pos cs hp ih =>
    rintro u rfl hc r hr
    rw [resolve_dotdot hp] at hr
    rw [Climbs, if_neg (by decide), if_pos rfl] at hc
    have hu : u ≠ [] := length_pos_iff.mp hc.1
    refine ih u.dropLast (dropLast_append_of_ne_nil hu) ?_ r hr
    rw [length_dropLast]
    exact hc.2
  | missing k pos c cs hp hd hdd hx =>
    rintro u rfl - r hr
    rw [resolve_missing hp hd hdd hx] at hr
    split at hr
    · cases hr
      rw [append_assoc]
      exact prefix_append ..
    · cases hr
  | link k pos c cs t hp hd hdd hx ih =>
    rintro u rfl hc r hr
    rw [resolve_symlink hp hd hdd hx] at hr
    rw [Climbs, if_neg hd, if_neg hdd] at hc
    have hin : D <+: D ++ u ++ [c] := by rw [append_assoc]; exact prefix_append ..
    split at hr
    · cases hr
      exact hin
    -- the target is read from the directory the link stands in
    obtain ⟨u', n, hpos, habs, hclimb⟩ := h.fits hin hx t rfl
    obtain ⟨hu, -⟩ := append_singleton_inj.mp hpos
    rw [← append_cancel_left hu] at hclimb
    cases k with
    | zero => cases hr
    | succ k =>
      simp only [jump, habs, Bool.false_eq_true, if_false] at hr
      have := ih k rfl u
      simp only [habs, Bool.false_eq_true, if_false] at this
      exact this trivial (hclimb.append hc) r hr
  | down k pos c cs x hp hd hdd hx hns ih =>
    rintro u rfl hc r hr
    rw [resolve_step hp hd hdd hx hns] at hr
    rw [Climbs, if_neg hd, if_neg hdd] at hc
    exact ih (u ++ [c]) (by simp) (climbs_of_forall hc _) r hr

/-- The way to a place on the way to `D`. -/
theorem find_above (hD : AllProper D) {r : List Str} (h0 : r ≠ [])
    (hr : r <+: D) (hne : r ≠ D) : fs.find m (absPath r) = .ok r := by
  have hdir : ∀ s, s <+: r → fs.kindAt s = some .dir := by
    intro s hs
    refine h.dirs s (hs.trans hr) fun he => hne ?_
    exact hr.eq_of_length_le (he ▸ hs.length_le)
  have hproper : AllProper r := fun n hn => hD n (hr.subset hn)
  rw [find_absPath hproper h0]
  have hres := @resolve_dirs fs.kindAt m maxLinks [] [] r
    (fun d hd => ⟨(hproper d hd).2.1, (hproper d hd).2.2.1⟩) (hdir [] nil_prefix)
    fun s _ => hdir s
  rw [append_nil, nil_append, resolve_nil] at hres
  rw [hres]
  rfl

theorem kindOf_above (hD : AllProper D) {r : List Str} (h0 : r ≠ [])
    (hr : r <+: D) (hne : r ≠ D) : kindOf m (absPath r) fs = .ok .dir := by
  simp only [kindOf, h.find_above hD h0 hr hne, h.dirs r hr hne]

/-- **In a sealed state a path below `D` leads below `D`.** -/
theorem find_inside (h0 : D ≠ []) (hP : AllProper P) (hin : D <+: P) (hfind : fs.find m (absPath P) = .ok q) : D <+: q := by
  obtain ⟨r, rfl⟩ := hin
  obtain ⟨E, d, rfl⟩ := (eq_nil_or_concat' D).resolve_left h0
  have hd : Proper d := hP d (by simp)
  have hdir : ∀ s, s <+: E → fs.kindAt s = some .dir := by
    intro s hs
    refine h.dirs s (hs.trans (prefix_append ..)) fun he => ?_
    have := hs.length_le
    rw [he, length_append, length_singleton] at this
    omega
  rw [find_absPath hP (by simp), append_assoc, resolve_dirs _ (hdir [] nil_prefix)
    (fun s _ => hdir s), nil_append, singleton_append] at hfind
  · rcases hx : fs.kindAt (E ++ [d]) with _ | x
    · -- only a call that makes `D` itself gets here
      rw [resolve_missing (hdir E (prefix_refl E)) hd.2.1 hd.2.2.1 hx] at hfind
      split at hfind
      · cases hfind
        exact prefix_refl _
      · cases hfind
    · have hns : ∀ t, x ≠ .symlink t := by
        intro t ht
        obtain ⟨u, n, hpos, -⟩ := h.fits (prefix_refl _) hx t ht
        simp at hpos
      rw [resolve_step (hdir E (prefix_refl E)) hd.2.1 hd.2.2.1 hx hns] at hfind
      obtain ⟨links, hres⟩ := map_fst_eq_ok.mp hfind
      have hr : ∀ n ∈ r, n ≠ dotdot := fun n hn => (hP n (by simp [hn])).2.2.1
      exact h.resolve_inside m _ _ r [] (by simp) (climbs_of_forall hr _) _ hres
  · exact fun n hn => ⟨(hP n (by simp [hn])).2.1, (hP n (by simp [hn])).2.2.1⟩

end

/-- The position of a name is the directory part's position and the name. -/
theorem find_name {Q : List Str} {n : Str} (hQ : AllProper Q) (hn : Proper n) (h0 : Q ≠ []) (hfind : fs.find .name (absPath (Q ++ [n])) = .ok q) :
    ∃ p, fs.find .stat (absPath Q) = .ok p ∧ q = p ++ [n] := by
  rw [find_absPath (proper_snoc hQ hn) (by simp), resolve_append _ (by simp)] at hfind
  rcases hres : resolve fs.kindAt .stat maxLinks [] Q with e | ⟨p, links⟩
  · rw [hres] at hfind
    cases hfind
  rw [hres] at hfind
  refine ⟨p, by rw [find_absPath hQ h0, hres]; rfl, ?_⟩
  simp only [Except.bind, resolve_name hn.2.1 hn.2.2.1] at hfind
  split at hfind
  · cases hfind; rfl
  · split at hfind <;> cases hfind

end Sealed

/-! ## Changes below the directory -/

/-- The state is sealed, and outside `D` it is as `fs₀`. -/
structure Kept (D : List Str) (fs₀ fs : Fs) : Prop where
  isSealed : Sealed D fs
  names : ∀ q, ¬ D <+: q → fs.names q = fs₀.names q
  obj : ∀ q, ¬ D <+: q → fs.obj q = fs₀.obj q

section Changes

variable {D p : List Str} {fs₀ fs : Fs}

section

variable (h : Kept D fs₀ fs)
include h

/-- A change that keeps the positions outside `D`, shares no file with them and adds no climbing
link. -/
theorem Kept.change {fs' : Fs} (hobj : ∀ q, ¬ D <+: q → fs'.obj q = fs.obj q)
    (hnames : ∀ q, ¬ D <+: q → fs'.names q = fs.names q)
    (hapart : ∀ {p q i}, fs'.names p = some i → fs'.names q = some i → D <+: p → D <+: q)
    (hfits : ∀ {q x}, D <+: q → fs'.kindAt q = some x → FitsAt D q x) : Kept D fs₀ fs' where
  isSealed := by
    refine ⟨fun r hr hne => ?_, hapart, hfits⟩
    rw [kindAt, hobj r fun hpre => hne (hr.eq_of_length_le hpre.length_le)]
    exact h.isSealed.dirs r hr hne
  names q hq := (hnames q hq).trans (h.names q hq)
  obj q hq := (hobj q hq).trans (h.obj q hq)

theorem Kept.removeAt (hp : D <+: p) : Kept D fs₀ (fs.removeAt p) := by
  have hout : ∀ q, ¬ D <+: q → ¬ p <+: q := fun q hq hpq => hq (hp.trans hpq)
  refine h.change (fun q hq => ?_) (fun q hq => if_neg (hout q hq)) (fun hp hq => ?_) fun hq hx => ?_
  · rw [obj_removeAt, if_neg (hout q hq)]
  · simp only [Fs.removeAt] at hp hq
    split at hp
    · cases hp
    · split at hq
      · cases hq
      · exact h.isSealed.apart hp hq
  · rw [kindAt, obj_removeAt] at hx
    split at hx
    · cases hx
    · exact h.isSealed.fits hq hx

theorem Kept.addAt (hp : D <+: p) {o : Obj} (ho : FitsAt D p o.body.kind) : Kept D fs₀ (fs.addAt p o) := by
  have hout : ∀ q, ¬ D <+: q → q ≠ p := fun q hq he => hq (he ▸ hp)
  refine h.change (fun q hq => ?_) (fun q hq => if_neg (hout q hq)) (fun {q q' i} hq hq' => ?_) fun {q x} hq hx => ?_
  · rw [obj_addAt, if_neg (hout q hq)]
  · -- the new number is no other name's
    simp only [Fs.addAt] at hq hq'
    split at hq <;> split at hq'
    next => next h₂ => exact fun _ => h₂ ▸ hp
    next => cases hq; exact absurd (fs.fresh hq') (by omega)
    next => cases hq'; exact absurd (fs.fresh hq) (by omega)
    next => exact h.isSealed.apart hq hq'
  · rw [kindAt, obj_addAt] at hx
    split at hx
    next he =>
      cases hx
      exact he ▸ ho
    next => exact h.isSealed.fits hq hx

theorem Kept.linkAt {old : List Str} (hold : D <+: old) (hp : D <+: p)
    (ho : ∀ x, fs.kindAt old = some x → FitsAt D p x) : Kept D fs₀ (fs.linkAt old p) := by
  have hout : ∀ q, ¬ D <+: q → q ≠ p := fun q hq he => hq (he ▸ hp)
  refine h.change (fun q hq => ?_) (fun q hq => if_neg (hout q hq)) (fun {q q' i} hq hq' => ?_) fun {q x} hq hx => ?_
  · rw [obj_linkAt, if_neg (hout q hq)]
  · simp only [Fs.linkAt] at hq hq'
    split at hq <;> split at hq'
    next => next h₂ => exact fun _ => h₂ ▸ hp
    next => exact fun _ => h.isSealed.apart hq hq' hold
    next => next h₂ => exact fun _ => h₂ ▸ hp
    next => exact h.isSealed.apart hq hq'
  · rw [kindAt, obj_linkAt] at hx
    split at hx
    next he => exact he ▸ ho x hx
    next => exact h.isSealed.fits hq hx

theorem Kept.modifyAt (hp : D <+: p) {f : Obj → Obj} (hf : ∀ o, fs.obj p = some o → (f o).body.kind = o.body.kind) :
    Kept D fs₀ (fs.modifyAt p f) := by
  refine h.change (fun q hq => ?_) (fun q _ => rfl) (fun hp hq => h.isSealed.apart hp hq)
    fun {q x} hq hx => h.isSealed.fits hq ?_
  · rw [obj_modifyAt]
    split
    next he =>
      -- a file with a name outside has none below `D`
      cases hn : fs.names q with
      | none => rw [Fs.obj, hn]; rfl
      | some i => exact absurd (h.isSealed.apart (he ▸ hn) hn hp) hq
    next => rfl
  · rw [kindAt, obj_modifyAt] at hx
    split at hx
    next he =>
      have hsame : fs.obj q = fs.obj p := by rw [Fs.obj, Fs.obj, he]
      rw [kindAt]
      rcases ho : fs.obj q with _ | o
      · rw [ho] at hx; cases hx
      · rw [ho, map_some, map_some, hf o (hsame ▸ ho)] at hx
        exact hx
    next => exact hx

end

end Changes

/-! ## Calls on paths below the directory -/

section Calls

variable {D P : List Str} {fs₀ : Fs} {m : Mode} (h0 : D ≠ []) (hP : ∀ n ∈ P, Proper n) (hin : D <+: P)

include h0 hP hin

theorem onPath_kept {act : List Str → Fs → Except Errno Fs} {C : Fs → Prop}
    (hact : ∀ q fs fs', Kept D fs₀ fs → C fs → fs.find m (absPath P) = .ok q → D <+: q →
      act q fs = .ok fs' → Kept D fs₀ fs') :
    Triple (fun fs => Kept D fs₀ fs ∧ C fs) (onPath m (absPath P) act) (fun _ => Kept D fs₀) (Kept D fs₀) := by
  refine .of_snd fun fs ⟨hk, hC⟩ => ?_
  unfold onPath
  rcases hfind : fs.find m (absPath P) with e | q
  · exact hk
  rcases ha : act q fs with e | fs'
  · simp only [ha]; exact hk
  · simp only [ha]
    exact hact q fs fs' hk hC hfind (hk.isSealed.find_inside h0 hP hin hfind) ha

theorem create_kept {o : Obj} (ho : ∀ t, o.body.kind ≠ .symlink t) :
    Preserves (Kept D fs₀) (create (absPath P) o) := by
  refine (onPath_kept h0 hP hin (C := fun _ => True) fun q fs fs' hk _ _ hq ha => ?_).pre fun _ h => ⟨h, trivial⟩
  split at ha
  · cases ha
  · cases ha
    exact hk.addAt hq (fitsAt_of_ne ho)

theorem setAttr_kept {f : Obj → Obj} (hf : ∀ o, (f o).body.kind = o.body.kind) :
    Preserves (Kept D fs₀) (setAttr m (absPath P) f) := by
  refine (onPath_kept h0 hP hin (C := fun _ => True) fun q fs fs' hk _ _ hq ha => ?_).pre fun _ h => ⟨h, trivial⟩
  cases ha
  exact hk.modifyAt hq fun o _ => hf o

theorem writeFile_kept (perm : Perm) (data : Bytes) :
    Preserves (Kept D fs₀) (writeFile (absPath P) perm data) := by
  refine (onPath_kept h0 hP hin (C := fun _ => True) fun q fs fs' hk _ _ hq ha => ?_).pre fun _ h => ⟨h, trivial⟩
  rcases ho : fs.obj q with _ | o
  · simp only [ho, map_none] at ha
    cases ha
    exact hk.addAt hq (fitsAt_of_ne fun t ht => by cases ht)
  · simp only [ho, map_some] at ha
    split at ha
    next h => cases h
    next old hb =>
      cases ha
      refine hk.modifyAt hq fun o' ho' => ?_
      cases ho.symm.trans ho'
      rw [some.inj hb]
      rfl
    next => cases ha
    next => cases ha
    next => cases ha; exact hk

theorem removeAll_kept : Preserves (Kept D fs₀) (removeAll (absPath P)) := by
  refine .of_snd fun fs hk => ?_
  unfold Fs.removeAll
  rcases hfind : fs.find .name (absPath P) with e | q
  · cases e <;> exact hk
  have hq := hk.isSealed.find_inside h0 hP hin hfind
  have hne : q ≠ [] := fun h => h0 (prefix_nil.mp (h ▸ hq))
  simp only [if_neg hne]
  exact hk.removeAt hq

/-- A link with this target may be put at the path: not in place of `D`, and not so that it climbs out
from the directory the path leads to. -/
def TameAt (D : List Str) (path t : Str) (fs : Fs) : Prop :=
  path ≠ absPath D ∧ isAbs t = false ∧
    ∀ q, fs.find .stat (dir path) = .ok q → Climbs (q.length - D.length) (elems t)

instance (D : List Str) (path t : Str) (fs : Fs) : Decidable (TameAt D path t fs) :=
  inferInstanceAs (Decidable (_ ∧ _ ∧ _))

theorem fitsAt_of_tame {fs : Fs} (hk : Kept D fs₀ fs) {t : Str} (ht : TameAt D (absPath P) t fs) (hfind : fs.find .name (absPath P) = .ok q) : FitsAt D q (.symlink t) := by
  obtain ⟨hne, habs, hclimb⟩ := ht
  have hP0 : P ≠ [] := fun h => h0 (prefix_nil.mp (h ▸ hin))
  obtain ⟨Q, n, rfl⟩ := (eq_nil_or_concat' P).resolve_left hP0
  have hQ : AllProper Q := (forall_mem_append.mp hP).1
  have hn : Proper n := hP n (by simp)
  have hDQ : D <+: Q := (prefix_concat_iff.mp hin).resolve_left fun he => hne (he ▸ rfl)
  have hQ0 : Q ≠ [] := fun h => h0 (prefix_nil.mp (h ▸ hDQ))
  rw [dir_absPath_snoc hQ hn] at hclimb
  obtain ⟨p, hp, rfl⟩ := Sealed.find_name hQ hn hQ0 hfind
  obtain ⟨u, rfl⟩ := hk.isSealed.find_inside h0 hQ hDQ hp
  rintro _ ⟨⟩
  refine ⟨u, n, rfl, habs, ?_⟩
  have := hclimb _ hp
  rwa [length_append, Nat.add_sub_cancel_left] at this

theorem symlink_kept (t : Str) :
    Triple (fun fs => Kept D fs₀ fs ∧ TameAt D (absPath P) t fs) (symlink t (absPath P))
      (fun _ => Kept D fs₀) (Kept D fs₀) := by
  unfold symlink
  split
  · exact .fail _ fun _ h => h.1
  refine onPath_kept h0 hP hin fun q fs fs' hk ht hfind hq ha => ?_
  split at ha
  · cases ha
  · cases ha
    exact hk.addAt hq (fitsAt_of_tame h0 hP hin hk ht hfind)

theorem link_kept {Q : List Str} (hQ : AllProper Q) (hDQ : D <+: Q) :
    Triple (fun fs => Kept D fs₀ fs ∧
        ∀ t, lstat (absPath Q) fs = .ok (.symlink t) → TameAt D (absPath P) t fs)
      (link (absPath Q) (absPath P)) (fun _ => Kept D fs₀) (Kept D fs₀) := by
  refine .of_snd fun fs ⟨hk, ht⟩ => ?_
  unfold link
  rcases hold : fs.find .lstat (absPath Q) with e | old
  · exact hk
  refine (onPath_kept h0 hP hin (C := (· = fs)) fun q fs' fs'' hk' he hfind hq ha => ?_).snd
    ⟨hk, rfl⟩
  subst he
  split at ha
  · cases ha
  split at ha
  · cases ha
  · cases ha
    refine hk'.linkAt (hk.isSealed.find_inside h0 hQ hDQ hold) hq fun x hx t hxt => ?_
    subst hxt
    refine fitsAt_of_tame h0 hP hin hk' (ht t ?_) hfind t rfl
    simp only [lstat, kindOf, hold, hx]

theorem mkdir_kept (perm : Perm) : Preserves (Kept D fs₀) (mkdir (absPath P) perm) :=
  create_kept h0 hP hin fun t ht => by cases ht

omit hin in
/-- `MkdirAll` makes nothing above `D`, where every directory is there. -/
theorem mkdirAll_kept (hD : AllProper D) (perm : Perm) (hside : D <+: P ∨ P <+: D) :
    Preserves (Kept D fs₀) (mkdirAll (absPath P) perm) := by
  unfold mkdirAll
  rw [comps_absPath_proper hP]
  induction P using reverseRecOn with
  | nil => exact .pure _ fun _ h => h
  | append_singleton Q n ih =>
    have hQ : AllProper Q := (forall_mem_append.mp hP).1
    rw [reverse_append, reverse_singleton, singleton_append, mkdirAllRev]
    rw [show (n :: Q.reverse).reverse = Q ++ [n] by simp]
    by_cases hDP : D <+: Q ++ [n]
    · have hside' : D <+: Q ∨ Q <+: D := by
        rcases prefix_concat_iff.mp hDP with rfl | h
        · exact .inr (prefix_append ..)
        · exact .inl h
      refine .read_bind fun v => ?_
      split
      next => exact .pure _ fun _ h => h.1
      next => exact .fail _ fun _ h => h.1
      next =>
        refine ((ih hQ hside').pre fun _ h => h.1).bind fun _ => .of_snd fun fs hk => ?_
        have hmk := (mkdir_kept h0 hP hDP perm).snd hk
        rcases hm : mkdir (absPath (Q ++ [n])) perm fs with ⟨e | u, fs'⟩
        · rw [hm] at hmk
          dsimp only
          split <;> exact hmk
        · rw [hm] at hmk
          exact hmk
    · have hPD := hside.resolve_left hDP
      have hne : Q ++ [n] ≠ D := fun he => hDP (he ▸ prefix_refl _)
      refine .read_bind_of_eq (v := .ok .dir) (fun fs hk => ?_) (.pure _ fun _ h => h)
      exact hk.isSealed.kindOf_above hD (by simp) hPD hne

end Calls

end DockerEngine.UnixFs
