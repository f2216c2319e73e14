import DockerEngine.Lib.Filepath

/-!
# Path resolution with symbolic links

How a Unix kernel finds the object a path names. A file tree is seen here only as a map from
positions to kinds: a position is the list of names from the root down to an object, and the kind
says whether a directory, a symbolic link with its target, or something else stands there. A path is
a list of elements read from left to right at a current position. `.` stays, `..` goes up (at the
root it stays), a name goes down, and a symbolic link puts its target in front of the elements that
are left, starting again at the root when the target is absolute. The number of links that may be
followed is bounded.

`Mode` holds what the callers differ in: whether a link in the last place is followed, and whether
the last name may be missing because the caller creates it. The results are equations for each kind
of element, `resolve_append` (a path is resolved by resolving its front and going on from there),
`resolve_dirs` (through real directories the position is the path itself), `resolve_target` (what a
link leads to is found without the separator its target may end in) and `resolve_standing` (with all links
followed the way to the position leads through real directories).
-/

namespace DockerEngine.Resolve

open Filepath List

/-- The errors of the calls that take a path. -/
inductive Errno where
  | enoent | enotdir | eexist | eloop | eisdir | eperm | einval | ebusy
  deriving DecidableEq, Repr

/-- What stands at a position, as far as resolution asks. -/
inductive Kind where
  | dir
  | symlink (target : Str)
  | other
  deriving DecidableEq, Repr

/-- What a caller of the resolution asks for. -/
structure Mode where
  /-- Follow a symbolic link in the last place. -/
  follow : Bool
  /-- Let the last name be missing. -/
  create : Bool

/-- Find an existing object, following every link. -/
def Mode.stat : Mode := ⟨true, false⟩

/-- Find an existing object, or the link itself when it stands last. -/
def Mode.lstat : Mode := ⟨false, false⟩

/-- Find the place of a new name. -/
def Mode.name : Mode := ⟨false, true⟩

/-- Find a file to write, or the place where it is created. -/
def Mode.open : Mode := ⟨true, true⟩

/-- The elements the kernel reads from a path. A path that ends in a separator names a directory,
as it would with `.` behind it. -/
def elems (s : Str) : List Str := comps s ++ if hasSuffix s ['/'] then [dot] else []

/-- The walk up to the next link that is followed, which is left to `jump`. -/
def go (at_ : List Str → Option Kind) (m : Mode) (links : Nat)
    (jump : List Str → List Str → Except Errno (List Str × Nat)) :
    List Str → List Str → Except Errno (List Str × Nat)
  | pos, [] => .ok (pos, links)
  | pos, c :: cs =>
    match at_ pos with
    | none => .error .enoent
    | some .other => .error .enotdir
    | some (.symlink _) => .error .enotdir
    | some .dir =>
      if c = dot then go at_ m links jump pos cs
      else if c = dotdot then go at_ m links jump pos.dropLast cs
      else match at_ (pos ++ [c]) with
        | none => if m.create && cs.isEmpty then .ok (pos ++ [c], links) else .error .enoent
        | some (.symlink t) =>
          if cs.isEmpty && !m.follow then .ok (pos ++ [c], links)
          else jump (if isAbs t then [] else pos) (elems t ++ cs)
        | some .dir => go at_ m links jump (pos ++ [c]) cs
        | some .other => go at_ m links jump (pos ++ [c]) cs

/-- The position a list of elements leads to from a position, following at most the given number of
links, with the number of links that are left. -/
def resolve (at_ : List Str → Option Kind) (m : Mode) : Nat → List Str → List Str → Except Errno (List Str × Nat)
  | 0 => go at_ m 0 (fun _ _ => .error .eloop)
  | k + 1 => go at_ m (k + 1) (resolve at_ m k)

/-- Following one link: the target stands in front of the elements that are left. -/
def jump (at_ : List Str → Option Kind) (m : Mode) (k : Nat) (pos : List Str) (t : Str)
    (cs : List Str) : Except Errno (List Str × Nat) :=
  match k with
  | 0 => .error .eloop
  | k + 1 => resolve at_ m k (if isAbs t then [] else pos) (elems t ++ cs)

variable {at_ : List Str → Option Kind} {m : Mode} {k k' : Nat} {pos ds cs : List Str} {c : Str}

theorem map_fst_eq_ok {x : Except Errno (List Str × Nat)} {q : List Str} :
    x.map Prod.fst = .ok q ↔ ∃ links, x = .ok (q, links) := by
  rcases x with e | ⟨p, links⟩
  · exact ⟨nofun, nofun⟩
  constructor
  · intro h
    cases h
    exact ⟨links, rfl⟩
  · rintro ⟨_, h⟩
    cases h
    rfl

/-! ## One element -/

theorem resolve_nil (at_ : List Str → Option Kind) (m : Mode) (k : Nat) (pos : List Str) :
    resolve at_ m k pos [] = .ok (pos, k) := by
  cases k <;> rfl

theorem resolve_enoent (h : at_ pos = none) : resolve at_ m k pos (c :: cs) = .error .enoent := by
  cases k <;> rw [resolve, go, h]

variable {x : Kind} {r : List Str × Nat} {ds : List Str} {t : Str}

theorem resolve_enotdir (h : at_ pos = some x) (hx : x ≠ .dir) : resolve at_ m k pos (c :: cs) = .error .enotdir := by
  cases x with
  | dir => exact absurd rfl hx
  | symlink t => cases k <;> rw [resolve, go, h]
  | other => cases k <;> rw [resolve, go, h]

section

variable (h : at_ pos = some .dir)
include h

theorem resolve_dot : resolve at_ m k pos (dot :: cs) = resolve at_ m k pos cs := by
  cases k <;> rw [resolve, go, h, if_pos rfl]

theorem resolve_dotdot : resolve at_ m k pos (dotdot :: cs) = resolve at_ m k pos.dropLast cs := by
  have hne : dotdot ≠ dot := by decide
  cases k <;> rw [resolve, go, h, if_neg hne, if_pos rfl]

section

variable (hd : c ≠ dot) (hdd : c ≠ dotdot)
include hd hdd

/-- The equation of a name in a directory. -/
theorem resolve_proper :
    resolve at_ m k pos (c :: cs) =
      match at_ (pos ++ [c]) with
      | none => if m.create && cs.isEmpty then .ok (pos ++ [c], k) else .error .enoent
      | some (.symlink t) =>
        if cs.isEmpty && !m.follow then .ok (pos ++ [c], k) else jump at_ m k pos t cs
      | some .dir => resolve at_ m k (pos ++ [c]) cs
      | some .other => resolve at_ m k (pos ++ [c]) cs := by
  cases k <;> rw [resolve, go, h, if_neg hd, if_neg hdd] <;> rfl

theorem resolve_missing
    (hc : at_ (pos ++ [c]) = none) : resolve at_ m k pos (c :: cs) =
      if m.create && cs.isEmpty then .ok (pos ++ [c], k) else .error .enoent := by
  rw [resolve_proper h hd hdd, hc]

theorem resolve_symlink
    (hc : at_ (pos ++ [c]) = some (.symlink t)) : resolve at_ m k pos (c :: cs) =
      if cs.isEmpty && !m.follow then .ok (pos ++ [c], k) else jump at_ m k pos t cs := by
  rw [resolve_proper h hd hdd, hc]

theorem resolve_step (hc : at_ (pos ++ [c]) = some x) (hx : ∀ t, x ≠ .symlink t) :
    resolve at_ m k pos (c :: cs) = resolve at_ m k (pos ++ [c]) cs := by
  rw [resolve_proper h hd hdd, hc]
  cases x with
  | symlink t => exact absurd rfl (hx t)
  | dir => rfl
  | other => rfl

end

end

/-- The cases of an element, as a rule: a statement about every resolution follows by induction on
the links that are left and, within one walk, on the elements. -/
theorem resolve_induct (at_ : List Str → Option Kind) {P : Nat → List Str → List Str → Prop}
    (nil : ∀ k pos, P k pos [])
    (blocked : ∀ k pos c cs, at_ pos ≠ some .dir → P k pos (c :: cs))
    (stay : ∀ k pos cs, at_ pos = some .dir → P k pos cs → P k pos (dot :: cs))
    (up : ∀ k pos cs, at_ pos = some .dir → P k pos.dropLast cs → P k pos (dotdot :: cs))
    (missing : ∀ k pos c cs, at_ pos = some .dir → c ≠ dot → c ≠ dotdot → at_ (pos ++ [c]) = none → P k pos (c :: cs))
    (link : ∀ k pos c cs t, at_ pos = some .dir → c ≠ dot → c ≠ dotdot →
      at_ (pos ++ [c]) = some (.symlink t) →
      (∀ k', k = k' + 1 → P k' (if isAbs t then [] else pos) (elems t ++ cs)) → P k pos (c :: cs))
    (down : ∀ k pos c cs x, at_ pos = some .dir → c ≠ dot → c ≠ dotdot →
      at_ (pos ++ [c]) = some x → (∀ t, x ≠ .symlink t) → P k (pos ++ [c]) cs → P k pos (c :: cs)) :
    ∀ k pos cs, P k pos cs := by
  -- one walk, with the statement known for the links it may follow
  have walk : ∀ k, (∀ k', k = k' + 1 → ∀ pos cs, P k' pos cs) → ∀ cs pos, P k pos cs := by
    intro k ihk cs
    induction cs with
    | nil => exact nil k
    | cons c cs ih =>
      intro pos
      by_cases hp : at_ pos = some .dir
      · by_cases hd : c = dot
        · subst hd; exact stay k pos cs hp (ih pos)
        by_cases hdd : c = dotdot
        · subst hdd; exact up k pos cs hp (ih _)
        rcases hc : at_ (pos ++ [c]) with _ | _ | t | _
        · exact missing k pos c cs hp hd hdd hc
        · exact down k pos c cs _ hp hd hdd hc (by simp) (ih _)
        · exact link k pos c cs t hp hd hdd hc fun k' hk => ihk k' hk _ _
        · exact down k pos c cs _ hp hd hdd hc (by simp) (ih _)
      · exact blocked k pos c cs hp
  intro k
  induction k with
  | zero => exact fun pos cs => walk 0 (by omega) cs pos
  | succ k ih =>
    refine fun pos cs => walk (k + 1) (fun k' hk => ?_) cs pos
    cases hk
    exact ih

theorem resolve_blocked (h : at_ pos ≠ some .dir) : ∃ e, ∀ m k c cs, resolve at_ m k pos (c :: cs) = .error e := by
  rcases hp : at_ pos with _ | x
  · exact ⟨.enoent, fun _ _ _ _ => resolve_enoent hp⟩
  · exact ⟨.enotdir, fun _ _ _ _ => resolve_enotdir hp fun hx => h (hx ▸ hp)⟩

/-! ## The front of a path, and the rest from there -/

/-- A path is resolved by resolving its front, following every link, and going on from there. -/
theorem resolve_append (m : Mode) (hds : ds ≠ []) (k : Nat) (pos cs : List Str) :
    resolve at_ m k pos (cs ++ ds) = (resolve at_ .stat k pos cs).bind fun r => resolve at_ m r.2 r.1 ds := by
  have happ : ∀ cs : List Str, (cs ++ ds).isEmpty = false := by
    intro cs
    cases cs with
    | nil => simpa using hds
    | cons _ _ => rfl
  induction k, pos, cs using resolve_induct at_ with
  | nil k pos => rw [nil_append, resolve_nil]; rfl
  | blocked k pos c cs hp =>
    obtain ⟨e, he⟩ := resolve_blocked hp
    rw [cons_append, he, he]; rfl
  | stay k pos cs hp ih => rw [cons_append, resolve_dot hp, resolve_dot hp, ih]
  | up k pos cs hp ih => rw [cons_append, resolve_dotdot hp, resolve_dotdot hp, ih]
  | missing k pos c cs hp hd hdd hc =>
    rw [cons_append, resolve_missing hp hd hdd hc, resolve_missing hp hd hdd hc, happ]
    simp [Mode.stat, Except.bind]
  | link k pos c cs t hp hd hdd hc ih =>
    rw [cons_append, resolve_symlink hp hd hdd hc, resolve_symlink hp hd hdd hc, happ]
    simp only [Mode.stat, Bool.false_and, Bool.not_true, Bool.and_false, Bool.false_eq_true, if_false]
    cases k with
    | zero => rfl
    | succ k =>
      simp only [jump]
      rw [← append_assoc, ih k rfl]
      rfl
  | down k pos c cs x hp hd hdd hc hx ih =>
    rw [cons_append, resolve_step hp hd hdd hc hx, resolve_step hp hd hdd hc hx, ih]

/-- Through real directories the position is the path itself. -/
theorem resolve_dirs (hds : ∀ d ∈ ds, d ≠ dot ∧ d ≠ dotdot)
    (hpos : at_ pos = some .dir) (hdir : ∀ r, r ≠ [] → r <+: ds → at_ (pos ++ r) = some .dir) :
    resolve at_ m k pos (ds ++ cs) = resolve at_ m k (pos ++ ds) cs := by
  induction ds generalizing pos with
  | nil => rw [nil_append, append_nil]
  | cons d ds ih =>
    have hd := hdir [d] (by simp) (by simp)
    rw [cons_append, resolve_step hpos (hds d (by simp)).1 (hds d (by simp)).2 hd (by simp),
      ih (forall_mem_cons.mp hds).2 hd, append_assoc, singleton_append]
    intro r _ hpre
    rw [append_assoc, singleton_append]
    exact hdir (d :: r) (by simp) (by simpa using hpre)

/-- An existing object found through a path is found from where the front of the path leads. -/
theorem resolve_stat_append (k : Nat) (pos cs ds : List Str) : resolve at_ .stat k pos (cs ++ ds) =
    (resolve at_ .stat k pos cs).bind fun r => resolve at_ .stat r.2 r.1 ds := by
  by_cases hds : ds = []
  · subst hds
    rw [append_nil]
    rcases resolve at_ .stat k pos cs with e | r
    · rfl
    · exact (resolve_nil at_ .stat r.2 r.1).symm
  · exact resolve_append .stat hds k pos cs

/-- A path that goes on from a position starts in a directory. -/
theorem dir_of_resolve (h : resolve at_ m k pos (c :: cs) = .ok r) : at_ pos = some .dir := by
  by_contra hp
  obtain ⟨e, he⟩ := resolve_blocked hp
  rw [he] at h
  cases h

/-- What a link leads to is found without the separator its target may end in. -/
theorem resolve_target (h : resolve at_ .stat k pos (elems t ++ cs) = .ok r) :
    resolve at_ .stat k pos (comps t ++ cs) = .ok r := by
  unfold elems at h
  split at h
  · rw [append_assoc, resolve_stat_append] at h
    rw [resolve_stat_append]
    rcases hfront : resolve at_ .stat k pos (comps t) with e | ⟨q, l⟩
    · rw [hfront] at h
      cases h
    rw [hfront] at h
    have hok : resolve at_ .stat l q (dot :: cs) = .ok r := h
    rw [resolve_dot (dir_of_resolve hok)] at hok
    exact hok
  · rwa [append_nil] at h

/-! ## The last name -/

/-- A name in a directory is found where it stands, whether there is something or not. -/
theorem resolve_name (hd : c ≠ dot) (hdd : c ≠ dotdot) (k : Nat) (pos : List Str) :
    resolve at_ .name k pos [c] =
      if at_ pos = some .dir then .ok (pos ++ [c], k)
      else if at_ pos = none then .error .enoent else .error .enotdir := by
  by_cases hp : at_ pos = some .dir
  · rw [if_pos hp]
    rcases hc : at_ (pos ++ [c]) with _ | _ | t | _
    · rw [resolve_missing hp hd hdd hc]; rfl
    · rw [resolve_step hp hd hdd hc (by simp), resolve_nil]
    · rw [resolve_symlink hp hd hdd hc]; rfl
    · rw [resolve_step hp hd hdd hc (by simp), resolve_nil]
  · rw [if_neg hp]
    split
    next hn => exact resolve_enoent hn
    next hn =>
      obtain ⟨x, hx⟩ := Option.ne_none_iff_exists'.mp hn
      exact resolve_enotdir hx fun h => hp (h ▸ hx)

/-! ## Where resolution ends -/

/-- A position at the end of real directories that is not a link. The root stands for itself. -/
structure Standing (at_ : List Str → Option Kind) (p : List Str) : Prop where
  names : ∀ n ∈ p, Proper n
  dirs : ∀ q, q <+: p → q ≠ p → at_ q = some .dir
  last : p ≠ [] → ∃ x, at_ p = some x ∧ ∀ t, x ≠ .symlink t

theorem Standing.nil (at_ : List Str → Option Kind) : Standing at_ [] where
  names := nofun
  dirs _ hq hne := absurd (prefix_nil.mp hq) hne
  last h := absurd rfl h

theorem Standing.up (h : Standing at_ pos) : Standing at_ pos.dropLast := by
  have hpre : pos.dropLast <+: pos := dropLast_prefix pos
  refine ⟨fun n hn => h.names n (hpre.subset hn), fun q hq hne => ?_, fun hne => ?_⟩
  · refine h.dirs q (hq.trans hpre) fun he => hne ?_
    exact hq.eq_of_length (le_antisymm hq.length_le (he ▸ hpre.length_le))
  refine ⟨.dir, h.dirs _ hpre fun he => ?_, nofun⟩
  have hlen := congrArg length he
  rw [length_dropLast] at hlen
  exact hne (length_eq_zero_iff.mp (by rw [length_dropLast]; omega))

theorem Standing.down (h : Standing at_ pos) (hdir : at_ pos = some .dir) (hc : Proper c)
    (hx : at_ (pos ++ [c]) = some x) (hlink : ∀ t, x ≠ .symlink t) : Standing at_ (pos ++ [c]) := by
  refine ⟨proper_snoc h.names hc, fun q hq hne => ?_, fun _ => ⟨x, hx, hlink⟩⟩
  have hq' : q <+: pos := (prefix_concat_iff.mp hq).resolve_left hne
  by_cases he : q = pos
  · rw [he, hdir]
  · exact h.dirs q hq' he

theorem elem_of_mem_elems {d : Str} (h : d ∈ elems t) : d ≠ [] ∧ '/' ∉ d := by
  rw [elems] at h
  obtain h | h := mem_append.mp h
  · exact mem_comps h
  split at h
  · rw [mem_singleton.mp h]
    exact dot_elem
  · cases h

/-- An object that is found with all links followed is at a standing position. -/
theorem resolve_standing (hpos : Standing at_ pos) (hcs : AllElems cs) {r : List Str}
    {links : Nat} (h : resolve at_ .stat k pos cs = .ok (r, links)) : Standing at_ r := by
  revert hpos hcs h
  refine resolve_induct at_ (P := fun k pos cs => Standing at_ pos → (AllElems cs) →
    resolve at_ .stat k pos cs = .ok (r, links) → Standing at_ r) ?_ ?_ ?_ ?_ ?_ ?_ ?_ k pos cs
  · intro k pos hpos _ h
    rw [resolve_nil] at h
    cases h
    exact hpos
  · intro k pos c cs hp _ _ h
    exact absurd (dir_of_resolve h) hp
  · intro k pos cs hp ih hpos hcs h
    rw [resolve_dot hp] at h
    exact ih hpos (forall_mem_cons.mp hcs).2 h
  · intro k pos cs hp ih hpos hcs h
    rw [resolve_dotdot hp] at h
    exact ih hpos.up (forall_mem_cons.mp hcs).2 h
  · intro k pos c cs hp hd hdd hc _ _ h
    rw [resolve_missing hp hd hdd hc] at h
    cases h
  · intro k pos c cs t hp hd hdd hc ih hpos hcs h
    have hrest : AllElems (elems t ++ cs) := by
      intro d hd
      obtain hd | hd := mem_append.mp hd
      · exact elem_of_mem_elems hd
      · exact hcs d (mem_cons_of_mem _ hd)
    rw [resolve_symlink hp hd hdd hc, if_neg (by simp [Mode.stat])] at h
    cases k with
    | zero => cases h
    | succ k =>
      refine ih k rfl ?_ hrest h
      split
      · exact .nil at_
      · exact hpos
  · intro k pos c cs x hp hd hdd hc hx ih hpos hcs h
    have hproper : Proper c := ⟨(hcs c mem_cons_self).1, hd, hdd, (hcs c mem_cons_self).2⟩
    rw [resolve_step hp hd hdd hc hx] at h
    exact ih (hpos.down hp hproper hc hx) (forall_mem_cons.mp hcs).2 h

/-- What leads to the directory of a position leads on to it, and stops before it. -/
theorem prefix_snoc {q : List Str} (h : q <+: ds) (c : Str) : q <+: ds ++ [c] ∧ q ≠ ds ++ [c] := by
  refine ⟨h.trans (prefix_append ..), fun he => ?_⟩
  have hlen := h.length_le
  rw [he, length_append, length_singleton] at hlen
  omega

/-- A standing position is found by its names. -/
theorem Standing.resolve (h : Standing at_ (ds ++ [c])) (k : Nat) :
    resolve at_ .stat k [] (ds ++ [c]) = .ok (ds ++ [c], k) := by
  have hproper : ∀ {n}, n ∈ ds ++ [c] → n ≠ dot ∧ n ≠ dotdot := fun hn =>
    ⟨(h.names _ hn).2.1, (h.names _ hn).2.2.1⟩
  have hdirs : ∀ q, q <+: ds → at_ q = some .dir := fun q hq => h.dirs q (prefix_snoc hq c).1 (prefix_snoc hq c).2
  obtain ⟨x, hx, hlink⟩ := h.last (by simp)
  have hc := hproper (n := c) (by simp)
  rw [resolve_dirs (fun d hd => hproper (by simp [hd])) (hdirs [] nil_prefix) fun r _ => hdirs r,
    nil_append, resolve_step (hdirs ds (prefix_refl ds)) hc.1 hc.2 hx hlink, resolve_nil]

end DockerEngine.Resolve
