import DockerEngine.Lib.Trace

/-!
# Events and their subscribers

`Events` keeps the last events for those who come later and passes each event on to those who listen. `Log` does both
for one event, in a goroutine of its own: it appends the event to the list under the lock of the list, and then
publishes it under the read lock of the publisher, one channel after the other. `Subscribe` holds the lock of the list
while it copies the list and joins the publisher, for which it takes the publisher's lock for writing.

An event that is in the list and not published yet is in the copy, and comes through the channel as well. Whether
that happens is decided when the subscriber joins (`events_once_iff`): every event reaches every subscriber at most
once, exactly if no event of the copy is waiting to be published at that moment. An event whose `Log` starts after
`Subscribe` has returned is received exactly once in any case.

The receivers are prompt, so that no send times out. Messages are told apart by their address. Subscribers are not
evicted.
-/

namespace DockerEngine.Events

open Trace List Function

variable {M S : Type}

/-! ## The system -/

/-- How far the `Log` of an event has come. While it is published, the channels that are still to be served come
along. -/
inductive Logged (S : Type) where
  | idle
  | recorded
  | publishing (rest : List S)
  | done
  deriving DecidableEq, Repr

/-- How far a call of `Subscribe` has come. -/
inductive Subscription where
  | idle
  | copied
  | joined
  | returned
  deriving DecidableEq, Repr

/-- `Events` and its publisher. `mu` is the subscription that holds the lock of the list, `readers` are the events
whose publication holds the read lock of the publisher; `current` is the copy that `Subscribe` returns. -/
structure State (M S : Type) where
  events : List M
  mu : Option S
  readers : List M
  subscribers : List S
  logged : M → Logged S
  subscription : S → Subscription
  current : S → List M
  channel : S → List M

/-- `eventsLimit`. -/
def eventsLimit : Nat := 64

/-- `New`. -/
def new : State M S where
  events := []
  mu := none
  readers := []
  subscribers := []
  logged := fun _ => .idle
  subscription := fun _ => .idle
  current := fun _ => []
  channel := fun _ => []

/-- The steps of `Log` and `Subscribe`. -/
inductive Label (M S : Type) where
  /-- `Log` appends the event, under the lock of the list. -/
  | record (e : M)
  /-- `Publish` takes the read lock; the order is that of its loop over the subscribers. -/
  | publish (e : M) (order : List S)
  /-- `Publish` sends to the next channel. -/
  | send (e : M)
  /-- `Publish` gives the read lock back. -/
  | finish (e : M)
  /-- `Subscribe` takes the lock of the list and copies the list. -/
  | copy (s : S)
  /-- `Subscribe` joins the publisher, under its lock for writing. -/
  | join (s : S)
  /-- `Subscribe` gives the lock of the list back and returns. -/
  | release (s : S)
  deriving DecidableEq, Repr

/-- The list with one more event. The oldest one goes when the list is full. -/
def append (events : List M) (e : M) : List M :=
  if events.length = eventsLimit then events.tail ++ [e] else events ++ [e]

/-- A channel is still to be served. -/
def Logged.sending : Logged S → Bool
  | .publishing (_ :: _) => true
  | _ => false

variable [DecidableEq M] [DecidableEq S]

/-- The locks and the order of the program let the step be made. -/
def Enabled (st : State M S) : Label M S → Prop
  | .record e => st.mu = none ∧ st.logged e = .idle
  | .publish e order => st.logged e = .recorded ∧ order.Perm st.subscribers
  | .send e => (st.logged e).sending = true
  | .finish e => st.logged e = .publishing []
  | .copy s => st.mu = none ∧ st.subscription s = .idle
  | .join s => st.mu = some s ∧ st.subscription s = .copied ∧ st.readers = []
  | .release s => st.mu = some s ∧ st.subscription s = .joined

instance (st : State M S) (l : Label M S) : Decidable (Enabled st l) := by
  cases l <;> unfold Enabled <;> infer_instance

/-- What a step does. -/
def effect (st : State M S) : Label M S → State M S
  | .record e => { st with events := append st.events e, logged := update st.logged e .recorded }
  | .publish e order =>
    { st with readers := e :: st.readers, logged := update st.logged e (.publishing order) }
  | .send e =>
    match st.logged e with
    | .publishing (s :: rest) =>
      { st with
        logged := update st.logged e (.publishing rest)
        channel := update st.channel s (st.channel s ++ [e]) }
    | _ => st
  | .finish e => { st with readers := st.readers.erase e, logged := update st.logged e .done }
  | .copy s =>
    { st with
      mu := some s
      subscription := update st.subscription s .copied
      current := update st.current s st.events }
  | .join s =>
    { st with subscribers := s :: st.subscribers, subscription := update st.subscription s .joined }
  | .release s => { st with mu := none, subscription := update st.subscription s .returned }

/-- One step of the system. -/
def step (st : State M S) (l : Label M S) : Option (State M S) := if Enabled st l then some (effect st l) else none

variable {st st' : State M S} {l : Label M S}

theorem step_eq_some (h : step st l = some st') : Enabled st l ∧ st' = effect st l := by
  rw [step] at h
  split at h
  next henabled => exact ⟨henabled, (Option.some.inj h).symm⟩
  next => cases h

/-! ## What is always so -/

/-- The bookkeeping of the system: what is in a list was logged, a publication has the read lock and serves
subscribers only, and what is still to be sent has not arrived. -/
structure Inv (st : State M S) : Prop where
  eventsLogged : ∀ e ∈ st.events, st.logged e ≠ .idle
  currentLogged : ∀ s, ∀ e ∈ st.current s, st.logged e ≠ .idle
  channelSent : ∀ s, ∀ e ∈ st.channel s, st.logged e ≠ .idle ∧ st.logged e ≠ .recorded ∧
    ∀ rest, st.logged e = .publishing rest → s ∉ rest
  reading : ∀ e rest, st.logged e = .publishing rest → e ∈ st.readers ∧ rest.Nodup ∧ rest ⊆ st.subscribers
  outside : ∀ s, s ∉ st.subscribers → st.channel s = []
  copied : ∀ s, st.subscription s = .copied → s ∉ st.subscribers
  idle : ∀ s, st.subscription s = .idle → s ∉ st.subscribers
  returned : ∀ s, st.subscription s = .joined ∨ st.subscription s = .returned → s ∈ st.subscribers
  eventsNodup : st.events.Nodup
  currentNodup : ∀ s, (st.current s).Nodup
  channelNodup : ∀ s, (st.channel s).Nodup
  subscribersNodup : st.subscribers.Nodup

omit [DecidableEq M] [DecidableEq S] in
theorem inv_new : Inv (new : State M S) := by
  constructor <;> simp [new]

variable {e : M} {l : Label M S}

omit [DecidableEq M] in
theorem mem_append {events : List M} {x : M} (h : x ∈ append events e) : x = e ∨ x ∈ events := by
  rw [append] at h
  split at h
  · rcases List.mem_append.mp h with h | h
    · exact .inr (mem_of_mem_tail h)
    · exact .inl (mem_singleton.mp h)
  · rcases List.mem_append.mp h with h | h
    · exact .inr h
    · exact .inl (mem_singleton.mp h)

omit [DecidableEq M] in
theorem nodup_snoc {l : List M} (h : l.Nodup) (he : e ∉ l) : (l ++ [e]).Nodup := by
  rw [nodup_append_comm]
  exact nodup_cons.mpr ⟨he, h⟩

omit [DecidableEq M] in
theorem nodup_append {events : List M} (h : events.Nodup) (he : e ∉ events) : (append events e).Nodup := by
  rw [append]
  split
  · exact nodup_snoc h.tail fun hmem => he (mem_of_mem_tail hmem)
  · exact nodup_snoc h he

omit [DecidableEq S] in
theorem sending_iff {p : Logged S} : p.sending ↔ ∃ s rest, p = .publishing (s :: rest) := by
  cases p with
  | publishing rest =>
    cases rest with
    | nil => simp [Logged.sending]
    | cons s rest => simp [Logged.sending]
  | _ => simp [Logged.sending]

/-- A value that an update does not write was there before, at another place. -/
theorem of_update_eq {A B : Type} [DecidableEq A] {f : A → B} {a x : A} {v w : B} (hvw : v ≠ w)
    (h : update f a v x = w) : x ≠ a ∧ f x = w := by
  by_cases hx : x = a
  · rw [hx, update_self] at h
    exact absurd h hvw
  · rw [update_of_ne hx] at h
    exact ⟨hx, h⟩

/-- An update that does not write a value does not bring it in. -/
theorem update_ne {A B : Type} [DecidableEq A] {f : A → B} {a x : A} {v w : B} (hvw : v ≠ w) (h : f x ≠ w) :
    update f a v x ≠ w := fun hnow => h (of_update_eq hvw hnow).2

section Steps

variable {st : State M S} {e : M} {s : S}

theorem Inv.record (h : Inv st) (hidle : st.logged e = .idle) : Inv (effect st (.record e)) := by
  refine { h with
    eventsLogged := fun x hx => ?_
    currentLogged := fun s x hx => update_ne (by simp) (h.currentLogged s x hx)
    channelSent := fun s x hx => ?_
    reading := fun x rest hx => ?_
    eventsNodup := nodup_append h.eventsNodup fun hmem => h.eventsLogged e hmem hidle }
  · rcases mem_append hx with rfl | hx
    · simp [effect]
    · exact update_ne (by simp) (h.eventsLogged x hx)
  · have hxe : x ≠ e := fun hxe => (h.channelSent s x hx).1 (hxe ▸ hidle)
    simp only [effect, update_of_ne hxe]
    exact h.channelSent s x hx
  · exact h.reading x rest (of_update_eq (by simp) hx).2

theorem Inv.publish (h : Inv st) (hrecorded : st.logged e = .recorded) {order : List S}
    (horder : order.Perm st.subscribers) : Inv (effect st (.publish e order)) := by
  refine { h with
    eventsLogged := fun x hx => update_ne (by simp) (h.eventsLogged x hx)
    currentLogged := fun s x hx => update_ne (by simp) (h.currentLogged s x hx)
    channelSent := fun s x hx => ?_
    reading := fun x rest hx => ?_ }
  · have hxe : x ≠ e := fun hxe => (h.channelSent s x hx).2.1 (hxe ▸ hrecorded)
    simp only [effect, update_of_ne hxe]
    exact h.channelSent s x hx
  · simp only [effect] at hx ⊢
    by_cases hxe : x = e
    · subst hxe
      rw [update_self, Logged.publishing.injEq] at hx
      subst hx
      exact ⟨by simp, horder.nodup_iff.mpr h.subscribersNodup, horder.subset⟩
    · rw [update_of_ne hxe] at hx
      obtain ⟨hread, hrest⟩ := h.reading x rest hx
      exact ⟨by simp [hread], hrest⟩

theorem effect_send {rest : List S} (hsending : st.logged e = .publishing (s :: rest)) :
    effect st (.send e) = { st with
      logged := update st.logged e (.publishing rest)
      channel := update st.channel s (st.channel s ++ [e]) } := by
  simp only [effect, hsending]

section

variable (h : Inv st)
include h

theorem Inv.send {rest : List S} (hsending : st.logged e = .publishing (s :: rest)) : Inv (effect st (.send e)) := by
  obtain ⟨hread, hnodup, hsub⟩ := h.reading e _ hsending
  rw [nodup_cons] at hnodup
  have hnew : e ∉ st.channel s := fun hmem => (h.channelSent s e hmem).2.2 _ hsending (by simp)
  rw [effect_send hsending]
  refine { h with
    eventsLogged := fun x hx => update_ne (by simp) (h.eventsLogged x hx)
    currentLogged := fun t x hx => update_ne (by simp) (h.currentLogged t x hx)
    channelSent := fun t x hx => ?_
    reading := ?_
    outside := fun t ht => ?_
    channelNodup := ?_ }
  · simp only at hx ⊢
    by_cases hxe : x = e
    · subst hxe
      rw [update_self]
      refine ⟨by simp, by simp, ?_⟩
      rintro _ hrest ht
      cases hrest
      by_cases hts : t = s
      · exact hnodup.1 (hts ▸ ht)
      · rw [update_of_ne hts] at hx
        exact (h.channelSent t x hx).2.2 _ hsending (by simp [ht])
    · rw [update_of_ne hxe]
      by_cases hts : t = s
      · subst hts
        rw [update_self, List.mem_append, List.mem_singleton] at hx
        exact h.channelSent t x (hx.resolve_right hxe)
      · rw [update_of_ne hts] at hx
        exact h.channelSent t x hx
  · exact (forall_update_iff st.logged fun x p => ∀ rest', p = .publishing rest' →
        x ∈ st.readers ∧ rest'.Nodup ∧ rest' ⊆ st.subscribers).mpr
      ⟨by rintro _ ⟨⟩; exact ⟨hread, hnodup.2, fun t ht => hsub (by simp [ht])⟩, fun x _ => h.reading x⟩
  · have hts : t ≠ s := by
      rintro rfl
      exact ht (hsub (by simp))
    simp only [update_of_ne hts]
    exact h.outside t ht
  · exact (forall_update_iff st.channel fun _ l => l.Nodup).mpr
      ⟨nodup_snoc (h.channelNodup s) hnew, fun t _ => h.channelNodup t⟩

theorem Inv.finish (hsent : st.logged e = .publishing []) : Inv (effect st (.finish e)) := by
  refine { h with
    eventsLogged := fun x hx => update_ne (by simp) (h.eventsLogged x hx)
    currentLogged := fun s x hx => update_ne (by simp) (h.currentLogged s x hx)
    channelSent := fun s x hx => ?_
    reading := fun x rest hx => ?_ }
  · simp only [effect]
    by_cases hxe : x = e
    · subst hxe
      simp
    · rw [update_of_ne hxe]
      exact h.channelSent s x hx
  · obtain ⟨hxe, hx⟩ := of_update_eq (by simp) hx
    obtain ⟨hread, hrest⟩ := h.reading x rest hx
    exact ⟨(mem_erase_of_ne hxe).mpr hread, hrest⟩

theorem Inv.copy (hidle : st.subscription s = .idle) : Inv (effect st (.copy s)) := by
  refine { h with
    currentLogged := ?_
    copied := ?_
    idle := fun t ht => h.idle t (of_update_eq (by simp) ht).2
    returned := fun t ht => h.returned t (ht.imp (fun ht => (of_update_eq (by simp) ht).2)
      fun ht => (of_update_eq (by simp) ht).2)
    currentNodup := ?_ }
  · exact (forall_update_iff st.current fun _ l => ∀ x ∈ l, st.logged x ≠ .idle).mpr
      ⟨h.eventsLogged, fun t _ => h.currentLogged t⟩
  · exact (forall_update_iff st.subscription fun t p => p = .copied → t ∉ st.subscribers).mpr
      ⟨fun _ => h.idle s hidle, fun t _ => h.copied t⟩
  · exact (forall_update_iff st.current fun _ l => l.Nodup).mpr ⟨h.eventsNodup, fun t _ => h.currentNodup t⟩

theorem Inv.join (hcopied : st.subscription s = .copied) : Inv (effect st (.join s)) := by
  refine { h with
    reading := fun x rest hx => ?_
    outside := fun t ht => h.outside t fun hmem => ht (by simp [effect, hmem])
    copied := fun t ht => ?_
    idle := fun t ht => ?_
    returned := ?_
    subscribersNodup := nodup_cons.mpr ⟨h.copied s hcopied, h.subscribersNodup⟩ }
  · obtain ⟨hread, hnodup, hsub⟩ := h.reading x rest hx
    exact ⟨hread, hnodup, fun t ht => mem_cons_of_mem s (hsub ht)⟩
  · obtain ⟨hts, ht⟩ := of_update_eq (by simp) ht
    simp [effect, hts, h.copied t ht]
  · obtain ⟨hts, ht⟩ := of_update_eq (by simp) ht
    simp [effect, hts, h.idle t ht]
  · exact (forall_update_iff st.subscription fun t p => p = .joined ∨ p = .returned → t ∈ s :: st.subscribers).mpr
      ⟨fun _ => mem_cons_self, fun t _ ht => mem_cons_of_mem s (h.returned t ht)⟩

theorem Inv.release (hjoined : st.subscription s = .joined) : Inv (effect st (.release s)) := by
  refine { h with
    copied := fun t ht => h.copied t (of_update_eq (by simp) ht).2
    idle := fun t ht => h.idle t (of_update_eq (by simp) ht).2
    returned := ?_ }
  exact (forall_update_iff st.subscription fun t p => p = .joined ∨ p = .returned → t ∈ st.subscribers).mpr
    ⟨fun _ => h.returned s (.inl hjoined), fun t _ => h.returned t⟩

/-- **Every step** keeps the bookkeeping. -/
theorem Inv.step {st' : State M S} (hstep : step st l = some st') : Inv st' := by
  obtain ⟨henabled, rfl⟩ := step_eq_some hstep
  cases l with
  | record e => exact h.record henabled.2
  | publish e order => exact h.publish henabled.1 henabled.2
  | send e =>
    obtain ⟨s, rest, hsending⟩ := sending_iff.mp henabled
    exact h.send hsending
  | finish e => exact h.finish henabled
  | copy s => exact h.copy henabled.2
  | join s => exact h.join henabled.2.1
  | release s => exact h.release henabled.2

end

end Steps

/-! ## What is owed to a subscriber -/

/-- An event that was not published yet when the subscriber joined: it arrives. -/
def Owed (s : S) (e : M) (st : State M S) : Prop :=
  s ∈ st.subscribers ∧
    (∀ rest, st.logged e = .publishing rest → s ∈ rest ∨ e ∈ st.channel s) ∧
    (st.logged e = .done → e ∈ st.channel s)

variable {s : S} {st st' : State M S}

/-- What was sent to a subscriber stays sent. -/
theorem mem_channel_effect (h : e ∈ st.channel s) : e ∈ (effect st l).channel s := by
  cases l with
  | send x =>
    rw [effect]
    split
    next t rest hsending =>
      by_cases hst : s = t
      · subst hst
        simp [h]
      · simpa [update_of_ne hst] using h
    next => exact h
  | _ => exact h

theorem Owed.step {s : S} {e : M} (h : Owed s e st) (hstep : step st l = some st') : Owed s e st' := by
  obtain ⟨henabled, rfl⟩ := step_eq_some hstep
  obtain ⟨hsub, hpublishing, hdone⟩ := h
  refine ⟨?_, fun rest hrest => ?_, fun hnow => ?_⟩
  · cases l with
    | send x =>
      rw [effect]
      split <;> exact hsub
    | join t => exact mem_cons_of_mem t hsub
    | _ => exact hsub
  · cases l with
    | record x => exact hpublishing rest (of_update_eq (by simp) hrest).2
    | publish x order =>
      simp only [effect] at hrest
      by_cases hex : e = x
      · rw [hex, update_self, Logged.publishing.injEq] at hrest
        exact .inl (hrest ▸ henabled.2.mem_iff.mpr hsub)
      · rw [update_of_ne hex] at hrest
        exact hpublishing rest hrest
    | send x =>
      obtain ⟨t, rest', hsending⟩ := sending_iff.mp henabled
      by_cases hex : e = x
      · subst hex
        rcases hpublishing _ hsending with hmem | hmem
        · rw [effect_send hsending] at hrest ⊢
          simp only [update_self, Logged.publishing.injEq] at hrest ⊢
          subst hrest
          rcases mem_cons.mp hmem with rfl | hmem
          · simp
          · exact .inl hmem
        · exact .inr (mem_channel_effect hmem)
      · simp only [effect_send hsending, update_of_ne hex] at hrest
        exact (hpublishing rest hrest).imp_right mem_channel_effect
    | finish x => exact hpublishing rest (of_update_eq (by simp) hrest).2
    | _ => exact hpublishing rest hrest
  · cases l with
    | record x => exact hdone (of_update_eq (by simp) hnow).2
    | publish x order => exact hdone (of_update_eq (by simp) hnow).2
    | send x =>
      obtain ⟨t, rest', hsending⟩ := sending_iff.mp henabled
      refine mem_channel_effect (hdone ?_)
      rw [effect_send hsending] at hnow
      exact (of_update_eq (by simp) hnow).2
    | finish x =>
      simp only [effect] at hnow ⊢
      by_cases hex : e = x
      · subst hex
        exact (hpublishing [] henabled).resolve_left (by simp)
      · rw [update_of_ne hex] at hnow
        exact hdone hnow
    | _ => exact hdone hnow

/-! ## At most once -/

/-- What a subscriber is given, in the list and through the channel. -/
def received (st : State M S) (s : S) : List M := st.current s ++ st.channel s

/-- What was given in the list does not come through the channel. -/
def Single (st : State M S) : Prop :=
  ∀ s ∈ st.subscribers, ∀ e ∈ st.current s,
    st.logged e ≠ .recorded ∧ (∀ rest, st.logged e = .publishing rest → s ∉ rest) ∧ e ∉ st.channel s

/-- When a subscriber joins, no event of its list is waiting to be published. -/
def NoneWaiting (st : State M S) : Label M S → Prop
  | .join s => ∀ e ∈ st.current s, st.logged e ≠ .recorded
  | _ => True

instance (st : State M S) (l : Label M S) : Decidable (NoneWaiting st l) := by
  cases l <;> unfold NoneWaiting <;> infer_instance

theorem Single.step (hinv : Inv st) (h : Single st)
    (hgood : NoneWaiting st l) (hstep : step st l = some st') : Single st' := by
  obtain ⟨henabled, rfl⟩ := step_eq_some hstep
  cases l with
  | record x =>
    intro s hs e he
    have hex : e ≠ x := fun hex => hinv.currentLogged s e he (hex ▸ henabled.2)
    simp only [effect, update_of_ne hex]
    exact h s hs e he
  | publish x order =>
    intro s hs e he
    have hex : e ≠ x := fun hex => (h s hs e he).1 (hex ▸ henabled.1)
    simp only [effect, update_of_ne hex]
    exact h s hs e he
  | send x =>
    obtain ⟨t, rest, hsending⟩ := sending_iff.mp henabled
    rw [effect_send hsending]
    intro s hs e he
    obtain ⟨hrecorded, hpublishing, hchannel⟩ := h s hs e he
    simp only
    by_cases hex : e = x
    · subst hex
      -- the channel that is served is another one
      have hst := hpublishing _ hsending
      rw [mem_cons, not_or] at hst
      rw [update_self, update_of_ne hst.1]
      refine ⟨by simp, fun rest' hrest => ?_, hchannel⟩
      cases hrest
      exact hst.2
    · rw [update_of_ne hex]
      refine ⟨hrecorded, hpublishing, ?_⟩
      by_cases hst : s = t
      · subst hst
        simp [hchannel, hex]
      · rwa [update_of_ne hst]
  | finish x =>
    intro s hs e he
    obtain ⟨hrecorded, hpublishing, hchannel⟩ := h s hs e he
    refine ⟨fun hnow => hrecorded (of_update_eq (by simp) hnow).2,
      fun rest hnow => hpublishing rest (of_update_eq (by simp) hnow).2, hchannel⟩
  | copy t =>
    intro s hs e he
    have hst : s ≠ t := by
      rintro rfl
      exact hinv.idle s henabled.2 hs
    simp only [effect, update_of_ne hst] at he
    exact h s hs e he
  | join t =>
    intro s hs e he
    rcases mem_cons.mp hs with rfl | hs
    · refine ⟨hgood e he, fun rest hrest => ?_, ?_⟩
      · have hread := (hinv.reading e rest hrest).1
        simp [henabled.2.2] at hread
      · simp [effect, hinv.outside s (hinv.copied s henabled.2.1)]
    · exact h s hs e he
  | release t => exact h

theorem count_le_one (hinv : Inv st) (h : Single st) (s : S) (e : M) : (received st s).count e ≤ 1 := by
  apply nodup_iff_count_le_one.mp
  rw [received, List.nodup_append]
  refine ⟨hinv.currentNodup s, hinv.channelNodup s, ?_⟩
  rintro a ha b hb rfl
  by_cases hs : s ∈ st.subscribers
  · exact (h s hs a ha).2.2 hb
  · rw [hinv.outside s hs] at hb
    cases hb

/-! ## Exactly once -/

/-- The list that a subscriber is given does not change. -/
def Given (s : S) (c : List M) (st : State M S) : Prop := st.subscription s ≠ .idle ∧ st.current s = c

theorem Given.step {s : S} {c : List M} (h : Given s c st) (hstep : step st l = some st') : Given s c st' := by
  obtain ⟨henabled, rfl⟩ := step_eq_some hstep
  cases l with
  | send x =>
    obtain ⟨t, rest, hsending⟩ := sending_iff.mp henabled
    rw [effect_send hsending]
    exact h
  | copy t =>
    have hst : s ≠ t := fun hst => h.1 (hst ▸ henabled.2)
    simpa only [Given, effect, update_of_ne hst] using h
  | join t => exact ⟨update_ne (by simp) h.1, h.2⟩
  | release t => exact ⟨update_ne (by simp) h.1, h.2⟩
  | _ => exact h

/-- The events of a run, seen by its subscribers: each at most once, and exactly once if its `Log` starts after
`Subscribe` has returned, when the `Log` is done. -/
structure Once (run : List (Label M S)) : Prop where
  atMost : ∀ pre st, pre <+: run → exec step new pre = some st → ∀ s e, (received st s).count e ≤ 1
  exactly : ∀ pre mid st st' s e, pre ++ mid <+: run → exec step new pre = some st →
    st.subscription s = .returned → st.logged e = .idle → exec step st mid = some st' →
    st'.logged e = .done → (received st' s).count e = 1

variable {run : List (Label M S)}

theorem inv_exec (h : exec step new run = some st) : Inv st :=
  exec_kept (fun _ _ _ hinv => hinv.step) inv_new h

/-- An event that is logged later is received exactly once. -/
theorem count_eq_one {pre mid : List (Label M S)}
    (hpre : exec step new pre = some st) (hreturned : st.subscription s = .returned)
    (hidle : st.logged e = .idle) (hmid : exec step st mid = some st') (hdone : st'.logged e = .done) :
    (received st' s).count e = 1 := by
  have hinv := inv_exec hpre
  have hinv' : Inv st' := exec_kept (fun _ _ _ hinv => hinv.step) hinv hmid
  have howed : Owed s e st := ⟨hinv.returned s (.inr hreturned), by simp [hidle], by simp [hidle]⟩
  have howed' : Owed s e st' := exec_kept (fun _ _ _ h => h.step) howed hmid
  have hgiven : Given s (st.current s) st := ⟨by simp [hreturned], rfl⟩
  have hgiven' : Given s (st.current s) st' := exec_kept (fun _ _ _ h => h.step) hgiven hmid
  have hnot : e ∉ st'.current s := by
    rw [hgiven'.2]
    exact fun hmem => hinv.currentLogged s e hmem hidle
  rw [received, count_append, count_eq_zero.mpr hnot,
    count_eq_one_of_mem (hinv'.channelNodup s) (howed'.2.2 hdone)]

/-- A run in which no subscriber joins at a wrong moment. -/
theorem once_of_noneWaiting (hgood : Along step NoneWaiting new run) : Once run := by
  refine ⟨?_, fun pre mid st st' s e _ hpre hreturned hidle hmid hdone =>
    count_eq_one hpre hreturned hidle hmid hdone⟩
  rintro pre st ⟨post, rfl⟩ hpre s e
  have hboth : Inv st ∧ Single st :=
    exec_inv (I := fun st => Inv st ∧ Single st)
      (fun _ _ _ h hnone hstep => ⟨h.1.step hstep, h.2.step h.1 hnone hstep⟩)
      ⟨inv_new, fun s hs => by simp [new] at hs⟩ (along_of_append hgood) hpre
  exact count_le_one hboth.1 hboth.2 s e

/-- An event of the list that waits when its subscriber joins comes through the channel in the end. -/
theorem two_le_count {fin : State M S} {post : List (Label M S)}
    (he : e ∈ st.current s) (hrecorded : st.logged e = .recorded)
    (hrest : exec step (effect st (.join s)) post = some fin) (hdone : fin.logged e = .done) :
    2 ≤ (received fin s).count e := by
  have howed : Owed s e (effect st (.join s)) :=
    ⟨mem_cons_self, by simp [effect, hrecorded], by simp [effect, hrecorded]⟩
  have hgiven : Given s (st.current s) (effect st (.join s)) := ⟨by simp [effect], rfl⟩
  have howed' : Owed s e fin := exec_kept (fun _ _ _ h => h.step) howed hrest
  have hgiven' : Given s (st.current s) fin := exec_kept (fun _ _ _ h => h.step) hgiven hrest
  have hcurrent : 0 < (fin.current s).count e := count_pos_iff.mpr (hgiven'.2 ▸ he)
  have hchannel : 0 < (fin.channel s).count e := count_pos_iff.mpr (howed'.2.2 hdone)
  rw [received, count_append]
  omega

/-- An event that was recorded stays logged. -/
theorem logged_ne_idle_step (h : st.logged e ≠ .idle) (hstep : step st l = some st') : st'.logged e ≠ .idle := by
  obtain ⟨henabled, rfl⟩ := step_eq_some hstep
  cases l with
  | send x =>
    obtain ⟨t, rest, hsending⟩ := sending_iff.mp henabled
    rw [effect_send hsending]
    exact update_ne (by simp) h
  | record x => exact update_ne (by simp) h
  | publish x order => exact update_ne (by simp) h
  | finish x => exact update_ne (by simp) h
  | _ => exact h

theorem noneWaiting_of_once {fin : State M S} (hrun : exec step new run = some fin)
    (hfin : ∀ e, fin.logged e = .idle ∨ fin.logged e = .done) (honce : Once run) :
    Along step NoneWaiting new run := by
  refine along_of_split fun pre l post st hsplit hpre => ?_
  cases l with
  | join s =>
    intro e he hrecorded
    have hrest : exec step st (.join s :: post) = some fin := by
      rw [hsplit, exec_append, hpre, Option.bind_some] at hrun
      exact hrun
    have hlogged : fin.logged e ≠ .idle :=
      exec_kept (I := fun st => st.logged e ≠ .idle) (fun _ _ _ => logged_ne_idle_step)
        (by simp [hrecorded]) hrest
    obtain ⟨st₁, hjoin, hrest⟩ := exec_cons_iff.mp hrest
    obtain ⟨-, rfl⟩ := step_eq_some hjoin
    have hge := two_le_count he hrecorded hrest ((hfin e).resolve_left hlogged)
    have hle := honce.atMost run fin prefix_rfl hrun s e
    omega
  | _ => trivial

/-- **Each event is received once** in every run in which no subscriber joins while an event of its list is waiting
to be published; and in no other run, once all that was recorded is published. -/
theorem events_once_iff {run : List (Label M S)} {fin : State M S} (hrun : exec step new run = some fin) :
    (Along step NoneWaiting new run → Once run) ∧
      ((∀ e, fin.logged e = .idle ∨ fin.logged e = .done) → (Once run ↔ Along step NoneWaiting new run)) :=
  ⟨once_of_noneWaiting, fun hfin => ⟨noneWaiting_of_once hrun hfin, once_of_noneWaiting⟩⟩

/-- One subscriber and two events, one before it comes and one after. -/
def orderly : List (Label Bool Unit) :=
  [.record false, .publish false [], .finish false, .copy (), .join (), .release (),
    .record true, .publish true [()], .send true, .finish true]

theorem events_once_orderly : Once orderly := by
  have hrun : ∃ fin, exec step new orderly = some fin := ⟨_, rfl⟩
  obtain ⟨fin, hrun⟩ := hrun
  exact (events_once_iff hrun).1 (by decide)

/-- The subscriber comes while the event is recorded and not published. -/
def between : List (Label Unit Unit) :=
  [.record (), .copy (), .join (), .release (), .publish () [()], .send (), .finish ()]

/-- The event is in the list and comes through the channel. -/
theorem events_twice : (exec step new between).map (fun st => received st ()) = some [(), ()] ∧ ¬ Once between := by
  have hrun : (exec step new between).map (fun st => received st ()) = some [(), ()] := rfl
  refine ⟨hrun, fun honce => ?_⟩
  obtain ⟨st, hst, hreceived⟩ := Option.map_eq_some_iff.mp hrun
  have hle := honce.atMost between st prefix_rfl hst () ()
  rw [hreceived] at hle
  simp at hle

end DockerEngine.Events
