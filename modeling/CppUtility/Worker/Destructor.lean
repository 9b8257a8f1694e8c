import Mathlib.Data.List.Count
import CppUtility.Worker.Life
import CppUtility.Worker.Purge

/-!
# The destructor and libevent

`~GeneralWorker` stops the worker, joins its thread, frees the notifier and then the event base; the
members go after that, and with `m_activeTimers` go its timers, each of which frees its own event.
So the events of the timers that are still active are freed when their base is gone already
(`destructor_iff`).

What libevent asks for is `RespectsLifetimes`: every event is freed exactly once, and not after its
base.  It is a condition on the calls that the destructor makes, in their order, and `destructor`
lists these.  The members are destroyed in the reverse order of their declaration, and a hash map
destroys its elements in an order of its own, which is a parameter.

* **Nothing left on the base.**  `Released` is the condition under which all is well: no active
  `Timer` has its event on the base of the worker.  A worker that has been started more than once
  can also have lost a notifier, which is then never freed, and that is its second clause.
* **The whole life.**  The runs are those of `Life`, with any number of starts, since the members at
  the end depend on all of them.  Two things are kept all along: who owns the timers, and that the
  notifier in the member is allocated (`Kept`).
* **The calls.**  At the end the loop is not running, so that there is no batch.  A `Timer` in the
  queue has no event yet, and the events that go with the map are those with a `Timer` as argument,
  so that each event is freed in one way only (`count_destructor`).
-/

set_option autoImplicit false

namespace GeneralWorker

open Transition

variable {τ : Type*}

/-! ## The calls -/

/-- The calls of libevent that release something. -/
inductive LibCall
  | eventFree (ev : Ptr)
  | eventBaseFree (base : Ptr)
  deriving DecidableEq

namespace Worker

/-- What `~Timer` of the `Timer` at `p` frees. -/
def timerEvent (w : Worker τ) (p : Ptr) : Option Ptr := (w.timers p).bind Timer.m_ev

/-- What `~GeneralWorker` calls once its `stop` and its `wait` have returned: the rest of the body,
then the members in the reverse order of their declaration.  A hash map destroys its elements in an
order of its own, `ids`. -/
def destructor (w : Worker τ) (ids : List UInt64) : List LibCall :=
  w.m_notifier.toList.map .eventFree ++ w.m_evbase.toList.map .eventBaseFree ++
    (ids.filterMap fun id ↦ (w.m_activeTimers id).bind w.timerEvent).map .eventFree ++
    (w.m_pendingTimers.filterMap w.timerEvent).map .eventFree

end Worker

/-- Every event is freed exactly once, and not after its base. -/
def RespectsLifetimes (events : Events) (calls : List LibCall) : Prop :=
  ∀ ev e, events ev = some e → calls.count (.eventFree ev) = 1 ∧
    ∀ base, e.base = some base → ∀ l₁ l₂, calls = l₁ ++ .eventFree ev :: l₂ →
      .eventBaseFree base ∉ l₁

/-- No active `Timer` has its event on `m_evbase`, and there is no notifier but `m_notifier`. -/
structure Worker.Released (w : Worker τ) : Prop where
  timers : ∀ id p t ev e base, w.m_activeTimers id = some p → w.timers p = some t →
    t.m_ev = some ev → w.events ev = some e → w.m_evbase = some base → e.base ≠ some base
  notifiers : ∀ ev e, w.events ev = some e → e.cb = .notifier → w.m_notifier = some ev

/-! ## Notifiers outlive what the loop does

A step inside the worker frees events of timers and no others: events are told apart by their
callbacks, and `TimersOwned` knows which event a `Timer` has. -/

/-- The notifier is allocated. -/
def HasNotifier (w : Worker τ) : Prop :=
  ∀ ev, w.m_notifier = some ev → ∃ e, w.events ev = some e ∧ e.cb = .notifier

namespace TimersOwned

variable {w w' : Worker τ} {batch rest : List Ptr} {p ev : Ptr} {e : Event}

/-- A purge leaves notifiers alone. -/
theorem purgeTimerInternal_notifier (h : TimersOwned w batch) (id : UInt64)
    (he : w.events ev = some e) (hcb : e.cb = .notifier) :
    (w.purgeTimerInternal id).events ev = some e := by
  refine (purgeTimerInternal_event fun p t _ ht hev ↦ ?_).trans he
  obtain ⟨e', he', hcb'⟩ := h.held p t ev ht hev
  obtain rfl : e = e' := Option.some_inj.mp (he.symm.trans he')
  rw [hcb] at hcb'
  cases hcb'

theorem registerTimer_notifier (h : TimersOwned w (p :: rest)) (hreg : w.registerTimer p = some w')
    (he : w.events ev = some e) (hcb : e.cb = .notifier) : w'.events ev = some e := by
  obtain ⟨t, ht⟩ := h.alive p (by simp)
  rw [h.registerTimer_eq ht, Option.some_inj] at hreg
  subst hreg
  have hpurge := h.purgeTimerInternal_notifier t.m_id he hcb
  have hne : ev ≠ (w.purgeTimerInternal t.m_id).nextPtr := by
    rintro rfl
    rw [((h.purgeTimerInternal t.m_id).fresh _ (Nat.le_refl _)).2] at hpurge
    cases hpurge
  simp [Worker.install, Events.add, hne, hpurge]

theorem fireTimer_notifier {ev' : Ptr} (hfire : w.fireTimer ev' p = some w')
    (he : w.events ev = some e) (hcb : e.cb = .notifier) : w'.events ev = some e := by
  obtain ⟨e', he', ⟨-, hcb', -⟩, rfl⟩ := fireTimer_eq_some.mp hfire
  have hne : ev ≠ ev' := by
    rintro rfl
    obtain rfl : e = e' := Option.some_inj.mp (he.symm.trans he')
    rw [hcb] at hcb'
    cases hcb'
  exact (Function.update_of_ne hne _ _).trans he

end TimersOwned

/-- A step inside the worker leaves notifiers alone. -/
theorem Rule.keeps_notifier {s s' : State τ} {l : Label τ} (h : Rule s l s')
    (ho : TimersOwned s.toWorker s.loop.timerBatch) {ev : Ptr} {e : Event}
    (he : s.events ev = some e) (hcb : e.cb = .notifier) : s'.events ev = some e := by
  cases h with
  | call | unlock | loadStopped | storeStopped | ret | wake | read | testStopped | release | runTask
  | endTask | endBlock | exit => exact he
  | @push th c w r hcalled hfree hpush =>
    cases c <;> simp only [pushSection, Option.some_inj, Prod.mk.injEq, reduceCtorEq] at hpush <;>
      obtain ⟨rfl, -⟩ := hpush <;> exact he
  | notify howes hwrite => rw [notify_same hwrite]; exact he
  | @swap q hloop hfree => cases q <;> exact he
  | register hloop hreg =>
    rw [hloop] at ho
    exact ho.registerTimer_notifier hreg he hcb
  | purge hloop => exact ho.purgeTimerInternal_notifier _ he hcb
  | fire hloop hfire => exact TimersOwned.fireTimer_notifier hfire he hcb
  | endFire hloop hidle hafter =>
    obtain ⟨t, -, rfl⟩ := Option.map_eq_some_iff.mp hafter
    show (if t.m_intervalMSec = 0 then _ else _ : Worker τ).events ev = some e
    split
    · exact ho.purgeTimerInternal_notifier _ he hcb
    · exact he

/-- A loop that has exited stays so. -/
theorem Rule.exited {s s' : State τ} {l : Label τ} (h : Rule s l s') (he : s.loop = .exited) :
    s'.loop = .exited := by
  cases h with
  | call | push | unlock | loadStopped | storeStopped | notify | ret => exact he
  | wake hloop | read hloop | testStopped hloop | swap hloop | release hloop | runTask hloop
  | endTask hloop | register hloop | purge hloop | endBlock hloop | fire hloop | endFire hloop =>
    rw [he] at hloop
    cases hloop
  | exit => rfl

/-! ## The whole life -/

namespace TimersOwned

variable {w : Worker τ} {batch : List Ptr}

/-- `start` allocates a base and perhaps a notifier, and leaves timers alone. -/
theorem start (h : TimersOwned w batch) (fd : Bool) : TimersOwned (w.start fd).1 batch := by
  by_cases hstopped : w.m_stopped = true
  swap
  · rwa [Worker.start, if_pos hstopped]
  cases fd with
  | false =>
    simp only [Worker.start, hstopped]
    refine ⟨h.nodup, h.alive, h.active, h.apart, fun p hp ↦ ?_, h.event, h.held⟩
    exact h.fresh p (Nat.le_of_succ_le hp)
  | true =>
    have hev : ∀ ev e, w.events ev = some e → ev ≠ w.nextPtr + 1 := by
      rintro ev e he rfl
      rw [(h.fresh _ (Nat.le_succ _)).2] at he
      cases he
    simp only [Worker.start, hstopped]
    refine ⟨h.nodup, h.alive, h.active, h.apart, fun p hp ↦ ?_, fun ev e p he hcb ↦ ?_,
      fun p t ev ht hev' ↦ ?_⟩
    · have hlt : w.nextPtr + 1 < p := hp
      have hne : p ≠ w.nextPtr + 1 := Nat.ne_of_gt hlt
      have hfresh := h.fresh p (Nat.le_of_lt (Nat.lt_of_succ_lt hlt))
      exact ⟨hfresh.1, by simpa [Events.add, hne] using hfresh.2⟩
    · by_cases hne : ev = w.nextPtr + 1
      · subst hne
        obtain rfl : _ = e := by simpa [Events.add] using he
        cases hcb
      · exact h.event ev e p (by simpa [Events.add, hne] using he) hcb
    · obtain ⟨e, he, hcb⟩ := h.held p t ev ht hev'
      exact ⟨e, by simpa [Events.add, hev ev e he] using he, hcb⟩

end TimersOwned

theorem HasNotifier.start {w : Worker τ} (h : HasNotifier w) (fd : Bool) :
    HasNotifier (w.start fd).1 := by
  by_cases hstopped : w.m_stopped = true
  swap
  · rwa [Worker.start, if_pos hstopped]
  cases fd with
  | false =>
    simp only [Worker.start, hstopped]
    exact h
  | true =>
    simp only [Worker.start, hstopped]
    intro ev hev
    obtain rfl : w.nextPtr + 1 = ev := Option.some_inj.mp hev
    exact ⟨_, by simp [Events.add]; rfl, rfl⟩

namespace Life

variable [DecidableEq τ]

/-- What holds of a worker all its life. -/
structure Kept (s : Life τ) : Prop where
  owned : TimersOwned s.toWorker s.loop.timerBatch
  notifier : HasNotifier s.toWorker
  /-- A loop runs only as long as there is a thread. -/
  exited : s.m_thread = false → s.loop = .exited

omit [DecidableEq τ] in
theorem Kept.start {s : Life τ} (h : Kept s) (fd : Bool) : Kept (s.start fd) := by
  have howned := h.owned.start fd
  have hnotifier := h.notifier.start fd
  rw [Life.start]
  split
  · exact h
  · dsimp only
    split
    · exact ⟨howned, hnotifier, h.exited⟩
    · split
      · exact ⟨howned, hnotifier, h.exited⟩
      · next hthread =>
        rw [h.exited (by simpa using hthread)] at howned
        exact ⟨howned, hnotifier, by simp⟩

theorem Kept.work {s s' : Life τ} {l : GeneralWorker.Label τ} (h : Kept s)
    (hwork : s.work l = some s') : Kept s' := by
  obtain ⟨fd, exits, s₁, hrule, hs', -, hthread, -⟩ := work_cases hwork
  -- the invariants do not read the members that `work` has replaced
  have howned : TimersOwned { s.toState with m_evfd := fd, loopexit := exits }.toWorker
      s.loop.timerBatch := h.owned.congr rfl rfl rfl rfl rfl
  have hstate : s'.m_notifier = s₁.m_notifier ∧ s'.events = s₁.events ∧ s'.loop = s₁.loop := by
    rw [hs']
    exact ⟨rfl, rfl, rfl⟩
  refine ⟨?_, fun ev hev ↦ ?_, fun ht ↦ ?_⟩
  · rw [hs']
    exact (hrule.timersOwned howned).congr rfl rfl rfl rfl rfl
  · rw [hstate.1, hrule.keeps.notifier] at hev
    obtain ⟨e, he, hcb⟩ := h.notifier ev hev
    rw [hstate.2.1]
    exact ⟨e, hrule.keeps_notifier howned he hcb, hcb⟩
  · rw [hstate.2.2]
    exact hrule.exited (h.exited (hthread ▸ ht))

theorem Kept.step {s s' : Life τ} {l : Label τ} (h : Kept s) (hstep : s.step l = some s') :
    Kept s' := by
  cases l with
  | start fd =>
    obtain ⟨-, rfl⟩ := Option.ite_none_right_eq_some.mp hstep |>.imp_right Option.some_inj.mp
    exact h.start fd
  | wait =>
    obtain ⟨-, hwait⟩ := Option.ite_none_right_eq_some.mp hstep
    rw [wait] at hwait
    split at hwait
    · cases hwait
      exact h
    · obtain ⟨hloop, rfl⟩ := Option.ite_none_right_eq_some.mp hwait |>.imp_right Option.some_inj.mp
      exact ⟨h.owned, h.notifier, fun _ ↦ hloop⟩
  | work l => exact h.work (Option.ite_none_right_eq_some.mp hstep).2

theorem kept {tr : List (Label τ)} {s : Life τ} (h : run step init tr = some s) : Kept s := by
  have howned : TimersOwned (init : Life τ).toWorker [] :=
    ⟨List.nodup_nil, by simp [init, Worker.init], by simp [init, Worker.init],
      by simp [init, Worker.init], fun _ _ ↦ ⟨rfl, rfl⟩, by simp [init, Worker.init],
      by simp [init, Worker.init]⟩
  exact run_invariant ⟨howned, by simp [HasNotifier, init, Worker.init], fun _ ↦ rfl⟩
    (fun _ _ _ hi hs ↦ hi.step hs) h

end Life

/-! ## The order of the calls -/

section Destructor

variable {w : Worker τ} {ids : List UInt64}

/-- A `Timer` that is still waiting has no event to free. -/
theorem TimersOwned.pending_timerEvent (h : TimersOwned w []) {p : Ptr}
    (hp : p ∈ w.m_pendingTimers) : w.timerEvent p = none := by
  obtain ⟨t, ht⟩ := h.alive p hp
  rw [Worker.timerEvent, ht, Option.bind_some, Option.eq_none_iff_forall_ne_some]
  intro ev hev
  obtain ⟨e, he, hcb⟩ := h.held p t ev ht hev
  obtain ⟨t', -, -, hact⟩ := h.event ev e p he hcb
  exact h.apart _ p hact hp

/-- The events that go with `m_activeTimers`. -/
def Worker.activeEvents (w : Worker τ) (ids : List UInt64) : List Ptr :=
  ids.filterMap fun id ↦ (w.m_activeTimers id).bind w.timerEvent

theorem TimersOwned.destructor_eq (h : TimersOwned w []) : w.destructor ids =
    w.m_notifier.toList.map .eventFree ++ w.m_evbase.toList.map .eventBaseFree ++
      (w.activeEvents ids).map .eventFree := by
  have hpending : w.m_pendingTimers.filterMap w.timerEvent = [] :=
    List.filterMap_eq_nil_iff.mpr fun _ ↦ h.pending_timerEvent
  rw [Worker.destructor, hpending, List.map_nil, List.append_nil, Worker.activeEvents]

theorem Worker.mem_activeEvents {ev : Ptr} : ev ∈ w.activeEvents ids ↔
    ∃ id p t, id ∈ ids ∧ w.m_activeTimers id = some p ∧ w.timers p = some t ∧ t.m_ev = some ev := by
  simp only [Worker.activeEvents, Worker.timerEvent, List.mem_filterMap, Option.bind_eq_some_iff]
  constructor
  · rintro ⟨id, hid, p, hact, t, ht, hev⟩
    exact ⟨id, p, t, hid, hact, ht, hev⟩
  · rintro ⟨id, p, t, hid, hact, ht, hev⟩
    exact ⟨id, hid, p, hact, t, ht, hev⟩

/-- They are the events with a `Timer` as argument. -/
theorem TimersOwned.mem_activeEvents (h : TimersOwned w [])
    (hids : ∀ id, id ∈ ids ↔ w.m_activeTimers id ≠ none) {ev : Ptr} {e : Event}
    (he : w.events ev = some e) : ev ∈ w.activeEvents ids ↔ e.cb ≠ .notifier := by
  rw [Worker.mem_activeEvents]
  constructor
  · rintro ⟨id, p, t, -, -, ht, hev⟩
    obtain ⟨e', he', hcb⟩ := h.held p t ev ht hev
    obtain rfl : e = e' := Option.some_inj.mp (he.symm.trans he')
    simp [hcb]
  · intro hne
    cases hcb : e.cb with
    | notifier => exact absurd hcb hne
    | timer p =>
      obtain ⟨t, ht, hev, hact⟩ := h.event ev e p he hcb
      exact ⟨t.m_id, p, t, (hids _).mpr (by simp [hact]), hact, ht, hev⟩

theorem TimersOwned.nodup_activeEvents (h : TimersOwned w []) (hnodup : ids.Nodup) :
    (w.activeEvents ids).Nodup := by
  refine hnodup.filterMap fun id id' ev hev hev' ↦ ?_
  simp only [Worker.timerEvent, Option.mem_def, Option.bind_eq_some_iff] at hev hev'
  obtain ⟨p, hact, t, ht, hev⟩ := hev
  obtain ⟨q, hact', u, hu, hev'⟩ := hev'
  obtain rfl : p = q := h.event_inj ht hu hev hev'
  exact h.active_inj hact hact'

/-- An event is freed with the timers, or as the notifier, and in both cases once. -/
theorem TimersOwned.count_destructor (h : TimersOwned w []) (hnotifier : HasNotifier w)
    (hnodup : ids.Nodup) (hids : ∀ id, id ∈ ids ↔ w.m_activeTimers id ≠ none) {ev : Ptr} {e : Event}
    (he : w.events ev = some e) : (w.destructor ids).count (.eventFree ev) =
      if e.cb = .notifier ∧ w.m_notifier ≠ some ev then 0 else 1 := by
  have hfirst : (w.m_notifier.toList.map LibCall.eventFree).count (.eventFree ev) =
      if w.m_notifier = some ev then 1 else 0 := by
    cases w.m_notifier with
    | none => simp
    | some ev' => by_cases hev : ev' = ev <;> simp [hev]
  have hbase : (w.m_evbase.toList.map LibCall.eventBaseFree).count (.eventFree ev) = 0 := by
    cases w.m_evbase <;> simp
  have hlast : ((w.activeEvents ids).map LibCall.eventFree).count (.eventFree ev) =
      if e.cb ≠ .notifier then 1 else 0 := by
    have hinj : Function.Injective LibCall.eventFree := fun _ _ ↦ LibCall.eventFree.inj
    rw [List.count_map_of_injective _ _ hinj, (h.nodup_activeEvents hnodup).count]
    simp only [h.mem_activeEvents hids he]
  rw [h.destructor_eq, List.count_append, List.count_append, hfirst, hbase, hlast]
  by_cases hcb : e.cb = .notifier
  · by_cases hev : w.m_notifier = some ev <;> simp [hcb, hev]
  · have hev : w.m_notifier ≠ some ev := by
      intro hev
      obtain ⟨e', he', hcb'⟩ := hnotifier ev hev
      obtain rfl : e = e' := Option.some_inj.mp (he.symm.trans he')
      exact hcb hcb'
    simp [hcb, hev]

/-- The body frees the base of the worker only. -/
theorem TimersOwned.eventBaseFree_mem (h : TimersOwned w []) {base : Ptr} :
    .eventBaseFree base ∈ w.destructor ids ↔ w.m_evbase = some base := by
  rw [h.destructor_eq]
  simp

/-- **The destructor respects libevent's lifetimes if and only if nothing is left on the base.** -/
theorem TimersOwned.respectsLifetimes_iff (h : TimersOwned w []) (hnotifier : HasNotifier w)
    (hnodup : ids.Nodup) (hids : ∀ id, id ∈ ids ↔ w.m_activeTimers id ≠ none) :
    RespectsLifetimes w.events (w.destructor ids) ↔ w.Released := by
  constructor
  · intro hresp
    refine ⟨fun id p t ev e base hact ht hev he hbase hon ↦ ?_, fun ev e he hcb ↦ ?_⟩
    · have hmem : ev ∈ w.activeEvents ids :=
        Worker.mem_activeEvents.mpr ⟨id, p, t, (hids id).mpr (by simp [hact]), hact, ht, hev⟩
      obtain ⟨evs₁, evs₂, hevs⟩ := List.append_of_mem hmem
      -- the base is freed by the body, before any of the active timers goes
      refine (hresp ev e he).2 base hon (w.m_notifier.toList.map .eventFree ++
        w.m_evbase.toList.map .eventBaseFree ++ evs₁.map .eventFree) (evs₂.map .eventFree) ?_ ?_
      · rw [h.destructor_eq, hevs]
        simp
      · simp [hbase]
    · have hcount := (hresp ev e he).1
      rw [h.count_destructor hnotifier hnodup hids he] at hcount
      by_contra hne
      simp [hcb, hne] at hcount
  · rintro ⟨htimers, hnotifiers⟩ ev e he
    have hcount : (w.destructor ids).count (.eventFree ev) = 1 := by
      rw [h.count_destructor hnotifier hnodup hids he, if_neg]
      rintro ⟨hcb, hne⟩
      exact hne (hnotifiers ev e he hcb)
    refine ⟨hcount, fun base hbase l₁ l₂ hcalls hmem ↦ ?_⟩
    have hon : w.m_evbase = some base :=
      h.eventBaseFree_mem.mp (hcalls ▸ List.mem_append_left _ hmem)
    cases hcb : e.cb with
    | timer p =>
      obtain ⟨t, ht, hev, hact⟩ := h.event ev e p he hcb
      exact htimers _ p t ev e base hact ht hev he hon hbase
    | notifier =>
      -- the notifier is freed first of all, and only then
      have hfirst := hcalls
      rw [h.destructor_eq, hnotifiers ev e he hcb] at hfirst
      cases l₁ with
      | nil => cases hmem
      | cons call l₁ =>
        obtain rfl : .eventFree ev = call := (List.cons.inj hfirst).1
        rw [hcalls] at hcount
        simp at hcount

end Destructor

namespace Life

variable [DecidableEq τ]

/-- **What the destructor does to libevent.**  When the `wait` of the destructor has returned, the
calls that follow free every event exactly once and before its base if and only if no `Timer` is
left in `m_activeTimers` with an event on `m_evbase`, and no notifier of an earlier `start` is left
behind. -/
theorem destructor_iff {tr : List (Label τ)} {s : Life τ}
    (h : run step init (tr ++ [.wait]) = some s) {ids : List UInt64} (hnodup : ids.Nodup)
    (hids : ∀ id, id ∈ ids ↔ s.m_activeTimers id ≠ none) :
    RespectsLifetimes s.events (s.destructor ids) ↔ s.Released := by
  obtain ⟨howned, hnotifier, hexited⟩ := kept h
  obtain ⟨s₁, -, hwait⟩ := run_concat.mp h
  have hthread : s.m_thread = false := by
    obtain ⟨-, hwait⟩ := Option.ite_none_right_eq_some.mp hwait
    rw [wait] at hwait
    split at hwait
    · next hnull =>
      cases hwait
      exact hnull
    · obtain ⟨-, rfl⟩ := Option.ite_none_right_eq_some.mp hwait |>.imp_right Option.some_inj.mp
      rfl
  rw [hexited hthread] at howned
  exact howned.respectsLifetimes_iff hnotifier hnodup hids

/-- One round of the loop, which registers the `Timer` at `p`. -/
def registerRound (p : Ptr) : List (Label τ) :=
  (roundStart false ++ [GeneralWorker.Label.endBlock, .swap .timers, .release, .register p,
    .endBlock, .swap .purges, .release, .endBlock]).map .work

/-- A worker is started and gets a repeated timer, which the loop registers. -/
def startRepeat : List (Label ℕ) :=
  .start true :: (addRepeatTaskCall (.client 1) 50 1 3 0).map .work ++ registerRound 3

/-- The timer is purged by the next round, before the worker is stopped and waited for. -/
def startRepeatPurge : List (Label ℕ) :=
  startRepeat ++ (purgeTimerTaskCall (.client 1) 0 ++ roundStart false ++
    [GeneralWorker.Label.endBlock, .swap .timers, .release, .endBlock, .swap .purges, .release,
      .purge 0, .endBlock]).map .work ++ stopCall ++ lastRound

theorem destructor_iff_startRepeatPurge :
    ∃ s, run step init (startRepeatPurge ++ [.wait]) = some s ∧
      RespectsLifetimes s.events (s.destructor []) := by
  have hrun : ∃ s, run step init (startRepeatPurge ++ [.wait]) = some s ∧
      s.m_activeTimers = Function.update (Function.update (fun _ ↦ none) 0 (some 3)) 0 none ∧
      s.m_notifier = some 2 ∧
      s.events = ((Events.add (Function.update (started : State ℕ).events 4
        (some ⟨some 1, .timer 3, true, none, false⟩)) 4 (some (0, 50000))).del 4).free 4 :=
    ⟨_, rfl, rfl, rfl, rfl⟩
  obtain ⟨s, hs, hact, hnotifier, hevents⟩ := hrun
  have hactive : ∀ id, s.m_activeTimers id = none := by
    intro id
    by_cases hid : id = 0 <;> simp [hact, hid]
  refine ⟨s, hs, (destructor_iff hs List.nodup_nil fun id ↦ by simp [hactive]).mpr ⟨?_, ?_⟩⟩
  · intro id p t ev e base hid
    rw [hactive] at hid
    cases hid
  · intro ev e he _
    by_contra hne
    rw [hnotifier, Option.some_inj] at hne
    by_cases hev : ev = 4 <;>
      simp [hevents, Events.free_apply, Events.del, Events.add, hev, started, Worker.start,
        Worker.init, Ne.symm hne] at he

/-- It is stopped and waited for without a purge: this is what the test of the pool does, up to the
destructors. -/
def startRepeatStop : List (Label ℕ) := startRepeat ++ stopCall ++ lastRound

/-- **A repeated timer outlives its base**: the destructor frees the base and then the event. -/
theorem destructor_frees_late :
    ¬∀ (tr : List (Label ℕ)) (s : Life ℕ) (ids : List UInt64),
      run step init (tr ++ [.wait]) = some s → ids.Nodup →
      (∀ id, id ∈ ids ↔ s.m_activeTimers id ≠ none) →
      RespectsLifetimes s.events (s.destructor ids) := by
  have hrun : ∃ s, run step init (startRepeatStop ++ [.wait]) = some s ∧
      s.m_activeTimers = Function.update (fun _ ↦ none) 0 (some 3) ∧
      s.destructor [0] = [.eventFree 2, .eventBaseFree 1, .eventFree 4] ∧
      (s.events 4).map Event.base = some (some 1) := ⟨_, rfl, rfl, rfl, rfl⟩
  obtain ⟨s, hs, hact, hcalls, hbase⟩ := hrun
  intro hall
  have hids : ∀ id, id ∈ [0] ↔ s.m_activeTimers id ≠ none := by
    intro id
    by_cases hid : id = 0 <;> simp [hact, hid]
  obtain ⟨e, he, hbase⟩ := Option.map_eq_some_iff.mp hbase
  have hresp := hall startRepeatStop s [0] hs (by simp) hids 4 e he
  rw [hcalls] at hresp
  exact hresp.2 1 hbase [.eventFree 2, .eventBaseFree 1] [] rfl (by simp)

end Life

end GeneralWorker
