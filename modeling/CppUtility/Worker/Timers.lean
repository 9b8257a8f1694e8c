import Mathlib.Data.List.Nodup
import CppUtility.Worker.Step

/-!
# Who owns a `Timer`

Every live `Timer` belongs to exactly one `unique_ptr`: an entry of `m_pendingTimers`, an entry of
the batch `onNotify` has swapped out, or the entry of `m_activeTimers` under its own id.  libevent's
raw pointers follow the last of these: an event of the base whose callback argument is a `Timer`
belongs to an active one, which knows it as its `m_ev`.

* **The invariant.**  `TimersOwned` says this for the members and the batch alone, without threads
  and positions.  Each member function keeps it, and `Rule.timersOwned` puts them together.
* **Replacing.**  The move into `m_activeTimers` destroys the `Timer` that had the id before, after
  the new one has taken its place.  `registerTimer_eq` says that the outcome is that of a purge of
  the id, followed by the move into a free entry (`Worker.install`).  So there are only two things
  that can happen to the map, and every later proof about registration uses this lemma.
* **Evolution.**  A `Timer` that lives on keeps its id, its periods and its callback; only `m_ev`
  changes, once (`Evolves`).  What is known of a `Timer` when it is made is therefore known of it
  ever after.
* **The line of timers.**  A `Timer` that has been pushed is in the queue, in the batch, or has been
  registered (`timers_line`).
-/

set_option autoImplicit false

namespace GeneralWorker

open Transition

variable {τ : Type*}

/-! ## Events -/

theorem Events.free_apply (es : Events) (ev ev' : Ptr) :
    es.free ev ev' = if ev' = ev then none else es ev' := by
  by_cases h : ev' = ev <;> simp [Events.free, Events.del, h]

theorem Events.free_del (es : Events) (ev : Ptr) : (es.del ev).free ev = es.free ev := by
  funext ev'
  by_cases h : ev' = ev <;> simp [Events.free, Events.del, h]

/-- The events left when the `m_ev` of a `Timer`, if it has one, is freed. -/
def freeOpt (es : Events) (ev : Option Ptr) : Events := ev.elim es es.free

theorem freeOpt_eq_some {es : Events} {ev : Option Ptr} {ev' : Ptr} {e : Event} :
    freeOpt es ev ev' = some e ↔ ev ≠ some ev' ∧ es ev' = some e := by
  cases ev with
  | none => simp [freeOpt]
  | some ev =>
    rw [freeOpt, Option.elim, Events.free_apply]
    by_cases h : ev' = ev
    · simp [h]
    · simp [h, Ne.symm h]

/-! ## The active map -/

/-- `purgeTimerInternal` frees the id. -/
theorem purgeTimerInternal_free (w : Worker τ) (id : UInt64) :
    (w.purgeTimerInternal id).m_activeTimers id = none := by
  rw [Worker.purgeTimerInternal]
  split
  · assumption
  · exact Function.update_self ..

/-- It destroys the `Timer` stored under the id and no other. -/
theorem purgeTimerInternal_timers {w : Worker τ} {id : UInt64} {p : Ptr} {t : Timer τ} :
    (w.purgeTimerInternal id).timers p = some t ↔
      w.m_activeTimers id ≠ some p ∧ w.timers p = some t := by
  rw [Worker.purgeTimerInternal]
  split
  · next h => simp [h]
  · next q h =>
    by_cases hq : p = q
    · subst hq; simp [Worker.destroyTimer, h]
    · simp [Worker.destroyTimer, h, hq, Ne.symm hq]

/-- It takes the id out of the active map and leaves the others. -/
theorem purgeTimerInternal_active {w : Worker τ} {id id' : UInt64} {p : Ptr} :
    (w.purgeTimerInternal id).m_activeTimers id' = some p ↔
      id' ≠ id ∧ w.m_activeTimers id' = some p := by
  by_cases hid : id' = id
  · simp [hid, purgeTimerInternal_free]
  · rw [Worker.purgeTimerInternal]
    split <;> simp [hid]

/-- It frees the event of that `Timer` and no other. -/
theorem purgeTimerInternal_event {w : Worker τ} {id : UInt64} {ev : Ptr}
    (h : ∀ p t, w.m_activeTimers id = some p → w.timers p = some t → t.m_ev ≠ some ev) :
    (w.purgeTimerInternal id).events ev = w.events ev := by
  rw [Worker.purgeTimerInternal]
  split
  · rfl
  · next p hp =>
    cases ht : w.timers p with
    | none => simp [Worker.destroyTimer, ht]
    | some t =>
      simp only [Worker.destroyTimer, ht, Option.bind_some]
      cases hev : t.m_ev with
      | none => rfl
      | some ev' =>
        have hne : ev ≠ ev' := by
          rintro rfl
          exact h p t hp ht hev
        simp [Events.free_apply, Events.del, hne]

/-- The state after `event_new`, `evtimer_add` and the move into `m_activeTimers`. -/
def Worker.install (w : Worker τ) (p : Ptr) (t : Timer τ) : Worker τ :=
  { w with
    timers := Function.update w.timers p (some { t with m_ev := some w.nextPtr })
    events := Events.add
      (Function.update w.events w.nextPtr (some ⟨w.m_evbase, .timer p, true, none, false⟩))
      w.nextPtr (some (Worker.timeval t.m_delayMSec))
    nextPtr := w.nextPtr + 1
    m_activeTimers := Function.update w.m_activeTimers t.m_id (some p) }

/-! ## The invariant

The clauses are about aliasing.  An address in two containers would be destroyed twice, an event
with two timers would be freed twice, and an event whose `Timer` is gone would call into nothing.
The clause about ids is what makes a purge by id the purge of one `Timer`. -/

/-- Who owns the timers, when `batch` has been swapped out and not been registered yet. -/
structure TimersOwned (w : Worker τ) (batch : List Ptr) : Prop where
  /-- No `Timer` is waiting twice. -/
  nodup : (batch ++ w.m_pendingTimers).Nodup
  /-- A waiting `Timer` is alive. -/
  alive : ∀ p ∈ batch ++ w.m_pendingTimers, ∃ t, w.timers p = some t
  /-- An active `Timer` is alive, and stored under its own id. -/
  active : ∀ id p, w.m_activeTimers id = some p → ∃ t, w.timers p = some t ∧ t.m_id = id
  /-- An active `Timer` is not waiting. -/
  apart : ∀ id p, w.m_activeTimers id = some p → p ∉ batch ++ w.m_pendingTimers
  /-- Nothing lives where the allocator has not been yet. -/
  fresh : ∀ p, w.nextPtr ≤ p → w.timers p = none ∧ w.events p = none
  /-- The `Timer` of a timer event is active and knows the event. -/
  event : ∀ ev e p, w.events ev = some e → e.cb = .timer p →
    ∃ t, w.timers p = some t ∧ t.m_ev = some ev ∧ w.m_activeTimers t.m_id = some p
  /-- The `m_ev` of a live `Timer` is an event with this `Timer` as argument. -/
  held : ∀ p t ev, w.timers p = some t → t.m_ev = some ev →
    ∃ e, w.events ev = some e ∧ e.cb = .timer p

namespace TimersOwned

variable {w w' : Worker τ} {batch rest : List Ptr} {p : Ptr} {id : UInt64}

/-- The invariant reads the waiting lists, the active map, the two heaps and the allocator. -/
theorem congr (h : TimersOwned w batch) (hp : w'.m_pendingTimers = w.m_pendingTimers)
    (ha : w'.m_activeTimers = w.m_activeTimers) (ht : w'.timers = w.timers)
    (he : w'.events = w.events) (hn : w'.nextPtr = w.nextPtr) : TimersOwned w' batch := by
  obtain ⟨h1, h2, h3, h4, h5, h6, h7⟩ := h
  constructor <;> simp only [hp, ha, ht, he, hn] <;> assumption

theorem lt_nextPtr (h : TimersOwned w batch) {t : Timer τ} (hp : w.timers p = some t) :
    p < w.nextPtr := by
  by_contra hge
  rw [(h.fresh p (Nat.le_of_not_lt hge)).1] at hp
  cases hp

/-- A `Timer` is active under one id only. -/
theorem active_inj (h : TimersOwned w batch) {id' : UInt64} (h1 : w.m_activeTimers id = some p)
    (h2 : w.m_activeTimers id' = some p) : id = id' := by
  obtain ⟨t, ht, rfl⟩ := h.active id p h1
  obtain ⟨t', ht', rfl⟩ := h.active id' p h2
  rw [ht, Option.some_inj] at ht'
  rw [ht']

/-- Two timers do not share an event. -/
theorem event_inj (h : TimersOwned w batch) {q : Ptr} {t u : Timer τ} {ev : Ptr}
    (hp : w.timers p = some t) (hq : w.timers q = some u) (ht : t.m_ev = some ev)
    (hu : u.m_ev = some ev) : p = q := by
  obtain ⟨e, he, hcb⟩ := h.held p t ev hp ht
  obtain ⟨e', he', hcb'⟩ := h.held q u ev hq hu
  rw [he, Option.some_inj] at he'
  rw [← he', hcb] at hcb'
  exact EventCb.timer.inj hcb'

/-- `addTimerTask`: the new `Timer` is at a fresh address and waits at the end. -/
theorem addTimerTask (h : TimersOwned w batch) (delay interval : UInt64) (f : τ) :
    TimersOwned (w.addTimerTask delay interval f) batch := by
  have hne : ∀ q t, w.timers q = some t → q ≠ w.nextPtr :=
    fun q t hq ↦ Nat.ne_of_lt (h.lt_nextPtr hq)
  have hnotin : w.nextPtr ∉ batch ++ w.m_pendingTimers := by
    intro hin
    obtain ⟨t, ht⟩ := h.alive _ hin
    exact hne _ t ht rfl
  have hmem : ∀ q, q ∈ batch ++ (w.addTimerTask delay interval f).m_pendingTimers ↔
      q ∈ batch ++ w.m_pendingTimers ∨ q = w.nextPtr := by
    simp [Worker.addTimerTask, or_assoc]
  refine ⟨?_, fun q hq ↦ ?_, fun id q hq ↦ ?_, fun id q hq ↦ ?_, fun q hq ↦ ?_,
    fun ev e q hev hcb ↦ ?_, fun q t ev hq hev ↦ ?_⟩
  · rw [Worker.addTimerTask, ← List.append_assoc]
    exact List.concat_eq_append ▸ List.Nodup.concat hnotin h.nodup
  · rcases (hmem q).mp hq with hq | rfl
    · obtain ⟨t, ht⟩ := h.alive q hq
      exact ⟨t, (Function.update_of_ne (hne q t ht) _ _).trans ht⟩
    · exact ⟨_, Function.update_self ..⟩
  · obtain ⟨t, ht, hid⟩ := h.active id q hq
    exact ⟨t, (Function.update_of_ne (hne q t ht) _ _).trans ht, hid⟩
  · obtain ⟨t, ht, -⟩ := h.active id q hq
    have hq' := h.apart id q hq
    rw [hmem, not_or]
    exact ⟨hq', hne q t ht⟩
  · have hlt : w.nextPtr < q := hq
    have hfresh := h.fresh q (Nat.le_of_lt hlt)
    exact ⟨(Function.update_of_ne (Nat.ne_of_gt hlt) _ _).trans hfresh.1, hfresh.2⟩
  · obtain ⟨t, ht, hrest⟩ := h.event ev e q hev hcb
    exact ⟨t, (Function.update_of_ne (hne q t ht) _ _).trans ht, hrest⟩
  · by_cases he : q = w.nextPtr
    · subst he
      simp only [Worker.addTimerTask, Function.update_self, Option.some_inj] at hq
      subst hq
      cases hev
    · exact h.held q t ev ((Function.update_of_ne he _ _).symm.trans hq) hev

/-- The swap of `m_pendingTimers` into an empty vector. -/
theorem swap (h : TimersOwned w []) :
    TimersOwned { w with m_pendingTimers := [] } w.m_pendingTimers := by
  obtain ⟨h1, h2, h3, h4, h5, h6, h7⟩ := h
  constructor <;> simpa

/-- What is left of the invariant when the entry of an id is taken out of the active map and its
`Timer` destroyed. -/
theorem purgeTimerInternal (h : TimersOwned w batch) (id : UInt64) :
    TimersOwned (w.purgeTimerInternal id) batch := by
  rw [Worker.purgeTimerInternal]
  split
  · exact h
  · next p hp =>
    obtain ⟨t, ht, hid⟩ := h.active id p hp
    have hev : ((w.timers p).bind Timer.m_ev) = t.m_ev := by rw [ht]; rfl
    have hevents : (Worker.destroyTimer
        { w with events := ((w.timers p).bind Timer.m_ev).elim w.events w.events.del } p).events
          = freeOpt w.events t.m_ev := by
      simp only [Worker.destroyTimer, hev]
      cases t.m_ev <;> simp [freeOpt, Events.free_del]
    have hne : ∀ id' q, id' ≠ id → w.m_activeTimers id' = some q → q ≠ p := by
      rintro id' q hid' hq rfl
      exact hid' (h.active_inj hq hp)
    have hout : p ∉ batch ++ w.m_pendingTimers := h.apart id p hp
    refine ⟨h.nodup, fun q hq ↦ ?_, fun id' q hq ↦ ?_, fun id' q hq ↦ ?_, fun q hq ↦ ?_,
      fun ev e q he hcb ↦ ?_, fun q t' ev hq he ↦ ?_⟩
    · obtain ⟨t', ht'⟩ := h.alive q hq
      have hqp : q ≠ p := by rintro rfl; exact hout hq
      exact ⟨t', (Function.update_of_ne hqp _ _).trans ht'⟩
    · by_cases hid' : id' = id
      · simp [hid'] at hq
      · simp only [Function.update_of_ne hid'] at hq
        obtain ⟨t', ht', hrest⟩ := h.active id' q hq
        exact ⟨t', (Function.update_of_ne (hne id' q hid' hq) _ _).trans ht', hrest⟩
    · by_cases hid' : id' = id
      · simp [hid'] at hq
      · simp only [Function.update_of_ne hid'] at hq
        exact h.apart id' q hq
    · have hqp : q ≠ p := Nat.ne_of_gt (Nat.lt_of_lt_of_le (h.lt_nextPtr ht) hq)
      refine ⟨(Function.update_of_ne hqp _ _).trans (h.fresh q hq).1, ?_⟩
      rw [Option.eq_none_iff_forall_ne_some]
      intro e he
      rw [hevents, freeOpt_eq_some, (h.fresh q hq).2] at he
      cases he.2
    · rw [hevents, freeOpt_eq_some] at he
      obtain ⟨t', ht', hev', hact⟩ := h.event ev e q he.2 hcb
      have hqp : q ≠ p := by
        rintro rfl
        rw [ht, Option.some_inj] at ht'
        exact he.1 (ht' ▸ hev')
      have hid' : t'.m_id ≠ id := by
        rintro hid'
        rw [hid', hp, Option.some_inj] at hact
        exact hqp hact.symm
      exact ⟨t', (Function.update_of_ne hqp _ _).trans ht', hev',
        (Function.update_of_ne hid' _ _).trans hact⟩
    · have hqp : q ≠ p := by
        rintro rfl
        simp [Worker.destroyTimer] at hq
      obtain ⟨e, hes, hcb⟩ := h.held q t' ev ((Function.update_of_ne hqp _ _).symm.trans hq) he
      refine ⟨e, ?_, hcb⟩
      rw [hevents, freeOpt_eq_some]
      refine ⟨fun hevp ↦ ?_, hes⟩
      obtain ⟨e', hes', hcb'⟩ := h.held p t ev ht hevp
      rw [hes, Option.some_inj] at hes'
      rw [← hes', hcb] at hcb'
      exact hqp (EventCb.timer.inj hcb')

/-- A `Timer` whose id is free becomes active. -/
theorem install_owned {t : Timer τ} (h : TimersOwned w (p :: rest)) (ht : w.timers p = some t)
    (hfree : w.m_activeTimers t.m_id = none) : TimersOwned (w.install p t) rest := by
  obtain ⟨hout, hnodup⟩ : p ∉ rest ++ w.m_pendingTimers ∧ (rest ++ w.m_pendingTimers).Nodup := by
    simpa using h.nodup
  have hin : ∀ q, q ∈ rest ++ w.m_pendingTimers → q ∈ p :: rest ++ w.m_pendingTimers :=
    fun q hq ↦ List.mem_cons_of_mem p hq
  have hpact : ∀ id q, w.m_activeTimers id = some q → q ≠ p := by
    rintro id q hid rfl
    exact h.apart id q hid (by simp)
  have hpev : ∀ ev e, w.events ev = some e → e.cb ≠ .timer p := by
    intro ev e he hcb
    obtain ⟨t', -, -, hact⟩ := h.event ev e p he hcb
    exact hpact _ p hact rfl
  have hnew : ∀ ev, w.events ev ≠ none → ev ≠ w.nextPtr := by
    rintro ev hev rfl
    exact hev (h.fresh _ (Nat.le_refl _)).2
  have hevents : ∀ ev, ev ≠ w.nextPtr → (w.install p t).events ev = w.events ev := by
    intro ev hev
    simp [Worker.install, Events.add, hev]
  refine ⟨hnodup, fun q hq ↦ ?_, fun id q hq ↦ ?_, fun id q hq ↦ ?_, fun q hq ↦ ?_,
    fun ev e q he hcb ↦ ?_, fun q t' ev hq he ↦ ?_⟩
  · obtain ⟨t', ht'⟩ := h.alive q (hin q hq)
    have hqp : q ≠ p := by rintro rfl; exact hout hq
    exact ⟨t', (Function.update_of_ne hqp _ _).trans ht'⟩
  · by_cases hid : id = t.m_id
    · simp only [Worker.install, hid, Function.update_self, Option.some_inj] at hq
      subst hq
      exact ⟨_, Function.update_self .., hid.symm⟩
    · simp only [Worker.install, Function.update_of_ne hid] at hq
      obtain ⟨t', ht', hrest⟩ := h.active id q hq
      exact ⟨t', (Function.update_of_ne (hpact id q hq) _ _).trans ht', hrest⟩
  · by_cases hid : id = t.m_id
    · simp only [Worker.install, hid, Function.update_self, Option.some_inj] at hq
      exact hq ▸ hout
    · simp only [Worker.install, Function.update_of_ne hid] at hq
      exact fun hmem ↦ h.apart id q hq (hin q hmem)
  · have hlt : w.nextPtr < q := hq
    have hfresh := h.fresh q (Nat.le_of_lt hlt)
    refine ⟨(Function.update_of_ne ?_ _ _).trans hfresh.1, ?_⟩
    · exact Nat.ne_of_gt (Nat.lt_trans (h.lt_nextPtr ht) hlt)
    · rw [hevents q (Nat.ne_of_gt hlt), hfresh.2]
  · by_cases hev : ev = w.nextPtr
    · subst hev
      simp only [Worker.install, Events.add, Function.update_self, Option.map_some,
        Option.some_inj] at he
      subst he
      obtain rfl : p = q := EventCb.timer.inj hcb
      exact ⟨_, Function.update_self .., rfl, Function.update_self ..⟩
    · rw [hevents ev hev] at he
      obtain ⟨t', ht', hev', hact⟩ := h.event ev e q he hcb
      have hid : t'.m_id ≠ t.m_id := by
        intro hid
        rw [hid, hfree] at hact
        cases hact
      exact ⟨t', (Function.update_of_ne (hpact _ q hact) _ _).trans ht', hev',
        (Function.update_of_ne hid _ _).trans hact⟩
  · by_cases hqp : q = p
    · subst hqp
      simp only [Worker.install, Function.update_self, Option.some_inj] at hq
      subst hq
      obtain rfl : w.nextPtr = ev := Option.some_inj.mp he
      refine ⟨⟨w.m_evbase, .timer q, true, some (Worker.timeval t.m_delayMSec), true⟩, ?_, rfl⟩
      simp [Worker.install, Events.add]
    · obtain ⟨e, hes, hcb⟩ := h.held q t' ev ((Function.update_of_ne hqp _ _).symm.trans hq) he
      exact ⟨e, (hevents ev (hnew ev (by simp [hes]))).trans hes, hcb⟩

/-- The move into `m_activeTimers` destroys the previous entry of the id after `p` has taken its
place; the result is the same as if that entry had been purged before. -/
theorem registerTimer_eq {t : Timer τ} (h : TimersOwned w (p :: rest)) (ht : w.timers p = some t) :
    w.registerTimer p = some ((w.purgeTimerInternal t.m_id).install p t) := by
  rw [Worker.registerTimer, ht, Worker.purgeTimerInternal]
  cases hold : w.m_activeTimers t.m_id with
  | none => simp only [hold, Option.elim_none, Worker.install]
  | some old =>
    obtain ⟨told, htold, -⟩ := h.active _ old hold
    have hne : old ≠ p := by
      rintro rfl
      exact h.apart _ old hold (by simp)
    simp only [hold, Option.elim_some, Worker.destroyTimer, Worker.install,
      Function.update_of_ne hne, htold, Option.bind_some, Option.some_inj]
    have htimers := Function.update_comm hne none (some { t with m_ev := some w.nextPtr }) w.timers
    cases hev : told.m_ev with
    | none => simp [htimers]
    | some ev =>
      obtain ⟨e, he, -⟩ := h.held old told ev htold hev
      have hevne : ev ≠ w.nextPtr := by
        rintro rfl
        rw [(h.fresh _ (Nat.le_refl _)).2] at he
        cases he
      simp only [htimers, Function.update_idem, Worker.mk.injEq, true_and, and_true]
      funext ev'
      by_cases h1 : ev' = w.nextPtr
      · subst h1; simp [Events.add, Events.free_apply, Ne.symm hevne]
      · by_cases h2 : ev' = ev <;>
          simp [Events.add, Events.free_del, Events.free_apply, h1, h2, hevne]

theorem registerTimer (h : TimersOwned w (p :: rest)) (hreg : w.registerTimer p = some w') :
    TimersOwned w' rest := by
  obtain ⟨t, ht⟩ := h.alive p (by simp)
  rw [h.registerTimer_eq ht, Option.some_inj] at hreg
  subst hreg
  refine (h.purgeTimerInternal t.m_id).install_owned ?_ (purgeTimerInternal_free w t.m_id)
  rw [purgeTimerInternal_timers]
  exact ⟨fun hact ↦ h.apart _ p hact (by simp), ht⟩

/-- A timer event fires, and is put back or not; its callback argument stays. -/
theorem fireTimer {ev : Ptr} (h : TimersOwned w batch) (hfire : w.fireTimer ev p = some w') :
    TimersOwned w' batch := by
  obtain ⟨e, he, -, rfl⟩ := fireTimer_eq_some.mp hfire
  refine ⟨h.nodup, h.alive, h.active, h.apart, fun q hq ↦ ?_, fun ev' e' q he' hcb ↦ ?_,
    fun q t ev' hq hev ↦ ?_⟩
  · have hne : q ≠ ev := by
      rintro rfl
      rw [(h.fresh q hq).2] at he
      cases he
    exact ⟨(h.fresh q hq).1, (Function.update_of_ne hne _ _).trans (h.fresh q hq).2⟩
  · by_cases hev : ev' = ev
    · subst hev
      simp only [Function.update_self, Option.some_inj] at he'
      subst he'
      exact h.event ev' e q he hcb
    · exact h.event ev' e' q ((Function.update_of_ne hev _ _).symm.trans he') hcb
  · obtain ⟨e', he', hcb⟩ := h.held q t ev' hq hev
    by_cases hev' : ev' = ev
    · subst hev'
      rw [he, Option.some_inj] at he'
      exact ⟨e.fired, Function.update_self .., he' ▸ hcb⟩
    · exact ⟨e', (Function.update_of_ne hev' _ _).trans he', hcb⟩

theorem afterCallback (h : TimersOwned w batch) (hafter : w.afterCallback p = some w') :
    TimersOwned w' batch := by
  obtain ⟨t, -, rfl⟩ := Option.map_eq_some_iff.mp hafter
  split
  · exact h.purgeTimerInternal t.m_id
  · exact h

end TimersOwned

/-! ## How timers evolve

Addresses are not reused, so that two states of a run agree on an address that is below `nextPtr` in
the earlier one, or the `Timer` there has been destroyed in between. -/

/-- Old timers keep everything but `m_ev`, as long as they live. -/
structure Evolves (w w' : Worker τ) : Prop where
  next : w.nextPtr ≤ w'.nextPtr
  timers : ∀ p t', p < w.nextPtr → w'.timers p = some t' →
    ∃ t, w.timers p = some t ∧ t' = { t with m_ev := t'.m_ev }

theorem Evolves.same {w w' : Worker τ} (hn : w'.nextPtr = w.nextPtr) (ht : w'.timers = w.timers) :
    Evolves w w' :=
  ⟨hn ▸ Nat.le_refl _, fun _ t' _ h ↦ ⟨t', ht ▸ h, rfl⟩⟩

theorem Evolves.addTimerTask (w : Worker τ) (delay interval : UInt64) (f : τ) :
    Evolves w (w.addTimerTask delay interval f) :=
  ⟨Nat.le_succ _, fun _ t' hp h ↦
    ⟨t', (Function.update_of_ne (Nat.ne_of_lt hp) _ _).symm.trans h, rfl⟩⟩

theorem Evolves.purgeTimerInternal (w : Worker τ) (id : UInt64) :
    Evolves w (w.purgeTimerInternal id) := by
  refine ⟨?_, fun p t' _ h ↦ ⟨t', (purgeTimerInternal_timers.mp h).2, rfl⟩⟩
  rw [Worker.purgeTimerInternal]
  split <;> exact Nat.le_refl _

theorem Evolves.trans {w w₁ w' : Worker τ} (h : Evolves w w₁) (h' : Evolves w₁ w') :
    Evolves w w' := by
  refine ⟨Nat.le_trans h.next h'.next, fun p t' hp ht ↦ ?_⟩
  obtain ⟨t₁, ht₁, he₁⟩ := h'.timers p t' (Nat.lt_of_lt_of_le hp h.next) ht
  obtain ⟨t, ht, he⟩ := h.timers p t₁ hp ht₁
  exact ⟨t, ht, by rw [he₁, he]⟩

theorem Evolves.install {w : Worker τ} {p : Ptr} {t : Timer τ} (ht : w.timers p = some t) :
    Evolves w (w.install p t) := by
  refine ⟨Nat.le_succ _, fun q t' _ h ↦ ?_⟩
  by_cases hq : q = p
  · subst hq
    simp only [Worker.install, Function.update_self, Option.some_inj] at h
    exact ⟨t, ht, by rw [← h]⟩
  · exact ⟨t', (Function.update_of_ne hq _ _).symm.trans h, rfl⟩

/-! ## All runs -/

/-- The timers that `onNotify` has swapped out and not registered yet. -/
def LoopPC.timerBatch : LoopPC τ → List Ptr
  | .swapped (.timers l) => l
  | .working (.timers l) => l
  | _ => []

theorem Batch.next_timerBatch {b : Batch τ} {pc : LoopPC τ} (h : b.next = some pc) :
    (LoopPC.working b).timerBatch = [] ∧ pc.timerBatch = [] := by
  unfold Batch.next at h
  split at h <;> cases h <;> exact ⟨rfl, rfl⟩

theorem Rule.timersOwned {s s' : State τ} {l : Label τ} (h : Rule s l s')
    (hi : TimersOwned s.toWorker s.loop.timerBatch) :
    TimersOwned s'.toWorker s'.loop.timerBatch := by
  cases h with
  | call | unlock | loadStopped | storeStopped | ret => exact hi.congr rfl rfl rfl rfl rfl
  | @push th c w r hcalled hfree hpush =>
    cases c <;> simp only [pushSection, Option.some_inj, Prod.mk.injEq, reduceCtorEq] at hpush <;>
      obtain ⟨rfl, -⟩ := hpush
    · exact hi.congr rfl rfl rfl rfl rfl
    · exact hi.addTimerTask _ _ _
    · exact hi.addTimerTask _ _ _
    · exact hi.congr rfl rfl rfl rfl rfl
  | notify howes hwrite => rw [notify_same hwrite]; exact hi.congr rfl rfl rfl rfl rfl
  | @swap q hloop hfree =>
    rw [hloop] at hi
    cases q with
    | tasks => exact hi.congr rfl rfl rfl rfl rfl
    | timers => exact hi.swap
    | purges => exact hi.congr rfl rfl rfl rfl rfl
  | @release b hloop => rw [hloop] at hi; cases b <;> exact hi
  | read hloop | testStopped hloop => rw [hloop] at hi; exact hi.congr rfl rfl rfl rfl rfl
  | wake hloop | runTask hloop | endTask hloop | exit hloop => rw [hloop] at hi; exact hi
  | register hloop hreg => rw [hloop] at hi; exact hi.registerTimer hreg
  | purge hloop => rw [hloop] at hi; exact hi.purgeTimerInternal _
  | endBlock hloop hnext =>
    obtain ⟨h1, h2⟩ := Batch.next_timerBatch hnext
    rw [hloop, h1] at hi
    simpa only [h2] using hi
  | fire hloop hfire => rw [hloop] at hi; exact hi.fireTimer hfire
  | endFire hloop hidle hafter => rw [hloop] at hi; exact hi.afterCallback hafter

/-- **Timers evolve** in every step. -/
theorem Rule.evolves {s s' : State τ} {l : Label τ} (h : Rule s l s')
    (hi : TimersOwned s.toWorker s.loop.timerBatch) : Evolves s.toWorker s'.toWorker := by
  cases h with
  | @push th c w r hcalled hfree hpush =>
    cases c <;> simp only [pushSection, Option.some_inj, Prod.mk.injEq, reduceCtorEq] at hpush <;>
      obtain ⟨rfl, -⟩ := hpush
    · exact .same rfl rfl
    · exact .addTimerTask ..
    · exact .addTimerTask ..
    · exact .same rfl rfl
  | notify howes hwrite => rw [notify_same hwrite]; exact .same rfl rfl
  | @swap q hloop hfree => cases q <;> exact .same rfl rfl
  | @register p rest w hloop hreg =>
    rw [hloop] at hi
    obtain ⟨t, ht⟩ := hi.alive p (by simp [LoopPC.timerBatch])
    have hact : s.m_activeTimers t.m_id ≠ some p :=
      fun hact ↦ hi.apart _ p hact (by simp [LoopPC.timerBatch])
    rw [hi.registerTimer_eq ht, Option.some_inj] at hreg
    subst hreg
    exact (Evolves.purgeTimerInternal s.toWorker t.m_id).trans
      (.install (purgeTimerInternal_timers.mpr ⟨hact, ht⟩))
  | purge hloop => exact .purgeTimerInternal ..
  | fire hloop hfire =>
    obtain ⟨e, -, -, rfl⟩ := fireTimer_eq_some.mp hfire
    exact .same rfl rfl
  | endFire hloop hidle hafter =>
    obtain ⟨t, -, rfl⟩ := Option.map_eq_some_iff.mp hafter
    show Evolves s.toWorker (if t.m_intervalMSec = 0 then _ else _)
    split
    · exact .purgeTimerInternal ..
    · exact .same rfl rfl
  | call | unlock | loadStopped | storeStopped | ret | wake | read | testStopped | release | runTask
  | endTask | endBlock | exit => exact .same rfl rfl

/-- The step allocates a `Timer`. -/
def Label.addsTimer : Label τ → Bool
  | .push _ (.addDelayTask _ _) => true
  | .push _ (.addRepeatTask _ _) => true
  | _ => false

/-- What is in the heap after `addTimerTask`. -/
theorem addTimerTask_timers {w : Worker τ} {delay interval : UInt64} {f : τ} {p : Ptr}
    {t : Timer τ} (h : (w.addTimerTask delay interval f).timers p = some t) :
    p ≠ w.nextPtr ∧ w.timers p = some t ∨
      p = w.nextPtr ∧ t = ⟨w.nextTimerId, delay, interval, f, none, some w.self⟩ := by
  by_cases hp : p = w.nextPtr
  · subst hp
    simp only [Worker.addTimerTask, Function.update_self, Option.some_inj] at h
    exact .inr ⟨rfl, h.symm⟩
  · exact .inl ⟨hp, (Function.update_of_ne hp _ _).symm.trans h⟩

/-- The step that allocates a `Timer`. -/
theorem Rule.adds {s s' : State τ} {l : Label τ} (h : Rule s l s') (hl : l.addsTimer = true) :
    ∃ th delay interval f, s'.toWorker = s.toWorker.addTimerTask delay interval f ∧
      (l = .push th (.addDelayTask delay f) ∧ interval = 0 ∨
        l = .push th (.addRepeatTask delay f) ∧ interval = delay) := by
  cases h with
  | @push th c w r hcalled hfree hpush =>
    cases c <;> simp only [pushSection, Option.some_inj, Prod.mk.injEq, reduceCtorEq] at hpush <;>
      obtain ⟨rfl, -⟩ := hpush
    · cases hl
    · exact ⟨th, _, _, _, rfl, .inl ⟨rfl, rfl⟩⟩
    · exact ⟨th, _, _, _, rfl, .inr ⟨rfl, rfl⟩⟩
    · cases hl
  | _ => cases hl

/-- **No other step makes a `Timer`**, or changes more of one than its `m_ev`. -/
theorem Rule.timers_back {s s' : State τ} {l : Label τ} {p : Ptr} {t' : Timer τ} (h : Rule s l s')
    (hi : TimersOwned s.toWorker s.loop.timerBatch) (hl : l.addsTimer = false)
    (ht : s'.timers p = some t') : ∃ t, s.timers p = some t ∧ t' = { t with m_ev := t'.m_ev } := by
  cases h with
  | @push th c w r hcalled hfree hpush =>
    cases c <;> simp only [pushSection, Option.some_inj, Prod.mk.injEq, reduceCtorEq] at hpush <;>
      obtain ⟨rfl, -⟩ := hpush
    · exact ⟨t', ht, rfl⟩
    · cases hl
    · cases hl
    · exact ⟨t', ht, rfl⟩
  | notify howes hwrite =>
    rw [notify_same hwrite] at ht
    exact ⟨t', ht, rfl⟩
  | @swap q hloop hfree => cases q <;> exact ⟨t', ht, rfl⟩
  | @register q rest w hloop hreg =>
    rw [hloop] at hi
    obtain ⟨t, hq⟩ := hi.alive q (by simp [LoopPC.timerBatch])
    rw [hi.registerTimer_eq hq, Option.some_inj] at hreg
    subst hreg
    by_cases hpq : p = q
    · subst hpq
      simp only [Worker.install, Function.update_self, Option.some_inj] at ht
      exact ⟨t, hq, by rw [← ht]⟩
    · have hp := (Function.update_of_ne hpq _ _).symm.trans ht
      exact ⟨t', (purgeTimerInternal_timers.mp hp).2, rfl⟩
  | purge hloop => exact ⟨t', (purgeTimerInternal_timers.mp ht).2, rfl⟩
  | fire hloop hfire =>
    obtain ⟨e, -, -, rfl⟩ := fireTimer_eq_some.mp hfire
    exact ⟨t', ht, rfl⟩
  | endFire hloop hidle hafter =>
    obtain ⟨t, -, rfl⟩ := Option.map_eq_some_iff.mp hafter
    split at ht
    · exact ⟨t', (purgeTimerInternal_timers.mp ht).2, rfl⟩
    · exact ⟨t', ht, rfl⟩
  | call | unlock | loadStopped | storeStopped | ret | wake | read | testStopped | release | runTask
  | endTask | endBlock | exit => exact ⟨t', ht, rfl⟩

variable [DecidableEq τ]

omit [DecidableEq τ] in
/-- A worker that has just been started has no `Timer`; its one event is the notifier. -/
theorem timersOwned_started : TimersOwned (started : State τ).toWorker [] := by
  have hevents : ∀ ev e, (started : State τ).events ev = some e → ev < 3 ∧ e.cb = .notifier := by
    intro ev e he
    by_cases hev : ev = 2
    · subst hev
      cases he
      exact ⟨by decide, rfl⟩
    · simp [started, Worker.start, Worker.init, Events.add, hev] at he
  refine ⟨List.nodup_nil, nofun, nofun, nofun, fun p hp ↦ ⟨rfl, ?_⟩, fun ev e p he hcb ↦ ?_, nofun⟩
  · rw [Option.eq_none_iff_forall_ne_some]
    exact fun e he ↦ absurd (hevents p e he).1 (Nat.not_lt.mpr hp)
  · rw [(hevents ev e he).2] at hcb
    cases hcb

/-- **Every `Timer` has one owner**, in every reachable state. -/
theorem timersOwned {tr : List (Label τ)} {s : State τ} (h : run step started tr = some s) :
    TimersOwned s.toWorker s.loop.timerBatch :=
  run_invariant (P := fun s ↦ TimersOwned s.toWorker s.loop.timerBatch) timersOwned_started
    (fun _ _ _ hi hs ↦ (rule_of_step hs).timersOwned hi) h

/-! ## The line of timers

A `Timer` that has been pushed waits in `m_pendingTimers` and then in the batch that `onNotify` has
swapped out, and it leaves the batch when it is registered with libevent.  There is no other way
out of this line: a purge looks for its `Timer` among the active ones only. -/

/-- The function of the `Timer` that this step pushes. -/
def Label.timerPush : Label τ → List τ
  | .push _ (.addDelayTask _ f) => [f]
  | .push _ (.addRepeatTask _ f) => [f]
  | _ => []

/-- The functions of the `Timer`s pushed, in the order of their sections under `m_lock`. -/
def pushedTimers (tr : List (Label τ)) : List τ := tr.flatMap Label.timerPush

/-- The `Timer` that this step registers. -/
def Label.registered : Label τ → List Ptr
  | .register p => [p]
  | _ => []

/-- The `Timer`s that have been registered, in order. -/
def registeredTimers (tr : List (Label τ)) : List Ptr := tr.flatMap Label.registered

omit [DecidableEq τ] in
@[simp] theorem registeredTimers_concat (tr : List (Label τ)) (l : Label τ) :
    registeredTimers (tr ++ [l]) = registeredTimers tr ++ l.registered := by
  simp [registeredTimers]

omit [DecidableEq τ] in
@[simp] theorem pushedTimers_concat (tr : List (Label τ)) (l : Label τ) :
    pushedTimers (tr ++ [l]) = pushedTimers tr ++ l.timerPush := by
  simp [pushedTimers]

omit [DecidableEq τ] in
/-- What a push adds to the queue of timers. -/
theorem pushSection_timers {w w' : Worker τ} {c : Call τ} {r : Ret τ} (th : Thread)
    (h : pushSection w c = some (w', r)) : w'.m_pendingTimers.length
      = w.m_pendingTimers.length + (Label.push th c).timerPush.length := by
  cases c <;> simp only [pushSection, Option.some_inj, Prod.mk.injEq, reduceCtorEq] at h <;>
    obtain ⟨rfl, -⟩ := h <;>
    simp [Worker.pushTask, Worker.addTimerTask, Worker.pushPurge, Label.timerPush]

omit [DecidableEq τ] in
/-- **One step and the line of timers.**  It loses the `Timer` that is registered, and gets the one
that is pushed. -/
theorem Rule.timers {s s' : State τ} {l : Label τ} (h : Rule s l s') :
    l.registered.length + (s'.loop.timerBatch.length + s'.m_pendingTimers.length)
      = s.loop.timerBatch.length + s.m_pendingTimers.length + l.timerPush.length := by
  cases h with
  | call | unlock | loadStopped | storeStopped | ret => exact Nat.zero_add _
  | @push th c w r hcalled hfree hpush =>
    simp [Label.registered, State.setFrame, pushSection_timers th hpush, Nat.add_assoc]
  | notify howes hwrite =>
    rw [notify_same hwrite]
    exact Nat.zero_add _
  | @swap q hloop hfree =>
    cases q <;> simp [Label.registered, Label.timerPush, LoopPC.timerBatch, hloop, swapQueue]
  | @release b hloop =>
    cases b <;> simp [Label.registered, Label.timerPush, LoopPC.timerBatch, hloop]
  | wake hloop | read hloop | testStopped hloop | runTask hloop | endTask hloop | exit hloop =>
    simp [Label.registered, Label.timerPush, LoopPC.timerBatch, hloop]
  | register hloop hreg =>
    simp [Label.registered, Label.timerPush, LoopPC.timerBatch, hloop,
      (registerTimer_same hreg).timers]
    omega
  | @purge id rest hloop =>
    simp [Label.registered, Label.timerPush, LoopPC.timerBatch, hloop,
      (purgeTimerInternal_same s.toWorker id).timers]
  | endBlock hloop hnext =>
    obtain ⟨h1, h2⟩ := Batch.next_timerBatch hnext
    simp [Label.registered, Label.timerPush, hloop, h1, h2]
  | fire hloop hfire =>
    simp [Label.registered, Label.timerPush, LoopPC.timerBatch, hloop,
      (fireTimer_same hfire).timers]
  | endFire hloop hidle hafter =>
    simp [Label.registered, Label.timerPush, LoopPC.timerBatch, hloop,
      (afterCallback_same hafter).timers]

/-- The line of timers after any run: those that have been registered, those of the batch and those
in the queue are as many as have been pushed. -/
theorem timers_line {tr : List (Label τ)} {s : State τ} (h : run step started tr = some s) :
    (registeredTimers tr).length + (s.loop.timerBatch.length + s.m_pendingTimers.length)
      = (pushedTimers tr).length := by
  refine run_induction (P := fun tr (s : State τ) ↦ (registeredTimers tr).length +
    (s.loop.timerBatch.length + s.m_pendingTimers.length) = (pushedTimers tr).length) rfl ?_ h
  intro tr s l s' _ ih hs
  have hstep := (rule_of_step hs).timers
  rw [registeredTimers_concat, pushedTimers_concat, List.length_append, List.length_append]
  omega

/-- Old timers keep everything but `m_ev` in the rest of a run. -/
theorem evolves_of_run {tr x : List (Label τ)} {s₁ s : State τ} (h₁ : run step started tr = some s₁)
    (h : run step s₁ x = some s) : Evolves s₁.toWorker s.toWorker := by
  refine run_induction (P := fun _ (s : State τ) ↦ Evolves s₁.toWorker s.toWorker)
    (.same rfl rfl) ?_ h
  intro x s l s' hr ih hs
  exact ih.trans ((rule_of_step hs).evolves (timersOwned (run_append.mpr ⟨s₁, h₁, hr⟩)))

end GeneralWorker
