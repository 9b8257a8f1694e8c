import CppUtility.Worker.Purge

/-!
# Active timers and libevent's timer events

Between two callbacks of the event loop, the timer events that are registered on the base, waiting
for their timeout or already active, are those of the timers in `m_activeTimers`, one each
(`timer_events_match`).  So the worker and the library agree on what is going to run: a `Timer` in
the map will have its turn, and nothing else will.

Inside a callback this can be otherwise for one event only.  libevent does not put an event with a
zero timeout back before it runs the callback, and the `Timer` of such an event stays in the map
until the callback is over.  The interface makes such a timer one-shot, so the callback itself takes
it out.  `Wired` is the invariant with this exception.

* **Periods.**  The exception concerns zero timeouts, and a timeout is computed from milliseconds in
  64 bits.  That it is zero only for a delay of zero is `timeval_eq_zero`.
* **Active events.**  `ActiveEvents` is about the pairs of an active `Timer` and its event, with a
  relation `R` between them as a parameter.  What the member functions do to such pairs is the same
  whatever the relation is, and `Ticking` is the one that is used, once for each position of the
  loop thread.
* **The way back.**  That a registered timer event belongs to an active `Timer` is in `TimersOwned`
  already, and does not depend on positions.
-/

set_option autoImplicit false

namespace GeneralWorker

open Transition

variable {τ : Type*}

/-! ## Periods -/

/-- Milliseconds that make neither a second nor a microsecond. -/
theorem eq_zero_of_timeval {n : ℕ} (hsec : n / 1000 = 0)
    (husec : n % 1000 * 1000 % 18446744073709551616 = 0) : n = 0 := by
  have hlt : n % 1000 * 1000 < 18446744073709551616 :=
    Nat.lt_of_le_of_lt (Nat.mul_le_mul_right 1000 (Nat.le_of_lt (Nat.mod_lt n (by decide))))
      (by decide)
  rw [Nat.mod_eq_of_lt hlt] at husec
  omega

/-- The `timeval` of a delay is zero only if the delay is. -/
theorem timeval_eq_zero {delay : UInt64} (hsec : (Worker.timeval delay).1 = 0)
    (husec : (Worker.timeval delay).2 = 0) : delay = 0 := by
  have h1 : (delay / 1000).toNat = 0 := congrArg UInt64.toNat hsec
  have h2 : (delay % 1000 * 1000).toNat = 0 := congrArg UInt64.toNat husec
  simp only [UInt64.toNat_div, UInt64.toNat_mul, UInt64.toNat_mod, UInt64.reduceToNat,
    Nat.reducePow] at h1 h2
  exact UInt64.toNat_inj.mp (eq_zero_of_timeval h1 h2)

/-- libevent puts a persistent event back unless its delay was zero. -/
theorem fired_registered {e : Event} {delay : UInt64} (hpersist : e.persist = true)
    (htimeout : e.timeout = some (Worker.timeval delay)) (hdelay : delay ≠ 0) :
    e.fired.registered = true := by
  have hne : (Worker.timeval delay).1 ≠ 0 ∨ (Worker.timeval delay).2 ≠ 0 := by
    by_contra hzero
    rw [not_or, not_not, not_not] at hzero
    exact hdelay (timeval_eq_zero hzero.1 hzero.2)
  simp only [Event.fired, hpersist, htimeout, Option.any_some, Bool.true_and, Bool.or_eq_true,
    decide_eq_true_eq]
  exact hne

/-! ## The events of active timers

What is known about these events depends on where the loop thread is, so it is a parameter `R` of
the lemmas about the member functions. -/

/-- Every active `Timer` has an event, and `R` holds of the two. -/
def ActiveEvents (w : Worker τ) (R : Ptr → Timer τ → Event → Prop) : Prop :=
  ∀ id p t, w.m_activeTimers id = some p → w.timers p = some t →
    ∃ ev e, t.m_ev = some ev ∧ w.events ev = some e ∧ R p t e

/-- The event that `onNotify` makes for a `Timer`. -/
def Worker.newEvent (w : Worker τ) (p : Ptr) (t : Timer τ) : Event :=
  ⟨w.m_evbase, .timer p, true, some (Worker.timeval t.m_delayMSec), true⟩

namespace ActiveEvents

variable {w w' : Worker τ} {R R' : Ptr → Timer τ → Event → Prop} {batch rest : List Ptr} {p : Ptr}

theorem congr (h : ActiveEvents w R) (ha : w'.m_activeTimers = w.m_activeTimers)
    (ht : w'.timers = w.timers) (he : w'.events = w.events) : ActiveEvents w' R := by
  unfold ActiveEvents
  rw [ha, ht, he]
  exact h

theorem mono (h : ActiveEvents w R)
    (hR : ∀ id p t e, w.m_activeTimers id = some p → w.timers p = some t → R p t e → R' p t e) :
    ActiveEvents w R' := by
  intro id p t hact ht
  obtain ⟨ev, e, hev, he, hRe⟩ := h id p t hact ht
  exact ⟨ev, e, hev, he, hR id p t e hact ht hRe⟩

/-- A new `Timer` is not active yet. -/
theorem addTimerTask (h : ActiveEvents w R) (ho : TimersOwned w batch) (delay interval : UInt64)
    (f : τ) : ActiveEvents (w.addTimerTask delay interval f) R := by
  intro id p t hact ht
  obtain ⟨u, hu, -⟩ := ho.active id p hact
  have hne : p ≠ w.nextPtr := Nat.ne_of_lt (ho.lt_nextPtr hu)
  exact h id p t hact ((Function.update_of_ne hne _ _).symm.trans ht)

theorem purgeTimerInternal (h : ActiveEvents w R) (ho : TimersOwned w batch) (id : UInt64) :
    ActiveEvents (w.purgeTimerInternal id) R := by
  intro id' p t hact ht
  obtain ⟨-, hact⟩ := purgeTimerInternal_active.mp hact
  obtain ⟨hid, ht⟩ := purgeTimerInternal_timers.mp ht
  obtain ⟨ev, e, hev, he, hRe⟩ := h id' p t hact ht
  refine ⟨ev, e, hev, (purgeTimerInternal_event fun q u hq hu hev' ↦ ?_).trans he, hRe⟩
  exact hid (ho.event_inj ht hu hev hev' ▸ hq)

/-- A `Timer` whose id is free becomes active, with a new event. -/
theorem install {t : Timer τ} (h : ActiveEvents w R) (ho : TimersOwned w (p :: rest))
    (hR : R p { t with m_ev := some w.nextPtr } (w.newEvent p t)) :
    ActiveEvents (w.install p t) R := by
  intro id q u hact hu
  by_cases hid : id = t.m_id
  · subst hid
    obtain rfl : p = q := by simpa [Worker.install] using hact
    obtain rfl : { t with m_ev := some w.nextPtr } = u := by simpa [Worker.install] using hu
    exact ⟨w.nextPtr, w.newEvent p t, rfl,
      by simp [Worker.install, Events.add, Worker.newEvent], hR⟩
  · have hold : w.m_activeTimers id = some q := by simpa [Worker.install, hid] using hact
    have hqp : q ≠ p := by
      rintro rfl
      exact ho.apart id q hold (by simp)
    obtain ⟨ev, e, hev, he, hRe⟩ := h id q u hold ((Function.update_of_ne hqp _ _).symm.trans hu)
    have hne : ev ≠ w.nextPtr := by
      rintro rfl
      rw [(ho.fresh _ (Nat.le_refl _)).2] at he
      cases he
    exact ⟨ev, e, hev, by simp [Worker.install, Events.add, hne, he], hRe⟩

/-- When an event fires, only the `Timer` that is its argument sees a change. -/
theorem fireTimer {ev : Ptr} (h : ActiveEvents w R) (ho : TimersOwned w batch)
    (hfire : w.fireTimer ev p = some w')
    (hother : ∀ q t e, q ≠ p → R q t e → R' q t e)
    (hself : ∀ t e, w.timers p = some t → R p t e → R' p t e.fired) : ActiveEvents w' R' := by
  obtain ⟨e₀, he₀, ⟨-, hcb₀, -⟩, rfl⟩ := fireTimer_eq_some.mp hfire
  obtain ⟨t₀, ht₀, hev₀, -⟩ := ho.event ev e₀ p he₀ hcb₀
  intro id q t hact ht
  obtain ⟨ev', e, hev, he, hRe⟩ := h id q t hact ht
  by_cases hq : q = p
  · subst hq
    obtain rfl : t₀ = t := Option.some_inj.mp (ht₀.symm.trans ht)
    obtain rfl : ev = ev' := Option.some_inj.mp (hev₀.symm.trans hev)
    obtain rfl : e₀ = e := Option.some_inj.mp (he₀.symm.trans he)
    exact ⟨ev, e₀.fired, hev₀, Function.update_self .., hself t₀ e₀ ht₀ hRe⟩
  · have hne : ev' ≠ ev := by
      rintro rfl
      exact hq (ho.event_inj ht ht₀ hev hev₀)
    exact ⟨ev', e, hev, (Function.update_of_ne hne _ _).trans he, hother q t e hq hRe⟩

end ActiveEvents

/-! ## The invariant

`made` is the part that the exception rests on: a `Timer` has the interval 0, or its interval is its
delay.  So an event that is not put back has delay 0, its `Timer` has interval 0 in either case, and
the end of the callback purges it. -/

/-- What libevent knows of the event of an active `Timer`, when the loop thread is at `pc`. -/
def Ticking (base : Option Ptr) (pc : LoopPC τ) (p : Ptr) (t : Timer τ) (e : Event) : Prop :=
  e.base = base ∧ e.persist = true ∧ e.timeout = some (Worker.timeval t.m_delayMSec) ∧
    (e.registered = true ∨ pc = .calling p ∧ t.m_intervalMSec = 0)

/-- Timers and events between and inside the callbacks of one run of the event loop. -/
structure Wired (w : Worker τ) (pc : LoopPC τ) : Prop where
  /-- A `Timer` knows its worker, and comes from `addDelayTask` or from `addRepeatTask`. -/
  made : ∀ p t, w.timers p = some t →
    t.m_owner = some w.self ∧ (t.m_intervalMSec = 0 ∨ t.m_intervalMSec = t.m_delayMSec)
  active : ActiveEvents w (Ticking w.m_evbase pc)
  /-- The `Timer` whose callback runs is still active. -/
  calling : ∀ p, pc = .calling p → ∃ t, w.timers p = some t ∧ w.m_activeTimers t.m_id = some p

namespace Wired

variable {w w' : Worker τ} {pc pc' : LoopPC τ} {batch rest : List Ptr} {p : Ptr}

/-- A step that keeps the heaps, the active map and the base, and neither begins nor ends a
callback. -/
theorem congr (h : Wired w pc) (hself : w'.self = w.self) (hbase : w'.m_evbase = w.m_evbase)
    (hact : w'.m_activeTimers = w.m_activeTimers) (htimers : w'.timers = w.timers)
    (hevents : w'.events = w.events) (hpc : ∀ p, pc' = .calling p ↔ pc = .calling p) :
    Wired w' pc' := by
  refine ⟨?_, ?_, fun p hp ↦ ?_⟩
  · rw [hself, htimers]
    exact h.made
  · refine (h.active.congr hact htimers hevents).mono fun id p t e _ _ hR ↦ ?_
    rw [Ticking, hbase, hpc]
    exact hR
  · rw [htimers, hact]
    exact h.calling p ((hpc p).mp hp)

/-- The loop thread moves on outside the callbacks of timers. -/
theorem setLoop (h : Wired w pc) (hpc : ∀ p, pc ≠ .calling p) (hpc' : ∀ p, pc' ≠ .calling p) :
    Wired w pc' :=
  h.congr rfl rfl rfl rfl rfl fun p ↦ iff_of_false (hpc' p) (hpc p)

theorem addTimerTask (h : Wired w pc) (ho : TimersOwned w batch) {delay interval : UInt64} (f : τ)
    (hperiod : interval = 0 ∨ interval = delay) : Wired (w.addTimerTask delay interval f) pc := by
  refine ⟨fun p t ht ↦ ?_, h.active.addTimerTask ho delay interval f, fun p hp ↦ ?_⟩
  · by_cases hp : p = w.nextPtr
    · subst hp
      simp only [Worker.addTimerTask, Function.update_self, Option.some_inj] at ht
      subst ht
      exact ⟨rfl, hperiod⟩
    · exact h.made p t ((Function.update_of_ne hp _ _).symm.trans ht)
  · obtain ⟨t, ht, hact⟩ := h.calling p hp
    have hne : p ≠ w.nextPtr := Nat.ne_of_lt (ho.lt_nextPtr ht)
    exact ⟨t, (Function.update_of_ne hne _ _).trans ht, hact⟩

/-- A purge outside the callbacks of timers, or by the `Timer` whose callback ends with it. -/
theorem purgeTimerInternal (h : Wired w pc) (ho : TimersOwned w batch) {id : UInt64}
    (hpc : ∀ q, pc = .calling q → w.m_activeTimers id = some q) (hpc' : ∀ q, pc' ≠ .calling q) :
    Wired (w.purgeTimerInternal id) pc' := by
  have hsame : (w.purgeTimerInternal id).self = w.self ∧
      (w.purgeTimerInternal id).m_evbase = w.m_evbase := by
    rw [Worker.purgeTimerInternal]
    split <;> exact ⟨rfl, rfl⟩
  refine ⟨fun p t ht ↦ ?_, ?_, fun q hq ↦ absurd hq (hpc' q)⟩
  · rw [hsame.1]
    exact h.made p t (purgeTimerInternal_timers.mp ht).2
  · rw [hsame.2]
    refine (h.active.purgeTimerInternal ho id).mono fun id' q t e hact _ hR ↦ ?_
    obtain ⟨hid, hact⟩ := purgeTimerInternal_active.mp hact
    obtain ⟨hbase, hpersist, htimeout, hreg⟩ := hR
    refine ⟨hbase, hpersist, htimeout, .inl (hreg.resolve_right ?_)⟩
    rintro ⟨hq, -⟩
    exact hid (ho.active_inj hact (hpc q hq))

theorem install {t : Timer τ} (h : Wired w pc) (ho : TimersOwned w (p :: rest))
    (ht : w.timers p = some t) (hpc : ∀ p, pc ≠ .calling p) : Wired (w.install p t) pc := by
  refine ⟨fun q u hu ↦ ?_, h.active.install ho ⟨rfl, rfl, rfl, .inl rfl⟩,
    fun q hq ↦ absurd hq (hpc q)⟩
  by_cases hq : q = p
  · subst hq
    simp only [Worker.install, Function.update_self, Option.some_inj] at hu
    subst hu
    exact h.made q t ht
  · exact h.made q u ((Function.update_of_ne hq _ _).symm.trans hu)

theorem registerTimer (h : Wired w pc) (ho : TimersOwned w (p :: rest))
    (hreg : w.registerTimer p = some w') (hpc : ∀ p, pc ≠ .calling p) : Wired w' pc := by
  obtain ⟨t, ht⟩ := ho.alive p (by simp)
  rw [ho.registerTimer_eq ht, Option.some_inj] at hreg
  subst hreg
  have hpurge : Wired (w.purgeTimerInternal t.m_id) pc :=
    h.purgeTimerInternal ho (fun q hq ↦ absurd hq (hpc q)) hpc
  refine hpurge.install (ho.purgeTimerInternal t.m_id) ?_ hpc
  exact purgeTimerInternal_timers.mpr ⟨fun hact ↦ ho.apart _ p hact (by simp), ht⟩

/-- The callback of a `Timer` begins.  Its event is registered again, unless the delay was zero;
then the interval is zero too. -/
theorem fireTimer {ev : Ptr} (h : Wired w .dispatch) (ho : TimersOwned w batch)
    (hfire : w.fireTimer ev p = some w') : Wired w' (.calling p) := by
  have hactive : ActiveEvents w' (Ticking w.m_evbase (.calling p)) := by
    refine h.active.fireTimer ho hfire (fun q t e _ hR ↦ ?_) (fun t e ht hR ↦ ?_)
    · obtain ⟨hbase, hpersist, htimeout, hreg⟩ := hR
      exact ⟨hbase, hpersist, htimeout, .inl (hreg.resolve_right (by simp))⟩
    · obtain ⟨hbase, hpersist, htimeout, -⟩ := hR
      refine ⟨hbase, hpersist, htimeout, ?_⟩
      by_cases hdelay : t.m_delayMSec = 0
      · exact .inr ⟨rfl, (h.made p t ht).2.elim id fun heq ↦ heq.trans hdelay⟩
      · exact .inl (fired_registered hpersist htimeout hdelay)
  obtain ⟨e, he, ⟨-, hcb, -⟩, rfl⟩ := fireTimer_eq_some.mp hfire
  refine ⟨h.made, hactive, fun q hq ↦ ?_⟩
  obtain rfl : p = q := LoopPC.calling.inj hq
  obtain ⟨t, ht, -, hact⟩ := ho.event ev e p he hcb
  exact ⟨t, ht, hact⟩

/-- The callback is over.  Either the `Timer` has purged itself, or its event is registered. -/
theorem afterCallback (h : Wired w (.calling p)) (ho : TimersOwned w batch)
    (hafter : w.afterCallback p = some w') : Wired w' .dispatch := by
  obtain ⟨t, ht, rfl⟩ := Option.map_eq_some_iff.mp hafter
  obtain ⟨u, hu, hact⟩ := h.calling p rfl
  obtain rfl : t = u := Option.some_inj.mp (ht.symm.trans hu)
  split
  · refine h.purgeTimerInternal ho (fun q hq ↦ ?_) (by simp)
    obtain rfl : p = q := LoopPC.calling.inj hq
    exact hact
  · next hinterval =>
    refine ⟨h.made, h.active.mono fun id q s e _ hs hR ↦ ?_, by simp⟩
    obtain ⟨hbase, hpersist, htimeout, hreg⟩ := hR
    refine ⟨hbase, hpersist, htimeout, .inl (hreg.resolve_right ?_)⟩
    rintro ⟨hq, hzero⟩
    obtain rfl : p = q := LoopPC.calling.inj hq
    obtain rfl : t = s := Option.some_inj.mp (ht.symm.trans hs)
    exact hinterval hzero

end Wired

/-! ## All runs -/

theorem Batch.next_calling {b : Batch τ} {pc : LoopPC τ} (h : b.next = some pc) (p : Ptr) :
    pc ≠ .calling p := by
  unfold Batch.next at h
  split at h <;> cases h <;> simp

/-- The callback that runs has run before the step, or begins with it. -/
theorem Rule.calling_back {s s' : State τ} {l : Label τ} {p : Ptr} (h : Rule s l s')
    (hloop' : s'.loop = .calling p) : s.loop = .calling p ∨ ∃ ev, l = .fire ev p := by
  cases h with
  | @fire ev q w hloop hfire =>
    obtain rfl : q = p := LoopPC.calling.inj hloop'
    exact .inr ⟨ev, rfl⟩
  | endBlock hloop hnext => exact absurd hloop' (Batch.next_calling hnext p)
  | call | push | unlock | loadStopped | storeStopped | notify | ret => exact .inl hloop'
  | wake | read | testStopped | swap | release | runTask | endTask | register | purge | endFire
  | exit => cases hloop'

theorem Rule.wired {s s' : State τ} {l : Label τ} (h : Rule s l s')
    (ho : TimersOwned s.toWorker s.loop.timerBatch) (hi : Wired s.toWorker s.loop) :
    Wired s'.toWorker s'.loop := by
  cases h with
  | call | unlock | loadStopped | storeStopped | ret =>
    exact hi.congr rfl rfl rfl rfl rfl fun _ ↦ Iff.rfl
  | @push th c w r hcalled hfree hpush =>
    cases c <;> simp only [pushSection, Option.some_inj, Prod.mk.injEq, reduceCtorEq] at hpush <;>
      obtain ⟨rfl, -⟩ := hpush
    · exact hi.congr rfl rfl rfl rfl rfl fun _ ↦ Iff.rfl
    · exact hi.addTimerTask ho _ (.inl rfl)
    · exact hi.addTimerTask ho _ (.inr rfl)
    · exact hi.congr rfl rfl rfl rfl rfl fun _ ↦ Iff.rfl
  | notify howes hwrite =>
    rw [notify_same hwrite]
    exact hi.congr rfl rfl rfl rfl rfl fun _ ↦ Iff.rfl
  | @swap q hloop hfree =>
    rw [hloop] at hi
    cases q <;> exact hi.congr rfl rfl rfl rfl rfl fun _ ↦ by simp
  | read hloop | testStopped hloop =>
    rw [hloop] at hi
    exact hi.congr rfl rfl rfl rfl rfl fun _ ↦ by simp
  | wake hloop | release hloop | runTask hloop | endTask hloop | exit hloop =>
    rw [hloop] at hi
    exact hi.setLoop (by simp) (by simp)
  | register hloop hreg =>
    rw [hloop] at hi ho
    exact (hi.registerTimer ho hreg (by simp)).setLoop (by simp) (by simp)
  | purge hloop =>
    rw [hloop] at hi ho
    exact hi.purgeTimerInternal ho (by simp) (by simp)
  | endBlock hloop hnext =>
    rw [hloop] at hi
    exact hi.setLoop (by simp) (Batch.next_calling hnext)
  | fire hloop hfire =>
    rw [hloop] at hi ho
    exact hi.fireTimer ho hfire
  | endFire hloop hidle hafter =>
    rw [hloop] at hi ho
    exact hi.afterCallback ho hafter

variable [DecidableEq τ]

theorem wired {tr : List (Label τ)} {s : State τ} (h : run step started tr = some s) :
    Wired s.toWorker s.loop := by
  have hstarted : Wired (started : State τ).toWorker .dispatch :=
    ⟨by simp [started, Worker.start, Worker.init], by simp [ActiveEvents, started, Worker.start,
      Worker.init], by simp⟩
  refine (run_invariant (P := fun s : State τ ↦ TimersOwned s.toWorker s.loop.timerBatch ∧
    Wired s.toWorker s.loop) ⟨timersOwned_started, hstarted⟩ ?_ h).2
  rintro s l s' ⟨ho, hi⟩ hs
  have hrule := rule_of_step hs
  exact ⟨hrule.timersOwned ho, hrule.wired ho hi⟩

/-- Some timer event is registered on the base of the worker at the address. -/
def Worker.TimerRegistered (w : Worker τ) (ev : Ptr) : Prop :=
  ∃ e p, w.events ev = some e ∧ e.cb = .timer p ∧ e.base = w.m_evbase ∧ e.registered = true

/-- **Active timers and registered timer events are the same things.**  Between two callbacks of the
event loop, the timer events registered on `m_evbase` are those that the timers in `m_activeTimers`
know as their `m_ev`, one for each.  Each of these timers is stored under its own id and knows its
worker, and the callback argument of every event that exists is a `Timer` that is alive. -/
theorem timer_events_match {tr : List (Label τ)} {s : State τ} (h : run step started tr = some s)
    (hloop : s.loop = .dispatch ∨ s.loop = .exited) :
    (∀ ev, s.TimerRegistered ev ↔
      ∃ id p t, s.m_activeTimers id = some p ∧ s.timers p = some t ∧ t.m_ev = some ev) ∧
    (∀ id p, s.m_activeTimers id = some p → ∃ t ev, s.timers p = some t ∧ t.m_id = id ∧
      t.m_owner = some s.self ∧ t.m_ev = some ev) ∧
    (∀ id p t id' p' t' ev, s.m_activeTimers id = some p → s.timers p = some t →
      s.m_activeTimers id' = some p' → s.timers p' = some t' →
      t.m_ev = some ev → t'.m_ev = some ev → id = id') ∧
    ∀ ev e p, s.events ev = some e → e.cb = .timer p → (s.timers p).isSome = true := by
  have ho := timersOwned h
  have hw := wired h
  have hcalling : ∀ p, s.loop ≠ .calling p := by
    rcases hloop with hl | hl <;> simp [hl]
  refine ⟨fun ev ↦ ⟨?_, ?_⟩, fun id p hact ↦ ?_, ?_, fun ev e p he hcb ↦ ?_⟩
  · rintro ⟨e, p, he, hcb, -, -⟩
    obtain ⟨t, ht, hev, hact⟩ := ho.event ev e p he hcb
    exact ⟨t.m_id, p, t, hact, ht, hev⟩
  · rintro ⟨id, p, t, hact, ht, hev⟩
    obtain ⟨ev', e, hev', he, hbase, -, -, hreg⟩ := hw.active id p t hact ht
    obtain rfl : ev' = ev := Option.some_inj.mp (hev'.symm.trans hev)
    obtain ⟨e', he', hcb⟩ := ho.held p t ev' ht hev
    obtain rfl : e = e' := Option.some_inj.mp (he.symm.trans he')
    exact ⟨e, p, he, hcb, hbase, hreg.resolve_right fun hp ↦ hcalling p hp.1⟩
  · obtain ⟨t, ht, hid⟩ := ho.active id p hact
    obtain ⟨ev, e, hev, -, -⟩ := hw.active id p t hact ht
    exact ⟨t, ev, ht, hid, (hw.made p t ht).1, hev⟩
  · intro id p t id' p' t' ev hact ht hact' ht' hev hev'
    obtain rfl : p = p' := ho.event_inj ht ht' hev hev'
    exact ho.active_inj hact hact'
  · obtain ⟨t, ht, -⟩ := ho.event ev e p he hcb
    simp [ht]

/-- A repeated timer and a delayed one are registered; the delayed one fires and purges itself. -/
def oneShotFired : List (Label ℕ) :=
  addRepeatTaskCall (.client 0) 50 1 3 0 ++
    [.call (.client 1) (.addDelayTask 0 2), .push (.client 1) (.addDelayTask 0 2),
      .unlock (.client 1), .notify (.client 1) true, .ret (.client 1) (.delayFuture 2)] ++
    roundStart false ++ [.endBlock, .swap .timers, .release, .register 3, .register 4, .endBlock,
      .swap .purges, .release, .endBlock, .fire 6 4, .endFire 4]

theorem timer_events_match_oneShotFired : ∃ s, run step started oneShotFired = some s ∧
    s.TimerRegistered 5 ∧ ¬s.TimerRegistered 6 := by
  have hrun : ((run step started oneShotFired).any fun s ↦ decide (s.loop = .dispatch ∧
      s.m_activeTimers 0 = some 3 ∧ s.m_activeTimers 1 = none ∧
      (s.timers 3).bind Timer.m_ev = some 5 ∧ s.events 6 = none)) = true := by decide
  obtain ⟨s, hs, hp⟩ := exists_run_of_any hrun
  obtain ⟨hloop, hact, -, hev, hgone⟩ := of_decide_eq_true hp
  obtain ⟨t, ht, hev⟩ := Option.bind_eq_some_iff.mp hev
  obtain ⟨hmatch, -⟩ := timer_events_match hs (.inl hloop)
  refine ⟨s, hs, (hmatch 5).mpr ⟨0, 3, t, hact, ht, hev⟩, ?_⟩
  rintro ⟨e, p, he, -⟩
  rw [hgone] at he
  cases he

end GeneralWorker
