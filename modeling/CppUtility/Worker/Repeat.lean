import Mathlib.Algebra.Group.Nat.Defs
import CppUtility.Worker.Events

/-!
# Repeated tasks

`addRepeatTask` gives its `Timer` the period both as delay and as interval.  Once `onNotify` has
moved the `Timer` into `m_activeTimers`, it should stay there, its event registered, until a purge
of its id is processed.  Two things can take it out before:

* a period of 0 is an interval of 0, by which the timer callback knows a delayed task, so the timer
  purges itself after its first run (`repeat_task_lost`);
* the ids are a counter modulo 2⁴⁸, and a `Timer` that is registered under an id which is still in
  use replaces the one that has it.

`repeated_stays_iff` shows that these are the only ways: in every run, the repeated tasks stay
scheduled as long as no step is of one of these two kinds.  `Scheduled` reads off a history which
timers should be in the map, without looking at the map, and `Rule.active_stays` is the step lemma.

The two conditions are about steps of a run.  For a program they follow from something simpler: if
every period is other than 0 and fewer than 2⁴⁸ timers are made, no step is of either kind, and the
last section proves it.  Delayed tasks count among the timers made, since they take their ids from
the same counter.
-/

set_option autoImplicit false

namespace GeneralWorker

open Transition

variable {τ : Type*}

/-! ## What a step does to an active timer -/

/-- The move into `m_activeTimers` takes the id away from the `Timer` that had it. -/
theorem registerTimer_active {w w' : Worker τ} {p : Ptr} {rest : List Ptr} {t : Timer τ}
    (h : TimersOwned w (p :: rest)) (hreg : w.registerTimer p = some w')
    (ht : w.timers p = some t) (id : UInt64) :
    w'.m_activeTimers id = if id = t.m_id then some p else w.m_activeTimers id := by
  rw [h.registerTimer_eq ht, Option.some_inj] at hreg
  subst hreg
  by_cases hid : id = t.m_id
  · simp [Worker.install, hid]
  · have hkeep : (w.purgeTimerInternal t.m_id).m_activeTimers id = w.m_activeTimers id := by
      ext q
      rw [purgeTimerInternal_active]
      exact and_iff_right hid
    simp [Worker.install, hid, hkeep]

/-- **An active `Timer` stays active**, unless its id is purged, its id is given to another one, or
it is one-shot and its callback is over. -/
theorem Rule.active_stays {s s' : State τ} {l : Label τ} {p : Ptr} {id : UInt64} (h : Rule s l s')
    (ho : TimersOwned s.toWorker s.loop.timerBatch) (hw : Wired s.toWorker s.loop)
    (hact : s.m_activeTimers id = some p) (hpurge : l ≠ .purge id)
    (hregister : ∀ q t, l = .register q → s.timers q = some t → t.m_id ≠ id)
    (hend : ∀ t, l = .endFire p → s.timers p = some t → t.m_intervalMSec ≠ 0) :
    s'.m_activeTimers id = some p := by
  cases h with
  | push hcalled hfree hpush =>
    have hsame := (pushSection_waits hpush).1
    exact hsame ▸ hact
  | notify howes hwrite => rw [notify_same hwrite]; exact hact
  | @swap q hloop hfree => cases q <;> exact hact
  | @register q rest w hloop hreg =>
    rw [hloop] at ho
    obtain ⟨t, ht⟩ := ho.alive q (by simp [LoopPC.timerBatch])
    have hne : id ≠ t.m_id := (hregister q t rfl ht).symm
    exact (registerTimer_active ho hreg ht id).trans ((if_neg hne).trans hact)
  | @purge id' rest hloop =>
    refine purgeTimerInternal_active.mpr ⟨?_, hact⟩
    rintro rfl
    exact hpurge rfl
  | fire hloop hfire =>
    obtain ⟨e, -, -, rfl⟩ := fireTimer_eq_some.mp hfire
    exact hact
  | @endFire q w hloop hidle hafter =>
    obtain ⟨t, ht, rfl⟩ := Option.map_eq_some_iff.mp hafter
    show (if t.m_intervalMSec = 0 then _ else _ : Worker τ).m_activeTimers id = some p
    split
    · next hzero =>
      -- the `Timer` that purges itself is the one whose callback was running
      obtain ⟨u, hu, hactq⟩ := hw.calling q hloop
      obtain rfl : t = u := Option.some_inj.mp (ht.symm.trans hu)
      refine purgeTimerInternal_active.mpr ⟨?_, hact⟩
      rintro rfl
      obtain rfl : q = p := Option.some_inj.mp (hactq.symm.trans hact)
      exact hend t rfl ht hzero
    · exact hact
  | call | unlock | loadStopped | storeStopped | ret | wake | read | testStopped | release | runTask
  | endTask | endBlock | exit => exact hact

/-- libevent does not put an event back whose delay was zero. -/
theorem fired_not_registered {e : Event} (htimeout : e.timeout = some (Worker.timeval 0)) :
    e.fired.registered = false := by
  simp [Event.fired, htimeout, Worker.timeval]

/-! ## What a history says about repeated tasks -/

variable [DecidableEq τ]

/-- In the history, a section of `addRepeatTask` allocated the `Timer` at `p` for the period `ms`,
and the call returned (or is about to return) `id`. -/
def Repeats (tr : List (Label τ)) (p : Ptr) (id ms : UInt64) : Prop :=
  ∃ u th t v s, tr = u ++ .push th (.addRepeatTask ms t) :: v ∧ run step started u = some s ∧
    s.nextPtr = p ∧ s.nextTimerId = id

/-- `onNotify` has moved the `Timer` of such a call into `m_activeTimers`, and has not processed a
purge of its id since. -/
def Scheduled (tr : List (Label τ)) (p : Ptr) (id ms : UInt64) : Prop :=
  ∃ u v, tr = u ++ .register p :: v ∧ Repeats u p id ms ∧ .purge id ∉ v

theorem Repeats.append {tr : List (Label τ)} {p : Ptr} {id ms : UInt64} (h : Repeats tr p id ms)
    (tr' : List (Label τ)) : Repeats (tr ++ tr') p id ms := by
  obtain ⟨u, th, t, v, s, rfl, hr, hp, hid⟩ := h
  exact ⟨u, th, t, v ++ tr', s, by simp, hr, hp, hid⟩

/-- Only the section of `addRepeatTask` itself adds to these calls. -/
theorem repeats_concat {tr : List (Label τ)} {l : Label τ} {p : Ptr} {id ms : UInt64} :
    Repeats (tr ++ [l]) p id ms ↔ Repeats tr p id ms ∨ ∃ s,
      ((∃ th t, l = .push th (.addRepeatTask ms t)) ∧ run step started tr = some s) ∧
        s.nextPtr = p ∧ s.nextTimerId = id := by
  constructor
  · rintro ⟨u, th, t, v, s, htr, hr, hp, hid⟩
    rcases concat_eq_append_cons.mp htr with ⟨rfl, hl, -⟩ | ⟨v', rfl, -⟩
    · exact .inr ⟨s, ⟨⟨th, t, hl.symm⟩, hr⟩, hp, hid⟩
    · exact .inl ⟨u, th, t, v', s, rfl, hr, hp, hid⟩
  · rintro (h | ⟨s, ⟨⟨th, t, rfl⟩, hr⟩, hp, hid⟩)
    · exact h.append [l]
    · exact ⟨tr, th, t, [], s, rfl, hr, hp, hid⟩

/-- A `Timer` is scheduled by its registration, and until its id is purged. -/
theorem scheduled_concat {tr : List (Label τ)} {l : Label τ} {p : Ptr} {id ms : UInt64} :
    Scheduled (tr ++ [l]) p id ms ↔
      Scheduled tr p id ms ∧ l ≠ .purge id ∨ l = .register p ∧ Repeats tr p id ms := by
  constructor
  · rintro ⟨u, v, htr, hrepeats, hnot⟩
    rcases concat_eq_append_cons.mp htr with ⟨rfl, rfl, -⟩ | ⟨v', rfl, rfl⟩
    · exact .inr ⟨rfl, hrepeats⟩
    · simp only [List.mem_append, List.mem_singleton, not_or] at hnot
      exact .inl ⟨⟨u, v', rfl, hrepeats, hnot.1⟩, fun hl ↦ hnot.2 hl.symm⟩
  · rintro (⟨⟨u, v, rfl, hrepeats, hnot⟩, hl⟩ | ⟨rfl, hrepeats⟩)
    · refine ⟨u, v ++ [l], by simp, hrepeats, ?_⟩
      simp only [List.mem_append, List.mem_singleton, not_or]
      exact ⟨hnot, fun hl' ↦ hl hl'.symm⟩
    · exact ⟨tr, [], rfl, hrepeats, nofun⟩

theorem Scheduled.repeats {tr : List (Label τ)} {p : Ptr} {id ms : UInt64}
    (h : Scheduled tr p id ms) : Repeats tr p id ms := by
  obtain ⟨u, v, rfl, hrepeats, -⟩ := h
  exact hrepeats.append _

/-- The `Timer` of a call of `addRepeatTask`, as long as it lives. -/
theorem Repeats.timer {tr : List (Label τ)} {s : State τ} {p : Ptr} {id ms : UInt64} {t : Timer τ}
    (hrepeats : Repeats tr p id ms) (h : run step started tr = some s) (ht : s.timers p = some t) :
    t.m_id = id ∧ t.m_delayMSec = ms ∧ t.m_intervalMSec = ms := by
  obtain ⟨u, th, f, v, s₀, rfl, h₀, rfl, rfl⟩ := hrepeats
  obtain ⟨s₀', h₀', hrun⟩ := run_append.mp h
  obtain rfl : s₀ = s₀' := Option.some_inj.mp (h₀.symm.trans h₀')
  obtain ⟨s₁, hpush, hv⟩ := run_cons_eq_some.mp hrun
  have hevolves := evolves_of_run (run_concat.mpr ⟨s₀, h₀, hpush⟩) hv
  cases rule_of_step hpush with
  | push hcalled hfree hsection =>
    simp only [pushSection, Option.some_inj, Prod.mk.injEq] at hsection
    obtain ⟨rfl, -⟩ := hsection
    obtain ⟨t₁, ht₁, he⟩ := hevolves.timers s₀.nextPtr t (Nat.lt_succ_self _) ht
    simp only [Worker.addTimerTask, Function.update_self, Option.some_inj] at ht₁
    subst ht₁
    rw [he]
    exact ⟨rfl, rfl, rfl⟩

/-! ## All runs -/

omit [DecidableEq τ] in
/-- The `Timer` at `p` is in `m_activeTimers` under the id, and its event is registered. -/
structure Worker.Armed (w : Worker τ) (p : Ptr) (id : UInt64) : Prop where
  active : w.m_activeTimers id = some p
  event : ∃ t ev e, w.timers p = some t ∧ t.m_ev = some ev ∧ w.events ev = some e ∧
    e.cb = .timer p ∧ e.base = w.m_evbase ∧ e.registered = true

/-- **A repeated task stays scheduled until it is purged** in the run `tr` to `s`. -/
def RepeatedStay (tr : List (Label τ)) (s : State τ) : Prop :=
  ∀ p id ms, Scheduled tr p id ms → s.Armed p id

/-- The step is not the callback of a repeated task with period 0, and does not register a `Timer`
whose id a scheduled repeated task still has. -/
def SparesRepeated (tr : List (Label τ)) (s : State τ) : Label τ → Prop
  | .fire _ p => ∀ id ms, Scheduled tr p id ms → ms ≠ 0
  | .register q => ∀ p id ms t, Scheduled tr p id ms → s.timers q = some t → t.m_id ≠ id
  | _ => True

/-- The event of an active `Timer` is registered, except during a callback with interval 0. -/
theorem armed_of_active {tr : List (Label τ)} {s : State τ} {p : Ptr} {id ms : UInt64}
    (h : run step started tr = some s) (hrepeats : Repeats tr p id ms)
    (hact : s.m_activeTimers id = some p) (hcalling : s.loop = .calling p → ms ≠ 0) :
    s.Armed p id := by
  refine ⟨hact, ?_⟩
  obtain ⟨t, ht, -⟩ := (timersOwned h).active id p hact
  obtain ⟨ev, e, hev, he, hbase, -, -, hreg⟩ := (wired h).active id p t hact ht
  obtain ⟨e', he', hcb⟩ := (timersOwned h).held p t ev ht hev
  obtain rfl : e = e' := Option.some_inj.mp (he.symm.trans he')
  refine ⟨t, ev, e, ht, hev, he, hcb, hbase, hreg.resolve_right ?_⟩
  rintro ⟨hloop, hzero⟩
  exact hcalling hloop ((hrepeats.timer h ht).2.2.symm.trans hzero)

/-- One step: what is scheduled is active, and no callback of a period 0 runs. -/
theorem scheduled_step {tr : List (Label τ)} {s s' : State τ} {l : Label τ}
    (hr : run step started tr = some s) (hs : step s l = some s') (hspares : SparesRepeated tr s l)
    (ih : ∀ p id ms, Scheduled tr p id ms →
      s.m_activeTimers id = some p ∧ (s.loop = .calling p → ms ≠ 0)) {p : Ptr} {id ms : UInt64}
    (h : Scheduled (tr ++ [l]) p id ms) :
    s'.m_activeTimers id = some p ∧ (s'.loop = .calling p → ms ≠ 0) := by
  have hrule := rule_of_step hs
  have ho := timersOwned hr
  rcases scheduled_concat.mp h with ⟨hsched, hpurge⟩ | ⟨rfl, hrepeats⟩
  · obtain ⟨hact, hcalling⟩ := ih p id ms hsched
    refine ⟨hrule.active_stays ho (wired hr) hact hpurge ?_ ?_, fun hloop' ↦ ?_⟩
    · rintro q t rfl ht
      exact hspares p id ms t hsched ht
    · rintro t rfl ht
      rw [(hsched.repeats.timer hr ht).2.2]
      cases hrule with
      | endFire hloop hidle hafter => exact hcalling hloop
    · rcases hrule.calling_back hloop' with hloop | ⟨ev, rfl⟩
      · exact hcalling hloop
      · exact hspares id ms hsched
  · -- the step that registers the `Timer`
    cases hrule with
    | @register _ rest w hloop hreg =>
      rw [hloop] at ho
      obtain ⟨t, ht⟩ := ho.alive p (by simp [LoopPC.timerBatch])
      have hid : id = t.m_id := (hrepeats.timer hr ht).1.symm
      refine ⟨(registerTimer_active ho hreg ht id).trans (if_pos hid), fun hcalling ↦ ?_⟩
      cases hcalling

/-- In a run whose steps spare the repeated tasks, what is scheduled is active. -/
theorem scheduled_active {tr : List (Label τ)} {s : State τ} (h : run step started tr = some s)
    (hspares : Along step SparesRepeated started tr) :
    ∀ p id ms, Scheduled tr p id ms →
      s.m_activeTimers id = some p ∧ (s.loop = .calling p → ms ≠ 0) := by
  refine run_induction (P := fun tr (s : State τ) ↦ Along step SparesRepeated started tr →
    ∀ p id ms, Scheduled tr p id ms →
      s.m_activeTimers id = some p ∧ (s.loop = .calling p → ms ≠ 0)) ?_ ?_ h hspares
  · rintro - p id ms ⟨u, v, hnil, -⟩
    simp at hnil
  · intro tr s l s' hr ih hs hspares p id ms hsched
    obtain ⟨hold, hl⟩ := (along_concat hr).mp hspares
    exact scheduled_step hr hs hl (ih hold) hsched

/-- A step that does not spare the repeated tasks loses one. -/
theorem spares_of_stay {tr : List (Label τ)} {s s' : State τ} {l : Label τ}
    (hr : run step started tr = some s) (hs : step s l = some s') (hstay : RepeatedStay tr s)
    (hstay' : RepeatedStay (tr ++ [l]) s') : SparesRepeated tr s l := by
  have ho := timersOwned hr
  cases rule_of_step hs with
  | @fire ev p w hloop hfire =>
    rintro id ms hsched rfl
    obtain ⟨t, ev', e', ht, hev, he', -, -, hreg⟩ :=
      (hstay' p id 0 (scheduled_concat.mpr (.inl ⟨hsched, by simp⟩))).event
    obtain ⟨e, he, ⟨-, hcb, -⟩, rfl⟩ := fireTimer_eq_some.mp hfire
    -- the event that fires is the one of this `Timer`, with the delay 0
    obtain ⟨u, hu, hevu, hact⟩ := ho.event ev e p he hcb
    obtain rfl : u = t := Option.some_inj.mp (hu.symm.trans ht)
    obtain rfl : ev = ev' := Option.some_inj.mp (hevu.symm.trans hev)
    obtain ⟨ev₁, e₁, hev₁, he₁, -, -, htimeout, -⟩ := (wired hr).active _ p u hact hu
    obtain rfl : ev = ev₁ := Option.some_inj.mp (hevu.symm.trans hev₁)
    obtain rfl : e = e₁ := Option.some_inj.mp (he.symm.trans he₁)
    rw [(hsched.repeats.timer hr hu).2.1] at htimeout
    simp only [Function.update_self, Option.some_inj] at he'
    rw [← he', fired_not_registered htimeout] at hreg
    cases hreg
  | @register q rest w hloop hreg =>
    rintro p id ms t hsched ht rfl
    rw [hloop] at ho
    have hact' := (hstay' p t.m_id ms (scheduled_concat.mpr (.inl ⟨hsched, by simp⟩))).active
    have hq := (registerTimer_active ho hreg ht t.m_id).trans (if_pos rfl)
    obtain rfl : q = p := Option.some_inj.mp (hq.symm.trans hact')
    exact ho.apart t.m_id q (hstay q t.m_id ms hsched).active (by simp [LoopPC.timerBatch])
  | _ => trivial

/-- **When repeated tasks stay scheduled.**  In a run from the start, every repeated task that
`onNotify` has registered stays in `m_activeTimers`, with its event registered, until `onNotify`
processes a purge of its id — at every moment of the run — if and only if no repeated task with
period 0 fires, and no `Timer` is registered under the id of a repeated task that is scheduled. -/
theorem repeated_stays_iff {tr : List (Label τ)} {s : State τ} (h : run step started tr = some s) :
    (∀ tr₁ s₁, tr₁ <+: tr → run step started tr₁ = some s₁ → RepeatedStay tr₁ s₁) ↔
      Along step SparesRepeated started tr := by
  constructor
  · rintro hstay tr₁ l tr₂ s₁ rfl hr
    obtain ⟨s₁', hr', hrest⟩ := run_append.mp h
    obtain rfl : s₁ = s₁' := Option.some_inj.mp (hr.symm.trans hr')
    obtain ⟨s₂, hs, -⟩ := run_cons_eq_some.mp hrest
    refine spares_of_stay hr hs (hstay tr₁ s₁ (List.prefix_append _ _) hr) ?_
    exact hstay _ s₂ ⟨tr₂, by simp⟩ (run_concat.mpr ⟨s₁, hr, hs⟩)
  · rintro hspares tr₁ s₁ ⟨tr₂, rfl⟩ hr p id ms hsched
    have hspares₁ : Along step SparesRepeated started tr₁ :=
      fun u l v s₂ hu hr₂ ↦ hspares u l (v ++ tr₂) s₂ (by simp [hu]) hr₂
    obtain ⟨hact, hcalling⟩ := scheduled_active hr hspares₁ p id ms hsched
    exact armed_of_active hr hsched.repeats hact hcalling

/-! ## Runs with non-zero periods and fewer than 2⁴⁸ timers

As long as the counter has not come round, the id of a call is the number of timers made before it,
and no other `Timer` has it. -/

/-- The ids given out when `n` timers have been allocated, and none of the ids wrapped around. -/
structure TimerIds (tr : List (Label τ)) (w : Worker τ) (n : ℕ) : Prop where
  next : w.m_nextTimerId.toNat = n
  used : ∀ q t, w.timers q = some t → t.m_id.toNat < n
  /-- The id of a call of `addRepeatTask` is that of its `Timer` only. -/
  unique : ∀ p id ms, Repeats tr p id ms →
    id.toNat < n ∧ ∀ q t, w.timers q = some t → t.m_id = id → q = p

omit [DecidableEq τ] in
/-- The counter is advanced by `addTimerTask` alone. -/
theorem Rule.nextTimerId_same {s s' : State τ} {l : Label τ} (h : Rule s l s')
    (hl : l.addsTimer = false) : s'.m_nextTimerId = s.m_nextTimerId := by
  have hpurge : ∀ (w : Worker τ) id, (w.purgeTimerInternal id).m_nextTimerId = w.m_nextTimerId := by
    intro w id
    rw [Worker.purgeTimerInternal]
    split <;> rfl
  cases h with
  | @push th c w r hcalled hfree hpush =>
    cases c <;> simp only [pushSection, Option.some_inj, Prod.mk.injEq, reduceCtorEq] at hpush <;>
      obtain ⟨rfl, -⟩ := hpush
    · rfl
    · cases hl
    · cases hl
    · rfl
  | notify howes hwrite => rw [notify_same hwrite]
  | @swap q hloop hfree => cases q <;> rfl
  | @register p rest w hloop hreg =>
    rw [Worker.registerTimer] at hreg
    split at hreg
    · cases hreg
    · next t _ =>
      obtain rfl := Option.some_inj.mp hreg
      cases s.m_activeTimers t.m_id <;> rfl
  | purge hloop => exact hpurge ..
  | fire hloop hfire =>
    obtain ⟨e, -, -, rfl⟩ := fireTimer_eq_some.mp hfire
    rfl
  | endFire hloop hidle hafter =>
    obtain ⟨t, -, rfl⟩ := Option.map_eq_some_iff.mp hafter
    show (if t.m_intervalMSec = 0 then _ else _ : Worker τ).m_nextTimerId = s.m_nextTimerId
    split
    · exact hpurge ..
    · rfl
  | call | unlock | loadStopped | storeStopped | ret | wake | read | testStopped | release | runTask
  | endTask | endBlock | exit => rfl

omit [DecidableEq τ] in
/-- `nextTimerId` returns the counter, as long as that has at most 48 bits. -/
theorem nextTimerId_toNat {w : Worker τ} (h : w.m_nextTimerId.toNat < 2 ^ 48) :
    w.nextTimerId.toNat = w.m_nextTimerId.toNat := by
  have hmask : TIMER_ID_MASK.toNat = 2 ^ 48 - 1 := by decide
  rw [Worker.nextTimerId, UInt64.toNat_and, hmask, Nat.and_two_pow_sub_one_eq_mod,
    Nat.mod_eq_of_lt h]

/-- **The next `Timer` gets an id that was not given out before.** -/
theorem TimerIds.push {tr : List (Label τ)} {s s' : State τ} {l : Label τ} {n : ℕ}
    (h : TimerIds tr s.toWorker n) (hr : run step started tr = some s) (hs : step s l = some s')
    (hadd : l.addsTimer = true) (hn : n < 2 ^ 48) : TimerIds (tr ++ [l]) s'.toWorker (n + 1) := by
  have hid : s.nextTimerId.toNat = n :=
    (nextTimerId_toNat (by rw [h.next]; exact hn)).trans h.next
  obtain ⟨_, delay, interval, f, hw, -⟩ := (rule_of_step hs).adds hadd
  have htimers : ∀ q t, s'.timers q = some t →
      s.timers q = some t ∨ q = s.nextPtr ∧ t.m_id = s.nextTimerId := by
    intro q t hq
    rw [hw] at hq
    rcases addTimerTask_timers hq with ⟨-, hold⟩ | ⟨hnew, rfl⟩
    · exact .inl hold
    · exact .inr ⟨hnew, rfl⟩
  refine ⟨?_, fun q t hq ↦ ?_, fun p id ms hrepeats ↦ ?_⟩
  · rw [hw]
    show (s.m_nextTimerId + 1).toNat = n + 1
    have hlt : s.m_nextTimerId.toNat + 1 < 2 ^ 64 := by rw [h.next]; omega
    rw [UInt64.toNat_add, UInt64.toNat_one, Nat.mod_eq_of_lt hlt, h.next]
  · rcases htimers q t hq with hold | ⟨-, hnew⟩
    · exact Nat.lt_succ_of_lt (h.used q t hold)
    · rw [hnew, hid]
      exact Nat.lt_succ_self n
  · rcases repeats_concat.mp hrepeats with hold | ⟨s₀, hr₀, rfl, rfl⟩
    · obtain ⟨hlt, hunique⟩ := h.unique p id ms hold
      refine ⟨Nat.lt_succ_of_lt hlt, fun q t hq hid' ↦ ?_⟩
      rcases htimers q t hq with hqold | ⟨-, hnew⟩
      · exact hunique q t hqold hid'
      · rw [← hid', hnew, hid] at hlt
        exact absurd hlt (Nat.lt_irrefl n)
    · obtain rfl : s = s₀ := Option.some_inj.mp (hr.symm.trans hr₀.2)
      refine ⟨hid ▸ Nat.lt_succ_self n, fun q t hq hid' ↦ ?_⟩
      rcases htimers q t hq with hqold | ⟨hqn, -⟩
      · have hlt := h.used q t hqold
        rw [hid', hid] at hlt
        exact absurd hlt (Nat.lt_irrefl n)
      · exact hqn

/-- A step that allocates no `Timer` gives no id out. -/
theorem TimerIds.other {tr : List (Label τ)} {s s' : State τ} {l : Label τ} {n : ℕ}
    (h : TimerIds tr s.toWorker n) (hr : run step started tr = some s) (hs : step s l = some s')
    (hadd : l.addsTimer = false) : TimerIds (tr ++ [l]) s'.toWorker n := by
  have hrule := rule_of_step hs
  have htimers : ∀ q t', s'.timers q = some t' → ∃ t, s.timers q = some t ∧ t'.m_id = t.m_id := by
    intro q t' hq
    obtain ⟨t, ht, he⟩ := hrule.timers_back (timersOwned hr) hadd hq
    exact ⟨t, ht, by rw [he]⟩
  refine ⟨hrule.nextTimerId_same hadd ▸ h.next, fun q t' hq ↦ ?_, fun p id ms hrepeats ↦ ?_⟩
  · obtain ⟨t, ht, hid⟩ := htimers q t' hq
    exact hid ▸ h.used q t ht
  · rcases repeats_concat.mp hrepeats with hold | ⟨_, ⟨⟨th, f, rfl⟩, -⟩, -⟩
    · obtain ⟨hlt, hunique⟩ := h.unique p id ms hold
      refine ⟨hlt, fun q t' hq hid' ↦ ?_⟩
      obtain ⟨t, ht, hid⟩ := htimers q t' hq
      exact hunique q t ht (hid.symm.trans hid')
    · cases hadd

/-- **Ids are unique** as long as no more than 2⁴⁸ timers have been allocated. -/
theorem timerIds {tr : List (Label τ)} {s : State τ} (h : run step started tr = some s)
    (hfew : tr.countP Label.addsTimer ≤ 2 ^ 48) :
    TimerIds tr s.toWorker (tr.countP Label.addsTimer) := by
  refine run_induction (P := fun tr (s : State τ) ↦ tr.countP Label.addsTimer ≤ 2 ^ 48 →
    TimerIds tr s.toWorker (tr.countP Label.addsTimer)) ?_ ?_ h hfew
  · rintro -
    refine ⟨rfl, nofun, ?_⟩
    rintro p id ms ⟨u, th, t, v, s, hnil, -⟩
    simp at hnil
  · intro tr s l s' hr ih hs hfew
    rw [List.countP_append, List.countP_singleton] at hfew ⊢
    have hold := ih (Nat.le_trans (Nat.le_add_right _ _) hfew)
    cases hadd : l.addsTimer with
    | true =>
      rw [if_pos hadd] at hfew
      exact (if_pos rfl : (if true = true then 1 else 0) = 1) ▸ hold.push hr hs hadd hfew
    | false => exact hold.other hr hs hadd

/-- A `Timer` that has been registered does not wait any more. -/
theorem not_waiting_of_registered {tr : List (Label τ)} {s : State τ} {p : Ptr}
    (h : run step started tr = some s) (hreg : .register p ∈ tr) :
    p ∉ s.loop.timerBatch ++ s.m_pendingTimers := by
  obtain ⟨u, v, rfl⟩ := List.append_of_mem hreg
  obtain ⟨s₀, h₀, hrest⟩ := run_append.mp h
  obtain ⟨s₁, hs, hv⟩ := run_cons_eq_some.mp hrest
  have h₁ := run_concat.mpr ⟨s₀, h₀, hs⟩
  have ho := timersOwned h₀
  have ho₁ := timersOwned h₁
  have hfirst : p < s₁.nextPtr ∧ p ∉ s₁.loop.timerBatch ++ s₁.m_pendingTimers := by
    cases rule_of_step hs with
    | @register _ rest w hloop hwreg =>
      rw [hloop] at ho
      obtain ⟨t, ht⟩ := ho.alive p (by simp [LoopPC.timerBatch])
      have hact := (registerTimer_active ho hwreg ht t.m_id).trans (if_pos rfl)
      obtain ⟨u, hu, -⟩ := ho₁.active t.m_id p hact
      exact ⟨ho₁.lt_nextPtr hu, ho₁.apart t.m_id p hact⟩
  refine (run_induction (P := fun _ (s : State τ) ↦
    p < s.nextPtr ∧ p ∉ s.loop.timerBatch ++ s.m_pendingTimers) hfirst ?_ hv).2
  rintro x s l s' hr ⟨hlt, hnot⟩ hs
  have hrule := rule_of_step hs
  have hevolves := hrule.evolves (timersOwned (run_append.mpr ⟨s₁, h₁, hr⟩))
  refine ⟨Nat.lt_of_lt_of_le hlt hevolves.next, fun hin ↦ hnot ?_⟩
  rcases List.mem_append.mp hin with hin | hin
  · exact List.mem_append.mpr (hrule.batch_back hin)
  · exact List.mem_append_right _ (hrule.pending_back hlt hin)

/-- **What the callers have to observe**: with no period 0 and at most 2⁴⁸ timers, every step
spares the repeated tasks. -/
theorem spares_of_calls {tr : List (Label τ)} {s : State τ} (h : run step started tr = some s)
    (hperiod : ∀ th t, .push th (.addRepeatTask 0 t) ∉ tr)
    (hfew : tr.countP Label.addsTimer ≤ 2 ^ 48) : Along step SparesRepeated started tr := by
  rintro u l v s₁ rfl hr
  have hsub : ∀ {id ms p}, Scheduled u p id ms → ms ≠ 0 := by
    rintro id _ p hsched rfl
    obtain ⟨u', th, t, v', s₂, rfl, -⟩ := hsched.repeats
    exact hperiod th t (by simp)
  cases l with
  | fire ev p => exact fun id ms hsched ↦ hsub hsched
  | register q =>
    intro p id ms t hsched ht hid
    rw [List.countP_append] at hfew
    have hids := timerIds hr (Nat.le_trans (Nat.le_add_right _ _) hfew)
    obtain rfl : q = p := (hids.unique p id ms hsched.repeats).2 q t ht hid
    -- the `Timer` was registered before, and waits again
    obtain ⟨s₁', hr', hrest⟩ := run_append.mp h
    obtain rfl : s₁ = s₁' := Option.some_inj.mp (hr.symm.trans hr')
    obtain ⟨s₂, hs, -⟩ := run_cons_eq_some.mp hrest
    obtain ⟨u', v', rfl, -⟩ := hsched
    refine not_waiting_of_registered hr (by simp : Label.register q ∈ _) ?_
    cases rule_of_step hs with
    | register hloop hreg => simp [hloop, LoopPC.timerBatch]
  | _ => trivial

/-- A repeated task of the given period is registered and fires once; nothing is purged. -/
def repeatOnce (ms : UInt64) : List (Label ℕ) :=
  addRepeatTaskCall (.client 0) ms 1 3 0 ++ roundStart false ++
    [.endBlock, .swap .timers, .release, .register 3, .endBlock, .swap .purges, .release, .endBlock,
      .fire 4 3, .endFire 3]

theorem scheduled_repeatOnce (ms : UInt64) : Scheduled (repeatOnce ms) 3 0 ms := by
  refine ⟨addRepeatTaskCall (.client 0) ms 1 3 0 ++ roundStart false ++
    [.endBlock, .swap .timers, .release], _, rfl, ?_, by simp⟩
  have hid : (0 : UInt64) &&& TIMER_ID_MASK = 0 := by decide
  exact ⟨[.call (.client 0) (.addRepeatTask ms 1)], .client 0, 1, _, _, rfl, rfl, rfl, hid⟩

theorem repeated_stays_iff_repeatOnce : ∃ s, run step started (repeatOnce 50) = some s ∧
    s.Armed 3 0 := by
  have hrun : ((run step started (repeatOnce 50)).any fun _ ↦ true) = true := by decide
  obtain ⟨s, hs, -⟩ := exists_run_of_any hrun
  have hspares : Along step SparesRepeated started (repeatOnce 50) :=
    spares_of_calls hs (by simp [repeatOnce, addRepeatTaskCall, roundStart]) (by decide)
  exact ⟨s, hs, (repeated_stays_iff hs).mpr hspares _ s (List.prefix_refl _) hs 3 0 50
    (scheduled_repeatOnce 50)⟩

/-- **A repeated task with period 0 runs once and is gone**, although nobody has purged it. -/
theorem repeat_task_lost :
    ¬∀ tr s, run (step (τ := ℕ)) started tr = some s → RepeatedStay tr s := by
  have hrun : ((run step started (repeatOnce 0)).any fun s ↦
      decide (s.m_activeTimers 0 = none)) = true := by decide
  obtain ⟨s, hs, hp⟩ := exists_run_of_any hrun
  intro hall
  have hact := (hall _ s hs 3 0 0 (scheduled_repeatOnce 0)).active
  rw [of_decide_eq_true hp] at hact
  cases hact

end GeneralWorker
