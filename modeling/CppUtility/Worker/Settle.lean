import CppUtility.Worker.Destructor
import CppUtility.Worker.Drain
import CppUtility.Worker.Events
import CppUtility.Worker.Wakeup

/-!
# A worker comes to rest

Suppose that from some point on nobody begins a call any more and no timer fires.  Then the threads
of a worker have only finitely many steps left, in whatever order they take them, and they cannot
get stuck before everything is done (`settles`): all calls have returned, and the loop thread either
waits with nothing left in its queues, or, if the worker has been stopped, it has left the loop.

* **A rank.**  The bound is a number that every step lowers (`Rule.rank`).  What a thread still has
  to do in a call is in `Frame.rank`; a wake-up costs a round of `onNotify`, so the `write` that
  rings the eventfd pays for one round, and a `push` pays for the work on what it pushes.  Only
  finitely many threads are inside calls at any time (`exists_busy`), so that the sum over threads
  is finite.
* **No deadlock.**  That a state in which nobody can move is a state of rest needs the invariants:
  the lock is held by somebody who can release it (`LockHeld`), what is in a queue has a wake-up on
  its way (`NoLostWakeup`), and so has the flag of `stop` (`stop_wakeup_due`).
* **Rest.**  `State.AtRest` is about positions only, and `State.AtRest.done` says what it means: at
  rest nothing is on its way, so that by the same invariants nothing is in a queue, and the flag, if
  it is set, has been found.

Timers are left out since a repeated one never ends; new calls are left out since a client can make
any number of them.
-/

set_option autoImplicit false

namespace GeneralWorker

open Transition

variable {τ : Type*}

/-! ## The flag has a wake-up too

`stop` sets the flag and rings the eventfd afterwards, and the callback clears the eventfd and tests
the flag afterwards.  So the argument is that of `CppUtility.Worker.Wakeup` for one more queue, with
the test of the flag in the place of the swap. -/

/-- The loop thread will hear of the flag: it has been asked to exit, or the eventfd is rung, or a
`stop` is about to ring it, or a callback has not come to its test of the flag. -/
def State.stopHeard (s : State τ) : Prop :=
  s.loopexit = true ∨ (∃ n, s.m_evfd = some n ∧ n ≠ 0) ∨ (∃ th, s.frame th = .stopped) ∨
    s.loop = .reading ∨ s.loop = .testing

/-- A step that leaves the flag and the eventfd alone, moves no thread out of `stop` and does not
take the loop thread past its test. -/
theorem State.stopHeard.mono {s s' : State τ} (h : s.stopHeard)
    (hexit : s.loopexit = true → s'.loopexit = true) (hevfd : s'.m_evfd = s.m_evfd)
    (hframe : ∀ th, s.frame th = .stopped → s'.frame th = .stopped)
    (hloop : s.loop = .reading ∨ s.loop = .testing → s'.loop = .reading ∨ s'.loop = .testing) :
    s'.stopHeard := by
  rcases h with h | ⟨n, hn, h0⟩ | ⟨th, hth⟩ | h
  · exact .inl (hexit h)
  · exact .inr (.inl ⟨n, hevfd ▸ hn, h0⟩)
  · exact .inr (.inr (.inl ⟨th, hframe th hth⟩))
  · exact .inr (.inr (.inr (hloop h)))

/-- Moving the frame of a thread that is not about to ring the eventfd for its `stop`. -/
theorem State.stopHeard.setFrame {s : State τ} (h : s.stopHeard) {th : Thread} {f : Frame τ}
    (hth : s.frame th ≠ .stopped) : (s.setFrame th f).stopHeard := by
  refine h.mono id rfl (fun th' hth' ↦ ?_) id
  have hne : th' ≠ th := fun he ↦ hth (he ▸ hth')
  simpa [State.setFrame, hne] using hth'

/-- Work of the loop thread outside the beginning of a callback. -/
theorem State.stopHeard.same {s s' : State τ} (h : s.stopHeard)
    (hsame : SameFront s.toWorker s'.toWorker) (hframe : s'.frame = s.frame)
    (hloop : s.loop ≠ .reading ∧ s.loop ≠ .testing) : s'.stopHeard :=
  h.mono (fun hx ↦ hsame.loopexit.trans hx) hsame.evfd (fun _ hth ↦ hframe ▸ hth)
    (fun hl ↦ (hl.elim hloop.1 hloop.2).elim)

/-- `stop` rings after it has set the flag, and the callback clears the eventfd before it tests
it. -/
theorem Rule.stopHeard {s s' : State τ} {l : Label τ} (h : Rule s l s') (hw : NoLostWakeup s)
    (hi : s.m_stopped = true → s.stopHeard) (hs' : s'.m_stopped = true) : s'.stopHeard := by
  cases h with
  | call hidle hmay => exact (hi hs').setFrame (by simp [hidle])
  | @push th c w r hcalled hfree hpush =>
    obtain ⟨hflag, hexit⟩ := pushSection_flags hpush
    obtain ⟨-, hevfd⟩ := pushSection_notifier hpush
    refine (hi (hflag ▸ hs')).mono (fun hx ↦ hexit.trans hx) hevfd (fun th' hth' ↦ ?_) id
    have hne : th' ≠ th := by rintro rfl; simp [hcalled] at hth'
    simpa [State.setFrame, hne] using hth'
  | @unlock th r hpushed =>
    exact (@State.stopHeard.setFrame τ s (hi hs') th (.unlocked r) (by simp [hpushed])).mono id rfl
      (fun _ ↦ id) id
  | loadStopped hcalled => exact (hi hs').setFrame (by simp [hcalled])
  | @storeStopped th hstopping =>
    exact .inr (.inr (.inl ⟨th, by simp [State.setFrame]⟩))
  | notify howes hwrite => exact .inr (.inl (notify_evfd hwrite hw.notifier hw.evfd))
  | ret hret => exact (hi hs').setFrame (by simp [hret])
  | wake hloop hread => exact .inr (.inr (.inr (.inl rfl)))
  | read hloop => exact .inr (.inr (.inr (.inr rfl)))
  | testStopped hloop => exact .inl (by simp [show s.m_stopped = true from hs'])
  | @swap q hloop hfree =>
    cases q <;> exact (hi hs').mono id rfl (fun _ ↦ id) (by simp [hloop])
  | release hloop | runTask hloop | endTask hloop | exit hloop =>
    exact (hi hs').same (.refl _) rfl (by simp [hloop])
  | endBlock hloop hnext => exact (hi hs').same (.refl _) rfl (by simp [hloop])
  | register hloop hreg =>
    have hsame := registerTimer_same hreg
    exact (hi (hsame.stopped ▸ hs')).same hsame rfl (by simp [hloop])
  | @purge id rest hloop =>
    have hsame := purgeTimerInternal_same s.toWorker id
    exact (hi (hsame.stopped ▸ hs')).same hsame rfl (by simp [hloop])
  | fire hloop hfire =>
    have hsame := fireTimer_same hfire
    exact (hi (hsame.stopped ▸ hs')).same hsame rfl (by simp [hloop])
  | endFire hloop hidle hafter =>
    have hsame := afterCallback_same hafter
    exact (hi (hsame.stopped ▸ hs')).same hsame rfl (by simp [hloop])

section Heard

variable [DecidableEq τ]

theorem stopHeard_of_run {tr : List (Label τ)} {s : State τ} (h : run step started tr = some s)
    (hs : s.m_stopped = true) : s.stopHeard := by
  refine run_induction (P := fun _ (s : State τ) ↦ s.m_stopped = true → s.stopHeard)
    (fun hs ↦ by cases hs) ?_ h hs
  exact fun tr s l s' hr ih hs ↦ (rule_of_step hs).stopHeard (noLostWakeup hr) ih

/-- **No `stop` is lost.**  In every reachable state in which `m_stopped` is set, the loop has been
asked to exit, or it is going to find the flag: the eventfd counter is not zero, or a `stop` has yet
to write to it, or the loop thread is in a callback before its test of the flag. -/
theorem stop_wakeup_due {tr : List (Label τ)} {s : State τ} (h : run step started tr = some s)
    (hs : s.m_stopped = true) :
    s.loopexit = true ∨ (∃ n, s.m_evfd = some n ∧ n ≠ 0) ∨ (∃ th, s.frame th = .stopped) ∨
      s.loop = .reading ∨ s.loop = .testing :=
  stopHeard_of_run h hs

/-- A `stop` that has set the flag while the loop thread is inside a task. -/
def stopInTask : List (Label ℕ) :=
  addTaskCall (.client 0) 1 ++ roundStart false ++
    [.runTask 1, .call (.client 1) .stop, .loadStopped (.client 1) false, .storeStopped (.client 1)]

theorem stop_wakeup_due_stopInTask : ∃ s, run step started stopInTask = some s ∧
    s.m_evfd = some 0 ∧ (s.loopexit = true ∨ (∃ n, s.m_evfd = some n ∧ n ≠ 0) ∨
      (∃ th, s.frame th = .stopped) ∨ s.loop = .reading ∨ s.loop = .testing) := by
  have hrun : ((run step started stopInTask).any fun s ↦
      decide (s.m_stopped = true ∧ s.m_evfd = some 0)) = true := by decide
  obtain ⟨s, hs, hp⟩ := exists_run_of_any hrun
  obtain ⟨hstopped, hevfd⟩ := of_decide_eq_true hp
  exact ⟨s, hs, hevfd, stop_wakeup_due hs hstopped⟩

end Heard

/-! ## What there is left to do

The numbers are those of the longest way.  A round that finds nothing takes eleven steps from the
`read` to the end of the callback, and the wake-up is one more.  The steps on what is swapped out
are counted with the queues already, since they are moved into the batch and not made by the swap.
-/

/-- The step goes on with something that has been begun: it is not a new call, and not a timer that
fires. -/
def Label.goesOn : Label τ → Bool
  | .call _ _ => false
  | .fire _ _ => false
  | _ => true

/-- What a thread in a call may still cause, itself or by what it pushes and by ringing the
eventfd. -/
def Frame.rank : Frame τ → ℕ
  | .idle => 0
  | .returning _ => 1
  | .stopped => 14
  | .unlocked _ => 14
  | .stopping => 15
  | .pushed _ => 15
  | .called _ => 18

/-- The steps up to the end of the callback, and the exit. -/
def LoopPC.rank : LoopPC τ → ℕ
  | .exited => 0
  | .dispatch => 1
  | .calling _ => 2
  | .working (.purges l) => 2 + l.length
  | .swapped (.purges l) => 3 + l.length
  | .acquiring .purges => 4
  | .working (.timers l) => 5 + l.length
  | .swapped (.timers l) => 6 + l.length
  | .acquiring .timers => 7
  | .working (.tasks l) => 8 + 2 * l.length
  | .swapped (.tasks l) => 9 + 2 * l.length
  | .running _ rest => 9 + 2 * rest.length
  | .acquiring .tasks => 10
  | .testing => 11
  | .reading => 12

/-- The counter of the eventfd is not zero. -/
def Worker.rung (w : Worker τ) : Bool := w.m_evfd.any (· ≠ 0)

/-- The callback has not cleared the eventfd yet. -/
def LoopPC.isReading : LoopPC τ → Bool
  | .reading => true
  | _ => false

/-- A round is to come: the eventfd is rung, and the callback has not begun that will clear it. -/
def State.ringRank (s : State τ) : ℕ :=
  if s.loop.isReading = false ∧ s.rung then 12 else 0

/-- The work on what is in the queues. -/
def Worker.queueRank (w : Worker τ) : ℕ :=
  2 * w.m_pendingTasks.length + w.m_pendingTimers.length + w.m_purgingingTimers.length

/-- The threads in `busy` are all that are inside a call. -/
def State.Busy (s : State τ) (busy : Finset Thread) : Prop :=
  ∀ th, s.frame th ≠ .idle → th ∈ busy

/-- Everything that is left to do. -/
def State.rank (busy : Finset Thread) (s : State τ) : ℕ :=
  (∑ th ∈ busy, (s.frame th).rank) + s.loop.rank + s.ringRank + s.queueRank

theorem State.ringRank_le (s : State τ) : s.ringRank ≤ 12 := by
  rw [State.ringRank]
  split <;> omega

/-- A push adds the work on one item. -/
theorem pushSection_queueRank {w w' : Worker τ} {c : Call τ} {r : Ret τ}
    (h : pushSection w c = some (w', r)) : w'.queueRank ≤ w.queueRank + 2 := by
  cases c <;> simp only [pushSection, Option.some_inj, Prod.mk.injEq, reduceCtorEq] at h <;>
    obtain ⟨rfl, -⟩ := h <;>
    simp only [Worker.queueRank, Worker.pushTask, Worker.addTimerTask, Worker.pushPurge,
      List.length_append, List.length_singleton] <;> omega

theorem SameFront.queueRank {w w' : Worker τ} (h : SameFront w w') :
    w'.queueRank = w.queueRank := by
  rw [Worker.queueRank, Worker.queueRank, h.tasks, h.timers, h.purges]

/-- Leaving a block of `onNotify`. -/
theorem Batch.next_rank {b : Batch τ} {pc : LoopPC τ} (h : b.next = some pc) :
    pc.rank < (LoopPC.working b).rank ∧ pc ≠ .reading := by
  unfold Batch.next at h
  split at h <;> cases h <;> simp [LoopPC.rank]

/-- A thread that moves on in its call, when the new position pays for what it causes. -/
theorem rank_frame {s s' : State τ} {busy : Finset Thread} {th : Thread} {f : Frame τ}
    (hbusy : s.Busy busy) (hth : s.frame th ≠ .idle)
    (hframe : s'.frame = Function.update s.frame th f) (hloop : s'.loop = s.loop)
    (hless : f.rank + s'.ringRank + s'.queueRank
      < (s.frame th).rank + s.ringRank + s.queueRank) :
    s'.Busy busy ∧ s'.rank busy < s.rank busy := by
  constructor
  · intro th' hth'
    by_cases he : th' = th
    · exact he ▸ hbusy th hth
    · rw [hframe, Function.update_of_ne he] at hth'
      exact hbusy th' hth'
  · have hsum := sum_update s.frame Frame.rank (hbusy th hth) f
    simp only [State.rank, hframe, hloop]
    omega

/-- The eventfd is rung or not, as before. -/
theorem ringRank_congr {s s' : State τ} (hloop : s'.loop = s.loop)
    (hevfd : s'.m_evfd = s.m_evfd) : s'.ringRank = s.ringRank := by
  rw [State.ringRank, State.ringRank, Worker.rung, Worker.rung, hloop, hevfd]

/-- A thread that moves on in its call without ringing. -/
theorem rank_quiet {s s' : State τ} {busy : Finset Thread} {th : Thread} {f g : Frame τ} (k : ℕ)
    (hbusy : s.Busy busy) (hth : s.frame th = g) (hg : g ≠ .idle)
    (hframe : s'.frame = Function.update s.frame th f) (hloop : s'.loop = s.loop)
    (hevfd : s'.m_evfd = s.m_evfd) (hqueue : s'.queueRank ≤ s.queueRank + k)
    (hless : f.rank + k < g.rank) : s'.Busy busy ∧ s'.rank busy < s.rank busy := by
  subst hth
  refine rank_frame hbusy hg hframe hloop ?_
  rw [ringRank_congr hloop hevfd]
  omega

/-- The loop thread moves on. -/
theorem rank_loop {s s' : State τ} {busy : Finset Thread} (hbusy : s.Busy busy)
    (hframe : s'.frame = s.frame) (hless : s'.loop.rank + s'.ringRank + s'.queueRank
      < s.loop.rank + s.ringRank + s.queueRank) :
    s'.Busy busy ∧ s'.rank busy < s.rank busy := by
  refine ⟨fun th hth ↦ hbusy th (hframe ▸ hth), ?_⟩
  simp only [State.rank, hframe]
  omega

/-- The loop thread moves on after it has cleared the eventfd, without touching it again. -/
theorem rank_cleared {s s' : State τ} {busy : Finset Thread} (hbusy : s.Busy busy)
    (hframe : s'.frame = s.frame) (hevfd : s'.m_evfd = s.m_evfd)
    (hreading : s.loop.isReading = false)
    (hless : s'.loop.rank + s'.queueRank < s.loop.rank + s.queueRank) :
    s'.Busy busy ∧ s'.rank busy < s.rank busy := by
  refine rank_loop hbusy hframe ?_
  have hring : s'.ringRank ≤ s.ringRank := by
    simp only [State.ringRank, Worker.rung, hevfd, hreading]
    split <;> split <;> simp_all
  omega

/-- The same, when it leaves the queues alone too. -/
theorem rank_same {s s' : State τ} {busy : Finset Thread} (hbusy : s.Busy busy)
    (hframe : s'.frame = s.frame) (hsame : SameFront s.toWorker s'.toWorker)
    (hreading : s.loop.isReading = false) (hless : s'.loop.rank < s.loop.rank) :
    s'.Busy busy ∧ s'.rank busy < s.rank busy :=
  rank_cleared hbusy hframe hsame.evfd hreading (by rw [hsame.queueRank]; omega)

/-- **Every step that goes on with something leaves less to do.** -/
theorem Rule.rank {s s' : State τ} {l : Label τ} {busy : Finset Thread} (h : Rule s l s')
    (hbusy : s.Busy busy) (hl : l.goesOn = true) :
    s'.Busy busy ∧ s'.rank busy < s.rank busy := by
  have hring := s'.ringRank_le
  cases h with
  | call hidle hmay => cases hl
  | fire hloop hfire => cases hl
  | push hcalled hfree hpush =>
    exact rank_quiet 2 hbusy hcalled (by simp) rfl rfl (pushSection_notifier hpush).2
      (pushSection_queueRank hpush) (by simp [Frame.rank])
  | unlock hpushed =>
    exact rank_quiet 0 hbusy hpushed (by simp) rfl rfl rfl (Nat.le_refl _) (by simp [Frame.rank])
  | loadStopped hcalled =>
    refine rank_quiet 0 hbusy hcalled (by simp) rfl rfl rfl (Nat.le_refl _) ?_
    cases s.m_stopped <;> simp [Frame.rank]
  | storeStopped hstopping =>
    exact rank_quiet 0 hbusy hstopping (by simp) rfl rfl rfl (Nat.le_refl _) (by simp [Frame.rank])
  | @notify th ok r w howes hwrite =>
    obtain ⟨hne, hfrom⟩ : s.frame th ≠ .idle ∧ (s.frame th).rank = 14 := by
      rcases howes with ho | ⟨ho, -⟩ <;> rw [ho] <;> exact ⟨by simp, rfl⟩
    have hqueue : w.queueRank = s.queueRank := by rw [notify_same hwrite]; rfl
    refine rank_frame hbusy hne rfl rfl ?_
    rw [hfrom, hqueue]
    show 1 + _ + _ < _
    omega
  | ret hret =>
    exact rank_quiet 0 hbusy hret (by simp) rfl rfl rfl (Nat.le_refl _) (by simp [Frame.rank])
  | wake hloop hread =>
    refine rank_loop hbusy rfl ?_
    have hrung : s.rung = true := (Bool.and_eq_true_iff.mp hread).1
    simp [State.ringRank, hloop, hrung, LoopPC.rank, LoopPC.isReading]
  | read hloop =>
    refine rank_loop hbusy rfl ?_
    have hcleared : { s.toWorker with m_evfd := s.m_evfd.map fun _ ↦ 0 }.rung = false := by
      cases hevfd : s.m_evfd <;> simp [Worker.rung]
    simp [State.ringRank, hloop, hcleared, LoopPC.rank, LoopPC.isReading, Worker.queueRank]
  | testStopped hloop =>
    exact rank_cleared hbusy rfl rfl (by rw [hloop]; rfl)
      (by simp [hloop, LoopPC.rank, Worker.queueRank])
  | @swap q hloop hfree =>
    refine rank_cleared hbusy rfl (by cases q <;> rfl) (by rw [hloop]; rfl) ?_
    cases q <;> simp [hloop, LoopPC.rank, Worker.queueRank, swapQueue] <;> omega
  | @release b hloop =>
    refine rank_same hbusy rfl (.refl _) (by rw [hloop]; rfl) ?_
    cases b <;> simp [hloop, LoopPC.rank]
  | runTask hloop =>
    exact rank_same hbusy rfl (.refl _) (by rw [hloop]; rfl) (by simp [hloop, LoopPC.rank]; omega)
  | endTask hloop | exit hloop =>
    exact rank_same hbusy rfl (.refl _) (by rw [hloop]; rfl) (by simp [hloop, LoopPC.rank])
  | register hloop hreg =>
    exact rank_same hbusy rfl (registerTimer_same hreg) (by rw [hloop]; rfl)
      (by simp [hloop, LoopPC.rank])
  | purge hloop =>
    exact rank_same hbusy rfl (purgeTimerInternal_same ..) (by rw [hloop]; rfl)
      (by simp [hloop, LoopPC.rank])
  | endBlock hloop hnext =>
    exact rank_same hbusy rfl (.refl _) (by rw [hloop]; rfl)
      (by rw [hloop]; exact (Batch.next_rank hnext).1)
  | endFire hloop hidle hafter =>
    exact rank_same hbusy rfl (afterCallback_same hafter) (by rw [hloop]; rfl)
      (by simp [hloop, LoopPC.rank])

/-! ## Nobody gets stuck -/

/-- Everything is done: no thread is inside a call, and the loop thread has left the loop, or it
waits in it with the eventfd at zero and has not been asked to leave. -/
structure State.AtRest (s : State τ) : Prop where
  idle : ∀ th, s.frame th = .idle
  loop : s.loop = .exited ∨ s.loop = .dispatch ∧ s.loopexit = false ∧ s.rung = false

variable [DecidableEq τ]

/-- Some step that goes on with something is enabled. -/
def State.CanGoOn (s : State τ) : Prop := ∃ l s', l.goesOn = true ∧ step s l = some s'

theorem State.CanGoOn.of_isSome {s : State τ} {l : Label τ} (hl : l.goesOn = true)
    (h : (step s l).isSome = true) : s.CanGoOn := by
  obtain ⟨s', hs⟩ := Option.isSome_iff_exists.mp h
  exact ⟨l, s', hl, hs⟩

/-- The thread that holds `m_lock` can release it. -/
theorem canGoOn_of_held {s : State τ} {th : Thread} (hi : LockHeld s) (h : s.m_lock = some th) :
    s.CanGoOn := by
  rcases hi th h with ⟨r, hr⟩ | ⟨-, b, hb⟩
  · exact .of_isSome (l := .unlock th) rfl (by simp [step, hr])
  · exact .of_isSome (l := .release) rfl (by simp [step, hb])

/-- When nobody holds it, a thread in a call can go on. -/
theorem canGoOn_of_call {s : State τ} {th : Thread} (hfree : s.m_lock = none)
    (hth : s.frame th ≠ .idle) : s.CanGoOn := by
  have hnotify : (s.toWorker.notify s.writable).isSome = true := Life.notify_writable s.toWorker
  cases hf : s.frame th with
  | idle => exact absurd hf hth
  | called c =>
    by_cases hc : c = .stop
    · subst hc
      exact .of_isSome (l := .loadStopped th s.m_stopped) rfl (by simp [step, hf])
    · have hpush : (pushSection s.toWorker c).isSome = true := by
        cases c <;> first | rfl | exact absurd rfl hc
      exact .of_isSome (l := .push th c) rfl (by simp [step, hf, hfree, hpush])
  | pushed r => exact .of_isSome (l := .unlock th) rfl (by simp [step, hf])
  | unlocked r =>
    exact .of_isSome (l := .notify th s.writable) rfl (by simpa [step, hf] using hnotify)
  | stopping => exact .of_isSome (l := .storeStopped th) rfl (by simp [step, hf])
  | stopped =>
    exact .of_isSome (l := .notify th s.writable) rfl (by simpa [step, hf] using hnotify)
  | returning r => exact .of_isSome (l := .ret th r) rfl (by simp [step, hf])

/-- The notifier event stays registered. -/
theorem notifier_registered {tr : List (Label τ)} {s : State τ} (h : run step started tr = some s) :
    ∃ ev e, s.m_notifier = some ev ∧ s.events ev = some e ∧ e.cb = .notifier ∧
      e.registered = true := by
  refine run_induction (P := fun _ (s : State τ) ↦ ∃ ev e, s.m_notifier = some ev ∧
    s.events ev = some e ∧ e.cb = .notifier ∧ e.registered = true) ?_ ?_ h
  · exact ⟨2, ⟨some 1, .notifier, true, none, true⟩, rfl, rfl, rfl, rfl⟩
  · rintro tr s l s' hr ⟨ev, e, hev, he, hcb, hreg⟩ hs
    have hrule := rule_of_step hs
    exact ⟨ev, e, hrule.keeps.notifier.trans hev, hrule.keeps_notifier (timersOwned hr) he hcb, hcb,
      hreg⟩

/-- The loop thread can go on when nobody is inside a call, unless it is at rest. -/
theorem canGoOn_of_loop {tr : List (Label τ)} {s : State τ} (h : run step started tr = some s)
    (hfree : s.m_lock = none) (hidle : ∀ th, s.frame th = .idle) : s.AtRest ∨ s.CanGoOn := by
  have howned := timersOwned h
  cases hloop : s.loop with
  | dispatch =>
    by_cases hexit : s.loopexit = true
    · exact .inr (.of_isSome (l := .exit) rfl (by simp [step, hloop, hexit]))
    by_cases hrung : s.rung = true
    · obtain ⟨ev, e, hev, he, hcb, hreg⟩ := notifier_registered h
      have hread : s.toWorker.readable = true := by
        rw [Worker.readable, Bool.and_eq_true_iff]
        exact ⟨hrung, by simp [hev, he, hcb, hreg]⟩
      exact .inr (.of_isSome (l := .wake) rfl (by simp [step, hloop, hread]))
    · exact .inl ⟨hidle, .inr ⟨hloop, by simpa using hexit, by simpa using hrung⟩⟩
  | reading => exact .inr (.of_isSome (l := .read) rfl (by simp [step, hloop]))
  | testing => exact .inr (.of_isSome (l := .testStopped s.m_stopped) rfl (by simp [step, hloop]))
  | acquiring q => exact .inr (.of_isSome (l := .swap q) rfl (by simp [step, hloop, hfree]))
  | swapped b => exact .inr (.of_isSome (l := .release) rfl (by simp [step, hloop]))
  | working b =>
    right
    cases b with
    | tasks l =>
      cases l with
      | nil => exact .of_isSome (l := .endBlock) rfl (by simp [step, hloop, Batch.next])
      | cons t rest => exact .of_isSome (l := .runTask t) rfl (by simp [step, hloop])
    | timers l =>
      cases l with
      | nil => exact .of_isSome (l := .endBlock) rfl (by simp [step, hloop, Batch.next])
      | cons p rest =>
        rw [hloop] at howned
        obtain ⟨t, ht⟩ := howned.alive p (by simp [LoopPC.timerBatch])
        have hreg := howned.registerTimer_eq ht
        exact .of_isSome (l := .register p) rfl (by simp [step, hloop, hreg])
    | purges l =>
      cases l with
      | nil => exact .of_isSome (l := .endBlock) rfl (by simp [step, hloop, Batch.next])
      | cons id rest => exact .of_isSome (l := .purge id) rfl (by simp [step, hloop])
  | running t rest =>
    exact .inr (.of_isSome (l := .endTask t) rfl (by simp [step, hloop, hidle]))
  | calling p =>
    obtain ⟨t, ht, -⟩ := (wired h).calling p hloop
    exact .inr (.of_isSome (l := .endFire p) rfl
      (by simp [step, hloop, hidle, Worker.afterCallback, ht]))
  | exited => exact .inl ⟨hidle, .inl hloop⟩

/-- **There is no deadlock**: if no thread can go on, everything is done. -/
theorem atRest_or_canGoOn {tr : List (Label τ)} {s : State τ} (h : run step started tr = some s) :
    s.AtRest ∨ s.CanGoOn := by
  cases hlock : s.m_lock with
  | some th => exact .inr (canGoOn_of_held (lockHeld h) hlock)
  | none =>
    by_cases hidle : ∀ th, s.frame th = .idle
    · exact canGoOn_of_loop h hlock hidle
    · obtain ⟨th, hth⟩ := not_forall.mp hidle
      exact .inr (canGoOn_of_call hlock hth)

/-! ## At rest -/

omit [DecidableEq τ] in
/-- A step inside a worker adds at most the thread that it is about. -/
theorem busy_step {s₁ s₂ : State τ} {l : Label τ} {busy : Finset Thread}
    (h : Rule s₁ l s₂) (hbusy : s₁.Busy busy) : ∃ busy', busy ⊆ busy' ∧ s₂.Busy busy' := by
  cases hl : l.goesOn with
  | true => exact ⟨busy, Finset.Subset.refl busy, (h.rank hbusy hl).1⟩
  | false =>
    cases h with
    | @call th c hidle hmay =>
      refine ⟨insert th busy, Finset.subset_insert th busy, fun th' hth' ↦ ?_⟩
      by_cases he : th' = th
      · exact he ▸ Finset.mem_insert_self th busy
      · exact Finset.mem_insert_of_mem (hbusy th' (by simpa [State.setFrame, he] using hth'))
    | fire hloop hfire => exact ⟨busy, Finset.Subset.refl busy, hbusy⟩
    | _ => cases hl

/-- Only finitely many threads are inside calls. -/
theorem exists_busy {tr : List (Label τ)} {s : State τ} (h : run step started tr = some s) :
    ∃ busy, s.Busy busy := by
  refine run_invariant (P := fun s : State τ ↦ ∃ busy, s.Busy busy)
    ⟨∅, fun th hth ↦ absurd rfl hth⟩ ?_ h
  rintro s l s' ⟨busy, hbusy⟩ hs
  obtain ⟨busy', -, hbusy'⟩ := busy_step (rule_of_step hs) hbusy
  exact ⟨busy', hbusy'⟩

/-- What rest means: a worker that has not been stopped has done everything that it was given, and
one that has been stopped has left its loop. -/
theorem State.AtRest.done {tr : List (Label τ)} {s : State τ} (h : run step started tr = some s)
    (hrest : s.AtRest) :
    (s.m_stopped = false → s.loop = .dispatch ∧ (∀ q, ¬ s.hasPending q) ∧
      executedTasks tr = pushedTasks tr) ∧ (s.m_stopped = true → s.loop = .exited) := by
  have howes : ¬ ∃ th, (s.frame th).owesNotify := by
    rintro ⟨th, hth⟩
    rw [hrest.idle th] at hth
    exact hth
  have hsilent : s.rung = false → ¬ ∃ n, s.m_evfd = some n ∧ n ≠ 0 := by
    rintro hrung ⟨n, hn, h0⟩
    simp [Worker.rung, hn, h0] at hrung
  constructor
  · intro hrunning
    rcases hrest.loop with hloop | ⟨hloop, -, hrung⟩
    · have hexit := (exitOrder h).stopped ((exitOrder h).exited hloop)
      rw [hrunning] at hexit
      cases hexit
    · have hempty : ∀ q, ¬ s.hasPending q := by
        intro q hq
        rcases (noLostWakeup h).due q hq with hn | ho | hl
        · exact hsilent hrung hn
        · exact howes ho
        · rw [hloop] at hl
          exact hl
      have hline := tasks_line h
      rw [hloop, not_not.mp (hempty .tasks)] at hline
      exact ⟨hloop, hempty, by simpa [LoopPC.remaining] using hline⟩
  · intro hstopped
    rcases hrest.loop with hloop | ⟨hloop, hexit, hrung⟩
    · exact hloop
    · rcases stopHeard_of_run h hstopped with hx | hn | ⟨th, hth⟩ | hl
      · rw [hexit] at hx
        cases hx
      · exact absurd hn (hsilent hrung)
      · rw [hrest.idle th] at hth
        cases hth
      · simp [hloop] at hl

/-- **A worker comes to rest.**  Let no call begin and no timer fire after some point of a run.
There is a bound on the number of steps that the threads of the worker take from there, in whatever
order they do; and when no such step is left, all calls have returned, and the loop thread has left
the loop if the worker has been stopped, and otherwise waits in it, with nothing in the queues and
every task that was ever pushed executed. -/
theorem settles {tr : List (Label τ)} {s : State τ} (h : run step started tr = some s) :
    ∃ n, ∀ (tr' : List (Label τ)) (s' : State τ), (∀ l ∈ tr', l.goesOn = true) →
      run step s tr' = some s' → tr'.length ≤ n ∧
      ((∀ l, l.goesOn = true → step s' l = none) → (∀ th, s'.frame th = .idle) ∧
        (s'.m_stopped = false → s'.loop = .dispatch ∧ (∀ q, ¬ s'.hasPending q) ∧
          executedTasks (tr ++ tr') = pushedTasks (tr ++ tr')) ∧
        (s'.m_stopped = true → s'.loop = .exited)) := by
  obtain ⟨busy, hbusy⟩ := exists_busy h
  refine ⟨s.rank busy, fun tr' s' hgoes h' ↦ ⟨?_, fun hend ↦ ?_⟩⟩
  · have hle := (rank_add_length_le (P := fun s : State τ ↦ s.Busy busy)
      (c := fun l : Label τ ↦ l.goesOn = true) hbusy
      (fun s l s' hb hl hs ↦ (rule_of_step hs).rank hb hl) hgoes h').2
    omega
  · have hrun : run step started (tr ++ tr') = some s' := run_append.mpr ⟨s, h, h'⟩
    have hrest : s'.AtRest := by
      refine (atRest_or_canGoOn hrun).resolve_right ?_
      rintro ⟨l, s'', hl, hs⟩
      rw [hend l hl] at hs
      cases hs
    exact ⟨hrest.idle, hrest.done hrun⟩

theorem settles_stopInTask : ∃ s n, run step started stopInTask = some s ∧
    ∀ (tr' : List (Label ℕ)) (s' : State ℕ), (∀ l ∈ tr', l.goesOn = true) →
      run step s tr' = some s' → tr'.length ≤ n ∧
      ((∀ l, l.goesOn = true → step s' l = none) → s'.m_stopped = true → s'.loop = .exited) := by
  have hrun : ((run step started stopInTask).any fun _ ↦ true) = true := by decide
  obtain ⟨s, hs, -⟩ := exists_run_of_any hrun
  obtain ⟨n, hn⟩ := settles hs
  refine ⟨s, n, hs, fun tr' s' hgoes h' ↦ ?_⟩
  obtain ⟨hle, hend⟩ := hn tr' s' hgoes h'
  exact ⟨hle, fun hnone ↦ (hend hnone).2.2⟩

end GeneralWorker
