import CppUtility.Worker.Queues

/-!
# No wake-up is lost

A pushing call writes to the eventfd after it has released `m_lock`, and the notifier callback
clears the eventfd before it swaps the three queues at three different moments.  Neither side does
its two things at once, and the question is whether a push can fall into a gap between them: pushed
too late for the swaps of the round, and written too early to be seen after them.

`NoLostWakeup` says that it cannot.  Something in a queue means that a wake-up is on its way, for
one of three reasons:

* the counter of the eventfd is not zero, and a round will begin;
* the write of some push is still to come;
* the callback that cleared the counter has not reached the swap of that queue yet.

The reasons are passed on like a baton: a push creates the second, the write turns it into the
first, the `read` turns the first into the third, and only the swap that empties the queue
discharges it.  The third depends on the queue, since the swaps come one after another
(`LoopPC.beforeSwap`).

A write is refused when the counter is at its maximum, and then the counter is not zero either.
When there is no notifier, or no descriptor, `notify` writes nothing at all, and so the invariant
keeps that there are both.

The same argument for the flag of `stop` is in `CppUtility.Worker.Settle`.
-/

set_option autoImplicit false

namespace GeneralWorker

open Transition

variable {τ : Type*}

/-- There is something in the queue. -/
def Worker.hasPending (w : Worker τ) : Queue → Prop
  | .tasks => w.m_pendingTasks ≠ []
  | .timers => w.m_pendingTimers ≠ []
  | .purges => w.m_purgingingTimers ≠ []

/-- The thread has pushed into a queue, but has not made the `write` of its `notify`. -/
def Frame.owesNotify : Frame τ → Prop
  | .pushed _ => True
  | .unlocked _ => True
  | _ => False

/-- The loop thread is in the notifier callback and has yet to swap the queue. -/
def LoopPC.beforeSwap : LoopPC τ → Queue → Prop
  | .reading, _ => True
  | .testing, _ => True
  | .acquiring .tasks, _ => True
  | .acquiring .timers, q => q ≠ .tasks
  | .acquiring .purges, q => q = .purges
  | .swapped (.tasks _), q => q ≠ .tasks
  | .working (.tasks _), q => q ≠ .tasks
  | .running _ _, q => q ≠ .tasks
  | .swapped (.timers _), q => q = .purges
  | .working (.timers _), q => q = .purges
  | _, _ => False

/-- A wake-up for the queue `q` is on its way. -/
def State.wakeupDue (s : State τ) (q : Queue) : Prop :=
  (∃ n, s.m_evfd = some n ∧ n ≠ 0) ∨ (∃ th, (s.frame th).owesNotify) ∨ s.loop.beforeSwap q

/-- The invariant, with what makes `notify` write at all: there is a notifier and a descriptor. -/
structure NoLostWakeup (s : State τ) : Prop where
  notifier : s.m_notifier.isSome = true
  evfd : s.m_evfd.isSome = true
  due : ∀ q, s.hasPending q → s.wakeupDue q

/-- Passing the invariant on from `s` to `s'` along the three reasons. -/
theorem NoLostWakeup.mono {s s' : State τ} (h : NoLostWakeup s)
    (hnotifier : s'.m_notifier = s.m_notifier) (hevfd : s'.m_evfd = s.m_evfd)
    (hpending : ∀ q, s'.hasPending q → s.hasPending q)
    (howes : ∀ th, (s.frame th).owesNotify → (s'.frame th).owesNotify)
    (hloop : ∀ q, s.loop.beforeSwap q → s'.hasPending q → s'.loop.beforeSwap q) :
    NoLostWakeup s' := by
  refine ⟨hnotifier ▸ h.notifier, hevfd ▸ h.evfd, fun q hq ↦ ?_⟩
  rcases h.due q (hpending q hq) with ⟨n, hn, h0⟩ | ⟨th, hth⟩ | hl
  · exact .inl ⟨n, hevfd ▸ hn, h0⟩
  · exact .inr (.inl ⟨th, howes th hth⟩)
  · exact .inr (.inr (hloop q hl hq))

/-- Moving the frame of a thread that owes no `notify`. -/
theorem NoLostWakeup.setFrame {s : State τ} (h : NoLostWakeup s) {th : Thread} {f : Frame τ}
    (hth : ¬(s.frame th).owesNotify) : NoLostWakeup (s.setFrame th f) := by
  refine h.mono rfl rfl (fun _ hq ↦ hq) (fun th' ho ↦ ?_) (fun _ hl _ ↦ hl)
  have hne : th' ≠ th := fun he ↦ hth (he ▸ ho)
  simpa [State.setFrame, hne] using ho

/-- Work of the loop thread that leaves queues and eventfd alone and passes no swap. -/
theorem NoLostWakeup.same {s s' : State τ} (h : NoLostWakeup s)
    (hsame : SameFront s.toWorker s'.toWorker) (hframe : s'.frame = s.frame)
    (hloop : ∀ q, s.loop.beforeSwap q → s'.loop.beforeSwap q) : NoLostWakeup s' := by
  refine h.mono hsame.notifier hsame.evfd (fun q hq ↦ ?_) (fun th ho ↦ hframe ▸ ho)
    (fun q hl _ ↦ hloop q hl)
  cases q with
  | tasks => simpa only [Worker.hasPending, hsame.tasks] using hq
  | timers => simpa only [Worker.hasPending, hsame.timers] using hq
  | purges => simpa only [Worker.hasPending, hsame.purges] using hq

/-- A write leaves the counter at something other than zero, also when it is refused. -/
theorem notify_evfd {w w' : Worker τ} {ok : Bool} (h : w.notify ok = some w')
    (hnotifier : w.m_notifier.isSome = true) (hevfd : w.m_evfd.isSome = true) :
    ∃ n, w'.m_evfd = some n ∧ n ≠ 0 := by
  obtain ⟨ev, hev⟩ := Option.isSome_iff_exists.mp hnotifier
  obtain ⟨n, hn⟩ := Option.isSome_iff_exists.mp hevfd
  simp only [Worker.notify, hev, hn] at h
  split at h
  · cases h; exact ⟨n + 1, rfl, Nat.succ_ne_zero n⟩
  · obtain ⟨h0, rfl⟩ := Option.ite_none_right_eq_some.mp h |>.imp_right Option.some_inj.mp
    exact ⟨n, hn, h0⟩

theorem pushSection_notifier {w w' : Worker τ} {c : Call τ} {r : Ret τ}
    (h : pushSection w c = some (w', r)) :
    w'.m_notifier = w.m_notifier ∧ w'.m_evfd = w.m_evfd := by
  cases c <;> simp only [pushSection, Option.some_inj, Prod.mk.injEq, reduceCtorEq] at h <;>
    obtain ⟨rfl, -⟩ := h <;> exact ⟨rfl, rfl⟩

/-- The next block of `onNotify` has the same swaps before it. -/
theorem Batch.next_beforeSwap {b : Batch τ} {pc : LoopPC τ} (h : b.next = some pc) (q : Queue)
    (hq : (LoopPC.working b).beforeSwap q) : pc.beforeSwap q := by
  unfold Batch.next at h
  split at h <;> cases h <;> exact hq

theorem Rule.noLostWakeup {s s' : State τ} {l : Label τ} (h : Rule s l s')
    (hi : NoLostWakeup s) : NoLostWakeup s' := by
  cases h with
  | call hidle hmay => exact hi.setFrame (by simp [hidle, Frame.owesNotify])
  | @push th c w r hcalled hfree hpush =>
    obtain ⟨h1, h2⟩ := pushSection_notifier hpush
    exact ⟨h1 ▸ hi.notifier, h2 ▸ hi.evfd, fun q _ ↦
      .inr (.inl ⟨th, by simp [State.setFrame, Frame.owesNotify]⟩)⟩
  | @unlock th r hpushed =>
    exact ⟨hi.notifier, hi.evfd, fun q _ ↦
      .inr (.inl ⟨th, by simp [State.setFrame, Frame.owesNotify]⟩)⟩
  | loadStopped hcalled => exact hi.setFrame (by simp [hcalled, Frame.owesNotify])
  | storeStopped hstopping =>
    exact (hi.setFrame (by simp [hstopping, Frame.owesNotify])).mono rfl rfl (fun _ hq ↦ hq)
      (fun _ ho ↦ ho) (fun _ hl _ ↦ hl)
  | @notify th ok r w howes hwrite =>
    obtain ⟨n, hn, h0⟩ := notify_evfd hwrite hi.notifier hi.evfd
    refine ⟨?_, by simp [hn], fun q _ ↦ .inl ⟨n, hn, h0⟩⟩
    rw [notify_same hwrite]
    exact hi.notifier
  | ret hret => exact hi.setFrame (by simp [hret, Frame.owesNotify])
  | wake hloop hread =>
    exact ⟨hi.notifier, hi.evfd, fun q _ ↦ .inr (.inr trivial)⟩
  | read hloop =>
    exact ⟨hi.notifier, by simpa using hi.evfd, fun q _ ↦ .inr (.inr trivial)⟩
  | testStopped hloop =>
    exact ⟨hi.notifier, hi.evfd, fun q _ ↦ .inr (.inr trivial)⟩
  | @swap q hloop hfree =>
    -- the queue just swapped is empty; the others keep their reasons
    refine hi.mono (by cases q <;> rfl) (by cases q <;> rfl) (fun q' hq ↦ ?_) (fun _ ho ↦ ho)
      (fun q' hl hq ↦ ?_)
    · cases q <;> cases q' <;> first | exact hq | exact absurd rfl hq
    · rw [hloop] at hl
      cases q <;> cases q' <;>
        first | exact absurd rfl hq | simp [LoopPC.beforeSwap, swapQueue] at hl ⊢
  | @release b hloop =>
    exact hi.mono rfl rfl (fun _ hq ↦ hq) (fun _ ho ↦ ho)
      (fun q hl _ ↦ by rw [hloop] at hl; cases b <;> exact hl)
  | runTask hloop =>
    exact hi.same (.refl _) rfl (fun q hl ↦ by rw [hloop] at hl; exact hl)
  | endTask hloop hidle =>
    exact hi.same (.refl _) rfl (fun q hl ↦ by rw [hloop] at hl; exact hl)
  | register hloop hreg =>
    exact hi.same (registerTimer_same hreg) rfl (fun q hl ↦ by rw [hloop] at hl; exact hl)
  | purge hloop =>
    exact hi.same (purgeTimerInternal_same _ _) rfl (fun q hl ↦ by rw [hloop] at hl; exact hl)
  | endBlock hloop hnext =>
    exact hi.same (.refl _) rfl
      (fun q hl ↦ by rw [hloop] at hl; exact Batch.next_beforeSwap hnext q hl)
  | fire hloop hfire =>
    exact hi.same (fireTimer_same hfire) rfl (fun q hl ↦ by rw [hloop] at hl; exact hl.elim)
  | endFire hloop hidle hafter =>
    exact hi.same (afterCallback_same hafter) rfl (fun q hl ↦ by rw [hloop] at hl; exact hl)
  | exit hloop hexit =>
    exact hi.same (.refl _) rfl (fun q hl ↦ by rw [hloop] at hl; exact hl)

variable [DecidableEq τ]

theorem noLostWakeup {tr : List (Label τ)} {s : State τ} (h : run step started tr = some s) :
    NoLostWakeup s := by
  refine run_invariant ⟨rfl, rfl, fun q hq ↦ ?_⟩
    (fun _ _ _ hi hs ↦ (rule_of_step hs).noLostWakeup hi) h
  cases q <;> exact absurd rfl hq

/-- **No wake-up of the worker is lost.**  In every reachable state, a queue that is not empty has a
wake-up on its way: the eventfd counter is not zero, or some thread has pushed and not yet written
to the eventfd, or the loop thread is in the notifier callback, before the swap of that queue. -/
theorem queue_wakeup_due {tr : List (Label τ)} {s : State τ} (h : run step started tr = some s)
    (q : Queue) (hq : s.hasPending q) :
    (∃ n, s.m_evfd = some n ∧ n ≠ 0) ∨ (∃ th, (s.frame th).owesNotify) ∨ s.loop.beforeSwap q :=
  (noLostWakeup h).due q hq

/-- A task is pushed in the middle of a round that has already swapped the tasks. -/
theorem queue_wakeup_due_late_push : ∃ s, run step (started : State ℕ)
      (addTaskCall (.client 0) 1 ++ roundStart false ++
        [.call (.client 1) (.addTask 2), .push (.client 1) (.addTask 2)]) = some s ∧
    ((∃ n, s.m_evfd = some n ∧ n ≠ 0) ∨ (∃ th, (s.frame th).owesNotify) ∨
      s.loop.beforeSwap .tasks) := by
  have hrun : ((run step (started : State ℕ) (addTaskCall (.client 0) 1 ++ roundStart false ++
      [.call (.client 1) (.addTask 2), .push (.client 1) (.addTask 2)])).any fun s ↦
      decide (s.m_pendingTasks = [2])) = true := by decide
  obtain ⟨s, hs, hp⟩ := exists_run_of_any hrun
  refine ⟨s, hs, queue_wakeup_due hs .tasks ?_⟩
  simp [Worker.hasPending, of_decide_eq_true hp]

end GeneralWorker
