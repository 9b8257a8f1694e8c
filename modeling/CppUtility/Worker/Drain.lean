import Mathlib.Data.List.Perm.Subperm
import CppUtility.Worker.Queues

/-!
# `stop` drains

The loop thread leaves `event_base_dispatch` only after a round of `onNotify` has found `m_stopped`
set and asked for it.  That round tests the flag *before* it swaps the queue of tasks, so whatever
had been pushed while the flag was still clear is either executed or in the queue at the test, and
then in the batch of this very round (`drained`).  Hence every task whose `addTask` had returned
before a `stop` began has been executed when the loop exits, provided that the flag was clear when
that call began (`stop_drains`).  It does not matter whether this call is the one that sets it.

The proviso is needed: a `stop` that begins later returns false without doing anything, and tasks
may have been added between the last swap and it (`late_stop_leaves_task`).

* **What has returned has been pushed.**  Seen from one thread, a call of `addTask` pushes its task
  in one step and returns in a later one, and in between the task is in flight (`Frame.inFlight`).
  Counting the three gives `returnedTasks_subperm`, as a statement about multisets, since the calls
  of different threads return in any order.
* **Flag and exit.**  `ExitOrder` has the order of the three events: the flag is set, the exit is
  asked for, the loop exits.
* **The last round.**  `Drained` says of the first `k` tasks that they are executed or in the batch
  once the exit was asked for, unless the swap is still to come.  `Rule.drain_cases` sorts the steps
  for it, and at the swap itself the line of tasks has nothing else in front of the queue.
-/

set_option autoImplicit false

namespace GeneralWorker

open Transition

variable {τ : Type*}

/-! ## The tasks whose `addTask` has returned -/

/-- The task whose `addTask` returns in this step, with the caller. -/
def Label.taskRet : Label τ → List (Thread × τ)
  | .ret th (.future t) => [(th, t)]
  | _ => []

/-- The calls of `addTask` that have returned. -/
def taskRets (tr : List (Label τ)) : List (Thread × τ) := tr.flatMap Label.taskRet

/-- Their tasks. -/
def returnedTasks (tr : List (Label τ)) : List τ := (taskRets tr).map Prod.snd

/-- The task a thread has pushed in a call of `addTask` that has not returned. -/
def Frame.inFlight : Frame τ → List τ
  | .pushed (.future t) => [t]
  | .unlocked (.future t) => [t]
  | .returning (.future t) => [t]
  | _ => []

section InFlight

variable [DecidableEq τ]

/-- Seen from the thread `th`: a step pushes what then is in flight, and returns what was. -/
theorem Rule.inFlight {s s' : State τ} {l : Label τ} (h : Rule s l s') (th : Thread) (t : τ) :
    l.taskPush.count (th, t) + (s.frame th).inFlight.count t
      = l.taskRet.count (th, t) + (s'.frame th).inFlight.count t := by
  cases h with
  | @call th' c hidle hmay =>
    by_cases he : th = th'
    · subst he; simp [Label.taskPush, Label.taskRet, State.setFrame, hidle, Frame.inFlight]
    · simp [Label.taskPush, Label.taskRet, State.setFrame, he]
  | @push th' c w r hcalled hfree hpush =>
    by_cases he : th = th'
    · subst he
      cases c <;> simp only [pushSection, Option.some_inj, Prod.mk.injEq, reduceCtorEq] at hpush <;>
        obtain ⟨-, rfl⟩ := hpush <;>
        simp [Label.taskPush, Label.taskRet, State.setFrame, hcalled, Frame.inFlight,
          List.count_singleton]
    · have hne : ∀ u, ((th', u) : Thread × τ) ≠ (th, t) := fun u hu ↦ he (by cases hu; rfl)
      cases c <;> simp [Label.taskPush, Label.taskRet, State.setFrame, he, hne]
  | @unlock th' r hpushed =>
    by_cases he : th = th'
    · subst he
      cases r <;> simp [Label.taskPush, Label.taskRet, State.setFrame, hpushed, Frame.inFlight]
    · simp [Label.taskPush, Label.taskRet, State.setFrame, he]
  | @loadStopped th' hcalled =>
    by_cases he : th = th'
    · subst he
      cases hs : s.m_stopped <;>
        simp [Label.taskPush, Label.taskRet, State.setFrame, hcalled, Frame.inFlight]
    · simp [Label.taskPush, Label.taskRet, State.setFrame, he]
  | @storeStopped th' hstopping =>
    by_cases he : th = th'
    · subst he; simp [Label.taskPush, Label.taskRet, State.setFrame, hstopping, Frame.inFlight]
    · simp [Label.taskPush, Label.taskRet, State.setFrame, he]
  | @notify th' ok r w howes hwrite =>
    by_cases he : th = th'
    · subst he
      rcases howes with ho | ⟨ho, rfl⟩
      · cases r <;> simp [Label.taskPush, Label.taskRet, State.setFrame, ho, Frame.inFlight]
      · simp [Label.taskPush, Label.taskRet, State.setFrame, ho, Frame.inFlight]
    · simp [Label.taskPush, Label.taskRet, State.setFrame, he]
  | @ret th' r hret =>
    by_cases he : th = th'
    · subst he
      cases r <;> simp [Label.taskPush, Label.taskRet, State.setFrame, hret, Frame.inFlight,
        List.count_singleton]
    · have hne : ∀ u, ((th', u) : Thread × τ) ≠ (th, t) := fun u hu ↦ he (by cases hu; rfl)
      cases r <;> simp [Label.taskPush, Label.taskRet, State.setFrame, he, hne]
  | wake | read | testStopped | swap | release | runTask | endTask | register | purge | endBlock
  | fire | endFire | exit => rfl

/-- A call of `addTask` that has returned has pushed its task. -/
theorem returnedTasks_subperm {tr : List (Label τ)} {s : State τ}
    (h : run step started tr = some s) : (returnedTasks tr).Subperm (pushedTasks tr) := by
  have hcount : ∀ th t, (taskPushes tr).count (th, t)
      = (taskRets tr).count (th, t) + (s.frame th).inFlight.count t := by
    refine run_induction (P := fun tr s ↦ ∀ th t, (taskPushes tr).count (th, t)
      = (taskRets tr).count (th, t) + (s.frame th).inFlight.count t)
      (fun th t ↦ by simp [taskPushes, taskRets, started, Frame.inFlight]) ?_ h
    intro tr s l s' _ ih hs th t
    have h1 := (rule_of_step hs).inFlight th t
    have h2 := ih th t
    simp only [taskPushes, taskRets, List.flatMap_append, List.flatMap_singleton,
      List.count_append] at h2 ⊢
    omega
  obtain ⟨l, hperm, hsub⟩ : (taskRets tr).Subperm (taskPushes tr) := by
    refine List.subperm_ext_iff.mpr fun x _ ↦ ?_
    rw [hcount x.1 x.2]
    exact Nat.le_add_right _ _
  exact ⟨l.map Prod.snd, hperm.map _, hsub.map _⟩

end InFlight

/-! ## The flag and the exit -/

/-- `event_base_loopexit` is called only when the flag is set, and the loop exits only after it. -/
structure ExitOrder (s : State τ) : Prop where
  stopped : s.loopexit = true → s.m_stopped = true
  exited : s.loop = .exited → s.loopexit = true

theorem ExitOrder.same {s s' : State τ} (h : ExitOrder s)
    (hsame : SameFront s.toWorker s'.toWorker) (hloop : s'.loop ≠ .exited) : ExitOrder s' :=
  ⟨fun hx ↦ hsame.stopped ▸ h.stopped (hsame.loopexit ▸ hx), fun he ↦ absurd he hloop⟩

theorem pushSection_flags {w w' : Worker τ} {c : Call τ} {r : Ret τ}
    (h : pushSection w c = some (w', r)) :
    w'.m_stopped = w.m_stopped ∧ w'.loopexit = w.loopexit := by
  cases c <;> simp only [pushSection, Option.some_inj, Prod.mk.injEq, reduceCtorEq] at h <;>
    obtain ⟨rfl, -⟩ := h <;> exact ⟨rfl, rfl⟩

theorem Batch.next_ne_exited {b : Batch τ} {pc : LoopPC τ} (h : b.next = some pc) :
    pc ≠ .exited ∧ pc ≠ .acquiring .tasks := by
  unfold Batch.next at h
  split at h <;> cases h <;> simp

theorem Rule.exitOrder {s s' : State τ} {l : Label τ} (h : Rule s l s') (hi : ExitOrder s) :
    ExitOrder s' := by
  cases h with
  | call | unlock | loadStopped | ret => exact ⟨hi.stopped, hi.exited⟩
  | push hcalled hfree hpush =>
    obtain ⟨h1, h2⟩ := pushSection_flags hpush
    exact ⟨fun hx ↦ h1 ▸ hi.stopped (h2 ▸ hx), fun he ↦ h2 ▸ hi.exited he⟩
  | storeStopped hstopping => exact ⟨fun _ ↦ rfl, hi.exited⟩
  | notify howes hwrite => rw [notify_same hwrite]; exact ⟨hi.stopped, hi.exited⟩
  | testStopped hloop =>
    refine ⟨fun hx ↦ ?_, nofun⟩
    rcases Bool.or_eq_true_iff.mp hx with hx | hx
    · exact hi.stopped hx
    · exact hx
  | @swap q hloop hfree => cases q <;> exact ⟨hi.stopped, nofun⟩
  | wake | read | release | runTask | endTask => exact ⟨hi.stopped, nofun⟩
  | register hloop hreg => exact hi.same (registerTimer_same hreg) nofun
  | purge hloop => exact hi.same (purgeTimerInternal_same _ _) nofun
  | endBlock hloop hnext => exact ⟨hi.stopped, fun he ↦ absurd he (Batch.next_ne_exited hnext).1⟩
  | fire hloop hfire => exact hi.same (fireTimer_same hfire) nofun
  | endFire hloop hidle hafter => exact hi.same (afterCallback_same hafter) nofun
  | exit hloop hexit => exact ⟨hi.stopped, fun _ ↦ hexit⟩

variable [DecidableEq τ]

theorem exitOrder {tr : List (Label τ)} {s : State τ} (h : run step started tr = some s) :
    ExitOrder s := by
  refine run_invariant ?_ (fun _ _ _ hi hs ↦ (rule_of_step hs).exitOrder hi) h
  constructor <;> intro hx <;> cases hx

/-! ## A round that sees the flag takes everything pushed before

A round that does not see the flag may run at the same time as the `stop`, and it takes what it
finds.  All that matters is the round that asks for the exit: it has seen the flag, so its test was
after the flag was set, and its swap is after its test. -/

/-- Once `event_base_loopexit` was called, the first `k` tasks are executed or in the batch, unless
the round has not swapped the tasks yet. -/
def Drained (k : ℕ) (tr : List (Label τ)) (s : State τ) : Prop :=
  s.loopexit = true → s.loop = .acquiring .tasks ∨
    k ≤ (executedTasks tr).length + s.loop.remaining.length

omit [DecidableEq τ] in
/-- The steps, as far as `Drained` is concerned: the test of the flag, the swap of the tasks, and
the others, which neither call `event_base_loopexit` nor take a task out of the line. -/
theorem Rule.drain_cases {s s' : State τ} {l : Label τ} (h : Rule s l s') :
    s'.loop = .acquiring .tasks ∨
      (s.loop = .acquiring .tasks ∧ l.executed = [] ∧ s'.loop.remaining = s.m_pendingTasks) ∨
      (s'.loopexit = s.loopexit ∧ s.loop ≠ .acquiring .tasks ∧
        s.loop.remaining.length = l.executed.length + s'.loop.remaining.length) ∨
      (s'.loopexit = s.loopexit ∧ s'.loop = s.loop ∧ l.executed = []) := by
  cases h with
  | call | unlock | loadStopped | storeStopped | ret => exact .inr (.inr (.inr ⟨rfl, rfl, rfl⟩))
  | push hcalled hfree hpush => exact .inr (.inr (.inr ⟨(pushSection_flags hpush).2, rfl, rfl⟩))
  | notify howes hwrite =>
    exact .inr (.inr (.inr ⟨by rw [notify_same hwrite], rfl, rfl⟩))
  | testStopped hloop => exact .inl rfl
  | @swap q hloop hfree =>
    cases q with
    | tasks => exact .inr (.inl ⟨hloop, rfl, rfl⟩)
    | timers | purges =>
      exact .inr (.inr (.inl ⟨rfl, by simp [hloop], by simp [hloop, LoopPC.remaining, swapQueue,
        Label.executed]⟩))
  | wake hloop | read hloop | exit hloop | runTask hloop =>
    exact .inr (.inr (.inl ⟨rfl, by simp [hloop], by simp [hloop, LoopPC.remaining,
      Label.executed]⟩))
  | @release b hloop =>
    exact .inr (.inr (.inl ⟨rfl, by simp [hloop], by cases b <;> simp [hloop, LoopPC.remaining,
      Label.executed]⟩))
  | endTask hloop hidle =>
    exact .inr (.inr (.inl ⟨rfl, by simp [hloop], by simp [hloop, LoopPC.remaining,
      Label.executed, Nat.add_comm]⟩))
  | register hloop hreg =>
    exact .inr (.inr (.inl ⟨(registerTimer_same hreg).loopexit, by simp [hloop],
      by simp [hloop, LoopPC.remaining, Label.executed]⟩))
  | purge hloop =>
    exact .inr (.inr (.inl ⟨(purgeTimerInternal_same _ _).loopexit, by simp [hloop],
      by simp [hloop, LoopPC.remaining, Label.executed]⟩))
  | endBlock hloop hnext =>
    obtain ⟨h1, h2⟩ := Batch.next_remaining hnext
    exact .inr (.inr (.inl ⟨rfl, by simp [hloop], by simp [hloop, h1, h2, Label.executed]⟩))
  | fire hloop hfire =>
    exact .inr (.inr (.inl ⟨(fireTimer_same hfire).loopexit, by simp [hloop],
      by simp [hloop, LoopPC.remaining, Label.executed]⟩))
  | endFire hloop hidle hafter =>
    exact .inr (.inr (.inl ⟨(afterCallback_same hafter).loopexit, by simp [hloop],
      by simp [hloop, LoopPC.remaining, Label.executed]⟩))

/-- Tasks pushed while the flag was clear stay `Drained` ever after. -/
theorem drained {tr₁ tr₂ : List (Label τ)} {s₁ s : State τ} (h₁ : run step started tr₁ = some s₁)
    (hrunning : s₁.m_stopped = false) (h₂ : run step s₁ tr₂ = some s) :
    Drained (pushedTasks tr₁).length (tr₁ ++ tr₂) s := by
  refine run_induction (P := fun tr s ↦ Drained (pushedTasks tr₁).length (tr₁ ++ tr) s) ?_ ?_ h₂
  · intro hx
    rw [(exitOrder h₁).stopped hx] at hrunning
    cases hrunning
  · intro tr s l s' hr ih hs hx
    have hrun : run step started (tr₁ ++ tr) = some s := run_append.mpr ⟨s₁, h₁, hr⟩
    rw [← List.append_assoc, executedTasks_concat, List.length_append]
    rcases (rule_of_step hs).drain_cases with h | ⟨hacq, he, hrem⟩ | ⟨hexit, hacq, hlen⟩ |
      ⟨hexit, hloop, he⟩
    · exact .inl h
    · -- the swap: by the line of tasks, nothing pushed so far is anywhere else
      right
      have hline := congrArg List.length (tasks_line hrun)
      have hnone : s.loop.remaining = [] := by rw [hacq]; rfl
      simp only [hnone, pushedTasks_append, List.length_append, List.nil_append] at hline
      rw [he, hrem, List.length_nil]
      omega
    · right
      rcases ih (hexit ▸ hx) with h | h
      · exact absurd h hacq
      · omega
    · rw [hloop, he, List.length_nil]
      exact ih (hexit ▸ hx)

/-- **`stop` drains.**  When the loop has exited, every task whose `addTask` had returned before a
call of `stop` began while `m_stopped` was clear has been executed; indeed all tasks pushed before
that call began are the first ones executed, in order.  The call itself may have got any far, and it
may have found the flag set by another one. -/
theorem stop_drains {tr₁ tr₂ : List (Label τ)} {th : Thread} {s₁ s : State τ}
    (h₁ : run step started tr₁ = some s₁) (hrunning : s₁.m_stopped = false)
    (h₂ : run step s₁ (.call th .stop :: tr₂) = some s) (hexit : s.loop = .exited) :
    (returnedTasks tr₁).Subperm (executedTasks (tr₁ ++ .call th .stop :: tr₂)) ∧
      pushedTasks tr₁ <+: executedTasks (tr₁ ++ .call th .stop :: tr₂) := by
  have h : run step started (tr₁ ++ .call th .stop :: tr₂) = some s :=
    run_append.mpr ⟨s₁, h₁, h₂⟩
  have hline := tasks_line h
  have hdrained := drained h₁ hrunning h₂ ((exitOrder h).exited hexit)
  simp only [hexit, LoopPC.remaining, reduceCtorEq, false_or, List.nil_append, List.length_nil,
    Nat.add_zero] at hline hdrained
  have hpre : pushedTasks tr₁ <+: executedTasks (tr₁ ++ .call th .stop :: tr₂) :=
    List.prefix_of_prefix_length_le (pushedTasks_mono _ _) ⟨_, hline⟩ hdrained
  exact ⟨List.Subperm.trans (returnedTasks_subperm h₁) hpre.sublist.subperm, hpre⟩

/-- The rest of a call of `stop` that has found the flag clear. -/
def stopRest (th : Thread) : List (Label τ) :=
  [.storeStopped th, .notify th true, .ret th (.bool true)]

/-- Client 1 stops the worker when client 2, which has begun to do so later, is about to look at the
flag; the round that sees the flag executes the task 1. -/
def drainRest : List (Label ℕ) :=
  .call (.client 2) .stop :: .loadStopped (.client 1) false :: stopRest (.client 1) ++
    [.loadStopped (.client 2) true, .ret (.client 2) (.bool false)] ++ roundStart true ++
    [.runTask 1, .endTask 1] ++ roundEnd ++ [.exit]

theorem stop_drains_one : ∃ s₁ s,
    run step started (addTaskCall (.client 0) 1 ++ [.call (.client 1) .stop]) = some s₁ ∧
    run step s₁ drainRest = some s ∧ s.loop = .exited ∧
    [1] <+:
      executedTasks (addTaskCall (.client 0) 1 ++ [.call (.client 1) .stop] ++ drainRest) := by
  have hrun : ((run step started
      (addTaskCall (.client 0) 1 ++ [.call (.client 1) .stop])).any fun s₁ ↦
        !s₁.m_stopped && (run step s₁ drainRest).any fun s ↦ decide (s.loop = .exited)) = true := by
    decide
  obtain ⟨s₁, hs₁, hp⟩ := exists_run_of_any hrun
  obtain ⟨hrunning, hp⟩ := Bool.and_eq_true_iff.mp hp
  obtain ⟨s, hs, hexit⟩ := exists_run_of_any hp
  have hloop : s.loop = .exited := of_decide_eq_true hexit
  have hdrains := stop_drains hs₁ (Bool.not_eq_true' _ ▸ hrunning) hs hloop
  exact ⟨s₁, s, hs₁, hs, hloop, hdrains.2⟩

/-- A run with two calls of `stop`, up to the second one: the round that sees the flag has already
swapped the tasks when client 1 adds task 7. -/
def lateStop : List (Label ℕ) :=
  .call (.client 0) .stop :: .loadStopped (.client 0) false :: stopRest (.client 0) ++
    roundStart true ++ addTaskCall (.client 1) 7

/-- **Not every call of `stop` drains**: one that finds the flag set already returns false, and a
task added just before it may never be executed. -/
theorem late_stop_leaves_task : ¬∀ (tr₁ tr₂ : List (Label ℕ)) (th : Thread) (s : State ℕ),
    run step started (tr₁ ++ .call th .stop :: tr₂) = some s → s.loop = .exited →
      (returnedTasks tr₁).Subperm (executedTasks (tr₁ ++ .call th .stop :: tr₂)) := by
  intro h
  have hrun : ((run step started (lateStop ++ .call (.client 1) .stop ::
      (.loadStopped (.client 1) true :: .ret (.client 1) (.bool false) :: roundEnd ++
        [.exit]))).any fun s ↦ decide (s.loop = .exited)) = true := by decide
  obtain ⟨s, hs, hexit⟩ := exists_run_of_any hrun
  have hlen := (h _ _ _ s hs (of_decide_eq_true hexit)).length_le
  exact absurd hlen (by decide)

end GeneralWorker
