import CppUtility.Worker.Step

/-!
# General tasks: first in, first out

The tasks of a worker pass through three places: `m_pendingTasks`, the batch the loop thread has
swapped out, and the past.  Reading them from the past to the future gives the order in which the
sections of `addTask` under `m_lock` were taken (`addTask_fifo`), whoever called it and however the
steps interleave.

* **The line.**  `executedTasks` is read off the history, `LoopPC.remaining` off the position of the
  loop thread, and the rest is the member.  Their concatenation is what has been pushed
  (`tasks_line`).
* **One step** either appends to that line at its far end, or moves the border between the past and
  the batch: that is `Rule.tasks`.  The swap moves no task in the line, since it happens when the
  batch is empty.
* **A task that runs** belongs to the batch until it returns.  It may push tasks itself, and they go
  to the end of the line like any others.

That the swap finds an empty batch is a matter of positions, and no invariant is needed for it.  The
lock has an invariant of its own, `LockHeld`: a thread that is inside a section under `m_lock` is
the one that holds it.  While a task runs the loop thread is outside those of `onNotify`, so that a
task which calls the interface does not wait for its own thread.
-/

set_option autoImplicit false

namespace GeneralWorker

open Transition

variable {τ : Type*}

/-! ## What a history says about tasks

A run is given by its labels, and which tasks have been pushed and which have ended can be read off
them.  Two more lists of this kind, of timers and of purges, follow the same pattern in
`CppUtility.Worker.Timers` and `CppUtility.Worker.Purge`. -/

/-- The task this step pushes, with the thread that does. -/
def Label.taskPush : Label τ → List (Thread × τ)
  | .push th (.addTask t) => [(th, t)]
  | _ => []

/-- The tasks pushed, in the order of their sections under `m_lock`. -/
def taskPushes (tr : List (Label τ)) : List (Thread × τ) := tr.flatMap Label.taskPush

/-- The same without the threads. -/
def pushedTasks (tr : List (Label τ)) : List τ := (taskPushes tr).map Prod.snd

/-- The task that this step sees return. -/
def Label.executed : Label τ → List τ
  | .endTask t => [t]
  | _ => []

/-- The tasks that have run to their end, in order. -/
def executedTasks (tr : List (Label τ)) : List τ := tr.flatMap Label.executed

/-- The part of the swapped-out batch of tasks that has not been executed; a running task belongs to
it until it returns. -/
def LoopPC.remaining : LoopPC τ → List τ
  | .swapped (.tasks l) => l
  | .working (.tasks l) => l
  | .running t rest => t :: rest
  | _ => []

@[simp] theorem pushedTasks_concat (tr : List (Label τ)) (l : Label τ) :
    pushedTasks (tr ++ [l]) = pushedTasks tr ++ l.taskPush.map Prod.snd := by
  simp [pushedTasks, taskPushes]

theorem pushedTasks_append (tr tr' : List (Label τ)) :
    pushedTasks (tr ++ tr') = pushedTasks tr ++ pushedTasks tr' := by
  simp [pushedTasks, taskPushes]

theorem pushedTasks_mono (tr tr' : List (Label τ)) : pushedTasks tr <+: pushedTasks (tr ++ tr') :=
  pushedTasks_append tr tr' ▸ List.prefix_append _ _

@[simp] theorem executedTasks_concat (tr : List (Label τ)) (l : Label τ) :
    executedTasks (tr ++ [l]) = executedTasks tr ++ l.executed := by
  simp [executedTasks]

/-! ## One step -/

/-- A batch that is used up has no task left, and neither has the position that follows it. -/
theorem Batch.next_remaining {b : Batch τ} {pc : LoopPC τ} (h : b.next = some pc) :
    (LoopPC.working b).remaining = [] ∧ pc.remaining = [] := by
  unfold Batch.next at h
  split at h
  · cases h; exact ⟨rfl, rfl⟩
  · cases h; exact ⟨rfl, rfl⟩
  · cases h; exact ⟨rfl, rfl⟩
  · cases h

/-- What a push does to the queue of tasks. -/
theorem pushSection_tasks {w w' : Worker τ} {c : Call τ} {r : Ret τ} (th : Thread)
    (h : pushSection w c = some (w', r)) :
    w'.m_pendingTasks = w.m_pendingTasks ++ (Label.push th c).taskPush.map Prod.snd := by
  cases c <;> simp only [pushSection, Option.some_inj, Prod.mk.injEq, reduceCtorEq] at h <;>
    obtain ⟨rfl, -⟩ := h <;>
    simp [Worker.pushTask, Worker.addTimerTask, Worker.pushPurge, Label.taskPush]

/-- **One step and the line of tasks.**  What it executes leaves the line in front, what it pushes
joins it at the end. -/
theorem Rule.tasks {s s' : State τ} {l : Label τ} (h : Rule s l s') :
    l.executed ++ (s'.loop.remaining ++ s'.m_pendingTasks)
      = s.loop.remaining ++ s.m_pendingTasks ++ l.taskPush.map Prod.snd := by
  cases h with
  | call hidle hmay => simp [Label.executed, Label.taskPush, State.setFrame]
  | @push th c w r hcalled hfree hpush =>
    simp [Label.executed, State.setFrame, pushSection_tasks th hpush]
  | unlock hpushed => simp [Label.executed, Label.taskPush, State.setFrame]
  | loadStopped hcalled => simp [Label.executed, Label.taskPush, State.setFrame]
  | storeStopped hstopping => simp [Label.executed, Label.taskPush, State.setFrame]
  | notify howes hwrite =>
    rw [notify_same hwrite]
    simp [Label.executed, Label.taskPush, State.setFrame]
  | ret hret => simp [Label.executed, Label.taskPush, State.setFrame]
  | wake hloop hread => simp [Label.executed, Label.taskPush, LoopPC.remaining, hloop]
  | read hloop => simp [Label.executed, Label.taskPush, LoopPC.remaining, hloop]
  | testStopped hloop => simp [Label.executed, Label.taskPush, LoopPC.remaining, hloop]
  | @swap q hloop hfree =>
    cases q <;> simp [Label.executed, Label.taskPush, LoopPC.remaining, hloop, swapQueue]
  | @release b hloop =>
    cases b <;> simp [Label.executed, Label.taskPush, LoopPC.remaining, hloop]
  | runTask hloop => simp [Label.executed, Label.taskPush, LoopPC.remaining, hloop]
  | endTask hloop hidle => simp [Label.executed, Label.taskPush, LoopPC.remaining, hloop]
  | register hloop hreg =>
    simp [Label.executed, Label.taskPush, LoopPC.remaining, hloop, (registerTimer_same hreg).tasks]
  | @purge id rest hloop =>
    simp [Label.executed, Label.taskPush, LoopPC.remaining, hloop,
      (purgeTimerInternal_same s.toWorker id).tasks]
  | endBlock hloop hnext =>
    obtain ⟨h1, h2⟩ := Batch.next_remaining hnext
    simp [Label.executed, Label.taskPush, hloop, h1, h2]
  | fire hloop hfire =>
    simp [Label.executed, Label.taskPush, LoopPC.remaining, hloop, (fireTimer_same hfire).tasks]
  | endFire hloop hidle hafter =>
    simp [Label.executed, Label.taskPush, LoopPC.remaining, hloop,
      (afterCallback_same hafter).tasks]
  | exit hloop hexit => simp [Label.executed, Label.taskPush, LoopPC.remaining, hloop]

/-! ## All runs -/

variable [DecidableEq τ]

/-- The line of tasks after any run. -/
theorem tasks_line {tr : List (Label τ)} {s : State τ} (h : run step started tr = some s) :
    executedTasks tr ++ (s.loop.remaining ++ s.m_pendingTasks) = pushedTasks tr := by
  refine run_induction
    (P := fun tr s ↦ executedTasks tr ++ (s.loop.remaining ++ s.m_pendingTasks) = pushedTasks tr)
    rfl ?_ h
  intro tr s l s' _ ih hs
  rw [executedTasks_concat, pushedTasks_concat, List.append_assoc, (rule_of_step hs).tasks,
    ← List.append_assoc, ih]

/-! ## Who holds `m_lock` -/

/-- The thread inside a section under `m_lock` is the one that holds it. -/
def LockHeld (s : State τ) : Prop :=
  ∀ th, s.m_lock = some th →
    (∃ r, s.frame th = .pushed r) ∨ th = .loop ∧ ∃ b, s.loop = .swapped b

omit [DecidableEq τ] in
/-- Moving the frame of a thread that is not inside a pushing section. -/
theorem LockHeld.setFrame {s : State τ} (h : LockHeld s) {th : Thread} {f : Frame τ}
    (hth : ∀ r, s.frame th ≠ .pushed r) : LockHeld (s.setFrame th f) := by
  intro th' hl
  rcases h th' hl with ⟨r, hr⟩ | hr
  · have hne : th' ≠ th := fun he ↦ hth r (he ▸ hr)
    exact .inl ⟨r, by simpa [State.setFrame, hne] using hr⟩
  · exact .inr hr

omit [DecidableEq τ] in
/-- Moving the loop thread outside the sections of `onNotify`. -/
theorem LockHeld.setLoop {s s' : State τ} (h : LockHeld s) (hlock : s'.m_lock = s.m_lock)
    (hframe : s'.frame = s.frame) (hloop : ∀ b, s.loop ≠ .swapped b) : LockHeld s' := by
  intro th hl
  rcases h th (hlock ▸ hl) with ⟨r, hr⟩ | ⟨-, b, hb⟩
  · exact .inl ⟨r, hframe ▸ hr⟩
  · exact absurd hb (hloop b)

omit [DecidableEq τ] in
theorem Rule.lockHeld {s s' : State τ} {l : Label τ} (h : Rule s l s') (hi : LockHeld s) :
    LockHeld s' := by
  cases h with
  | call hidle hmay => exact hi.setFrame (by simp [hidle])
  | @push th c w r hcalled hfree hpush =>
    intro th' hl
    obtain rfl : th = th' := by simpa using hl
    exact .inl ⟨r, by simp [State.setFrame]⟩
  | unlock hpushed => intro th hl; simp at hl
  | loadStopped hcalled => exact hi.setFrame (by simp [hcalled])
  | storeStopped hstopping => exact hi.setFrame (by simp [hstopping])
  | notify howes hwrite =>
    rw [notify_same hwrite]
    exact hi.setFrame (by rcases howes with ho | ⟨ho, -⟩ <;> simp [ho])
  | ret hret => exact hi.setFrame (by simp [hret])
  | swap hloop hfree => exact fun th hl ↦ .inr ⟨by simpa using hl.symm, _, rfl⟩
  | release hloop => intro th hl; simp at hl
  | wake hloop | read hloop | testStopped hloop | runTask hloop | endTask hloop | register hloop
  | purge hloop | endBlock hloop | fire hloop | endFire hloop | exit hloop =>
    exact hi.setLoop rfl rfl (by simp [hloop])

theorem lockHeld {tr : List (Label τ)} {s : State τ} (h : run step started tr = some s) :
    LockHeld s :=
  run_invariant (by intro th hl; simp [started] at hl)
    (fun _ _ _ hi hs ↦ (rule_of_step hs).lockHeld hi) h

/-- **General tasks are executed first in, first out.**  In every reachable state the tasks
executed, followed by the unexecuted remainder of the batch and by `m_pendingTasks`, are the tasks
in the order of their sections under `m_lock`.  While a task runs, the loop thread does not hold
`m_lock` for `onNotify`: if it holds it at all, then inside a call of the interface that the task
itself makes. -/
theorem addTask_fifo {tr : List (Label τ)} {s : State τ} (h : run step started tr = some s) :
    executedTasks tr ++ s.loop.remaining ++ s.m_pendingTasks = pushedTasks tr ∧
      ∀ t rest, s.loop = .running t rest → s.m_lock = some .loop →
        ∃ r, s.frame .loop = .pushed r := by
  refine ⟨by rw [List.append_assoc]; exact tasks_line h, fun t rest hrun hl ↦ ?_⟩
  rcases lockHeld h .loop hl with hr | ⟨-, b, hb⟩
  · exact hr
  · rw [hrun] at hb
    cases hb

/-- A client's call of `addTask`, from its entry to its return. -/
def addTaskCall (th : Thread) (t : τ) : List (Label τ) :=
  [.call th (.addTask t), .push th (.addTask t), .unlock th, .notify th true, .ret th (.future t)]

/-- The notifier callback up to the loop over the tasks. -/
def roundStart (stopped : Bool) : List (Label τ) :=
  [.wake, .read, .testStopped stopped, .swap .tasks, .release]

/-- The rest of the notifier callback after the loop over the tasks, in a round that finds no timer
and no purge. -/
def roundEnd : List (Label τ) :=
  [.endBlock, .swap .timers, .release, .endBlock, .swap .purges, .release, .endBlock]

/-- Two tasks are in the batch and the first of them runs; it is in the middle of adding a third. -/
def nestedAdd : List (Label ℕ) :=
  addTaskCall (.client 0) 1 ++ addTaskCall (.client 1) 2 ++ roundStart false ++
    [.runTask 1, .call .loop (.addTask 3), .push .loop (.addTask 3)]

theorem addTask_fifo_nestedAdd : ∃ s, run step started nestedAdd = some s ∧
    s.loop = .running 1 [2] ∧ s.m_lock = some .loop ∧
    executedTasks nestedAdd ++ s.loop.remaining ++ s.m_pendingTasks = [1, 2, 3] ∧
    ∃ r, s.frame .loop = .pushed r := by
  have hrun : ((run step started nestedAdd).any fun s ↦
      decide (s.loop = .running 1 [2] ∧ s.m_lock = some .loop)) = true := by decide
  obtain ⟨s, hs, hp⟩ := exists_run_of_any hrun
  obtain ⟨hloop, hlock⟩ := of_decide_eq_true hp
  obtain ⟨hfifo, hheld⟩ := addTask_fifo hs
  exact ⟨s, hs, hloop, hlock, hfifo, hheld 1 [2] hloop hlock⟩

end GeneralWorker
