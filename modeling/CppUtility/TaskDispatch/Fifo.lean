import CppUtility.TaskDispatch.Step

/-!
# `TaskDispatch`: first in, first out

The tasks that have run, the one the thread has taken, and `m_tasks`, read in this order, are the
tasks in the order of their pushes (`tasks_fifo`).  The order is that of the sections under
`m_taskMutex`, whoever calls `run`: clients that call at the same time, or a task that the thread
runs meanwhile, whose own tasks go to the end of the line.

* **The line.**  A step either joins it at its end (`push`), or moves the border between two of its
  parts: `take` that between the queue and the thread's hands, `endTask` that between these and the
  past.  `Rule.tasks` says so, without an invariant: the thread is at `take` only with empty hands.
* **The way out.**  Once the thread has seen `m_stopped` set, in whichever of its three tests, the
  only way it has left is the way out, and no task is taken any more.  From the test of the
  predicate it comes by the test after `wait`, which sees the flag set as well, since nobody clears
  it.

Whether a task is executed at all is another question.  What is in the queue when the thread leaves
stays there, see `CppUtility.TaskDispatch.Life`.
-/

set_option autoImplicit false

namespace TaskDispatch

open Transition

variable {τ : Type*}

/-! ## The line of tasks -/

/-- The task this step pushes. -/
def Label.pushes : Label τ → List τ
  | .push _ task => [task]
  | _ => []

/-- The tasks pushed, in the order of their sections under `m_taskMutex`. -/
def pushedTasks (tr : List (Label τ)) : List τ := tr.flatMap Label.pushes

/-- The task that this step sees return. -/
def Label.executes : Label τ → List τ
  | .endTask task => [task]
  | _ => []

/-- The tasks that have run to their end, in order. -/
def executedTasks (tr : List (Label τ)) : List τ := tr.flatMap Label.executes

/-- The task the thread has taken and not finished. -/
def ThreadPC.taken : ThreadPC τ → List τ
  | .holding task => [task]
  | .running task => [task]
  | _ => []

@[simp] theorem pushedTasks_concat (tr : List (Label τ)) (l : Label τ) :
    pushedTasks (tr ++ [l]) = pushedTasks tr ++ l.pushes := by
  simp [pushedTasks]

@[simp] theorem executedTasks_concat (tr : List (Label τ)) (l : Label τ) :
    executedTasks (tr ++ [l]) = executedTasks tr ++ l.executes := by
  simp [executedTasks]

@[simp] theorem ThreadPC.taken_notified (pc : ThreadPC τ) : pc.notified.taken = pc.taken := by
  cases pc <;> rfl

/-- **One step and the line of tasks.**  What it executes leaves the line in front, what it pushes
joins it at the end. -/
theorem Rule.tasks {s s' : State τ} {l : Label τ} (h : Rule s l s') :
    l.executes ++ (s'.pc.taken ++ s'.m_tasks) = s.pc.taken ++ s.m_tasks ++ l.pushes := by
  cases h with
  | call | unlock | store | testJoinable | join | ret =>
    simp [Label.executes, Label.pushes, State.setFrame]
  | push hcalled hfree => simp [Label.executes, Label.pushes, State.setFrame]
  | notifyAll hunlocked => simp [Label.executes, Label.pushes, State.setFrame]
  | test hpc | check hpc | decide hpc =>
    cases s.m_stopped <;> simp [Label.executes, Label.pushes, ThreadPC.taken, hpc]
  | lock hpc | found hpc | sleep hpc | wakeSpurious hpc | relock hpc | release hpc | breakOff hpc
  | endTask hpc => simp [Label.executes, Label.pushes, ThreadPC.taken, hpc]
  | take hpc htasks => simp [Label.executes, Label.pushes, ThreadPC.taken, hpc, htasks]

/-! ## The way out

`State.Leaving` begins with the load that gives true, and lasts.  Its positions are those at which
the flag has been seen and those that come after them; the position before the test that leads to
`break` belongs to it only because the flag is set by then. -/

/-- The step is a load of `m_stopped` by the thread that gives true. -/
def Label.sawStopped : Label τ → Bool
  | .test b => b
  | .check b => b
  | .decide b => b
  | _ => false

/-- The thread has seen `m_stopped` set, and is on its way out. -/
def State.Leaving (s : State τ) : Prop :=
  s.m_stopped = true ∧ (s.pc = .deciding ∨ s.pc = .breaking ∨ s.pc = .exited)

/-- Seeing `m_stopped` set puts the thread on its way out. -/
theorem Rule.leaving_of_saw {s s' : State τ} {l : Label τ} (h : Rule s l s')
    (hsaw : l.sawStopped = true) : s'.Leaving := by
  cases h with
  | test hpc =>
    have hstopped : s.m_stopped = true := hsaw
    exact ⟨hstopped, by simp [hstopped]⟩
  | check hpc =>
    have hstopped : s.m_stopped = true := hsaw
    exact ⟨hstopped, by simp [hstopped]⟩
  | decide hpc =>
    have hstopped : s.m_stopped = true := hsaw
    exact ⟨hstopped, by simp [hstopped]⟩
  | _ => cases hsaw

/-- It stays there. -/
theorem Rule.leaving {s s' : State τ} {l : Label τ} (h : Rule s l s') (hi : s.Leaving) :
    s'.Leaving := by
  obtain ⟨hstopped, hout⟩ := hi
  cases h with
  | call | push | unlock | testJoinable | join | ret => exact ⟨hstopped, hout⟩
  | store => exact ⟨rfl, hout⟩
  | notifyAll => exact ⟨hstopped, by rcases hout with hpc | hpc | hpc <;> simp [hpc,
      ThreadPC.notified]⟩
  | decide hpc => exact ⟨hstopped, by simp [hstopped]⟩
  | breakOff hpc => exact ⟨hstopped, by simp⟩
  | test hpc | lock hpc | check hpc | found hpc | sleep hpc | wakeSpurious hpc | relock hpc
  | take hpc | release hpc | endTask hpc => simp [hpc] at hout

/-- On its way out the thread takes no task. -/
theorem Rule.not_take {s s' : State τ} {task : τ} (h : Rule s (.take task) s') : ¬s.Leaving := by
  cases h with
  | take hpc htasks =>
    rintro ⟨-, hout⟩
    simp [hpc] at hout

/-! ## All runs -/

variable [DecidableEq τ]

theorem tasks_line {tr : List (Label τ)} {s : State τ} (h : run step started tr = some s) :
    executedTasks tr ++ (s.pc.taken ++ s.m_tasks) = pushedTasks tr := by
  refine run_induction
    (P := fun tr s ↦ executedTasks tr ++ (s.pc.taken ++ s.m_tasks) = pushedTasks tr) rfl ?_ h
  intro tr s l s' _ ih hs
  rw [executedTasks_concat, pushedTasks_concat, List.append_assoc, (rule_of_step hs).tasks,
    ← List.append_assoc, ih]

/-- A run that starts on the way out takes no task. -/
theorem not_take_of_leaving {tr : List (Label τ)} {s s' : State τ} (h : run step s tr = some s')
    (hs : s.Leaving) (task : τ) : .take task ∉ tr := by
  induction tr generalizing s with
  | nil => simp
  | cons l tr ih =>
    obtain ⟨s₁, h₁, h₂⟩ := run_cons_eq_some.mp h
    have hrule := rule_of_step h₁
    rw [List.mem_cons, not_or]
    refine ⟨?_, ih h₂ (hrule.leaving hs)⟩
    rintro rfl
    exact hrule.not_take hs

/-- **Tasks are executed first in, first out.**  In every reachable state the tasks executed,
followed by the one the thread has taken and not finished and by `m_tasks`, are all tasks in the
order of their push; and no task is taken after the thread has seen `m_stopped` set. -/
theorem tasks_fifo {tr : List (Label τ)} {s : State τ} (h : run step started tr = some s) :
    executedTasks tr ++ s.pc.taken ++ s.m_tasks = pushedTasks tr ∧
      ∀ tr₁ l tr₂, tr = tr₁ ++ l :: tr₂ → l.sawStopped = true → ∀ task, .take task ∉ tr₂ := by
  refine ⟨by rw [List.append_assoc]; exact tasks_line h, ?_⟩
  rintro tr₁ l tr₂ rfl hsaw task
  obtain ⟨s₁, -, h₁⟩ := run_append.mp h
  obtain ⟨s₂, hstep, h₂⟩ := run_cons_eq_some.mp h₁
  exact not_take_of_leaving h₂ ((rule_of_step hstep).leaving_of_saw hsaw) task

/-- A whole call of `run` by a thread. -/
def runCall (th : Thread) (task : τ) : List (Label τ) :=
  [.call th (.run task), .push th task, .unlock th, .notifyAll th, .ret th (.future task)]

/-- The thread takes a task that is there and begins to run it. -/
def takeTask (task : τ) : List (Label τ) :=
  [.test false, .lock, .check false, .found, .decide false, .take task, .release]

/-- A client runs two tasks; the first one, while it runs, runs a third; then a client stops. -/
def nestedRun : List (Label ℕ) :=
  runCall (.client 0) 1 ++ runCall (.client 1) 2 ++ takeTask 1 ++ runCall .dispatcher 3 ++
    [.endTask 1] ++ takeTask 2 ++ [.call (.client 0) .stop, .store (.client 0), .endTask 2,
    .test true]

theorem tasks_fifo_nestedRun : ∃ s, run step started nestedRun = some s ∧
    executedTasks nestedRun ++ s.pc.taken ++ s.m_tasks = [1, 2, 3] ∧ s.m_tasks = [3] := by
  have hrun : ((run step started nestedRun).any fun s ↦ decide (s.m_tasks = [3])) = true := by
    decide
  obtain ⟨s, hs, hp⟩ := exists_run_of_any hrun
  exact ⟨s, hs, (tasks_fifo hs).1, of_decide_eq_true hp⟩

end TaskDispatch
