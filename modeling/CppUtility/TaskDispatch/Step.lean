import Mathlib.Logic.Function.Basic
import CppUtility.Transition

/-!
# `TaskDispatch`: one dispatcher thread and its clients

`task_dispatch/task_dispatch.h` has a queue of tasks under a mutex, a condition variable, and one
thread that `start` creates.  The thread tests an atomic flag, waits for a task, takes it and runs
it without the mutex.  Clients call `run` and `stop`; a running task may call `run` too.

`step` is one step of one thread.  Every load and store of `m_stopped`, every operation on the mutex
and on the condition variable is a step of its own:

* `wait` with its predicate is the loop that it stands for: the two halves of the predicate, which
  are evaluated under the mutex (`check`, then `found` or `sleep`), falling asleep and giving up the
  mutex in one step, as the standard promises, and taking the mutex again after a wake-up
  (`relock`).  Spurious wake-ups may happen at any time;
* `m_stopped` is loaded in three places: the condition of the `while`, the predicate, and the test
  that leads to `break`.  Each load sees the flag as it is at that moment, and `stop` stores without
  the mutex, so that a store may fall between any two of them;
* `stop` stores, asks whether the thread is joinable, and waits in `join` until the thread function
  has returned.

A task is a value of an arbitrary type, the same value that its future refers to; what a task
computes is not modelled.  The members are those of the class, except that the `std::thread` behind
`m_thread` is reduced to whether it can be joined.

As for the worker, the steps come twice: `step` is the one to be compared with the source, and the
relation `Rule` is the one that proofs take apart.
-/

set_option autoImplicit false

namespace TaskDispatch

open Transition

/-! ## Positions

A thread that is inside `run` or `stop` has a frame that says how far it is.  The dispatcher thread
has a frame too, since the task that it runs may call `run`; where it is in its own loop is a
`ThreadPC`. -/

/-- The threads: clients, and the one `start` creates. -/
inductive Thread
  | client (i : ℕ)
  | dispatcher
  deriving DecidableEq

/-- The calls of the interface after `start`. -/
inductive Call (τ : Type*)
  | run (task : τ)
  | stop
  deriving DecidableEq

/-- What they return. -/
inductive Ret (τ : Type*)
  | future (task : τ)
  | bool (b : Bool)
  deriving DecidableEq

/-- How far a thread is in a call. -/
inductive Frame (τ : Type*)
  /-- Not inside one. -/
  | idle
  /-- Entered: `run` has not taken the mutex, `stop` has not stored. -/
  | called (c : Call τ)
  /-- `run` holds the mutex and has pushed. -/
  | pushed (task : τ)
  /-- `run` has released the mutex, `notify_all` is still to come. -/
  | unlocked (task : τ)
  /-- `stop` has stored true. -/
  | stored
  /-- `stop` is in `join`. -/
  | joining
  /-- About to return. -/
  | returning (r : Ret τ)
  deriving DecidableEq

/-- Where the dispatcher thread is. -/
inductive ThreadPC (τ : Type*)
  /-- At the condition of the `while`. -/
  | testing
  /-- Before the `unique_lock`. -/
  | locking
  /-- In `wait` with the mutex held, before the predicate loads `m_stopped`. -/
  | checking
  /-- The predicate has seen false there, and asks `m_tasks` next. -/
  | looking
  /-- Blocked in `m_taskCv.wait`, without the mutex. -/
  | asleep
  /-- Woken, before taking the mutex again. -/
  | woken
  /-- `wait` has returned; before the test of `m_stopped` that may break. -/
  | deciding
  /-- Before taking the front task. -/
  | taking
  /-- Has taken `task`, still holds the mutex. -/
  | holding (task : τ)
  /-- Inside the task. -/
  | running (task : τ)
  /-- Breaks off, still holds the mutex. -/
  | breaking
  /-- The thread function has returned. -/
  | exited
  deriving DecidableEq

/-- The members, with the threads.  `joinable` is the state of the `std::thread` behind `m_thread`,
which is not null once `start` has returned. -/
structure State (τ : Type*) where
  m_stopped : Bool
  m_tasks : List τ
  m_taskMutex : Option Thread
  joinable : Bool
  frame : Thread → Frame τ
  pc : ThreadPC τ

variable {τ : Type*}

/-- The state in which `start` has just created the thread. -/
def started : State τ where
  m_stopped := false
  m_tasks := []
  m_taskMutex := none
  joinable := true
  frame := fun _ ↦ .idle
  pc := .testing

/-- A step: who does what.  Data that the step reads is repeated in the label. -/
inductive Label (τ : Type*)
  | call (th : Thread) (c : Call τ)
  | push (th : Thread) (task : τ)
  | unlock (th : Thread)
  | notifyAll (th : Thread)
  | store (th : Thread)
  | testJoinable (th : Thread) (b : Bool)
  | join (th : Thread)
  | ret (th : Thread) (r : Ret τ)
  | test (b : Bool)
  | lock
  | check (b : Bool)
  | found
  | sleep
  | wakeSpurious
  | relock
  | decide (b : Bool)
  | take (task : τ)
  | release
  | endTask (task : τ)
  deriving DecidableEq

/-! ## Steps -/

/-- Clients may call anything, a running task may call `run`. -/
def State.mayCall (s : State τ) : Thread → Call τ → Bool
  | .client _, _ => true
  | .dispatcher, .run _ =>
    match s.pc with
    | .running _ => true
    | _ => false
  | .dispatcher, .stop => false

/-- Move the frame of one thread. -/
def State.setFrame (s : State τ) (th : Thread) (f : Frame τ) : State τ :=
  { s with frame := Function.update s.frame th f }

/-- What `notify_all` does to the dispatcher thread. -/
def ThreadPC.notified : ThreadPC τ → ThreadPC τ
  | .asleep => .woken
  | pc => pc

variable [DecidableEq τ]

/-- One step of one thread; `none` if it is not enabled. -/
def step (s : State τ) : Label τ → Option (State τ)
  -- inside `run` and `stop`
  | .call th c =>
    if s.frame th = .idle ∧ s.mayCall th c then some (s.setFrame th (.called c)) else none
  | .push th task =>
    if s.frame th = .called (.run task) ∧ s.m_taskMutex = none then
      some { s.setFrame th (.pushed task) with
        m_tasks := s.m_tasks ++ [task]
        m_taskMutex := some th }
    else none
  | .unlock th =>
    match s.frame th with
    | .pushed task => some { s.setFrame th (.unlocked task) with m_taskMutex := none }
    | _ => none
  | .notifyAll th =>
    match s.frame th with
    | .unlocked task =>
      some { s.setFrame th (.returning (.future task)) with pc := s.pc.notified }
    | _ => none
  | .store th =>
    if s.frame th = .called .stop then some { s.setFrame th .stored with m_stopped := true }
    else none
  | .testJoinable th b =>
    if s.frame th = .stored ∧ b = s.joinable then
      some (s.setFrame th (if b then .joining else .returning (.bool true)))
    else none
  | .join th =>
    if s.frame th = .joining ∧ s.pc = .exited then
      some { s.setFrame th (.returning (.bool true)) with joinable := false }
    else none
  | .ret th r => if s.frame th = .returning r then some (s.setFrame th .idle) else none
  -- the dispatcher thread
  | .test b =>
    if s.pc = .testing ∧ b = s.m_stopped then
      some { s with pc := if b then .exited else .locking }
    else none
  | .lock =>
    if s.pc = .locking ∧ s.m_taskMutex = none then
      some { s with m_taskMutex := some .dispatcher, pc := .checking }
    else none
  | .check b =>
    if s.pc = .checking ∧ b = s.m_stopped then
      some { s with pc := if b then .deciding else .looking }
    else none
  | .found =>
    if s.pc = .looking ∧ s.m_tasks ≠ [] then some { s with pc := .deciding } else none
  | .sleep =>
    if s.pc = .looking ∧ s.m_tasks = [] then
      some { s with m_taskMutex := none, pc := .asleep }
    else none
  | .wakeSpurious => if s.pc = .asleep then some { s with pc := .woken } else none
  | .relock =>
    if s.pc = .woken ∧ s.m_taskMutex = none then
      some { s with m_taskMutex := some .dispatcher, pc := .checking }
    else none
  | .decide b =>
    if s.pc = .deciding ∧ b = s.m_stopped then
      some { s with pc := if b then .breaking else .taking }
    else none
  | .take task =>
    match s.m_tasks with
    | task' :: rest =>
      if s.pc = .taking ∧ task = task' then some { s with m_tasks := rest, pc := .holding task }
      else none
    | [] => none
  | .release =>
    match s.pc with
    | .holding task => some { s with m_taskMutex := none, pc := .running task }
    | .breaking => some { s with m_taskMutex := none, pc := .exited }
    | _ => none
  | .endTask task =>
    if s.pc = .running task ∧ s.frame .dispatcher = .idle then some { s with pc := .testing }
    else none

/-! ## The steps as rules

Each constructor of `Rule` lists the guards of one step and the state after it.  A proof about all
steps is by cases on it, and `step` is not unfolded outside this section, except where a step has to
be shown to be enabled. -/

/-- The steps as an inductive relation; `rule_of_step` connects it to `step`. -/
inductive Rule (s : State τ) : Label τ → State τ → Prop
  | call {th : Thread} {c : Call τ} (hidle : s.frame th = .idle) (hmay : s.mayCall th c = true) :
      Rule s (.call th c) (s.setFrame th (.called c))
  | push {th : Thread} {task : τ} (hcalled : s.frame th = .called (.run task))
      (hfree : s.m_taskMutex = none) :
      Rule s (.push th task) { s.setFrame th (.pushed task) with
        m_tasks := s.m_tasks ++ [task]
        m_taskMutex := some th }
  | unlock {th : Thread} {task : τ} (hpushed : s.frame th = .pushed task) :
      Rule s (.unlock th) { s.setFrame th (.unlocked task) with m_taskMutex := none }
  | notifyAll {th : Thread} {task : τ} (hunlocked : s.frame th = .unlocked task) :
      Rule s (.notifyAll th)
        { s.setFrame th (.returning (.future task)) with pc := s.pc.notified }
  | store {th : Thread} (hcalled : s.frame th = .called .stop) :
      Rule s (.store th) { s.setFrame th .stored with m_stopped := true }
  | testJoinable {th : Thread} (hstored : s.frame th = .stored) :
      Rule s (.testJoinable th s.joinable)
        (s.setFrame th (if s.joinable then .joining else .returning (.bool true)))
  | join {th : Thread} (hjoining : s.frame th = .joining) (hexited : s.pc = .exited) :
      Rule s (.join th) { s.setFrame th (.returning (.bool true)) with joinable := false }
  | ret {th : Thread} {r : Ret τ} (hret : s.frame th = .returning r) :
      Rule s (.ret th r) (s.setFrame th .idle)
  | test (hpc : s.pc = .testing) :
      Rule s (.test s.m_stopped) { s with pc := if s.m_stopped then .exited else .locking }
  | lock (hpc : s.pc = .locking) (hfree : s.m_taskMutex = none) :
      Rule s .lock { s with m_taskMutex := some .dispatcher, pc := .checking }
  | check (hpc : s.pc = .checking) :
      Rule s (.check s.m_stopped) { s with pc := if s.m_stopped then .deciding else .looking }
  | found (hpc : s.pc = .looking) (hne : s.m_tasks ≠ []) : Rule s .found { s with pc := .deciding }
  | sleep (hpc : s.pc = .looking) (hempty : s.m_tasks = []) :
      Rule s .sleep { s with m_taskMutex := none, pc := .asleep }
  | wakeSpurious (hpc : s.pc = .asleep) : Rule s .wakeSpurious { s with pc := .woken }
  | relock (hpc : s.pc = .woken) (hfree : s.m_taskMutex = none) :
      Rule s .relock { s with m_taskMutex := some .dispatcher, pc := .checking }
  | decide (hpc : s.pc = .deciding) :
      Rule s (.decide s.m_stopped) { s with pc := if s.m_stopped then .breaking else .taking }
  | take {task : τ} {rest : List τ} (hpc : s.pc = .taking) (htasks : s.m_tasks = task :: rest) :
      Rule s (.take task) { s with m_tasks := rest, pc := .holding task }
  | release {task : τ} (hpc : s.pc = .holding task) :
      Rule s .release { s with m_taskMutex := none, pc := .running task }
  | breakOff (hpc : s.pc = .breaking) :
      Rule s .release { s with m_taskMutex := none, pc := .exited }
  | endTask {task : τ} (hpc : s.pc = .running task) (hidle : s.frame .dispatcher = .idle) :
      Rule s (.endTask task) { s with pc := .testing }

/-- **What a step can do.** -/
theorem rule_of_step {s s' : State τ} {l : Label τ} (h : step s l = some s') : Rule s l s' := by
  cases l with
  | call th c =>
    simp only [step, Option.ite_none_right_eq_some, Option.some_inj] at h
    obtain ⟨⟨h1, h2⟩, rfl⟩ := h
    exact .call h1 h2
  | push th task =>
    simp only [step, Option.ite_none_right_eq_some, Option.some_inj] at h
    obtain ⟨⟨h1, h2⟩, rfl⟩ := h
    exact .push h1 h2
  | unlock th =>
    rw [step] at h
    split at h
    · next task htask => cases h; exact .unlock htask
    · cases h
  | notifyAll th =>
    rw [step] at h
    split at h
    · next task htask => cases h; exact .notifyAll htask
    · cases h
  | store th =>
    simp only [step, Option.ite_none_right_eq_some, Option.some_inj] at h
    obtain ⟨h1, rfl⟩ := h
    exact .store h1
  | testJoinable th b =>
    simp only [step, Option.ite_none_right_eq_some, Option.some_inj] at h
    obtain ⟨⟨h1, rfl⟩, rfl⟩ := h
    exact .testJoinable h1
  | join th =>
    simp only [step, Option.ite_none_right_eq_some, Option.some_inj] at h
    obtain ⟨⟨h1, h2⟩, rfl⟩ := h
    exact .join h1 h2
  | ret th r =>
    simp only [step, Option.ite_none_right_eq_some, Option.some_inj] at h
    obtain ⟨h1, rfl⟩ := h
    exact .ret h1
  | test b =>
    simp only [step, Option.ite_none_right_eq_some, Option.some_inj] at h
    obtain ⟨⟨h1, rfl⟩, rfl⟩ := h
    exact .test h1
  | lock =>
    simp only [step, Option.ite_none_right_eq_some, Option.some_inj] at h
    obtain ⟨⟨h1, h2⟩, rfl⟩ := h
    exact .lock h1 h2
  | check b =>
    simp only [step, Option.ite_none_right_eq_some, Option.some_inj] at h
    obtain ⟨⟨h1, rfl⟩, rfl⟩ := h
    exact .check h1
  | found =>
    simp only [step, Option.ite_none_right_eq_some, Option.some_inj] at h
    obtain ⟨⟨h1, h2⟩, rfl⟩ := h
    exact .found h1 h2
  | sleep =>
    simp only [step, Option.ite_none_right_eq_some, Option.some_inj] at h
    obtain ⟨⟨h1, h2⟩, rfl⟩ := h
    exact .sleep h1 h2
  | wakeSpurious =>
    simp only [step, Option.ite_none_right_eq_some, Option.some_inj] at h
    obtain ⟨h1, rfl⟩ := h
    exact .wakeSpurious h1
  | relock =>
    simp only [step, Option.ite_none_right_eq_some, Option.some_inj] at h
    obtain ⟨⟨h1, h2⟩, rfl⟩ := h
    exact .relock h1 h2
  | decide b =>
    simp only [step, Option.ite_none_right_eq_some, Option.some_inj] at h
    obtain ⟨⟨h1, rfl⟩, rfl⟩ := h
    exact .decide h1
  | take task =>
    rw [step] at h
    split at h
    · next task' rest htasks =>
      simp only [Option.ite_none_right_eq_some, Option.some_inj] at h
      obtain ⟨⟨h1, rfl⟩, rfl⟩ := h
      exact .take h1 htasks
    · cases h
  | release =>
    rw [step] at h
    split at h
    · next task hpc => cases h; exact .release hpc
    · next hpc => cases h; exact .breakOff hpc
    · cases h
  | endTask task =>
    simp only [step, Option.ite_none_right_eq_some, Option.some_inj] at h
    obtain ⟨⟨h1, h2⟩, rfl⟩ := h
    exact .endTask h1 h2

end TaskDispatch
