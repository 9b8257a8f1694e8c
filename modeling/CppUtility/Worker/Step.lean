import CppUtility.Transition
import CppUtility.Worker.Basic

/-!
# The threads of a `GeneralWorker`

Any number of clients call the interface of one started worker while its loop thread runs the event
loop.  `step` is one step of one thread.  The granularity is that of the source:

* a section under `m_lock` takes the lock together with its single container operation, and releases
  it in a step of its own, so that other threads can be seen waiting;
* `m_stopped` is read and written in separate steps, since `stop` tests it before it sets it, and a
  second `stop` may come in between;
* the `read` of the eventfd, the test of `m_stopped` and the three swaps of `onNotify` are five
  different steps, and everything else may happen between any two of them.

A thread that is inside an interface function has a `Frame` saying how far it is.  Tasks and timer
callbacks run on the loop thread and may call the interface too, so the loop thread has a frame like
every client, beside its own position in the event loop, `LoopPC`.

`Rule` has the steps once more as an inductive relation.  `step` is the one to be compared with the
source and to be run; `Rule` is the one to reason with, and `rule_of_step` is the only place where
`step` is taken apart.  The invariants of this folder are about single steps of `Rule`, and
`Transition.run_induction` makes them statements about runs from `started`, the state in which the
first `start` has returned true.
-/

set_option autoImplicit false

namespace GeneralWorker

open Transition

/-! ## Positions -/

/-- The threads: clients, and the one that runs `loop`. -/
inductive Thread
  | client (i : ℕ)
  | loop
  deriving DecidableEq

/-- The calls of the interface. -/
inductive Call (τ : Type*)
  | addTask (task : τ)
  | addDelayTask (ms : UInt64) (task : τ)
  | addRepeatTask (ms : UInt64) (task : τ)
  | purgeTimerTask (id : UInt64)
  | stop
  deriving DecidableEq

/-- What a call returns: the future of a general or a delayed task, the id of a repeated task (with
the address of the `Timer` it stands for, which the caller does not see), nothing, or a `bool`. -/
inductive Ret (τ : Type*)
  | future (task : τ)
  | delayFuture (task : τ)
  | timerId (p : Ptr) (id : UInt64)
  | void
  | bool (b : Bool)
  deriving DecidableEq

/-- How far a thread is in an interface function. -/
inductive Frame (τ : Type*)
  /-- Not inside one. -/
  | idle
  /-- Entered; a pushing call has not taken `m_lock`, `stop` has not read `m_stopped`. -/
  | called (c : Call τ)
  /-- Holds `m_lock`, the push is done. -/
  | pushed (r : Ret τ)
  /-- Has released `m_lock`, `notify` is still to come. -/
  | unlocked (r : Ret τ)
  /-- `stop` has read `m_stopped` as false, but not stored true. -/
  | stopping
  /-- `stop` has stored true, `notify` is still to come. -/
  | stopped
  /-- About to return. -/
  | returning (r : Ret τ)
  deriving DecidableEq

/-- The three queues `onNotify` drains, in its order. -/
inductive Queue
  | tasks
  | timers
  | purges
  deriving DecidableEq

/-- The local vector `newcomings` of one of the three blocks of `onNotify`. -/
inductive Batch (τ : Type*)
  | tasks (l : List τ)
  | timers (l : List Ptr)
  | purges (l : List UInt64)
  deriving DecidableEq

/-- Where the loop thread is. -/
inductive LoopPC (τ : Type*)
  /-- In `event_base_dispatch`, between two callbacks. -/
  | dispatch
  /-- In the notifier callback, before the `read` of the eventfd. -/
  | reading
  /-- In `onNotify`, before the test of `m_stopped`. -/
  | testing
  /-- Before the `lock_guard` of the block for `q`. -/
  | acquiring (q : Queue)
  /-- Holds `m_lock`, has swapped the queue into `b`. -/
  | swapped (b : Batch τ)
  /-- At the head of the range-for over what is left of `b`. -/
  | working (b : Batch τ)
  /-- Inside the task `t`; `rest` comes after it. -/
  | running (t : τ) (rest : List τ)
  /-- In the timer callback, inside the `m_callback` of the `Timer` at `p`. -/
  | calling (p : Ptr)
  /-- `event_base_dispatch` has returned. -/
  | exited
  deriving DecidableEq

/-- A started worker with its threads. -/
structure State (τ : Type*) extends Worker τ where
  m_lock : Option Thread
  frame : Thread → Frame τ
  loop : LoopPC τ

variable {τ : Type*}

/-- The state in which the first `start` has just returned true. -/
def started : State τ where
  toWorker := (Worker.init.start true).1
  m_lock := none
  frame := fun _ ↦ .idle
  loop := .dispatch

/-- A step: who does what.  Data that the step reads is repeated in the label. -/
inductive Label (τ : Type*)
  | call (th : Thread) (c : Call τ)
  | push (th : Thread) (c : Call τ)
  | unlock (th : Thread)
  | loadStopped (th : Thread) (b : Bool)
  | storeStopped (th : Thread)
  | notify (th : Thread) (ok : Bool)
  | ret (th : Thread) (r : Ret τ)
  | wake
  | read
  | testStopped (b : Bool)
  | swap (q : Queue)
  | release
  | runTask (t : τ)
  | endTask (t : τ)
  | register (p : Ptr)
  | purge (id : UInt64)
  | endBlock
  | fire (ev p : Ptr)
  | endFire (p : Ptr)
  | exit
  deriving DecidableEq

/-! ## Steps -/

/-- User code that may call the interface is running on the thread: on a client always, on the loop
thread while it is in a task or in a timer's callback. -/
def LoopPC.inUserCode : LoopPC τ → Bool
  | .running _ _ => true
  | .calling _ => true
  | _ => false

/-- See `LoopPC.inUserCode`. -/
def State.mayCall (s : State τ) : Thread → Bool
  | .client _ => true
  | .loop => s.loop.inUserCode

/-- Move the frame of one thread. -/
def State.setFrame (s : State τ) (th : Thread) (f : Frame τ) : State τ :=
  { s with frame := Function.update s.frame th f }

/-- The container operation of a pushing call, and what the call will return.  `addDelayTask` is
`addTimerTask` with interval 0, `addRepeatTask` with the delay as interval. -/
def pushSection (w : Worker τ) : Call τ → Option (Worker τ × Ret τ)
  | .addTask t => some (w.pushTask t, .future t)
  | .addDelayTask ms t => some (w.addTimerTask ms 0 t, .delayFuture t)
  | .addRepeatTask ms t => some (w.addTimerTask ms ms t, .timerId w.nextPtr w.nextTimerId)
  | .purgeTimerTask id => some (w.pushPurge id, .void)
  | .stop => none

/-- `newcomings.swap(…)`, for a fresh `newcomings`. -/
def swapQueue (w : Worker τ) : Queue → Worker τ × Batch τ
  | .tasks => ({ w with m_pendingTasks := [] }, .tasks w.m_pendingTasks)
  | .timers => ({ w with m_pendingTimers := [] }, .timers w.m_pendingTimers)
  | .purges => ({ w with m_purgingingTimers := [] }, .purges w.m_purgingingTimers)

/-- What follows a block of `onNotify` whose batch is used up. -/
def Batch.next : Batch τ → Option (LoopPC τ)
  | .tasks [] => some (.acquiring .timers)
  | .timers [] => some (.acquiring .purges)
  | .purges [] => some .dispatch
  | _ => none

/-- The notifier event is registered and its descriptor is readable. -/
def Worker.readable (w : Worker τ) : Bool :=
  w.m_evfd.any (· ≠ 0) &&
    (w.m_notifier.bind w.events).any fun e ↦ decide (e.cb = .notifier) && e.registered

variable [DecidableEq τ]

/-- One step of one thread; `none` if it is not enabled. -/
def step (s : State τ) : Label τ → Option (State τ)
  -- inside the interface functions
  | .call th c =>
    if s.frame th = .idle ∧ s.mayCall th then some (s.setFrame th (.called c)) else none
  | .push th c =>
    if s.frame th = .called c ∧ s.m_lock = none then
      (pushSection s.toWorker c).map fun r ↦
        { s.setFrame th (.pushed r.2) with toWorker := r.1, m_lock := some th }
    else none
  | .unlock th =>
    match s.frame th with
    | .pushed r => some { s.setFrame th (.unlocked r) with m_lock := none }
    | _ => none
  | .loadStopped th b =>
    if s.frame th = .called .stop ∧ b = s.m_stopped then
      some (s.setFrame th (if b then .returning (.bool false) else .stopping))
    else none
  | .storeStopped th =>
    if s.frame th = .stopping then some { s.setFrame th .stopped with m_stopped := true } else none
  | .notify th ok =>
    match s.frame th with
    | .unlocked r => (s.toWorker.notify ok).map fun w ↦
        { s.setFrame th (.returning r) with toWorker := w }
    | .stopped => (s.toWorker.notify ok).map fun w ↦
        { s.setFrame th (.returning (.bool true)) with toWorker := w }
    | _ => none
  | .ret th r =>
    if s.frame th = .returning r then some (s.setFrame th .idle) else none
  -- the loop thread
  | .wake =>
    if s.loop = .dispatch ∧ s.toWorker.readable then some { s with loop := .reading } else none
  | .read =>
    if s.loop = .reading then
      some { s with m_evfd := s.m_evfd.map fun _ ↦ 0, loop := .testing }
    else none
  | .testStopped b =>
    if s.loop = .testing ∧ b = s.m_stopped then
      some { s with loopexit := s.loopexit || b, loop := .acquiring .tasks }
    else none
  | .swap q =>
    if s.loop = .acquiring q ∧ s.m_lock = none then
      let r := swapQueue s.toWorker q
      some { s with toWorker := r.1, m_lock := some .loop, loop := .swapped r.2 }
    else none
  | .release =>
    match s.loop with
    | .swapped b => some { s with m_lock := none, loop := .working b }
    | _ => none
  | .runTask t =>
    match s.loop with
    | .working (.tasks (t' :: rest)) =>
      if t = t' then some { s with loop := .running t rest } else none
    | _ => none
  | .endTask t =>
    match s.loop with
    | .running t' rest =>
      if t = t' ∧ s.frame .loop = .idle then some { s with loop := .working (.tasks rest) }
      else none
    | _ => none
  | .register p =>
    match s.loop with
    | .working (.timers (p' :: rest)) =>
      if p = p' then (s.toWorker.registerTimer p).map fun w ↦
        { s with toWorker := w, loop := .working (.timers rest) }
      else none
    | _ => none
  | .purge id =>
    match s.loop with
    | .working (.purges (id' :: rest)) =>
      if id = id' then
        some { s with
          toWorker := s.toWorker.purgeTimerInternal id
          loop := .working (.purges rest) }
      else none
    | _ => none
  | .endBlock =>
    match s.loop with
    | .working b => b.next.map fun pc ↦ { s with loop := pc }
    | _ => none
  | .fire ev p =>
    if s.loop = .dispatch then
      (s.toWorker.fireTimer ev p).map fun w ↦ { s with toWorker := w, loop := .calling p }
    else none
  | .endFire p =>
    if s.loop = .calling p ∧ s.frame .loop = .idle then
      (s.toWorker.afterCallback p).map fun w ↦ { s with toWorker := w, loop := .dispatch }
    else none
  | .exit =>
    if s.loop = .dispatch ∧ s.loopexit then some { s with loop := .exited } else none

/-! ## The steps as rules

`Rule s l s'` lists what `step` can do, one constructor for each way a label can be enabled, with
the guard as hypotheses.  Every invariant below is proved by cases on it. -/

/-- The steps as an inductive relation; `rule_of_step` connects it to `step`. -/
inductive Rule (s : State τ) : Label τ → State τ → Prop
  | call {th : Thread} {c : Call τ} (hidle : s.frame th = .idle) (hmay : s.mayCall th = true) :
      Rule s (.call th c) (s.setFrame th (.called c))
  | push {th : Thread} {c : Call τ} {w : Worker τ} {r : Ret τ} (hcalled : s.frame th = .called c)
      (hfree : s.m_lock = none) (hpush : pushSection s.toWorker c = some (w, r)) :
      Rule s (.push th c) { s.setFrame th (.pushed r) with toWorker := w, m_lock := some th }
  | unlock {th : Thread} {r : Ret τ} (hpushed : s.frame th = .pushed r) :
      Rule s (.unlock th) { s.setFrame th (.unlocked r) with m_lock := none }
  | loadStopped {th : Thread} (hcalled : s.frame th = .called .stop) :
      Rule s (.loadStopped th s.m_stopped)
        (s.setFrame th (if s.m_stopped then .returning (.bool false) else .stopping))
  | storeStopped {th : Thread} (hstopping : s.frame th = .stopping) :
      Rule s (.storeStopped th) { s.setFrame th .stopped with m_stopped := true }
  | notify {th : Thread} {ok : Bool} {r : Ret τ} {w : Worker τ}
      (howes : s.frame th = .unlocked r ∨ s.frame th = .stopped ∧ r = .bool true)
      (hwrite : s.toWorker.notify ok = some w) :
      Rule s (.notify th ok) { s.setFrame th (.returning r) with toWorker := w }
  | ret {th : Thread} {r : Ret τ} (hret : s.frame th = .returning r) :
      Rule s (.ret th r) (s.setFrame th .idle)
  | wake (hloop : s.loop = .dispatch) (hread : s.toWorker.readable = true) :
      Rule s .wake { s with loop := .reading }
  | read (hloop : s.loop = .reading) :
      Rule s .read { s with m_evfd := s.m_evfd.map fun _ ↦ 0, loop := .testing }
  | testStopped (hloop : s.loop = .testing) :
      Rule s (.testStopped s.m_stopped)
        { s with loopexit := s.loopexit || s.m_stopped, loop := .acquiring .tasks }
  | swap {q : Queue} (hloop : s.loop = .acquiring q) (hfree : s.m_lock = none) :
      Rule s (.swap q) { s with
        toWorker := (swapQueue s.toWorker q).1
        m_lock := some .loop
        loop := .swapped (swapQueue s.toWorker q).2 }
  | release {b : Batch τ} (hloop : s.loop = .swapped b) :
      Rule s .release { s with m_lock := none, loop := .working b }
  | runTask {t : τ} {rest : List τ} (hloop : s.loop = .working (.tasks (t :: rest))) :
      Rule s (.runTask t) { s with loop := .running t rest }
  | endTask {t : τ} {rest : List τ} (hloop : s.loop = .running t rest)
      (hidle : s.frame .loop = .idle) :
      Rule s (.endTask t) { s with loop := .working (.tasks rest) }
  | register {p : Ptr} {rest : List Ptr} {w : Worker τ}
      (hloop : s.loop = .working (.timers (p :: rest)))
      (hreg : s.toWorker.registerTimer p = some w) :
      Rule s (.register p) { s with toWorker := w, loop := .working (.timers rest) }
  | purge {id : UInt64} {rest : List UInt64} (hloop : s.loop = .working (.purges (id :: rest))) :
      Rule s (.purge id) { s with
        toWorker := s.toWorker.purgeTimerInternal id
        loop := .working (.purges rest) }
  | endBlock {b : Batch τ} {pc : LoopPC τ} (hloop : s.loop = .working b)
      (hnext : b.next = some pc) : Rule s .endBlock { s with loop := pc }
  | fire {ev p : Ptr} {w : Worker τ} (hloop : s.loop = .dispatch)
      (hfire : s.toWorker.fireTimer ev p = some w) :
      Rule s (.fire ev p) { s with toWorker := w, loop := .calling p }
  | endFire {p : Ptr} {w : Worker τ} (hloop : s.loop = .calling p) (hidle : s.frame .loop = .idle)
      (hafter : s.toWorker.afterCallback p = some w) :
      Rule s (.endFire p) { s with toWorker := w, loop := .dispatch }
  | exit (hloop : s.loop = .dispatch) (hexit : s.loopexit = true) :
      Rule s .exit { s with loop := .exited }

/-- **What a step can do.** -/
theorem rule_of_step {s s' : State τ} {l : Label τ} (h : step s l = some s') : Rule s l s' := by
  cases l with
  | call th c =>
    simp only [step, Option.ite_none_right_eq_some, Option.some_inj] at h
    obtain ⟨⟨h1, h2⟩, rfl⟩ := h
    exact .call h1 h2
  | push th c =>
    simp only [step, Option.ite_none_right_eq_some, Option.map_eq_some_iff] at h
    obtain ⟨⟨h1, h2⟩, ⟨w, r⟩, h3, rfl⟩ := h
    exact .push h1 h2 h3
  | unlock th =>
    rw [step] at h
    split at h
    · next r hr => cases h; exact .unlock hr
    · cases h
  | loadStopped th b =>
    simp only [step, Option.ite_none_right_eq_some, Option.some_inj] at h
    obtain ⟨⟨h1, rfl⟩, rfl⟩ := h
    exact .loadStopped h1
  | storeStopped th =>
    simp only [step, Option.ite_none_right_eq_some, Option.some_inj] at h
    obtain ⟨h1, rfl⟩ := h
    exact .storeStopped h1
  | notify th ok =>
    rw [step] at h
    split at h
    · next r hr =>
      obtain ⟨w, hw, rfl⟩ := Option.map_eq_some_iff.mp h
      exact .notify (.inl hr) hw
    · next hr =>
      obtain ⟨w, hw, rfl⟩ := Option.map_eq_some_iff.mp h
      exact .notify (.inr ⟨hr, rfl⟩) hw
    · cases h
  | ret th r =>
    simp only [step, Option.ite_none_right_eq_some, Option.some_inj] at h
    obtain ⟨h1, rfl⟩ := h
    exact .ret h1
  | wake =>
    simp only [step, Option.ite_none_right_eq_some, Option.some_inj] at h
    obtain ⟨⟨h1, h2⟩, rfl⟩ := h
    exact .wake h1 h2
  | read =>
    simp only [step, Option.ite_none_right_eq_some, Option.some_inj] at h
    obtain ⟨h1, rfl⟩ := h
    exact .read h1
  | testStopped b =>
    simp only [step, Option.ite_none_right_eq_some, Option.some_inj] at h
    obtain ⟨⟨h1, rfl⟩, rfl⟩ := h
    exact .testStopped h1
  | swap q =>
    simp only [step, Option.ite_none_right_eq_some, Option.some_inj] at h
    obtain ⟨⟨h1, h2⟩, rfl⟩ := h
    exact .swap h1 h2
  | release =>
    rw [step] at h
    split at h
    · next b hb => cases h; exact .release hb
    · cases h
  | runTask t =>
    rw [step] at h
    split at h
    · next t' rest hb =>
      simp only [Option.ite_none_right_eq_some, Option.some_inj] at h
      obtain ⟨rfl, rfl⟩ := h
      exact .runTask hb
    · cases h
  | endTask t =>
    rw [step] at h
    split at h
    · next t' rest hb =>
      simp only [Option.ite_none_right_eq_some, Option.some_inj] at h
      obtain ⟨⟨rfl, hf⟩, rfl⟩ := h
      exact .endTask hb hf
    · cases h
  | register p =>
    rw [step] at h
    split at h
    · next p' rest hb =>
      simp only [Option.ite_none_right_eq_some, Option.map_eq_some_iff] at h
      obtain ⟨rfl, w, hw, rfl⟩ := h
      exact .register hb hw
    · cases h
  | purge id =>
    rw [step] at h
    split at h
    · next id' rest hb =>
      simp only [Option.ite_none_right_eq_some, Option.some_inj] at h
      obtain ⟨rfl, rfl⟩ := h
      exact .purge hb
    · cases h
  | endBlock =>
    rw [step] at h
    split at h
    · next b hb =>
      obtain ⟨pc, hpc, rfl⟩ := Option.map_eq_some_iff.mp h
      exact .endBlock hb hpc
    · cases h
  | fire ev p =>
    simp only [step, Option.ite_none_right_eq_some, Option.map_eq_some_iff] at h
    obtain ⟨h1, w, hw, rfl⟩ := h
    exact .fire h1 hw
  | endFire p =>
    simp only [step, Option.ite_none_right_eq_some, Option.map_eq_some_iff] at h
    obtain ⟨⟨h1, h2⟩, w, hw, rfl⟩ := h
    exact .endFire h1 h2 hw
  | exit =>
    simp only [step, Option.ite_none_right_eq_some, Option.some_inj] at h
    obtain ⟨⟨h1, h2⟩, rfl⟩ := h
    exact .exit h1 h2

/-! ## What the member functions leave alone

The loop thread's work on timers and libevent events does not touch the queues, the flags or the
eventfd. -/

/-- `w'` differs from `w` at most in the timers, the events, the active map and the allocator. -/
structure SameFront (w w' : Worker τ) : Prop where
  tasks : w'.m_pendingTasks = w.m_pendingTasks
  timers : w'.m_pendingTimers = w.m_pendingTimers
  purges : w'.m_purgingingTimers = w.m_purgingingTimers
  stopped : w'.m_stopped = w.m_stopped
  loopexit : w'.loopexit = w.loopexit
  evfd : w'.m_evfd = w.m_evfd
  notifier : w'.m_notifier = w.m_notifier

omit [DecidableEq τ]

theorem SameFront.refl (w : Worker τ) : SameFront w w := ⟨rfl, rfl, rfl, rfl, rfl, rfl, rfl⟩

theorem purgeTimerInternal_same (w : Worker τ) (id : UInt64) :
    SameFront w (w.purgeTimerInternal id) := by
  rw [Worker.purgeTimerInternal]
  split
  · exact .refl w
  · exact ⟨rfl, rfl, rfl, rfl, rfl, rfl, rfl⟩

theorem registerTimer_same {w w' : Worker τ} {p : Ptr} (h : w.registerTimer p = some w') :
    SameFront w w' := by
  rw [Worker.registerTimer] at h
  split at h
  · cases h
  · next t _ =>
    obtain rfl := Option.some_inj.mp h
    cases w.m_activeTimers t.m_id <;> exact ⟨rfl, rfl, rfl, rfl, rfl, rfl, rfl⟩

/-- **What `fireTimer` can do**: the event is registered and its argument alive, and it goes
through `Event.fired`. -/
theorem fireTimer_eq_some {w w' : Worker τ} {ev p : Ptr} :
    w.fireTimer ev p = some w' ↔ ∃ e, w.events ev = some e ∧
      (e.registered = true ∧ e.cb = .timer p ∧ (w.timers p).isSome = true) ∧
      { w with events := Function.update w.events ev (some e.fired) } = w' := by
  rw [Worker.fireTimer]
  split
  · next e he => simp only [Option.ite_none_right_eq_some, Option.some_inj, he, exists_eq_left']
  · next he => simp [he]

theorem fireTimer_same {w w' : Worker τ} {ev p : Ptr} (h : w.fireTimer ev p = some w') :
    SameFront w w' := by
  obtain ⟨e, -, -, rfl⟩ := fireTimer_eq_some.mp h
  exact ⟨rfl, rfl, rfl, rfl, rfl, rfl, rfl⟩

theorem afterCallback_same {w w' : Worker τ} {p : Ptr} (h : w.afterCallback p = some w') :
    SameFront w w' := by
  obtain ⟨t, -, rfl⟩ := Option.map_eq_some_iff.mp h
  split
  · exact purgeTimerInternal_same w t.m_id
  · exact .refl w

/-- `notify` writes to the eventfd and does nothing else. -/
theorem notify_same {w w' : Worker τ} {ok : Bool} (h : w.notify ok = some w') :
    w' = { w with m_evfd := w'.m_evfd } := by
  unfold Worker.notify at h
  split at h
  · cases h; rfl
  · cases h; rfl
  · split at h
    · cases h; rfl
    · split at h
      · cases h; rfl
      · cases h

end GeneralWorker
