import CppUtility.TaskDispatch.Fifo

/-!
# `TaskDispatch`: who wakes the thread

The predicate of `wait` has two writers.  `run` pushes under the mutex and notifies after it, so
that a thread which went to sleep before the push is woken.  `stop` stores without the mutex and
never notifies: a thread that is asleep by then, or that has loaded the flag and is about to sleep,
stays asleep, and `stop` waits for it in `join` (`stop_leaves_asleep`).

Nothing else can go wrong.  `wakeup_due_iff` is an equivalence about whole runs:

* on one side, in every state of the run, a thread that sleeps although its predicate holds has a
  notification coming (`State.WakeupDue`), and no `stop` is stuck in `join` for good
  (`State.Deadlocked`);
* on the other side, every `stop` of the run stores while the thread is awake and stays so, or while
  a notification is on its way (`StopsAwake`).  A notification of some `run` that is still to come
  helps a `stop` as well: whoever wakes the thread, it will find the flag set.

The condition is about the state before a step and the step, so that it can be read along a run.
Its second half is there because the store may fall between the predicate's load of the flag and the
moment at which the thread falls asleep; then the store is harmless when it is made, and it is going
to sleep that is not.

`Label.wakeSpurious` may occur in the runs here, but nobody relies on it: a state is a deadlock when
nothing but new calls and spurious wake-ups could change it.
-/

set_option autoImplicit false

namespace TaskDispatch

open Transition

variable {τ : Type*}

/-- The thread is inside `run`, before its `notify_all` and after its push. -/
def Frame.owesNotify : Frame τ → Bool
  | .pushed _ => true
  | .unlocked _ => true
  | _ => false

/-- Some client has yet to notify. -/
def State.NotifyDue (s : State τ) : Prop := ∃ i, (s.frame (.client i)).owesNotify = true

/-- A thread that is asleep although its predicate holds has a notification coming. -/
def State.WakeupDue (s : State τ) : Prop :=
  s.pc = .asleep → s.m_stopped = true ∨ s.m_tasks ≠ [] → s.NotifyDue

/-- The step begins a new call. -/
def Label.isCall : Label τ → Bool
  | .call _ _ => true
  | _ => false

/-- `stop` is blocked in `join`, the thread is blocked in `wait`, and nobody who is inside a call
can take a step. -/
def State.Deadlocked [DecidableEq τ] (s : State τ) : Prop :=
  (∃ th, s.frame th = .joining) ∧ s.pc = .asleep ∧
    ∀ l, l.isCall = false → l ≠ .wakeSpurious → step s l = none

/-- A `stop` stores while the thread is awake or a notification is coming, and the thread does not
fall asleep on a flag that is set, unless a notification is coming. -/
def StopsAwake (_ : List (Label τ)) (s : State τ) (l : Label τ) : Prop :=
  (∀ th, l = .store th → s.pc = .asleep → s.NotifyDue) ∧
    (l = .sleep → s.m_stopped = true → s.NotifyDue)

/-! ## Who is in a call

Two facts about frames are needed: a dispatcher thread that sleeps is in no call, so that a debt of
notification is always one of a client; and a `stop` that has come past its store has left the flag
set, so that a `stop` which waits in `join` while the thread sleeps makes the predicate true. -/

/-- What the frames say about the members. -/
structure InCalls (s : State τ) : Prop where
  /-- The dispatcher thread is in a call only while it runs a task. -/
  dispatcher : s.frame .dispatcher = .idle ∨ ∃ task, s.pc = .running task
  /-- A `stop` that has stored has stored. -/
  stopped : ∀ th, s.frame th = .stored ∨ s.frame th = .joining → s.m_stopped = true

/-- A step of a thread that is inside a call, and stays inside it or returns. -/
theorem InCalls.setFrame {s s' : State τ} (h : InCalls s) {th : Thread} {f : Frame τ}
    (hth : s.frame th ≠ .idle) (hframe : s'.frame = Function.update s.frame th f)
    (hpc : ∀ task, s.pc = .running task → s'.pc = .running task)
    (hkeep : s.m_stopped = true → s'.m_stopped = true)
    (hf : f = .stored ∨ f = .joining → s'.m_stopped = true) : InCalls s' := by
  refine ⟨?_, fun th' hth' ↦ ?_⟩
  · by_cases he : th = .dispatcher
    · subst he
      obtain ⟨task, hrun⟩ := h.dispatcher.resolve_left hth
      exact .inr ⟨task, hpc task hrun⟩
    · refine h.dispatcher.imp (fun hd ↦ ?_) fun ⟨task, hrun⟩ ↦ ⟨task, hpc task hrun⟩
      rw [hframe, Function.update_of_ne (Ne.symm he), hd]
  · rw [hframe] at hth'
    by_cases he : th' = th
    · subst he
      exact hf (by simpa using hth')
    · rw [Function.update_of_ne he] at hth'
      exact hkeep (h.stopped th' hth')

/-- A step of the dispatcher thread, which is not running a task before it. -/
theorem InCalls.setPC {s s' : State τ} (h : InCalls s) (hframe : s'.frame = s.frame)
    (hstopped : s'.m_stopped = s.m_stopped) (hpc : ∀ task, s.pc ≠ .running task) : InCalls s' := by
  refine ⟨?_, ?_⟩
  · rw [hframe]
    exact .inl (h.dispatcher.resolve_right fun ⟨task, hrun⟩ ↦ hpc task hrun)
  · rw [hframe, hstopped]
    exact h.stopped

theorem Rule.inCalls {s s' : State τ} {l : Label τ} (h : Rule s l s') (hi : InCalls s) :
    InCalls s' := by
  cases h with
  | @call th c hidle hmay =>
    refine ⟨?_, fun th' hth' ↦ ?_⟩
    · by_cases he : th = .dispatcher
      · subst he
        right
        cases c with
        | run task =>
          simp only [State.mayCall] at hmay
          split at hmay
          · next task' hrun => exact ⟨task', hrun⟩
          · cases hmay
        | stop => cases hmay
      · exact hi.dispatcher.imp_left fun hd ↦ by simpa [State.setFrame, Ne.symm he] using hd
    · by_cases he : th' = th
      · subst he
        simp [State.setFrame] at hth'
      · exact hi.stopped th' (by simpa [State.setFrame, he] using hth')
  | push hcalled hfree =>
    exact hi.setFrame (by simp [hcalled]) rfl (fun _ hrun ↦ hrun) id (by simp)
  | unlock hpushed => exact hi.setFrame (by simp [hpushed]) rfl (fun _ hrun ↦ hrun) id (by simp)
  | notifyAll hunlocked =>
    refine hi.setFrame (by simp [hunlocked]) rfl (fun task hrun ↦ ?_) id (by simp)
    simp [hrun, ThreadPC.notified]
  | store hcalled =>
    exact hi.setFrame (by simp [hcalled]) rfl (fun _ hrun ↦ hrun) (fun _ ↦ rfl) fun _ ↦ rfl
  | @testJoinable th hstored =>
    exact hi.setFrame (by simp [hstored]) rfl (fun _ hrun ↦ hrun) id
      fun _ ↦ hi.stopped th (.inl hstored)
  | join hjoining hexited =>
    exact hi.setFrame (by simp [hjoining]) rfl (fun _ hrun ↦ hrun) id (by simp)
  | ret hret => exact hi.setFrame (by simp [hret]) rfl (fun _ hrun ↦ hrun) id (by simp)
  | test hpc | lock hpc | check hpc | found hpc | sleep hpc | wakeSpurious hpc | relock hpc
  | decide hpc | take hpc | release hpc | breakOff hpc =>
    exact hi.setPC rfl rfl (by simp [hpc])
  | endTask hpc hidle => exact ⟨.inl hidle, hi.stopped⟩

/-! ## One step

`WakeupDue` is not an invariant, and so its step lemma is an equivalence too: from a state in which
it holds, a step leads to another such state exactly if the step is not one of the two that
`StopsAwake` excludes. -/

/-- A step of a thread that owes no notification, before and after, leaves the debts as they are. -/
theorem State.notifyDue_setFrame {s : State τ} {th : Thread} {f : Frame τ}
    (hth : (s.frame th).owesNotify = false) (hf : f.owesNotify = false) :
    (s.setFrame th f).NotifyDue ↔ s.NotifyDue := by
  refine exists_congr fun i ↦ ?_
  by_cases he : .client i = th
  · simp [State.setFrame, he, hth, hf]
  · simp [State.setFrame, he]

/-- Such a step keeps the wake-up due. -/
theorem State.WakeupDue.setFrame {s : State τ} (h : s.WakeupDue) {th : Thread} {f : Frame τ}
    (hth : (s.frame th).owesNotify = false) (hf : f.owesNotify = false) :
    (s.setFrame th f).WakeupDue :=
  fun hpc hpred ↦ (State.notifyDue_setFrame hth hf).mpr (h hpc hpred)

/-- A thread inside a call is a client, if the dispatcher thread is asleep. -/
theorem InCalls.client {s : State τ} (h : InCalls s) (hpc : s.pc = .asleep) (th : Thread)
    (hth : s.frame th ≠ .idle) : ∃ i, th = .client i := by
  cases th with
  | client i => exact ⟨i, rfl⟩
  | dispatcher =>
    obtain ⟨task, hrun⟩ := h.dispatcher.resolve_left hth
    rw [hpc] at hrun
    cases hrun

/-- Only two kinds of steps can go wrong. -/
theorem stopsAwake_of_ne {tr : List (Label τ)} {s : State τ} {l : Label τ}
    (hstore : ∀ th, l ≠ .store th) (hsleep : l ≠ .sleep) : StopsAwake tr s l :=
  ⟨fun th hl ↦ absurd hl (hstore th), fun hl ↦ absurd hl hsleep⟩

/-- **One step and the wake-up.**  As long as a wake-up was due whenever it had to be, this step
keeps it so exactly if it is not a `stop` behind the thread's back. -/
theorem Rule.wakeupDue_iff {s s' : State τ} {l : Label τ} (h : Rule s l s') (hi : InCalls s)
    (hdue : s.WakeupDue) (tr : List (Label τ)) : s'.WakeupDue ↔ StopsAwake tr s l := by
  cases h with
  | call hidle hmay =>
    exact iff_of_true (hdue.setFrame (by simp [hidle, Frame.owesNotify]) rfl)
      (stopsAwake_of_ne (by simp) (by simp))
  | @push th task hcalled hfree =>
    refine iff_of_true (fun hpc _ ↦ ?_) (stopsAwake_of_ne (by simp) (by simp))
    obtain ⟨i, rfl⟩ := hi.client hpc th (by simp [hcalled])
    exact ⟨i, by simp [State.setFrame, Frame.owesNotify]⟩
  | @unlock th task hpushed =>
    refine iff_of_true (fun hpc _ ↦ ?_) (stopsAwake_of_ne (by simp) (by simp))
    obtain ⟨i, rfl⟩ := hi.client hpc th (by simp [hpushed])
    exact ⟨i, by simp [State.setFrame, Frame.owesNotify]⟩
  | notifyAll hunlocked =>
    -- whoever was asleep is awake now
    refine iff_of_true (fun hpc _ ↦ ?_) (stopsAwake_of_ne (by simp) (by simp))
    have hne : s.pc.notified ≠ .asleep := by cases s.pc <;> simp [ThreadPC.notified]
    exact absurd hpc hne
  | @store th hcalled =>
    have hframe : (s.setFrame th .stored).NotifyDue ↔ s.NotifyDue :=
      State.notifyDue_setFrame (by simp [hcalled, Frame.owesNotify]) rfl
    constructor
    · intro hdue'
      exact ⟨fun _ _ hpc ↦ hframe.mp (hdue' hpc (.inl rfl)), by simp⟩
    · rintro ⟨hawake, -⟩ hpc -
      exact hframe.mpr (hawake th rfl hpc)
  | testJoinable hstored =>
    refine iff_of_true (hdue.setFrame (by simp [hstored, Frame.owesNotify]) ?_)
      (stopsAwake_of_ne (by simp) (by simp))
    split <;> rfl
  | join hjoining hexited =>
    exact iff_of_true (hdue.setFrame (by simp [hjoining, Frame.owesNotify]) rfl)
      (stopsAwake_of_ne (by simp) (by simp))
  | ret hret =>
    exact iff_of_true (hdue.setFrame (by simp [hret, Frame.owesNotify]) rfl)
      (stopsAwake_of_ne (by simp) (by simp))
  | sleep hpc hempty =>
    constructor
    · intro hdue'
      exact ⟨by simp, fun _ hstopped ↦ hdue' rfl (.inl hstopped)⟩
    · rintro ⟨-, hsleep⟩ - hpred
      exact hsleep rfl (hpred.resolve_right fun hne ↦ hne hempty)
  | test hpc | check hpc | decide hpc =>
    refine iff_of_true (fun hasleep ↦ ?_) (stopsAwake_of_ne (by simp) (by simp))
    cases hs : s.m_stopped <;> simp [hs] at hasleep
  | lock | found | wakeSpurious | relock | take | release | breakOff | endTask =>
    exact iff_of_true (fun hasleep ↦ by cases hasleep) (stopsAwake_of_ne (by simp) (by simp))

/-! ## All runs -/

variable [DecidableEq τ]

theorem inCalls {tr : List (Label τ)} {s : State τ} (h : run step started tr = some s) :
    InCalls s :=
  run_invariant ⟨.inl rfl, by simp [started]⟩ (fun _ _ _ hi hs ↦ (rule_of_step hs).inCalls hi) h

/-- A client who has yet to notify can take a step. -/
theorem not_deadlocked {s : State τ} (hi : InCalls s) (hdue : s.WakeupDue) : ¬s.Deadlocked := by
  rintro ⟨⟨th, hjoining⟩, hpc, hstuck⟩
  obtain ⟨i, howes⟩ := hdue hpc (.inl (hi.stopped th (.inr hjoining)))
  cases hf : s.frame (.client i) with
  | pushed task =>
    have hnone := hstuck (.unlock (.client i)) rfl (by simp)
    simp [step, hf] at hnone
  | unlocked task =>
    have hnone := hstuck (.notifyAll (.client i)) rfl (by simp)
    simp [step, hf] at hnone
  | _ => simp [hf, Frame.owesNotify] at howes

/-- **When the dispatcher thread has its wake-up coming.**  Along a run, a thread that is blocked in
`wait` although its predicate holds has a notification coming, and `stop` never waits in `join` for
a thread that nobody will wake, exactly if every `stop` of the run finds the thread awake and
staying so, or a notification on its way. -/
theorem wakeup_due_iff {tr : List (Label τ)} {s : State τ} (h : run step started tr = some s) :
    (∀ tr₁ s₁, tr₁ <+: tr → run step started tr₁ = some s₁ → s₁.WakeupDue ∧ ¬s₁.Deadlocked) ↔
      Along step StopsAwake started tr := by
  rw [← forall_prefix_iff_along (Q := State.WakeupDue) (by intro hpc; cases hpc)
    (fun tr s l s' hr hdue hs ↦ (rule_of_step hs).wakeupDue_iff (inCalls hr) hdue tr) h]
  constructor
  · exact fun hall tr₁ s₁ hp h₁ ↦ (hall tr₁ s₁ hp h₁).1
  · intro hall tr₁ s₁ hp h₁
    have hdue := hall tr₁ s₁ hp h₁
    exact ⟨hdue, not_deadlocked (inCalls h₁) hdue⟩

/-- The thread finds no task and goes to sleep. -/
def fallAsleep : List (Label τ) := [.test false, .lock, .check false, .sleep]

/-- A client pushes a task and another one stops before the first has notified. -/
def stopBeforeNotify : List (Label ℕ) :=
  fallAsleep ++ [.call (.client 0) (.run 1), .push (.client 0) 1, .unlock (.client 0),
    .call (.client 1) .stop, .store (.client 1), .testJoinable (.client 1) true]

/-- Whether a step is known to be harmless without looking at other clients than the first. -/
def stopsAwake (s : State ℕ) : Label ℕ → Bool
  | .store _ => (s.frame (.client 0)).owesNotify
  | .sleep => !s.m_stopped
  | _ => true

theorem wakeup_due_iff_stopBeforeNotify : ∃ s, run step started stopBeforeNotify = some s ∧
    s.pc = .asleep ∧ s.m_stopped = true ∧ s.WakeupDue ∧ ¬s.Deadlocked := by
  have hrun : ((run step started stopBeforeNotify).any fun s ↦
      decide (s.pc = .asleep ∧ s.m_stopped = true)) = true := by decide
  obtain ⟨s, hs, hp⟩ := exists_run_of_any hrun
  obtain ⟨hpc, hstopped⟩ := of_decide_eq_true hp
  have halong : Along step StopsAwake started stopBeforeNotify := by
    refine along_of_check (c := stopsAwake) (fun _ s l hc ↦ ?_) (by decide)
    cases l with
    | store th => exact ⟨fun _ _ _ ↦ ⟨0, hc⟩, by simp⟩
    | sleep => exact ⟨by simp, fun _ hs ↦ by simp [stopsAwake, hs] at hc⟩
    | _ => exact stopsAwake_of_ne (by simp) (by simp)
  exact ⟨s, hs, hpc, hstopped, (wakeup_due_iff hs).mpr halong _ s (List.prefix_refl _) hs⟩

/-- The thread sleeps when a client stops. -/
def stopAsleep : List (Label ℕ) :=
  fallAsleep ++ [.call (.client 0) .stop, .store (.client 0), .testJoinable (.client 0) true]

/-- **`stop` does not wake the thread**, and waits for it for ever. -/
theorem stop_leaves_asleep :
    ∃ s, run (step (τ := ℕ)) started stopAsleep = some s ∧ ¬s.WakeupDue ∧ s.Deadlocked := by
  have hrun : ∃ s, run (step (τ := ℕ)) started stopAsleep = some s ∧ s.pc = .asleep ∧
      s.m_stopped = true ∧ s.frame (.client 0) = .joining ∧
      s.frame = Function.update (Function.update (Function.update (fun _ ↦ .idle)
        (.client 0) (.called .stop)) (.client 0) .stored) (.client 0) .joining :=
    ⟨_, rfl, rfl, rfl, rfl, rfl⟩
  obtain ⟨s, hs, hpc, hstopped, hjoining, hframe⟩ := hrun
  have hframes : ∀ th f, s.frame th = f → f = .joining ∨ f = .idle := by
    rintro th f rfl
    by_cases hth : th = .client 0 <;> simp [hframe, hth]
  refine ⟨s, hs, fun hdue ↦ ?_, ⟨_, hjoining⟩, hpc, fun l hcall hspurious ↦ ?_⟩
  · obtain ⟨i, howes⟩ := hdue hpc (.inl hstopped)
    rcases hframes (.client i) _ rfl with hf | hf <;> simp [hf, Frame.owesNotify] at howes
  · rw [Option.eq_none_iff_forall_ne_some]
    intro s' hs'
    cases rule_of_step hs' with
    | call => cases hcall
    | wakeSpurious => exact hspurious rfl
    | push hf | unlock hf | notifyAll hf | store hf | testJoinable hf | ret hf =>
      simpa using hframes _ _ hf
    | join hf hexited =>
      rw [hpc] at hexited
      cases hexited
    | test hp | lock hp | check hp | found hp | sleep hp | relock hp | decide hp | take hp
    | release hp | breakOff hp | endTask hp =>
      rw [hpc] at hp
      cases hp

end TaskDispatch
