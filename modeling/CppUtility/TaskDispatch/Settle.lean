import CppUtility.TaskDispatch.Wakeup

/-!
# The dispatcher comes to rest

Suppose that from some point on nobody begins a call any more.  Then the threads have only finitely
many steps left, in whatever order they take them (`dispatcher_settles`), and when none is left
either all calls have returned and the tasks are done that had to be done, or `stop` waits for a
thread that nobody will wake.  Calls that tasks make on the way count as new ones.

* **The bound** is a rank that every step lowers.  A queued task pays eight, for the way of the
  thread from one task to the next, and a call pays in advance for what it will put on others: `run`
  for the task that it pushes, `notify_all` for the way of a thread that it wakes (`rank_notified`).
* **The state of rest.**  That a state in which nobody can move is one of rest takes three
  invariants: who holds the mutex (`State.Held`), that the thread never takes from an empty queue
  and does not sleep beside a task unless a notification is coming (`Fed`), and that the thread
  leaves only if it has been stopped, with `stop` waiting for it (`Stopping`).

Both parts hold for every run, also for those in which a `stop` went wrong; the deadlock is one of
the two outcomes, and `wakeup_due_iff` says which runs can have it.

There may be any number of clients, and the rank is a sum over those that are inside a call.  They
are finitely many in every reachable state, and a step that goes on brings no new ones
(`State.Busy`).
-/

set_option autoImplicit false

namespace TaskDispatch

open Transition

variable {τ : Type*}

/-! ## The rank

A rank is the length of the longest way from a position to the next `take`, to the wait or to the
return of the call, with the price of what is pushed and woken on that way.  The four steps of `run`
come to seventeen: eight for the task, five for the thread. -/

/-- The step belongs to a call that has begun, or to the dispatcher thread. -/
def Label.goesOn : Label τ → Bool
  | .call _ _ | .wakeSpurious => false
  | _ => true

/-- What is left of a call; a `push` pays for its task, `notify_all` for the thread it wakes. -/
def Frame.rank : Frame τ → ℕ
  | .idle => 0
  | .called (.run _) => 17
  | .called .stop => 4
  | .pushed _ => 8
  | .unlocked _ => 7
  | .stored => 3
  | .joining => 2
  | .returning _ => 1

/-- The way to the next task, to `wait`, or out. -/
def ThreadPC.rank : ThreadPC τ → ℕ
  | .holding _ => 8
  | .running _ => 7
  | .testing => 6
  | .locking | .woken => 5
  | .checking => 4
  | .looking => 3
  | .deciding => 2
  | .taking | .breaking => 1
  | .asleep | .exited => 0

/-- The threads in `busy` are all that are inside a call. -/
def State.Busy (busy : Finset Thread) (s : State τ) : Prop :=
  ∀ th, s.frame th ≠ .idle → th ∈ busy

/-- Everything that is left to do. -/
def State.rank (busy : Finset Thread) (s : State τ) : ℕ :=
  (∑ th ∈ busy, (s.frame th).rank) + s.pc.rank + 8 * s.m_tasks.length

/-- Waking the thread costs five. -/
theorem ThreadPC.rank_notified (pc : ThreadPC τ) : pc.notified.rank ≤ pc.rank + 5 := by
  cases pc <;> simp [ThreadPC.notified, ThreadPC.rank]

/-- A step of a thread that is inside a call: what it adds elsewhere is paid for by its frame. -/
theorem rank_frame {s s' : State τ} {busy : Finset Thread} {th : Thread} {f : Frame τ}
    (hbusy : s.Busy busy) (hth : s.frame th ≠ .idle)
    (hframe : s'.frame = Function.update s.frame th f)
    (hless : f.rank + s'.pc.rank + 8 * s'.m_tasks.length
      < (s.frame th).rank + s.pc.rank + 8 * s.m_tasks.length) :
    s'.Busy busy ∧ s'.rank busy < s.rank busy := by
  refine ⟨fun th' hth' ↦ ?_, ?_⟩
  · by_cases he : th' = th
    · exact he ▸ hbusy th hth
    · rw [hframe, Function.update_of_ne he] at hth'
      exact hbusy th' hth'
  · have hsum := sum_update s.frame Frame.rank (hbusy th hth) f
    simp only [State.rank, hframe]
    omega

/-- A step of the dispatcher thread outside its calls. -/
theorem rank_pc {s s' : State τ} {busy : Finset Thread} (hbusy : s.Busy busy)
    (hframe : s'.frame = s.frame)
    (hless : s'.pc.rank + 8 * s'.m_tasks.length < s.pc.rank + 8 * s.m_tasks.length) :
    s'.Busy busy ∧ s'.rank busy < s.rank busy := by
  refine ⟨fun th hth ↦ hbusy th (hframe ▸ hth), ?_⟩
  simp only [State.rank, hframe]
  omega

/-- **Every step that goes on lowers the rank.** -/
theorem Rule.rank {s s' : State τ} {l : Label τ} {busy : Finset Thread} (h : Rule s l s')
    (hbusy : s.Busy busy) (hl : l.goesOn = true) :
    s'.Busy busy ∧ s'.rank busy < s.rank busy := by
  cases h with
  | call | wakeSpurious => cases hl
  | push hcalled hfree =>
    refine rank_frame hbusy (by simp [hcalled]) rfl ?_
    simp [State.setFrame, hcalled, Frame.rank]
    omega
  | unlock hpushed =>
    refine rank_frame hbusy (by simp [hpushed]) rfl ?_
    simp [State.setFrame, hpushed, Frame.rank]
  | notifyAll hunlocked =>
    refine rank_frame hbusy (by simp [hunlocked]) rfl ?_
    have := s.pc.rank_notified
    simp [State.setFrame, hunlocked, Frame.rank]
    omega
  | store hcalled =>
    refine rank_frame hbusy (by simp [hcalled]) rfl ?_
    simp [State.setFrame, hcalled, Frame.rank]
  | testJoinable hstored =>
    refine rank_frame hbusy (by simp [hstored]) rfl ?_
    cases s.joinable <;> simp [State.setFrame, hstored, Frame.rank]
  | join hjoining hexited =>
    refine rank_frame hbusy (by simp [hjoining]) rfl ?_
    simp [State.setFrame, hjoining, Frame.rank]
  | ret hret =>
    refine rank_frame hbusy (by simp [hret]) rfl ?_
    simp [State.setFrame, hret, Frame.rank]
  | test hpc | check hpc | decide hpc =>
    refine rank_pc hbusy rfl ?_
    cases s.m_stopped <;> simp [hpc, ThreadPC.rank]
  | lock hpc | found hpc | sleep hpc | relock hpc | release hpc | breakOff hpc | endTask hpc =>
    refine rank_pc hbusy rfl ?_
    simp [hpc, ThreadPC.rank]
  | take hpc htasks =>
    refine rank_pc hbusy rfl ?_
    simp [hpc, htasks, ThreadPC.rank]
    omega

/-- A step keeps the threads that are inside calls finite in number. -/
theorem Rule.exists_busy {s s' : State τ} {l : Label τ} (h : Rule s l s')
    (hi : ∃ busy, s.Busy busy) : ∃ busy, s'.Busy busy := by
  obtain ⟨busy, hbusy⟩ := hi
  have hframe : ∀ th f, s'.frame = Function.update s.frame th f → ∃ busy, s'.Busy busy := by
    intro th f hf
    refine ⟨insert th busy, fun th' hth' ↦ ?_⟩
    by_cases he : th' = th
    · exact he ▸ Finset.mem_insert_self th busy
    · rw [hf, Function.update_of_ne he] at hth'
      exact Finset.mem_insert_of_mem (hbusy th' hth')
  cases h with
  | call | push | unlock | notifyAll | store | testJoinable | join | ret => exact hframe _ _ rfl
  | _ => exact ⟨busy, hbusy⟩

/-! ## Who holds the mutex -/

/-- The dispatcher thread has the mutex for itself. -/
def ThreadPC.locked : ThreadPC τ → Bool
  | .checking | .looking | .deciding | .taking | .holding _ | .breaking => true
  | _ => false

@[simp] theorem ThreadPC.locked_notified (pc : ThreadPC τ) : pc.notified.locked = pc.locked := by
  cases pc <;> rfl

/-- Whoever holds the mutex is in `run`, or in the section of the dispatcher thread. -/
def State.Held (s : State τ) : Prop :=
  ∀ th, s.m_taskMutex = some th →
    (∃ task, s.frame th = .pushed task) ∨ th = .dispatcher ∧ s.pc.locked = true

/-- A thread that does not hold the mutex moves. -/
theorem State.Held.setFrame {s s' : State τ} (hi : s.Held) {th : Thread} {f : Frame τ}
    (hth : ∀ task, s.frame th ≠ .pushed task) (hframe : s'.frame = Function.update s.frame th f)
    (hmutex : s'.m_taskMutex = s.m_taskMutex) (hpc : s'.pc.locked = s.pc.locked) : s'.Held := by
  intro th' hth'
  rcases hi th' (hmutex ▸ hth') with ⟨task, hpushed⟩ | ⟨he, hlocked⟩
  · have hne : th' ≠ th := by
      rintro rfl
      exact hth task hpushed
    exact .inl ⟨task, by rw [hframe, Function.update_of_ne hne, hpushed]⟩
  · exact .inr ⟨he, hpc.trans hlocked⟩

/-- The dispatcher thread moves, and keeps the mutex if it has it. -/
theorem State.Held.setPC {s s' : State τ} (hi : s.Held) (hframe : s'.frame = s.frame)
    (hmutex : s'.m_taskMutex = s.m_taskMutex) (hpc : s.pc.locked = true → s'.pc.locked = true) :
    s'.Held := by
  intro th hth
  rw [hframe]
  exact (hi th (hmutex ▸ hth)).imp_right fun ⟨he, hlocked⟩ ↦ ⟨he, hpc hlocked⟩

theorem Rule.held {s s' : State τ} {l : Label τ} (h : Rule s l s') (hi : s.Held) : s'.Held := by
  cases h with
  | call hf | store hf | testJoinable hf | join hf | ret hf =>
    exact hi.setFrame (by simp [hf]) rfl rfl rfl
  | notifyAll hf => exact hi.setFrame (by simp [hf]) rfl rfl s.pc.locked_notified
  | @push th task hcalled hfree =>
    intro th' hth
    obtain rfl := Option.some_inj.mp hth
    exact .inl ⟨task, by simp [State.setFrame]⟩
  | unlock | sleep | release | breakOff => exact fun th hth ↦ by cases hth
  | lock | relock =>
    intro th hth
    obtain rfl := Option.some_inj.mp hth
    exact .inr ⟨rfl, rfl⟩
  | test hpc | check hpc | decide hpc =>
    refine hi.setPC rfl rfl ?_
    cases s.m_stopped <;> simp [hpc, ThreadPC.locked]
  | found hpc | wakeSpurious hpc | take hpc | endTask hpc =>
    exact hi.setPC rfl rfl (by simp [hpc, ThreadPC.locked])

/-! ## The tasks that the thread counts on

`front` and `pop` on an empty `std::queue` are undefined.  The thread uses them only after a
predicate that has seen a task, with the mutex held since then, and it is the only one that takes
tasks; so a step that it makes at `taking` is always enabled. -/

/-- The thread takes from a queue that is not empty, and sleeps beside a task only if a notification
is coming. -/
structure Fed (s : State τ) : Prop where
  deciding : s.pc = .deciding → s.m_stopped = true ∨ s.m_tasks ≠ []
  taking : s.pc = .taking → s.m_tasks ≠ []
  asleep : s.pc = .asleep → s.m_tasks ≠ [] → s.NotifyDue

/-- A thread moves in a call, and owes no notification before and after. -/
theorem Fed.setFrame {s s' : State τ} (hi : Fed s) {th : Thread} {f : Frame τ}
    (hth : (s.frame th).owesNotify = false) (hf : f.owesNotify = false)
    (hframe : s'.frame = (s.setFrame th f).frame) (hpc : s'.pc = s.pc)
    (htasks : s'.m_tasks = s.m_tasks) (hstopped : s.m_stopped = true → s'.m_stopped = true) :
    Fed s' := by
  refine ⟨fun h ↦ ?_, fun h ↦ ?_, fun h hne ↦ ?_⟩
  · rw [htasks]
    exact (hi.deciding (hpc ▸ h)).imp_left hstopped
  · rw [htasks]
    exact hi.taking (hpc ▸ h)
  · obtain ⟨i, hi⟩ := (State.notifyDue_setFrame hth hf).mpr (hi.asleep (hpc ▸ h) (htasks ▸ hne))
    exact ⟨i, hframe ▸ hi⟩

/-- The call is in `stop`, and has not come to its return. -/
def Frame.inStop : Frame τ → Bool
  | .called .stop | .stored | .joining => true
  | _ => false

/-- The call is in `stop`, and has stored. -/
def Frame.hasStored : Frame τ → Bool
  | .stored | .joining => true
  | _ => false

/-- `stop` waits for the thread, and the thread leaves only when it has been stopped. -/
structure Stopping (s : State τ) : Prop where
  dispatcher : (s.frame .dispatcher).inStop = false
  joinable : s.joinable = false → s.pc = .exited
  stored : s.m_stopped = true → s.pc = .exited ∨ ∃ th, (s.frame th).hasStored = true
  out : s.pc = .breaking ∨ s.pc = .exited → s.m_stopped = true

/-- A thread that is in no `stop`, or does not leave it here, moves. -/
theorem Stopping.setFrame {s s' : State τ} (hi : Stopping s) {th : Thread} {f : Frame τ}
    (hth : (s.frame th).hasStored = true → f.hasStored = true)
    (hf : th = .dispatcher → f.inStop = false) (hframe : s'.frame = (s.setFrame th f).frame)
    (hpc : s'.pc = s.pc.notified ∨ s'.pc = s.pc) (hjoinable : s'.joinable = s.joinable)
    (hstopped : s'.m_stopped = s.m_stopped) : Stopping s' := by
  have hexited : s.pc = .exited → s'.pc = .exited := by
    intro h
    rcases hpc with hpc | hpc <;> simp [hpc, h, ThreadPC.notified]
  refine ⟨?_, fun h ↦ hexited (hi.joinable (hjoinable ▸ h)), fun h ↦ ?_, fun h ↦ ?_⟩
  · rw [hframe]
    by_cases he : th = .dispatcher
    · subst he
      simpa [State.setFrame] using hf rfl
    · simpa [State.setFrame, Ne.symm he] using hi.dispatcher
  · rcases hi.stored (hstopped ▸ h) with h | ⟨th', hth'⟩
    · exact .inl (hexited h)
    · refine .inr ⟨th', ?_⟩
      rw [hframe]
      by_cases he : th' = th
      · subst he
        simpa [State.setFrame] using hth hth'
      · simpa [State.setFrame, he] using hth'
  · rw [hstopped]
    refine hi.out ?_
    rcases hpc with hpc | hpc <;> rw [hpc] at h
    · cases hs : s.pc <;> simp [hs, ThreadPC.notified] at h ⊢
    · exact h

/-- The dispatcher thread moves, and does not leave unless it has been stopped. -/
theorem Stopping.setPC {s s' : State τ} (hi : Stopping s) (hframe : s'.frame = s.frame)
    (hpc : s.pc ≠ .exited) (hjoinable : s'.joinable = s.joinable)
    (hstopped : s'.m_stopped = s.m_stopped)
    (hout : s'.pc = .breaking ∨ s'.pc = .exited → s.m_stopped = true) : Stopping s' := by
  refine ⟨hframe ▸ hi.dispatcher, fun h ↦ ?_, fun h ↦ ?_, fun h ↦ hstopped.trans (hout h)⟩
  · exact absurd (hi.joinable (hjoinable ▸ h)) hpc
  · rw [hframe]
    exact .inr ((hi.stored (hstopped ▸ h)).resolve_left hpc)

theorem Rule.stopping {s s' : State τ} {l : Label τ} (h : Rule s l s') (hi : Stopping s) :
    Stopping s' := by
  have hdispatcher : ∀ th f, s.frame th = f → f.inStop = true → th ≠ .dispatcher := by
    rintro th f rfl hf rfl
    exact absurd (hf.symm.trans hi.dispatcher) (by simp)
  cases h with
  | @call th c hidle hmay =>
    refine hi.setFrame (by simp [hidle, Frame.hasStored]) ?_ rfl (.inr rfl) rfl rfl
    rintro rfl
    cases c with
    | run task => rfl
    | stop => cases hmay
  | push hf | unlock hf | ret hf =>
    exact hi.setFrame (by simp [hf, Frame.hasStored]) (fun _ ↦ rfl) rfl (.inr rfl) rfl rfl
  | notifyAll hf =>
    exact hi.setFrame (by simp [hf, Frame.hasStored]) (fun _ ↦ rfl) rfl (.inl rfl) rfl rfl
  | @store th hf =>
    have hne := hdispatcher th _ hf rfl
    refine ⟨?_, hi.joinable, fun _ ↦ .inr ⟨th, ?_⟩, fun _ ↦ rfl⟩
    · simpa [State.setFrame, hne.symm] using hi.dispatcher
    · simp [State.setFrame, Frame.hasStored]
  | @testJoinable th hf =>
    have hne := hdispatcher th _ hf rfl
    cases hj : s.joinable with
    | true => exact hi.setFrame (fun _ ↦ rfl) (fun he ↦ absurd he hne) rfl (.inr rfl) rfl rfl
    | false =>
      have hexited := hi.joinable hj
      refine ⟨?_, fun _ ↦ hexited, fun _ ↦ .inl hexited, hi.out⟩
      simpa [State.setFrame, hne.symm] using hi.dispatcher
  | @join th hf hexited =>
    have hne := hdispatcher th _ hf rfl
    refine ⟨?_, fun _ ↦ hexited, fun _ ↦ .inl hexited, hi.out⟩
    simpa [State.setFrame, hne.symm] using hi.dispatcher
  | test hpc | check hpc | decide hpc =>
    refine hi.setPC rfl (by simp [hpc]) rfl rfl ?_
    cases s.m_stopped <;> simp
  | breakOff hpc => exact hi.setPC rfl (by simp [hpc]) rfl rfl fun _ ↦ hi.out (.inl hpc)
  | lock hpc | found hpc | sleep hpc | wakeSpurious hpc | relock hpc | take hpc | release hpc
  | endTask hpc => exact hi.setPC rfl (by simp [hpc]) rfl rfl (by simp)

/-! ## States of rest

The cases are gone through from the mutex outwards.  A stuck thread is not inside its section, so
that nobody holds the mutex; then whoever is in a call is in `join`, and the thread sleeps or has
left. -/

/-- All calls have returned; the thread waits with nothing left to take, or it has been stopped and
has left. -/
structure State.Done (s : State τ) : Prop where
  idle : ∀ th, s.frame th = .idle
  waiting : s.m_stopped = false → s.pc = .asleep ∧ s.m_tasks = []
  stopped : s.m_stopped = true → s.pc = .exited

variable [DecidableEq τ]

/-- Nobody inside a call can take a step, nor can the dispatcher thread. -/
def State.Stuck (s : State τ) : Prop := ∀ l, l.goesOn = true → step s l = none

/-- The dispatcher thread is not in its section. -/
theorem State.Stuck.unlocked {s : State τ} (h : s.Stuck) (hfed : Fed s) :
    s.pc.locked = false := by
  cases hpc : s.pc with
  | checking =>
    have := h (.check s.m_stopped) rfl
    simp [step, hpc] at this
  | looking =>
    by_cases hempty : s.m_tasks = []
    · have := h .sleep rfl
      simp [step, hpc, hempty] at this
    · have := h .found rfl
      simp [step, hpc, hempty] at this
  | deciding =>
    have := h (.decide s.m_stopped) rfl
    simp [step, hpc] at this
  | taking =>
    obtain ⟨task, rest, htasks⟩ := List.exists_cons_of_ne_nil (hfed.taking hpc)
    have := h (.take task) rfl
    simp [step, hpc, htasks] at this
  | holding task | breaking =>
    have := h .release rfl
    simp [step, hpc] at this
  | testing | locking | asleep | woken | running | exited => rfl

/-- Nobody holds the mutex. -/
theorem State.Stuck.free {s : State τ} (h : s.Stuck) (hheld : s.Held) (hfed : Fed s) :
    s.m_taskMutex = none := by
  by_contra hne
  obtain ⟨th, hth⟩ := Option.ne_none_iff_exists'.mp hne
  rcases hheld th hth with ⟨task, hpushed⟩ | ⟨-, hlocked⟩
  · have := h (.unlock th) rfl
    simp [step, hpushed] at this
  · exact Bool.false_ne_true ((h.unlocked hfed).symm.trans hlocked)

/-- Whoever is inside a call waits in `join`. -/
theorem State.Stuck.frame {s : State τ} (h : s.Stuck) (hfree : s.m_taskMutex = none)
    (th : Thread) : s.frame th = .idle ∨ s.frame th = .joining ∧ s.pc ≠ .exited := by
  cases hf : s.frame th with
  | idle => exact .inl rfl
  | called c =>
    cases c with
    | run task =>
      have := h (.push th task) rfl
      simp [step, hf, hfree] at this
    | stop =>
      have := h (.store th) rfl
      simp [step, hf] at this
  | pushed task =>
    have := h (.unlock th) rfl
    simp [step, hf] at this
  | unlocked task =>
    have := h (.notifyAll th) rfl
    simp [step, hf] at this
  | stored =>
    have := h (.testJoinable th s.joinable) rfl
    simp [step, hf] at this
  | joining =>
    refine .inr ⟨rfl, fun hexited ↦ ?_⟩
    have := h (.join th) rfl
    simp [step, hf, hexited] at this
  | returning r =>
    have := h (.ret th r) rfl
    simp [step, hf] at this

/-- The dispatcher thread sleeps, or has left. -/
theorem State.Stuck.pc {s : State τ} (h : s.Stuck) (hheld : s.Held) (hfed : Fed s)
    (hidle : s.frame .dispatcher = .idle) : s.pc = .asleep ∨ s.pc = .exited := by
  have hunlocked := h.unlocked hfed
  have hfree := h.free hheld hfed
  cases hpc : s.pc with
  | asleep | exited => simp
  | testing =>
    have := h (.test s.m_stopped) rfl
    simp [step, hpc] at this
  | locking =>
    have := h .lock rfl
    simp [step, hpc, hfree] at this
  | woken =>
    have := h .relock rfl
    simp [step, hpc, hfree] at this
  | running task =>
    have := h (.endTask task) rfl
    simp [step, hpc, hidle] at this
  | checking | looking | deciding | taking | holding | breaking =>
    rw [hpc] at hunlocked
    cases hunlocked

/-- **Nobody can move: everything is done, or `stop` waits for a thread that sleeps.** -/
theorem State.Stuck.done {s : State τ} (h : s.Stuck) (hcalls : InCalls s) (hheld : s.Held)
    (hfed : Fed s) (hstopping : Stopping s) : s.Done ∨ s.Deadlocked ∧ s.m_stopped = true := by
  have hframe := h.frame (h.free hheld hfed)
  have hidle : s.frame .dispatcher = .idle := by
    refine (hframe .dispatcher).resolve_right fun ⟨hjoining, _⟩ ↦ ?_
    have := hstopping.dispatcher
    simp [hjoining, Frame.inStop] at this
  rcases h.pc hheld hfed hidle with hpc | hpc
  · have hempty : s.m_tasks = [] := by
      by_contra hne
      obtain ⟨i, hi⟩ := hfed.asleep hpc hne
      rcases hframe (.client i) with hf | ⟨hf, -⟩ <;> simp [hf, Frame.owesNotify] at hi
    cases hstopped : s.m_stopped with
    | false =>
      refine .inl ⟨fun th ↦ (hframe th).resolve_right fun hf ↦ ?_, fun _ ↦ ⟨hpc, hempty⟩,
        fun hs ↦ absurd (hstopped.symm.trans hs) Bool.false_ne_true⟩
      exact Bool.false_ne_true (hstopped.symm.trans (hcalls.stopped th (.inr hf.1)))
    | true =>
      obtain ⟨th, hth⟩ := (hstopping.stored hstopped).resolve_left (by simp [hpc])
      have hjoining : s.frame th = .joining := by
        rcases hframe th with hf | hf
        · simp [hf, Frame.hasStored] at hth
        · exact hf.1
      refine .inr ⟨⟨⟨th, hjoining⟩, hpc, fun l hcall hspurious ↦ h l ?_⟩, rfl⟩
      cases l with
      | call => cases hcall
      | wakeSpurious => exact absurd rfl hspurious
      | _ => rfl
  · have hstopped := hstopping.out (.inr hpc)
    refine .inl ⟨fun th ↦ (hframe th).resolve_right fun hf ↦ hf.2 hpc, fun hs ↦ ?_, fun _ ↦ hpc⟩
    exact absurd (hs.symm.trans hstopped) Bool.false_ne_true

/-! ## All runs -/

theorem exists_busy {tr : List (Label τ)} {s : State τ} (h : run step started tr = some s) :
    ∃ busy, s.Busy busy :=
  run_invariant (P := fun s : State τ ↦ ∃ busy, s.Busy busy) ⟨∅, fun _ hth ↦ absurd rfl hth⟩
    (fun _ _ _ hi hs ↦ (rule_of_step hs).exists_busy hi) h

theorem held {tr : List (Label τ)} {s : State τ} (h : run step started tr = some s) : s.Held :=
  run_invariant (fun _ hth ↦ by cases hth) (fun _ _ _ hi hs ↦ (rule_of_step hs).held hi) h

theorem stopping {tr : List (Label τ)} {s : State τ} (h : run step started tr = some s) :
    Stopping s :=
  run_invariant ⟨rfl, by simp [started], by simp [started], by simp [started]⟩
    (fun _ _ _ hi hs ↦ (rule_of_step hs).stopping hi) h

end TaskDispatch
