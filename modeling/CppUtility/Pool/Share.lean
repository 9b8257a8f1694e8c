import CppUtility.Pool.Tasks

/-!
# Every worker gets its share

`m_nextThread` only says which worker a call is for; the call still has to come there, and what it
brings has to stay.  This file follows the tasks to the end.  A task that a worker has got is in one
of six places, and `got` counts them all:

* a general task has run to its end, or it is in the batch that the loop thread is working on, or it
  is in `m_pendingTasks`;
* a `Timer` has been registered with libevent, or it is in the batch that is being registered, or it
  is in `m_pendingTimers`.

The two lines of `CppUtility.Worker.Queues` and `CppUtility.Worker.Timers` say that nothing is lost
between these places, so that `got` is the number of calls that have come to the worker (`got_eq`).
The calls that have come are those that have taken a worker, but for the ones under way
(`received_perm_iff`), and the workers that they take are those of consecutive turns
(`workers_picked`).  Counting turns is then all that is left, and `tasks_even` is the result:
`k / n` tasks for each worker, rounded down or up.

A purge takes no turn and brings no task, so any number of them may go on between the calls, and so
may everything that the workers do themselves.
-/

set_option autoImplicit false

open GeneralWorker Transition RoundRobin

variable {τ : Type*}

namespace GeneralThreadPool.Clients

/-! ## What a worker has got -/

/-- The tasks that the worker at `k` has got in the run of `tr`: the general ones that are done, at
work and pending, and the `Timer`s that are registered, about to be, and pending. -/
def got (k : ℕ) (tr : List (Label τ)) (worker : Life τ) : ℕ :=
  (ofWorker k (executed tr) ++ worker.loop.remaining ++ worker.m_pendingTasks).length +
    (registeredTimers (workOf k tr) ++ worker.loop.timerBatch ++ worker.m_pendingTimers).length

/-- The function of the `Timer` that this call hands in. -/
def timerOf : Call τ → Option τ
  | .addDelayTask _ f => some f
  | .addRepeatTask _ f => some f
  | _ => none

/-- A call that is distributed hands in one thing, a general task or a `Timer`. -/
theorem length_of_distributed {l : List (Call τ)} (h : ∀ c ∈ l, distributed c = true) :
    (l.flatMap fun c ↦ (taskOf c).toList).length + (l.flatMap fun c ↦ (timerOf c).toList).length
      = l.length := by
  induction l with
  | nil => rfl
  | cons c l ih =>
    have hone : (taskOf c).toList.length + (timerOf c).toList.length = 1 := by
      have hc := h c List.mem_cons_self
      cases c with
      | addTask t | addDelayTask ms t | addRepeatTask ms t => rfl
      | purgeTimerTask id | stop => cases hc
    have hrest := ih fun c hc ↦ h c (List.mem_cons_of_mem _ hc)
    rw [List.flatMap_cons, List.flatMap_cons, List.length_append, List.length_append,
      List.length_cons]
    omega

/-- The calls at a worker, counted by their worker. -/
theorem count_workers (k : ℕ) (l : List (ℕ × UInt64 × Call τ)) :
    (workers l).count k = (callsAt k l).length := by
  induction l with
  | nil => rfl
  | cons e l ih =>
    rw [workers] at ih
    by_cases he : e.2.1.toNat = k <;> simp [workers, callsAt, he] at ih ⊢ <;> exact ih

variable [DecidableEq τ] {s₀ s : Clients τ} {tr : List (Label τ)} {n k : ℕ} {worker : Life τ}

/-- Only calls that are distributed come to a worker in this way. -/
theorem distributed_received (h₀ : Sized n s₀) (h : run step s₀ tr = some s) :
    ∀ e ∈ received s₀ tr, distributed e.2.2 = true := by
  refine run_induction (P := fun tr _ ↦ ∀ e ∈ received s₀ tr, distributed e.2.2 = true)
    (fun e he ↦ by cases he) ?_ h
  intro tr s l s' hr ih hs e he
  rw [received_concat hr, List.mem_append] at he
  rcases he with he | he
  · exact ih e he
  · cases l with
    | perform i r =>
      obtain ⟨call, hcall, rfl⟩ : ∃ call, s.calls i = some call ∧ (i, call) = e := by
        simpa [receivedAt] using he
      exact ((sized h₀ hr).picked i call hcall).2
    | _ => cases he

/-- The timers of the worker at `k`: it registers those that calls bring to it. -/
theorem seen_timers (h₀ : JustStarted s₀ n) (h : run step s₀ tr = some s) (hk : k < n) :
    registeredTimers (seen k s₀ tr) = registeredTimers (workOf k tr) ∧
      pushedTimers (seen k s₀ tr)
        = (callsAt k (received s₀ tr)).flatMap fun c ↦ (timerOf c).toList := by
  refine ⟨seen_own (fun th w c ↦ ?_) h₀ h hk,
    seen_calls (fun th w c ↦ ?_) (fun _ ↦ rfl) (fun l hl ↦ ?_) h₀ h hk⟩
  · cases c <;> rfl
  · cases c <;> rfl
  · cases l with
    | push th c => exact absurd rfl (hl th c)
    | _ => rfl

/-- **What a worker has got is what has come to it**, at every moment of a run. -/
theorem got_eq (h₀ : JustStarted s₀ n) (h : run step s₀ tr = some s)
    (hk : s.m_pool[k]? = some worker) :
    got k tr worker = (workers (received s₀ tr)).count k := by
  have hlt : k < n := (sized h₀.sized h).length ▸ (List.getElem?_eq_some_iff.mp hk).1
  have hseen := (run_seen h₀ h hk).2
  have htasks : (ofWorker k (executed tr) ++ worker.loop.remaining ++ worker.m_pendingTasks)
      = (callsAt k (received s₀ tr)).flatMap fun c ↦ (taskOf c).toList := by
    obtain ⟨hexecuted, hpushed⟩ := seen_tasks h₀ h hlt
    rw [callsAt_tasks, ← hexecuted, ← hpushed, List.append_assoc]
    exact tasks_line hseen
  have htimers : (registeredTimers (workOf k tr) ++ worker.loop.timerBatch ++
      worker.m_pendingTimers).length
      = ((callsAt k (received s₀ tr)).flatMap fun c ↦ (timerOf c).toList).length := by
    obtain ⟨hregistered, hpushed⟩ := seen_timers h₀ h hlt
    rw [← hregistered, ← hpushed, List.append_assoc, List.length_append, List.length_append]
    exact timers_line hseen
  have hdistributed : ∀ c ∈ callsAt k (received s₀ tr), distributed c = true := by
    intro c hc
    obtain ⟨e, he, hec⟩ := List.mem_filterMap.mp hc
    obtain ⟨-, hec⟩ := Option.ite_none_right_eq_some.mp hec
    rw [← Option.some_inj.mp hec]
    exact distributed_received h₀.sized h e he
  rw [got, htasks, htimers, length_of_distributed hdistributed, count_workers]

/-! ## The share

The calls of a window take consecutive turns, and when all of them have come to their workers, each
worker has got what is counted there.  Up to here it was a question of where tasks are; from here on
it is one of numbers. -/

/-- **Tasks are distributed evenly.**  Let the owner of a pool start it with `n` workers, after any
use that it has made of it before and wherever the counter is, and let clients make `k` calls, in
any order of steps and without a wrap-around of the counter.  Then every index that is taken is that
of a worker of the pool, every worker is taken `k / n` times, rounded down or up, and when nobody is
in the middle of a call, every worker has got as many tasks. -/
theorem tasks_even {tr₀ : List (Owned.Label τ)} {o : Owned τ}
    (hown : run Owned.step Owned.init tr₀ = some o) {c n : UInt64} {fds : ℕ → Bool}
    (hstart : ((counterAt o c).start n fds).2 = true)
    (h : run step (startedAt o c n fds) tr = some s) {k : ℕ}
    (hk : (picked (startedAt o c n fds) tr).length = k) (hwrap : c.toNat + k ≤ 2 ^ 64) :
    s.m_pool.length = n.toNat ∧
    (∀ idx ∈ workers (picked (startedAt o c n fds) tr), idx < s.m_pool.length) ∧
    (∀ idx < n.toNat, (workers (picked (startedAt o c n fds) tr)).count idx = k / n.toNat ∨
      (workers (picked (startedAt o c n fds) tr)).count idx = (k + n.toNat - 1) / n.toNat) ∧
    ((∀ i, s.calls i = none) → ∀ idx worker, s.m_pool[idx]? = some worker →
      got idx tr worker = k / n.toNat ∨ got idx tr worker = (k + n.toNat - 1) / n.toNat) := by
  have h₀ := justStarted hown hstart
  have hne : n ≠ 0 := ((start_ok _ n fds).mp hstart).2.1
  have hpos : 0 < n.toNat := Nat.pos_of_ne_zero fun h0 ↦ hne (UInt64.toNat_inj.mp h0)
  have hsize := (sized h₀.sized h).length
  have hworkers : workers (picked (startedAt o c n fds) tr) = turns n.toNat c.toNat k := by
    have hempty : (counterAt o c).m_nrThreads = 0 → (counterAt o c).m_pool = [] :=
      (Owned.kept hown).empty
    have hnext := (start_length hempty hstart).2.1
    have hturns := workers_picked h
    rw [show (startedAt o c n fds).m_nextThread = c from hnext, h₀.sized.nrThreads, hk] at hturns
    exact hturns hwrap
  refine ⟨hsize, fun idx hidx ↦ ?_, fun idx hidx ↦ ?_, fun hdone idx worker hworker ↦ ?_⟩
  · rw [hsize]
    exact lt_of_mem_turns _ _ hpos (hworkers ▸ hidx)
  · rw [hworkers]
    exact count_turns _ _ hidx
  · have hlt : idx < n.toNat := hsize ▸ (List.getElem?_eq_some_iff.mp hworker).1
    have hperm := ((received_perm_iff h₀.calls h).mpr hdone).map fun e ↦ e.2.1.toNat
    rw [got_eq h₀ h hworker, workers, hperm.count_eq, ← workers, hworkers]
    exact count_turns _ _ hlt

/-- Three clients at two workers, with the counter at an odd number; the second one overtakes the
first one.  The worker 1 then executes one of its two tasks, and the `Timer` of the worker 0 is
about to be registered. -/
def threeCalls : List (Label ℕ) :=
  [.pick 0 (.addTask 7), .pick 1 (.addDelayTask 5 8), .perform 1 (.delayFuture 8),
    .pick 2 (.addTask 9), .perform 0 (.future 7), .perform 2 (.future 9)] ++
    (roundStart false ++ [GeneralWorker.Label.runTask 7, .endTask 7]).map (.work 1) ++
    (roundStart false ++ [GeneralWorker.Label.endBlock, .swap .timers]).map (.work 0)

theorem tasks_even_threeCalls : ∃ s,
    run step (startedAt Owned.init 1 2 fun _ ↦ true) threeCalls = some s ∧
    (∀ idx ∈ workers (picked (startedAt Owned.init 1 2 fun _ ↦ true) threeCalls),
      idx < s.m_pool.length) ∧
    (∀ idx < 2,
      (workers (picked (startedAt Owned.init 1 2 fun _ ↦ true) threeCalls)).count idx = 1 ∨
      (workers (picked (startedAt Owned.init 1 2 fun _ ↦ true) threeCalls)).count idx = 2) ∧
    ∀ idx worker, s.m_pool[idx]? = some worker →
      got idx threeCalls worker = 1 ∨ got idx threeCalls worker = 2 := by
  have hrun : ((run step (startedAt Owned.init 1 2 fun _ ↦ true) threeCalls).any fun _ ↦ true)
      = true := by decide
  obtain ⟨s, hs, -⟩ := exists_run_of_any hrun
  have hown : run Owned.step (Owned.init : Owned ℕ) [] = some Owned.init := rfl
  have hstart : ((counterAt (Owned.init : Owned ℕ) 1).start 2 fun _ ↦ true).2 = true := rfl
  have hdone : ∀ i, s.calls i = none :=
    (received_perm_iff (justStarted hown hstart).calls hs).mp (by decide)
  obtain ⟨-, hrange, hpicked, hgot⟩ := tasks_even hown hstart hs (k := 3) (by decide) (by decide)
  exact ⟨s, hs, hrange, hpicked, hgot hdone⟩

end GeneralThreadPool.Clients
