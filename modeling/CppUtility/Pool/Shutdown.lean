import CppUtility.Pool.Basic

/-!
# Shutting a pool down

The loops of `stop` and `wait` go on only as long as the workers return true: `ok &&
worker->stop()`.  A worker behind one that returns false would be skipped, and its thread would go
on for ever.  That none is skipped is a matter of the pattern of the workers, `InStep`: a row of
workers that run or have run, all with the same `m_stopped`, and perhaps one at the end that has
never run.

* `start` makes such a row, since it ends at the first worker that fails (`startWorkers_inStep`).
* If the workers of the row are running, the `stop` of each returns true, and the one at the end,
  which has never run, is stopped already.  If they have been stopped, the first returns false and
  there is nothing to be done (`stopWorkers_inStep`).
* `wait` joins the threads of the row, each of which returns true, and the last one has none to be
  joined (`waitWorkers_inStep`).

This would not help if a single worker could be stopped by somebody else.  The workers are members
of the pool and are not given out, so the owner of the pool is the only one who stops them
(`State.NoStop`), and the row stays in step whatever the threads inside the workers do.

`Owned` has the owner's calls and the steps of the workers in any order, with two counters that no
program has: the threads that have been launched and those that have been joined.
-/

set_option autoImplicit false

open GeneralWorker Transition

variable {τ : Type*}

/-! ## Nobody but the owner stops a worker -/

namespace GeneralWorker

/-- No thread is in a `stop` that may still set `m_stopped`. -/
def State.NoStop (s : State τ) : Prop := ∀ th, s.frame th ≠ .called .stop ∧ s.frame th ≠ .stopping

theorem State.NoStop.setFrame {s : State τ} (h : s.NoStop) (th : Thread) {f : Frame τ}
    (hcalled : f ≠ .called .stop) (hstopping : f ≠ .stopping) : (s.setFrame th f).NoStop := by
  intro th'
  by_cases he : th' = th
  · subst he
    simpa [State.setFrame] using ⟨hcalled, hstopping⟩
  · simpa [State.setFrame, he] using h th'

/-- Then the flag stays as it is, as long as nobody begins one. -/
theorem Rule.noStop {s s' : State τ} {l : Label τ} (h : Rule s l s') (hi : s.NoStop)
    (hl : ∀ th, l ≠ .call th .stop) : s'.NoStop ∧ s'.m_stopped = s.m_stopped := by
  cases h with
  | @call th c hidle hmay =>
    refine ⟨hi.setFrame th ?_ (by simp), rfl⟩
    rintro hc
    exact hl th (by rw [Frame.called.inj hc])
  | @push th c w r hcalled hfree hpush =>
    refine ⟨hi.setFrame th (by simp) (by simp), ?_⟩
    cases c <;> simp only [pushSection, Option.some_inj, Prod.mk.injEq, reduceCtorEq] at hpush <;>
      obtain ⟨rfl, -⟩ := hpush <;> rfl
  | @unlock th r hpushed => exact ⟨hi.setFrame th (by simp) (by simp), rfl⟩
  | @loadStopped th hcalled => exact absurd hcalled (hi th).1
  | @storeStopped th hstopping => exact absurd hstopping (hi th).2
  | @notify th ok r w howes hwrite =>
    refine ⟨hi.setFrame th (by simp) (by simp), ?_⟩
    rw [notify_same hwrite]
  | @ret th r hret => exact ⟨hi.setFrame th (by simp) (by simp), rfl⟩
  | @swap q hloop hfree => exact ⟨hi, by cases q <;> rfl⟩
  | register hloop hreg => exact ⟨hi, (registerTimer_same hreg).stopped⟩
  | purge hloop => exact ⟨hi, (purgeTimerInternal_same ..).stopped⟩
  | fire hloop hfire => exact ⟨hi, (fireTimer_same hfire).stopped⟩
  | endFire hloop hidle hafter => exact ⟨hi, (afterCallback_same hafter).stopped⟩
  | wake | read | testStopped | release | runTask | endTask | endBlock | exit => exact ⟨hi, rfl⟩

end GeneralWorker

namespace GeneralThreadPool

/-! ## The pattern of the workers -/

/-- Workers with a thread, all with `m_stopped = b`, and perhaps one behind them that has none. -/
inductive InStep (b : Bool) : List (Life τ) → Prop
  | nil : InStep b []
  | failed {worker : Life τ} (hthread : worker.m_thread = false)
      (hstopped : worker.m_stopped = true) : InStep b [worker]
  | cons {worker : Life τ} {pool : List (Life τ)} (hthread : worker.m_thread = true)
      (hstopped : worker.m_stopped = b) (hpool : InStep b pool) : InStep b (worker :: pool)

/-- The workers whose thread has not been joined. -/
def threads (pool : List (Life τ)) : ℕ := pool.countP fun worker ↦ worker.m_thread

namespace InStep

variable {b : Bool} {pool : List (Life τ)}

theorem stopped (h : InStep true pool) : ∀ worker ∈ pool, worker.m_stopped = true := by
  induction h with
  | nil => simp
  | failed hthread hstopped => simpa using hstopped
  | cons hthread hstopped hpool ih => simpa using ⟨hstopped, ih⟩

/-- Replacing a worker by one with the same flags. -/
theorem set (h : InStep b pool) {k : ℕ} {worker worker' : Life τ} (hk : pool[k]? = some worker)
    (hthread : worker'.m_thread = worker.m_thread)
    (hstopped : worker'.m_stopped = worker.m_stopped) : InStep b (pool.set k worker') := by
  induction h generalizing k with
  | nil => exact .nil
  | failed ht hs =>
    cases k with
    | zero =>
      obtain rfl := Option.some_inj.mp hk
      exact .failed (hthread.trans ht) (hstopped.trans hs)
    | succ k => exact .failed ht hs
  | cons ht hs hpool ih =>
    cases k with
    | zero =>
      obtain rfl := Option.some_inj.mp hk
      exact .cons (hthread.trans ht) (hstopped.trans hs) hpool
    | succ k => exact .cons ht hs (ih hk)

end InStep

/-- Such a replacement keeps the number of threads. -/
theorem threads_set {pool : List (Life τ)} {k : ℕ} {worker worker' : Life τ}
    (hk : pool[k]? = some worker) (hthread : worker'.m_thread = worker.m_thread) :
    threads (pool.set k worker') = threads pool := by
  induction pool generalizing k with
  | nil => rfl
  | cons w pool ih =>
    cases k with
    | zero =>
      obtain rfl := Option.some_inj.mp hk
      simp [threads, List.countP_cons, hthread]
    | succ k =>
      have hrest := ih hk
      simp only [threads, List.set_cons_succ, List.countP_cons] at hrest ⊢
      rw [hrest]

/-! ## What the owner's functions do to it -/

/-- The row of new workers ends with the first whose `start` fails. -/
theorem startWorkers_inStep (fds : ℕ → Bool) (i k : ℕ) :
    InStep false (startWorkers (τ := τ) fds i k).1 := by
  induction k generalizing i with
  | zero => exact .nil
  | succ k ih =>
    rw [startWorkers]
    cases fds i with
    | false => exact .failed rfl rfl
    | true => exact .cons rfl rfl (ih (i + 1))

theorem startWorkers_noStop (fds : ℕ → Bool) (i k : ℕ) :
    ∀ worker ∈ (startWorkers (τ := τ) fds i k).1, worker.toState.NoStop := by
  induction k generalizing i with
  | zero => simp [startWorkers]
  | succ k ih =>
    have hidle : ∀ fd, (Life.init (τ := τ).start fd).toState.NoStop := by
      intro fd th
      cases fd <;> exact ⟨by simp [Life.init, Life.start, Worker.init, Worker.start],
        by simp [Life.init, Life.start, Worker.init, Worker.start]⟩
    rw [startWorkers]
    cases fds i with
    | false => simpa [Worker.start, Worker.init] using hidle false
    | true => simpa [Worker.start, Worker.init] using ⟨hidle true, ih (i + 1)⟩

/-- After a worker has returned false no other is called. -/
theorem stopWorkers_false (pool : List (Life τ)) : stopWorkers false pool = (pool, false) := by
  induction pool with
  | nil => rfl
  | cons worker pool ih => rw [stopWorkers, ih]

/-- What the `stop` of one worker does. -/
theorem stop_fields (worker : Life τ) : worker.stop.1.m_stopped = true ∧
    worker.stop.1.m_thread = worker.m_thread ∧ worker.stop.1.frame = worker.frame ∧
    worker.stop.2 = !worker.m_stopped := by
  cases hrunning : worker.m_stopped with
  | true => simp [Life.stop, hrunning]
  | false =>
    obtain ⟨w, -, hsame, hstop⟩ := Life.stop_running hrunning
    rw [hstop]
    refine ⟨?_, rfl, rfl, rfl⟩
    rw [hsame]

/-- **`stop` stops them all.**  If they were running, every one returns true but the last; if they
were not, the first one returns false and there is nothing to be done. -/
theorem stopWorkers_inStep {b : Bool} {pool : List (Life τ)} (h : InStep b pool) :
    InStep true (stopWorkers true pool).1 ∧
      threads (stopWorkers true pool).1 = threads pool := by
  induction h with
  | nil => exact ⟨.nil, rfl⟩
  | @failed worker hthread hstopped =>
    obtain ⟨h1, h2, -, -⟩ := stop_fields worker
    exact ⟨.failed (h2.trans hthread) h1, by simp [threads, stopWorkers, h2]⟩
  | @cons worker pool hthread hstopped hpool ih =>
    obtain ⟨h1, h2, -, h4⟩ := stop_fields worker
    rw [stopWorkers, h4, hstopped]
    cases b with
    | true =>
      rw [Bool.not_true, stopWorkers_false]
      exact ⟨.cons (h2.trans hthread) h1 hpool, by simp [threads, List.countP_cons, h2]⟩
    | false =>
      have hcount := ih.2
      simp only [threads] at hcount
      exact ⟨.cons (h2.trans hthread) h1 ih.1, by simp [threads, List.countP_cons, h2, hcount]⟩

theorem stopWorkers_noStop {ok : Bool} {pool : List (Life τ)}
    (h : ∀ worker ∈ pool, worker.toState.NoStop) :
    ∀ worker ∈ (stopWorkers ok pool).1, worker.toState.NoStop := by
  induction pool generalizing ok with
  | nil => cases ok <;> simp [stopWorkers]
  | cons worker pool ih =>
    obtain ⟨hworker, hpool⟩ := List.forall_mem_cons.mp h
    cases ok with
    | false => rw [stopWorkers_false]; exact h
    | true =>
      rw [stopWorkers, List.forall_mem_cons]
      refine ⟨fun th ↦ ?_, ih hpool⟩
      rw [(stop_fields worker).2.2.1]
      exact hworker th

variable [DecidableEq τ]

/-- **`wait` joins them all**: the workers with a thread return true, up to the last. -/
theorem waitWorkers_inStep {b : Bool} {pool : List (Life τ)} (h : InStep b pool)
    {r : List (Life τ) × Bool} (hr : waitWorkers true pool = some r) : threads r.1 = 0 := by
  induction h generalizing r with
  | nil =>
    obtain rfl := Option.some_inj.mp hr
    rfl
  | @failed worker hthread hstopped =>
    have hwait : worker.wait = some worker := if_pos hthread
    simp only [waitWorkers, hwait, hthread, Option.bind_some, Option.map_some,
      Option.some_inj] at hr
    subst hr
    simp [threads, hthread]
  | @cons worker pool hthread hstopped hpool ih =>
    obtain ⟨worker', hwait, hr⟩ := Option.bind_eq_some_iff.mp hr
    obtain ⟨r', hr', rfl⟩ := Option.map_eq_some_iff.mp hr
    rw [hthread] at hr'
    rw [Life.wait, if_neg (by simp [hthread])] at hwait
    obtain ⟨-, rfl⟩ := Option.ite_none_right_eq_some.mp hwait |>.imp_right Option.some_inj.mp
    have hrest := ih hr'
    simpa [threads, List.countP_cons] using hrest

/-! ## The owner at work

A `wait` is enabled when the threads it joins have exited, and then it is one step; the time that it
blocks is the time before.  What its loop leaves behind is destroyed with the vector, and counted
first. -/

/-- A pool with the number of threads it has ever launched and of those its `wait` has joined. -/
structure Owned (τ : Type*) extends GeneralThreadPool τ where
  launched : ℕ
  joined : ℕ

namespace Owned

/-- A pool that has just been constructed. -/
def init : Owned τ := ⟨GeneralThreadPool.init, 0, 0⟩

/-- A step: a call by the owner, or a step of the threads inside the worker at `k`. -/
inductive Label (τ : Type*)
  | start (nrThreads : UInt64) (fds : ℕ → Bool)
  | stop
  | wait
  | work (k : ℕ) (l : GeneralWorker.Label τ)

/-- The step begins a `stop`, which at a worker of a pool only the pool calls. -/
def isStop : GeneralWorker.Label τ → Bool
  | .call _ .stop => true
  | _ => false

/-- A step inside a worker leaves its flag and its thread as they are, if nobody stops it. -/
theorem work_noStop {worker worker' : Life τ} {l : GeneralWorker.Label τ}
    (h : worker.work l = some worker') (hi : worker.toState.NoStop)
    (hl : ∀ th, l ≠ .call th .stop) : worker'.toState.NoStop ∧
      worker'.m_stopped = worker.m_stopped ∧ worker'.m_thread = worker.m_thread := by
  obtain ⟨fd, exits, s₁, hrule, hs', -, hthread, -⟩ := Life.work_cases h
  obtain ⟨hquiet, hstopped⟩ := hrule.noStop hi hl
  refine ⟨?_, ?_, hthread⟩
  · rw [hs']
    exact hquiet
  · rw [hs']
    exact hstopped

/-- One step; `none` if it is not enabled. -/
def step (s : Owned τ) : Label τ → Option (Owned τ)
  | .start nrThreads fds =>
    let r := s.start nrThreads fds
    some { s with
      toGeneralThreadPool := r.1
      launched := s.launched + (threads r.1.m_pool - threads s.m_pool) }
  | .stop => some { s with toGeneralThreadPool := s.stop.1 }
  | .wait =>
    s.wait.map fun q ↦
      { s with
        toGeneralThreadPool := q.1
        joined := s.joined + (threads s.m_pool - threads q.2.2) }
  | .work k l =>
    s.m_pool[k]?.bind fun worker ↦
      if isStop l then none
      else (worker.work l).map fun worker' ↦ { s with m_pool := s.m_pool.set k worker' }

/-- What holds whenever the owner is not inside a call. -/
structure Kept (s : Owned τ) : Prop where
  inStep : ∃ b, InStep b s.m_pool
  noStop : ∀ worker ∈ s.m_pool, worker.toState.NoStop
  /-- A pool that is not in use has no workers. -/
  empty : s.m_nrThreads = 0 → s.m_pool = []
  launched : s.launched = s.joined + threads s.m_pool

omit [DecidableEq τ] in
/-- `start` leaves the pool alone, or fills it. -/
theorem start_cases (p : GeneralThreadPool τ) (nrThreads : UInt64) (fds : ℕ → Bool) :
    (p.start nrThreads fds).1 = p ∨ p.m_nrThreads = 0 ∧ nrThreads ≠ 0 ∧
      (p.start nrThreads fds).1 = { p with
        m_nrThreads := nrThreads
        m_pool := p.m_pool ++ (startWorkers fds 0 nrThreads.toNat).1 } := by
  rw [GeneralThreadPool.start]
  split
  · exact .inl rfl
  · next hunused =>
    split
    · exact .inl rfl
    · next hpos => exact .inr ⟨not_not.mp hunused, fun h0 ↦ hpos (h0 ▸ UInt64.le_refl 0), rfl⟩

theorem Kept.step {s s' : Owned τ} {l : Label τ} (hi : Kept s) (h : s.step l = some s') :
    Kept s' := by
  obtain ⟨⟨b, hpool⟩, hnoStop, hempty, hlaunched⟩ := hi
  cases l with
  | start nrThreads fds =>
    obtain rfl := Option.some_inj.mp h
    rcases start_cases s.toGeneralThreadPool nrThreads fds with hsame | ⟨hunused, hne, hfill⟩
    · simp only [hsame, Nat.sub_self, Nat.add_zero]
      exact ⟨⟨b, hpool⟩, hnoStop, hempty, hlaunched⟩
    · have hnil := hempty hunused
      simp only [hfill, hnil, List.nil_append]
      refine ⟨⟨false, startWorkers_inStep ..⟩, startWorkers_noStop fds 0 _,
        fun h0 ↦ absurd h0 hne, ?_⟩
      simp only [hnil, threads, List.countP_nil] at hlaunched ⊢
      omega
  | stop =>
    obtain rfl := Option.some_inj.mp h
    obtain ⟨hstopped, hcount⟩ := stopWorkers_inStep hpool
    refine ⟨⟨true, hstopped⟩, stopWorkers_noStop hnoStop, fun h0 ↦ ?_, ?_⟩
    · simp [GeneralThreadPool.stop, hempty h0, stopWorkers]
    · rw [GeneralThreadPool.stop, hcount]
      exact hlaunched
  | wait =>
    obtain ⟨q, hq, rfl⟩ := Option.map_eq_some_iff.mp h
    obtain ⟨r, hr, rfl⟩ := Option.map_eq_some_iff.mp hq
    have hnone := waitWorkers_inStep hpool hr
    have hnil : threads ([] : List (Life τ)) = 0 := rfl
    refine ⟨⟨true, .nil⟩, by simp, fun _ ↦ rfl, ?_⟩
    simp only [hnone, hnil]
    omega
  | work k l =>
    obtain ⟨worker, hk, h⟩ := Option.bind_eq_some_iff.mp h
    obtain ⟨hl, h⟩ := Option.ite_none_left_eq_some.mp h
    obtain ⟨worker', hwork, rfl⟩ := Option.map_eq_some_iff.mp h
    have hne : ∀ th, l ≠ .call th .stop := by
      rintro th rfl
      exact hl rfl
    have hmem := List.mem_of_getElem? hk
    obtain ⟨hquiet, hstopped, hthread⟩ := work_noStop hwork (hnoStop worker hmem) hne
    refine ⟨⟨b, hpool.set hk hthread hstopped⟩, fun w hw ↦ ?_, fun h0 ↦ ?_, ?_⟩
    · rcases List.mem_or_eq_of_mem_set hw with hw | rfl
      · exact hnoStop w hw
      · exact hquiet
    · simp [hempty h0] at hmem
    · simp only [threads_set hk hthread]
      exact hlaunched

theorem kept {tr : List (Label τ)} {s : Owned τ} (h : run step init tr = some s) : Kept s :=
  run_invariant ⟨⟨true, .nil⟩, by simp [init, GeneralThreadPool.init], fun _ ↦ rfl, rfl⟩
    (fun _ _ _ hi hs ↦ hi.step hs) h

/-- **Shutting down skips no running worker.**  After every `stop` of the owner all workers of the
pool are stopped, and after every `wait` all threads that the pool has ever launched have been
joined, also if some `start` has failed half-way. -/
theorem shutdown_skips_none {tr : List (Label τ)} {s : Owned τ} (h : run step init tr = some s) :
    (∀ tr', tr = tr' ++ [.stop] → ∀ worker ∈ s.m_pool, worker.m_stopped = true) ∧
      ∀ tr', tr = tr' ++ [.wait] → s.joined = s.launched := by
  constructor
  · rintro tr' rfl
    obtain ⟨s₁, h₁, hs⟩ := run_concat.mp h
    obtain ⟨b, hpool⟩ := (kept h₁).inStep
    obtain rfl := Option.some_inj.mp hs
    exact (stopWorkers_inStep hpool).1.stopped
  · rintro tr' rfl
    obtain ⟨s₁, h₁, hs⟩ := run_concat.mp h
    have hlaunched := (kept h).launched
    obtain ⟨q, hq, rfl⟩ := Option.map_eq_some_iff.mp hs
    obtain ⟨r, -, rfl⟩ := Option.map_eq_some_iff.mp hq
    exact hlaunched.symm

/-- Three workers are asked for and the second fails to start; the first is stopped and joined. -/
def partialStart : List (Label ℕ) :=
  [.start 3 fun i ↦ i ≠ 1, .stop] ++
    (roundStart true ++ roundEnd ++ [GeneralWorker.Label.exit]).map (.work 0) ++ [.wait]

theorem shutdown_skips_none_partialStart : ∃ s, run step init partialStart = some s ∧
    s.launched = 1 ∧ s.joined = s.launched := by
  have hrun : ((run step init partialStart).any fun s ↦ decide (s.launched = 1)) = true := by decide
  obtain ⟨s, hs, hp⟩ := exists_run_of_any hrun
  exact ⟨s, hs, of_decide_eq_true hp, (shutdown_skips_none hs).2 _ rfl⟩

end Owned

end GeneralThreadPool
