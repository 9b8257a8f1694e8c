import CppUtility.Pool.Rest

/-!
# Shutting a pool down loses no task

The owner stops a pool and waits for it while clients may still be at work.  To each worker the
`stop` of the pool is a `stop` like that of any other thread, and so what a worker does after it has
been stopped it does in a pool too.

* **One worker's story.**  `Alive` says that what has become of a worker since it was started is a
  run of its threads, with the owner's `stop` as one of the calls.  `follows` is one step of this
  for the worker at `k`, and `follows_run` a whole run without a `wait`.  The history of the worker
  is not that of the pool, since the five steps of a `stop` are put in where the owner's one step
  is; but the two agree on tasks (`SameTasks`), and that is all that is asked of them.
* **Nothing is lost.**  Between the owner's `start` and its `stop` nobody stops a worker
  (`Running`), and so `GeneralWorker.drained` applies to each of them: every task whose
  `addTask` had returned before the owner's `stop` has been executed when the `wait` returns
  (`shutdown_drains`).
* **The `wait` returns.**  When all workers are stopped, the ranks of the workers bound the steps
  that are left, and a worker that has none left has exited.  The joins of the owner's loop then go
  through one after the other (`wait_returns`), unless a call or a timer keeps a worker busy.
-/

set_option autoImplicit false

open GeneralWorker Transition

variable {τ : Type*}

/-! ## A thread that can call `stop` -/

namespace GeneralWorker

variable [DecidableEq τ]

/-- Some client is not inside a call. -/
theorem exists_idle {tr : List (Label τ)} {s : State τ} (h : run step started tr = some s) :
    ∃ i, s.frame (.client i) = .idle := by
  obtain ⟨busy, hbusy⟩ := exists_busy h
  have hinj : Function.Injective Thread.client := fun _ _ ↦ Thread.client.inj
  obtain ⟨th, ⟨i, rfl⟩, hi⟩ := (Set.infinite_range_of_injective hinj).exists_notMem_finset busy
  exact ⟨i, not_not.mp fun hne ↦ hi (hbusy _ hne)⟩

end GeneralWorker

namespace GeneralThreadPool.Owned

/-! ## What the worker at `k` sees

The owner's `stop` needs a thread that makes the call at the worker.  Which one it is does not
matter, as long as it is in the middle of nothing, and since only finitely many threads are ever in
a call there always is one. -/

/-- The steps of the threads inside the worker at `k`. -/
def workOf (k : ℕ) (tr : List (Label τ)) : List (GeneralWorker.Label τ) :=
  tr.flatMap fun
    | .work k' l => if k' = k then [l] else []
    | _ => []

/-- The two histories agree on the tasks. -/
structure SameTasks (tr tr' : List (GeneralWorker.Label τ)) : Prop where
  pushed : pushedTasks tr' = pushedTasks tr
  executed : executedTasks tr' = executedTasks tr
  returned : returnedTasks tr' = returnedTasks tr

theorem SameTasks.append {tr tr' u u' : List (GeneralWorker.Label τ)} (h : SameTasks tr tr')
    (hu : SameTasks u u') : SameTasks (tr ++ u) (tr' ++ u') := by
  obtain ⟨h1, h2, h3⟩ := h
  obtain ⟨h4, h5, h6⟩ := hu
  refine ⟨by rw [pushedTasks_append, pushedTasks_append, h1, h4], ?_, ?_⟩
  · simp only [executedTasks, List.flatMap_append] at h2 h5 ⊢
    rw [h2, h5]
  · simp only [returnedTasks, taskRets, List.flatMap_append, List.map_append] at h3 h6 ⊢
    rw [h3, h6]

/-- The loop of `stop` stops a worker or passes it by. -/
theorem stopWorkers_get (ok : Bool) (pool : List (Life τ)) (k : ℕ) :
    (stopWorkers ok pool).1[k]? = pool[k]? ∨
      (stopWorkers ok pool).1[k]? = pool[k]?.map fun worker ↦ worker.stop.1 := by
  induction pool generalizing ok k with
  | nil => cases ok <;> exact .inl rfl
  | cons worker pool ih =>
    cases ok with
    | false => rw [stopWorkers_false]; exact .inl rfl
    | true =>
      cases k with
      | zero => exact .inr rfl
      | succ k => exact ih _ k

variable [DecidableEq τ]

/-- The worker has been started once, and what has become of it since then is a run of its
threads. -/
structure Alive (worker : Life τ) (tr : List (GeneralWorker.Label τ)) : Prop where
  attached : worker.detached = none
  run : run GeneralWorker.step started tr = some worker.toState

variable {s s' : Owned τ} {k : ℕ} {worker : Life τ} {l : Label τ}
  {tr : List (GeneralWorker.Label τ)}

/-- The `stop` of a pool is to a worker nothing, or a `stop` of some client. -/
theorem Alive.stop (h : Alive worker tr) :
    ∃ tr', SameTasks [] tr' ∧ Alive worker.stop.1 (tr ++ tr') := by
  cases hrunning : worker.m_stopped with
  | true =>
    refine ⟨[], ⟨rfl, rfl, rfl⟩, ?_⟩
    rw [Life.stop, if_pos hrunning, List.append_nil]
    exact h
  | false =>
    obtain ⟨i, hi⟩ := exists_idle h.run
    obtain ⟨w, -, -, hstop⟩ := Life.stop_running hrunning
    refine ⟨Life.stopSteps (.client i) worker.writable, ⟨rfl, rfl, rfl⟩, ?_,
      run_append.mpr ⟨_, h.run, Life.run_stopSteps hi hrunning⟩⟩
    rw [hstop]
    exact h.attached

/-- **One step of the owner or of a worker, for the worker at `k`**, in a pool that is in use. -/
theorem follows (hused : s.m_nrThreads ≠ 0) (hk : s.m_pool[k]? = some worker)
    (hw : Alive worker tr) (hl : l ≠ .wait) (h : s.step l = some s') :
    ∃ worker' tr', s'.m_nrThreads ≠ 0 ∧ s'.m_pool[k]? = some worker' ∧
      worker'.m_thread = worker.m_thread ∧ SameTasks (workOf k [l]) tr' ∧
      Alive worker' (tr ++ tr') := by
  cases l with
  | wait => exact absurd rfl hl
  | start n fds =>
    obtain rfl := Option.some_inj.mp h
    have hsame : (s.start n fds).1 = s.toGeneralThreadPool := by rw [start, if_pos hused]
    refine ⟨worker, [], ?_, ?_, rfl, ⟨rfl, rfl, rfl⟩, by rw [List.append_nil]; exact hw⟩
    · simpa only [hsame] using hused
    · simpa only [hsame] using hk
  | stop =>
    obtain rfl := Option.some_inj.mp h
    rcases stopWorkers_get true s.m_pool k with hget | hget
    · exact ⟨worker, [], hused, hget.trans hk, rfl, ⟨rfl, rfl, rfl⟩, by
        rw [List.append_nil]; exact hw⟩
    · obtain ⟨tr', htasks, hw'⟩ := hw.stop
      exact ⟨worker.stop.1, tr', hused, by rw [hk] at hget; exact hget,
        (stop_fields worker).2.1, htasks, hw'⟩
  | work k' l =>
    obtain ⟨mover, hmover, h⟩ := Option.bind_eq_some_iff.mp h
    obtain ⟨-, h⟩ := Option.ite_none_left_eq_some.mp h
    obtain ⟨worker', hwork, rfl⟩ := Option.map_eq_some_iff.mp h
    by_cases he : k' = k
    · subst he
      obtain rfl := Option.some_inj.mp (hk.symm.trans hmover)
      have hlt : k' < s.m_pool.length := (List.getElem?_eq_some_iff.mp hk).1
      obtain ⟨hs, hattached⟩ := Clients.work_attached hw.attached hwork
      obtain ⟨-, -, -, -, -, -, hthread, -⟩ := Life.work_cases hwork
      have hself : workOf k' [Label.work k' l] = [l] := by simp [workOf]
      refine ⟨worker', [l], hused, List.getElem?_set_self hlt, hthread, ?_, hattached,
        run_concat.mpr ⟨_, hw.run, hs⟩⟩
      rw [hself]
      exact ⟨rfl, rfl, rfl⟩
    · have hother : workOf k [Label.work k' l] = [] := by simp [workOf, he]
      refine ⟨worker, [], hused, by simpa [he] using hk, rfl, ?_, by
        rw [List.append_nil]; exact hw⟩
      rw [hother]
      exact ⟨rfl, rfl, rfl⟩

omit [DecidableEq τ] in
theorem workOf_append (k : ℕ) (tr tr' : List (Label τ)) :
    workOf k (tr ++ tr') = workOf k tr ++ workOf k tr' := List.flatMap_append

/-- **A run without a `wait`, for the worker at `k`.** -/
theorem follows_run {x : List (Label τ)} (hused : s.m_nrThreads ≠ 0)
    (hk : s.m_pool[k]? = some worker) (hw : Alive worker tr) (hx : .wait ∉ x)
    (h : Transition.run step s x = some s') :
    ∃ worker' tr', s'.m_nrThreads ≠ 0 ∧ s'.m_pool[k]? = some worker' ∧
      worker'.m_thread = worker.m_thread ∧ SameTasks (workOf k x) tr' ∧
      Alive worker' (tr ++ tr') := by
  refine run_induction (P := fun x s' ↦ .wait ∉ x → ∃ worker' tr', s'.m_nrThreads ≠ 0 ∧
    s'.m_pool[k]? = some worker' ∧ worker'.m_thread = worker.m_thread ∧
    SameTasks (workOf k x) tr' ∧ Alive worker' (tr ++ tr')) ?_ ?_ h hx
  · exact fun _ ↦ ⟨worker, [], hused, hk, rfl, ⟨rfl, rfl, rfl⟩, by rw [List.append_nil]; exact hw⟩
  · intro x s₁ l s₂ hr ih hs hx
    obtain ⟨worker₁, tr₁, hused₁, hk₁, hthread₁, htasks₁, hw₁⟩ :=
      ih fun hmem ↦ hx (List.mem_append_left _ hmem)
    obtain ⟨worker₂, tr₂, hused₂, hk₂, hthread₂, htasks₂, hw₂⟩ :=
      follows hused₁ hk₁ hw₁ (fun hl ↦ hx (by simp [hl])) hs
    refine ⟨worker₂, tr₁ ++ tr₂, hused₂, hk₂, hthread₂.trans hthread₁, ?_, ?_⟩
    · rw [workOf_append]
      exact htasks₁.append htasks₂
    · rw [← List.append_assoc]
      exact hw₂

/-! ## What has been added before the owner's `stop` -/

/-- The pool is in use, and nobody stops a worker. -/
structure Running (s : Owned τ) : Prop where
  used : s.m_nrThreads ≠ 0
  running : ∀ worker ∈ s.m_pool, worker.toState.NoStop ∧ worker.m_stopped = false

/-- Only the owner's `stop` and `wait` change that. -/
theorem Running.step (hi : Running s) (hl : l ≠ .stop ∧ l ≠ .wait) (h : s.step l = some s') :
    Running s' := by
  cases l with
  | stop => exact absurd rfl hl.1
  | wait => exact absurd rfl hl.2
  | start n fds =>
    obtain rfl := Option.some_inj.mp h
    have hsame : (s.start n fds).1 = s.toGeneralThreadPool := by rw [start, if_pos hi.used]
    exact ⟨by simpa only [hsame] using hi.used, by simpa only [hsame] using hi.running⟩
  | work k l =>
    obtain ⟨worker, hk, h⟩ := Option.bind_eq_some_iff.mp h
    obtain ⟨hstop, h⟩ := Option.ite_none_left_eq_some.mp h
    obtain ⟨worker', hwork, rfl⟩ := Option.map_eq_some_iff.mp h
    obtain ⟨hquiet, hrunning⟩ := hi.running worker (List.mem_of_getElem? hk)
    have hne : ∀ th, l ≠ .call th .stop := by
      rintro th rfl
      exact hstop rfl
    obtain ⟨hquiet', hstopped, -⟩ := work_noStop hwork hquiet hne
    refine ⟨hi.used, fun w hw ↦ ?_⟩
    rcases List.mem_or_eq_of_mem_set hw with hw | rfl
    · exact hi.running w hw
    · exact ⟨hquiet', hstopped.trans hrunning⟩

theorem Running.run {x : List (Label τ)} (hi : Running s) (hx : ∀ l ∈ x, l ≠ .stop ∧ l ≠ .wait)
    (h : Transition.run Owned.step s x = some s') : Running s' := by
  induction x generalizing s with
  | nil =>
    obtain rfl := Option.some_inj.mp h
    exact hi
  | cons l x ih =>
    obtain ⟨s₁, h1, h2⟩ := run_cons_eq_some.mp h
    obtain ⟨hl, hx⟩ := List.forall_mem_cons.mp hx
    exact ih (hi.step hl h1) hx h2

/-- A `wait` that returns has joined every thread. -/
theorem waitWorkers_exited {b : Bool} {pool : List (Life τ)} (h : InStep b pool)
    {r : List (Life τ) × Bool} (hr : waitWorkers true pool = some r) :
    ∀ worker ∈ pool, worker.m_thread = true → worker.loop = .exited := by
  induction h generalizing r with
  | nil => simp
  | @failed worker hthread hstopped => simp [hthread]
  | @cons worker pool hthread hstopped hpool ih =>
    obtain ⟨worker', hwait, hr⟩ := Option.bind_eq_some_iff.mp hr
    obtain ⟨r', hr', rfl⟩ := Option.map_eq_some_iff.mp hr
    rw [hthread] at hr'
    rw [Life.wait, if_neg (by simp [hthread])] at hwait
    obtain ⟨hexited, -⟩ := Option.ite_none_right_eq_some.mp hwait
    exact List.forall_mem_cons.mpr ⟨fun _ ↦ hexited, ih hr'⟩

/-- What `start` makes of a pool: workers at the beginning of their lives. -/
theorem start_alive {tr₀ : List (Label τ)} {o : Owned τ}
    (hown : Transition.run step init tr₀ = some o) {n : UInt64} {fds : ℕ → Bool}
    (hstart : (o.start n fds).2 = true)
    (h : step o (.start n fds) = some s) : Running s ∧ ∀ k < n.toNat, ∃ worker,
      s.m_pool[k]? = some worker ∧ worker.m_thread = true ∧ Alive worker [] := by
  obtain rfl := Option.some_inj.mp h
  have hjust := Clients.justStarted (c := o.m_nextThread) hown hstart
  have hne : n ≠ 0 := ((start_ok _ n fds).mp hstart).2.1
  have hnr : (o.start n fds).1.m_nrThreads = n := (start_length (kept hown).empty hstart).1
  refine ⟨⟨fun h0 ↦ hne (hnr.symm.trans h0), fun worker hmem ↦ ?_⟩, fun k hk ↦ ?_⟩
  · rw [hjust.fresh worker hmem]
    exact ⟨fun th ↦ ⟨nofun, nofun⟩, rfl⟩
  · have hlt : k < (o.start n fds).1.m_pool.length := hjust.sized.length ▸ hk
    have hget := List.getElem?_eq_getElem hlt
    have hfresh := hjust.fresh _ (List.mem_of_getElem? hget)
    refine ⟨_, hget, ?_, ?_⟩
    · rw [hfresh]
      rfl
    · rw [hfresh]
      exact ⟨rfl, rfl⟩

/-- **Shutting a pool down loses no task.**  Let the owner start a pool, and later stop it and wait
for it, while clients are at work all the time.  When the `wait` returns, every worker has executed
all tasks whose `addTask` there had returned before the owner's `stop`; indeed the tasks that had
been pushed by then are the first ones that it has executed, in order. -/
theorem shutdown_drains {tr₀ x y : List (Label τ)} {o : Owned τ} {n : UInt64} {fds : ℕ → Bool}
    (hown : Transition.run step init tr₀ = some o) (hstart : (o.start n fds).2 = true)
    (hx : ∀ l ∈ x, l ≠ .stop ∧ l ≠ .wait) (hy : .wait ∉ y)
    (h : Transition.run step o (.start n fds :: x ++ .stop :: y ++ [.wait]) = some s) :
    ∀ k < n.toNat, (returnedTasks (workOf k x)).Subperm (executedTasks (workOf k (x ++ y))) ∧
      pushedTasks (workOf k x) <+: executedTasks (workOf k (x ++ y)) := by
  intro k hk
  obtain ⟨s₃, h₃, hwait⟩ := run_concat.mp h
  obtain ⟨s₂, h₂, hstopped⟩ := run_append.mp h₃
  obtain ⟨s₁, hs₁, hx₁⟩ := run_cons_eq_some.mp h₂
  obtain ⟨hrunning₁, halive⟩ := start_alive hown hstart hs₁
  obtain ⟨worker₁, hk₁, hthread₁, hw₁⟩ := halive k hk
  -- up to the owner's `stop` the worker is running
  obtain ⟨worker₂, tr₂, hused₂, hk₂, hthread₂, htasks₂, hw₂⟩ :=
    follows_run hrunning₁.used hk₁ hw₁ (fun hmem ↦ (hx _ hmem).2 rfl) hx₁
  have hrunning₂ : worker₂.m_stopped = false :=
    ((hrunning₁.run hx hx₁).running worker₂ (List.mem_of_getElem? hk₂)).2
  -- and when the `wait` returns its loop has exited
  have hy' : .wait ∉ .stop :: y := by simpa using hy
  obtain ⟨worker₃, tr₃, -, hk₃, hthread₃, htasks₃, hw₃⟩ := follows_run hused₂ hk₂ hw₂ hy' hstopped
  have hexited : worker₃.loop = .exited := by
    obtain ⟨q, hq, -⟩ := Option.map_eq_some_iff.mp hwait
    obtain ⟨r, hr, -⟩ := Option.map_eq_some_iff.mp hq
    have hrun₃ : Transition.run step init (tr₀ ++ (.start n fds :: x ++ .stop :: y)) = some s₃ :=
      run_append.mpr ⟨o, hown, h₃⟩
    obtain ⟨b, hpool⟩ := (kept hrun₃).inStep
    exact waitWorkers_exited hpool hr worker₃ (List.mem_of_getElem? hk₃)
      (hthread₃.trans (hthread₂.trans hthread₁))
  rw [List.nil_append] at hw₂ hw₃
  obtain ⟨w, hw, hrest⟩ := run_append.mp hw₃.run
  obtain rfl := Option.some_inj.mp (hw₂.run.symm.trans hw)
  have hline := tasks_line hw₃.run
  have hdrained := drained hw₂.run hrunning₂ hrest ((exitOrder hw₃.run).exited hexited)
  simp only [hexited, LoopPC.remaining, reduceCtorEq, false_or, List.nil_append, List.length_nil,
    Nat.add_zero] at hline hdrained
  have hpre : pushedTasks tr₂ <+: executedTasks (tr₂ ++ tr₃) :=
    List.prefix_of_prefix_length_le (pushedTasks_mono _ _) ⟨_, hline⟩ hdrained
  have hall : SameTasks (workOf k (x ++ y)) (tr₂ ++ tr₃) := by
    rw [workOf_append]
    exact htasks₂.append htasks₃
  rw [← htasks₂.returned, ← htasks₂.pushed, ← hall.executed]
  exact ⟨(returnedTasks_subperm hw₂.run).trans hpre.sublist.subperm, hpre⟩

/-- A task is added before the owner's `stop`. -/
def addOne : List (Label ℕ) := (addTaskCall (.client 0) 1).map (.work 0)

/-- The worker executes it in the round that sees the flag. -/
def executeOne : List (Label ℕ) :=
  (roundStart true ++ [GeneralWorker.Label.runTask 1, .endTask 1] ++ roundEnd ++
    [GeneralWorker.Label.exit]).map (.work 0)

theorem shutdown_drains_addOne : ∃ s, Transition.run step init
      (.start 1 (fun _ ↦ true) :: addOne ++ .stop :: executeOne ++ [.wait]) = some s ∧
    pushedTasks (workOf 0 addOne) = [1] ∧
    [1] <+: executedTasks (workOf 0 (addOne ++ executeOne)) := by
  have hrun : ((Transition.run step (init : Owned ℕ)
      (.start 1 (fun _ ↦ true) :: addOne ++ .stop :: executeOne ++ [.wait])).any fun _ ↦ true)
      = true := by decide
  obtain ⟨s, hs, -⟩ := exists_run_of_any hrun
  have hown : Transition.run step (init : Owned ℕ) [] = some init := rfl
  have hx : ∀ l ∈ addOne, l ≠ .stop ∧ l ≠ .wait := by
    intro l hl
    obtain ⟨m, -, rfl⟩ := List.mem_map.mp hl
    exact ⟨nofun, nofun⟩
  have hy : .wait ∉ executeOne := by
    intro hmem
    obtain ⟨m, -, hm⟩ := List.mem_map.mp hmem
    cases hm
  exact ⟨s, hs, rfl, (shutdown_drains hown rfl hx hy hs 0 (by decide)).2⟩

/-! ## The owner's `wait` returns

What is known here of the pool is less than before: its workers may be at any point of their lives,
and some of them may never have run.  `Tended` is what is left for each, and `Stopping` what holds
from the `stop` on. -/

/-- What holds of every worker of a pool at any time. -/
structure Tended (worker : Life τ) : Prop where
  attached : worker.detached = none
  alive : worker.m_thread = true → ∃ tr, Alive worker tr

/-- The owner's pool has such workers, and only finitely many threads are in calls there. -/
structure Tidy (s : Owned τ) : Prop where
  tended : ∀ worker ∈ s.m_pool, Tended worker
  busy : ∃ busy : Finset Thread, ∀ worker ∈ s.m_pool, worker.toState.Busy busy

omit [DecidableEq τ] in
/-- The workers that `start` makes are new, with a thread or without. -/
theorem startWorkers_new (fds : ℕ → Bool) (i k : ℕ) :
    ∀ worker ∈ (startWorkers (τ := τ) fds i k).1, ∃ fd, worker = Life.init.start fd := by
  induction k generalizing i with
  | zero => simp [startWorkers]
  | succ k ih =>
    rw [startWorkers]
    cases hok : (Worker.init.start (τ := τ) (fds i)).2 with
    | false =>
      intro worker hmem
      exact ⟨fds i, List.mem_singleton.mp hmem⟩
    | true => exact List.forall_mem_cons.mpr ⟨⟨fds i, rfl⟩, ih (i + 1)⟩

theorem Tended.start (fd : Bool) : Tended (Life.init.start fd : Life τ) := by
  cases fd with
  | true => exact ⟨rfl, fun _ ↦ ⟨[], rfl, rfl⟩⟩
  | false => exact ⟨rfl, fun h ↦ by cases h⟩

omit [DecidableEq τ] in
/-- The workers that a `stop` leaves are those that there were, stopped or not. -/
theorem stopWorkers_mem {ok : Bool} {pool : List (Life τ)} {worker' : Life τ}
    (h : worker' ∈ (stopWorkers ok pool).1) :
    ∃ worker ∈ pool, worker' = worker ∨ worker' = worker.stop.1 := by
  obtain ⟨k, hk⟩ := List.mem_iff_getElem?.mp h
  rcases stopWorkers_get ok pool k with hget | hget
  · exact ⟨worker', List.mem_of_getElem? (hget ▸ hk), .inl rfl⟩
  · obtain ⟨worker, hworker, rfl⟩ := Option.map_eq_some_iff.mp (hget ▸ hk)
    exact ⟨worker, List.mem_of_getElem? hworker, .inr rfl⟩

theorem Tended.stop (h : Tended worker) : Tended worker.stop.1 := by
  obtain ⟨-, hthread, -, -⟩ := stop_fields worker
  refine ⟨?_, fun hth ↦ ?_⟩
  · rw [Life.stop]
    split
    · exact h.attached
    · exact h.attached
  · obtain ⟨tr, htr⟩ := h.alive (hthread ▸ hth)
    obtain ⟨tr', -, hstop⟩ := htr.stop
    exact ⟨_, hstop⟩

theorem Tended.work {worker' : Life τ} {l : GeneralWorker.Label τ} (h : Tended worker)
    (hwork : worker.work l = some worker') : Tended worker' := by
  obtain ⟨hs, hattached⟩ := Clients.work_attached h.attached hwork
  obtain ⟨-, -, -, -, -, -, hthread, -⟩ := Life.work_cases hwork
  refine ⟨hattached, fun hth ↦ ?_⟩
  obtain ⟨tr, htr⟩ := h.alive (hthread ▸ hth)
  exact ⟨tr ++ [l], hattached, run_concat.mpr ⟨_, htr.run, hs⟩⟩

theorem Tidy.step (hi : Tidy s) (h : Owned.step s l = some s') : Tidy s' := by
  obtain ⟨htended, busy, hbusy⟩ := hi
  cases l with
  | start n fds =>
    obtain rfl := Option.some_inj.mp h
    rcases start_cases s.toGeneralThreadPool n fds with hsame | ⟨-, -, hpool⟩
    · exact ⟨by simpa only [hsame] using htended, busy, by simpa only [hsame] using hbusy⟩
    · refine ⟨fun worker hmem ↦ ?_, busy, fun worker hmem ↦ ?_⟩
      · rw [hpool] at hmem
        rcases List.mem_append.mp hmem with hold | hnew
        · exact htended worker hold
        · obtain ⟨fd, rfl⟩ := startWorkers_new fds 0 _ worker hnew
          exact .start fd
      · rw [hpool] at hmem
        rcases List.mem_append.mp hmem with hold | hnew
        · exact hbusy worker hold
        · obtain ⟨fd, rfl⟩ := startWorkers_new fds 0 _ worker hnew
          intro th hth
          cases fd <;> exact absurd rfl hth
  | stop =>
    obtain rfl := Option.some_inj.mp h
    refine ⟨fun worker' hmem ↦ ?_, busy, fun worker' hmem ↦ ?_⟩
    · obtain ⟨worker, hworker, rfl | rfl⟩ := stopWorkers_mem hmem
      · exact htended _ hworker
      · exact (htended _ hworker).stop
    · obtain ⟨worker, hworker, rfl | rfl⟩ := stopWorkers_mem hmem
      · exact hbusy _ hworker
      · intro th hth
        rw [(stop_fields worker).2.2.1] at hth
        exact hbusy worker hworker th hth
  | wait =>
    obtain ⟨q, hq, rfl⟩ := Option.map_eq_some_iff.mp h
    obtain ⟨r, -, rfl⟩ := Option.map_eq_some_iff.mp hq
    exact ⟨by simp, busy, by simp⟩
  | work k l =>
    obtain ⟨worker, hk, h⟩ := Option.bind_eq_some_iff.mp h
    obtain ⟨-, h⟩ := Option.ite_none_left_eq_some.mp h
    obtain ⟨worker', hwork, rfl⟩ := Option.map_eq_some_iff.mp h
    have hmem := List.mem_of_getElem? hk
    have hrule := rule_of_step (Clients.work_attached (htended worker hmem).attached hwork).1
    obtain ⟨busy', hsub, hbusy'⟩ := busy_step hrule (hbusy worker hmem)
    refine ⟨fun w hw ↦ ?_, busy', fun w hw ↦ ?_⟩
    · rcases List.mem_or_eq_of_mem_set hw with hw | rfl
      · exact htended w hw
      · exact (htended worker hmem).work hwork
    · rcases List.mem_or_eq_of_mem_set hw with hw | rfl
      · exact fun th hth ↦ hsub (hbusy w hw th hth)
      · exact hbusy'

theorem tidy {tr : List (Label τ)} (h : Transition.run step init tr = some s) : Tidy s :=
  run_invariant ⟨by simp [init, GeneralThreadPool.init], ∅, by simp [init, GeneralThreadPool.init]⟩
    (fun _ _ _ hi hs ↦ hi.step hs) h

/-- The step goes on with something that has been begun inside a worker. -/
def Label.goesOn : Label τ → Bool
  | .work _ l => l.goesOn
  | _ => false

/-- What holds between a `stop` and the return of the `wait`. -/
structure Stopping (busy : Finset Thread) (s : Owned τ) : Prop where
  tended : ∀ worker ∈ s.m_pool, Tended worker
  busy : ∀ worker ∈ s.m_pool, worker.toState.Busy busy
  stopped : ∀ worker ∈ s.m_pool, worker.m_stopped = true

/-- **Every step that goes on with something leaves less to do**, and takes no `stop` back. -/
theorem Stopping.step {busy : Finset Thread} (hi : Stopping busy s) (hl : l.goesOn = true)
    (h : Owned.step s l = some s') : Stopping busy s' ∧
      Clients.poolRank busy s'.m_pool < Clients.poolRank busy s.m_pool := by
  cases l with
  | start | stop | wait => cases hl
  | work k l =>
    obtain ⟨worker, hk, h⟩ := Option.bind_eq_some_iff.mp h
    obtain ⟨-, h⟩ := Option.ite_none_left_eq_some.mp h
    obtain ⟨worker', hwork, rfl⟩ := Option.map_eq_some_iff.mp h
    have hmem := List.mem_of_getElem? hk
    have hrule := rule_of_step (Clients.work_attached (hi.tended worker hmem).attached hwork).1
    obtain ⟨hbusy, hless⟩ := hrule.rank (hi.busy worker hmem) hl
    have hset := Clients.poolRank_set hk busy worker'
    refine ⟨⟨fun w hw ↦ ?_, fun w hw ↦ ?_, fun w hw ↦ ?_⟩, ?_⟩
    · rcases List.mem_or_eq_of_mem_set hw with hw | rfl
      · exact hi.tended w hw
      · exact (hi.tended worker hmem).work hwork
    · rcases List.mem_or_eq_of_mem_set hw with hw | rfl
      · exact hi.busy w hw
      · exact hbusy
    · rcases List.mem_or_eq_of_mem_set hw with hw | rfl
      · exact hi.stopped w hw
      · exact hrule.keeps.stopped (hi.stopped worker hmem)
    · show Clients.poolRank busy (s.m_pool.set k worker') < _
      omega

/-- The loop of `wait` gets through when the loops have exited. -/
theorem waitWorkers_isSome {ok : Bool} {pool : List (Life τ)}
    (h : ∀ worker ∈ pool, worker.m_thread = true → worker.loop = .exited) :
    (waitWorkers ok pool).isSome = true := by
  induction pool generalizing ok with
  | nil => cases ok <;> rfl
  | cons worker pool ih =>
    obtain ⟨hworker, hpool⟩ := List.forall_mem_cons.mp h
    cases ok with
    | false =>
      rw [waitWorkers, Option.isSome_map]
      exact ih hpool
    | true =>
      obtain ⟨worker', hwait⟩ : ∃ worker', worker.wait = some worker' := by
        cases hthread : worker.m_thread with
        | false => exact ⟨worker, by simp [Life.wait, hthread]⟩
        | true => exact ⟨_, by rw [Life.wait, if_neg (by simp [hthread]), if_pos (hworker hthread)]⟩
      rw [waitWorkers, hwait, Option.bind_some, Option.isSome_map]
      exact ih hpool

/-- **The owner's `wait` returns.**  In a pool whose workers are all stopped, let no call begin and
no timer fire any more.  There is a bound on the number of steps that the threads of the workers
take from there, in whatever order they do; and when no such step is left, a `wait` of the owner
returns. -/
theorem wait_returns {tr : List (Label τ)} (h : Transition.run step init tr = some s)
    (hstopped : ∀ worker ∈ s.m_pool, worker.m_stopped = true) :
    ∃ bound, ∀ (x : List (Label τ)) (s' : Owned τ), (∀ l ∈ x, l.goesOn = true) →
      Transition.run step s x = some s' → x.length ≤ bound ∧
      ((∀ l, l.goesOn = true → step s' l = none) → ∃ s'', step s' .wait = some s'') := by
  obtain ⟨htended, busy, hbusy⟩ := tidy h
  refine ⟨Clients.poolRank busy s.m_pool, fun x s' hgoes h' ↦ ?_⟩
  obtain ⟨hstopping, hle⟩ := rank_add_length_le (P := Stopping busy)
    (c := fun l : Label τ ↦ l.goesOn = true) ⟨htended, hbusy, hstopped⟩
    (fun s l s' hi hl hs ↦ hi.step hl hs) hgoes h'
  refine ⟨by omega, fun hend ↦ ?_⟩
  have hexited : ∀ worker ∈ s'.m_pool, worker.m_thread = true → worker.loop = .exited := by
    intro worker hmem hthread
    obtain ⟨k, hk⟩ := List.mem_iff_getElem?.mp hmem
    obtain ⟨tr', hattached, hrun⟩ := (hstopping.tended worker hmem).alive hthread
    have hrest : worker.toState.AtRest := by
      refine (atRest_or_canGoOn hrun).resolve_right ?_
      rintro ⟨l, w, hl, hs⟩
      have hstop : isStop l = false := by cases l <;> first | rfl | cases hl
      have hfires : l.fires = none := by cases l <;> first | rfl | cases hl
      have hnone := hend (.work k l) hl
      simp [step, hk, hstop, Life.work, hattached, hfires, hs] at hnone
    exact (hrest.done hrun).2 (hstopping.stopped worker hmem)
  obtain ⟨r, hr⟩ := Option.isSome_iff_exists.mp (@waitWorkers_isSome τ _ true _ hexited)
  exact ⟨_, by rw [step, wait, hr, Option.map_some, Option.map_some]⟩

/-- The pool is stopped before its worker has executed the task. -/
def stopEarly : List (Label ℕ) := .start 1 (fun _ ↦ true) :: addOne ++ [.stop]

theorem wait_returns_stopEarly : ∃ s bound, Transition.run step init stopEarly = some s ∧
    ∀ (x : List (Label ℕ)) (s' : Owned ℕ), (∀ l ∈ x, l.goesOn = true) →
      Transition.run step s x = some s' → x.length ≤ bound ∧
      ((∀ l, l.goesOn = true → step s' l = none) → ∃ s'', step s' .wait = some s'') := by
  have hrun : ((Transition.run step init stopEarly).any fun s ↦
      s.m_pool.all fun worker ↦ worker.m_stopped) = true := by decide
  obtain ⟨s, hs, hp⟩ := exists_run_of_any hrun
  obtain ⟨bound, hbound⟩ := wait_returns hs (List.all_eq_true.mp hp)
  exact ⟨s, bound, hs, hbound⟩

end GeneralThreadPool.Owned
