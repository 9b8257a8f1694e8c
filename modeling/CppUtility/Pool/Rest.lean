import CppUtility.Pool.Tasks

/-!
# A pool comes to rest

When the clients of a pool begin no more calls and no timer fires, then every call that is under way
comes to its worker and returns, and every worker comes to rest by itself, in whatever order all
this happens.

* **There is an end.**  Each worker has a rank that its own steps lower
  (`CppUtility.Worker.Settle`), and the rank of a pool is the sum of these, and something for each
  call under way.  A call that comes to its worker makes work there: it gives the worker a task and
  rings its eventfd, which costs a round.  `rank_perform` says how much that is, and `callRank` is
  one more, so that the step as a whole still lowers the rank.
* **Nobody gets stuck.**  A worker that is not at rest can take a step, which is what `Settle` knows
  of a single worker; and a call under way can be made as soon as nobody holds the lock of its
  worker, and whoever holds it can take a step.  So in a state without further steps everything is
  done (`rest_of_stuck`).
* **Every task is executed.**  At rest nothing is left in the queues, and so the tasks in order are
  the tasks executed (`seen_tasks`), worker by worker.  All together they are those that the
  clients have handed in, since nobody holds a call any more.

There is no fairness in `comes_to_rest`.  The bound is on the steps of any order whatsoever.
-/

set_option autoImplicit false

open GeneralWorker Transition

variable {τ : Type*}

namespace GeneralThreadPool.Clients

/-! ## What there is left to do -/

/-- The step goes on with something that has been begun. -/
def Label.goesOn : Label τ → Bool
  | .pick _ _ => false
  | .perform _ _ => true
  | .purge _ => false
  | .work _ l => l.goesOn

/-- What a call under way may cost. -/
def callRank : Option (UInt64 × Call τ) → ℕ
  | none => 0
  | some _ => 15

/-- What the workers have left to do, when all threads inside calls at them are in `busy`. -/
def poolRank (busy : Finset Thread) (pool : List (Life τ)) : ℕ :=
  (pool.map fun worker ↦ worker.toState.rank busy).sum

/-- What is left to do, when all clients with a call under way are in `waiting`. -/
def rank (waiting : Finset ℕ) (s : Clients τ) : ℕ :=
  (∑ i ∈ waiting, callRank (s.calls i)) + poolRank ∅ s.m_pool

/-- Replacing a worker replaces its summand. -/
theorem poolRank_set {pool : List (Life τ)} {k : ℕ} {worker : Life τ} (hk : pool[k]? = some worker)
    (busy : Finset Thread) (worker' : Life τ) :
    poolRank busy (pool.set k worker') + worker.toState.rank busy
      = poolRank busy pool + worker'.toState.rank busy := by
  induction pool generalizing k with
  | nil => cases hk
  | cons w pool ih =>
    cases k with
    | zero =>
      obtain rfl := Option.some_inj.mp hk
      simp only [poolRank, List.set_cons_zero, List.map_cons, List.sum_cons]
      omega
    | succ k =>
      have hrest := ih hk
      simp only [poolRank, List.set_cons_succ, List.map_cons, List.sum_cons] at hrest ⊢
      omega

/-- A call costs the worker one task and one round. -/
theorem rank_perform {s : State τ} {w : Worker τ} {c : Call τ} {r : Ret τ}
    (h : s.toWorker.perform c = some (w, r)) :
    ({ s with toWorker := w } : State τ).rank ∅ ≤ s.rank ∅ + 14 := by
  obtain ⟨w₁, hpush, hsame⟩ := perform_eq h
  have hqueue : w.queueRank = w₁.queueRank := by rw [hsame]; rfl
  have hpushed := pushSection_queueRank hpush
  have hring := ({ s with toWorker := w } : State τ).ringRank_le
  simp only [State.rank, Finset.sum_empty, hqueue]
  omega

/-- Every worker is between calls, and the clients in `waiting` are all that have one under way. -/
structure Waiting (waiting : Finset ℕ) (s : Clients τ) : Prop where
  atWork : ∀ worker ∈ s.m_pool, AtWork worker
  calls : ∀ i, s.calls i ≠ none → i ∈ waiting

variable [DecidableEq τ]

/-- Workers stay between calls. -/
theorem atWork_step {s s' : Clients τ} {l : Label τ} (h : s.step l = some s')
    (hlength : s'.m_pool.length = s.m_pool.length) (hi : ∀ worker ∈ s.m_pool, AtWork worker) :
    ∀ worker ∈ s'.m_pool, AtWork worker := by
  intro worker' hmem
  obtain ⟨k, hk⟩ := List.mem_iff_getElem?.mp hmem
  have hlt : k < s.m_pool.length := hlength ▸ (List.getElem?_eq_some_iff.mp hk).1
  obtain ⟨w, hw, hwork, -⟩ :=
    run_seenAt (List.getElem?_eq_getElem hlt) (hi _ (List.getElem_mem hlt)) h
  obtain rfl := Option.some_inj.mp (hk.symm.trans hw)
  exact hwork

/-- **Every step that goes on with something leaves less to do.** -/
theorem Waiting.step {s s' : Clients τ} {l : Label τ} {n : ℕ} {waiting : Finset ℕ}
    (hs : Sized n s) (hi : Waiting waiting s) (hl : l.goesOn = true) (h : s.step l = some s') :
    Waiting waiting s' ∧ s'.rank waiting < s.rank waiting := by
  have hwork := atWork_step h ((hs.step h).length.trans hs.length.symm) hi.atWork
  cases l with
  | pick i c => cases hl
  | purge id => cases hl
  | perform i r =>
    obtain ⟨call, hcall, h⟩ := Option.bind_eq_some_iff.mp h
    obtain ⟨⟨p', r'⟩, hq, h⟩ := Option.bind_eq_some_iff.mp h
    obtain ⟨-, rfl⟩ := Option.ite_none_right_eq_some.mp h |>.imp_right Option.some_inj.mp
    obtain ⟨worker, w, hk, -, hperform, hpool⟩ := performAt_cases hq
    have hin : i ∈ waiting := hi.calls i (by simp [hcall])
    refine ⟨⟨hwork, fun j hj ↦ ?_⟩, ?_⟩
    · by_cases he : j = i
      · exact he ▸ hin
      · exact hi.calls j (by simpa [he] using hj)
    · have hsum := sum_update s.calls callRank hin none
      have hset := poolRank_set hk ∅ { worker with toWorker := w }
      have hless : ({ worker with toWorker := w } : Life τ).toState.rank ∅
          ≤ worker.toState.rank ∅ + 14 := rank_perform hperform
      have hpaid : callRank (some call) = 15 := rfl
      have hdone : callRank (none : Option (UInt64 × Call τ)) = 0 := rfl
      rw [hcall, hpaid, hdone] at hsum
      simp only [rank, hpool]
      omega
  | work k l =>
    obtain ⟨worker, hk, h⟩ := Option.bind_eq_some_iff.mp h
    obtain ⟨-, h⟩ := Option.ite_none_left_eq_some.mp h
    obtain ⟨worker', hwork', rfl⟩ := Option.map_eq_some_iff.mp h
    refine ⟨⟨hwork, hi.calls⟩, ?_⟩
    have hatWork := hi.atWork worker (List.mem_of_getElem? hk)
    have hrule := rule_of_step (work_attached hatWork.attached hwork').1
    have hbusy : worker.toState.Busy ∅ := fun th hth ↦ absurd (hatWork.idle th) hth
    have hless := (hrule.rank hbusy hl).2
    have hset := poolRank_set hk ∅ worker'
    simp only [rank]
    omega

/-! ## Nobody gets stuck -/

/-- A step that a worker can take by itself is one of the pool. -/
theorem step_work {s : Clients τ} {k : ℕ} {worker : Life τ} {l : GeneralWorker.Label τ}
    {s' : State τ} (hk : s.m_pool[k]? = some worker) (hw : AtWork worker) (hl : l.goesOn = true)
    (h : GeneralWorker.step worker.toState l = some s') : (s.step (.work k l)).isSome = true := by
  have hcall : isCall l = false := by cases l <;> first | rfl | cases hl
  have hfires : l.fires = none := by cases l <;> first | rfl | cases hl
  simp [step, hk, hcall, Life.work, hw.attached, hfires, h]

/-- A call under way comes to its worker as soon as nobody holds the lock there. -/
theorem step_perform {s : Clients τ} {i : ℕ} {call : UInt64 × Call τ} {worker : Life τ}
    (hcall : s.calls i = some call) (hdist : distributed call.2 = true)
    (hk : s.m_pool[call.1.toNat]? = some worker) (hfree : worker.m_lock = none) :
    ∃ r, (s.step (.perform i r)).isSome = true := by
  obtain ⟨q, hq⟩ : ∃ q, worker.toWorker.perform call.2 = some q := by
    rw [Worker.perform]
    cases hc : call.2 with
    | addTask t | addDelayTask ms t | addRepeatTask ms t => exact ⟨_, rfl⟩
    | purgeTimerTask id | stop =>
      rw [hc] at hdist
      cases hdist
  refine ⟨result call.1 q.2, ?_⟩
  simp [step, hcall, performAt, hk, hfree, hq]

section Runs

variable {s₀ s : Clients τ} {tr : List (Label τ)} {n : ℕ}

/-- **There is no deadlock**: when no step is enabled that goes on with something, the calls have
come to their workers, and the workers are at rest. -/
theorem rest_of_stuck (h₀ : JustStarted s₀ n) (h : run step s₀ tr = some s)
    (hend : ∀ l, l.goesOn = true → step s l = none) : (∀ i, s.calls i = none) ∧
      ∀ (k : ℕ) (worker : Life τ), s.m_pool[k]? = some worker → worker.toState.AtRest := by
  have hstuck : ∀ (k : ℕ) (worker : Life τ), s.m_pool[k]? = some worker →
      ¬ worker.toState.CanGoOn := by
    rintro k worker hk ⟨l, s', hl, hs⟩
    have hsome := step_work hk (run_seen h₀ h hk).1 hl hs
    rw [hend (.work k l) hl] at hsome
    cases hsome
  refine ⟨fun i ↦ ?_, fun k worker hk ↦ ?_⟩
  · by_contra hne
    obtain ⟨call, hcall⟩ := Option.ne_none_iff_exists'.mp hne
    have hsized := sized h₀.sized h
    obtain ⟨hlt, hdist⟩ := hsized.picked i call hcall
    obtain ⟨worker, hk⟩ : ∃ worker, s.m_pool[call.1.toNat]? = some worker :=
      ⟨_, List.getElem?_eq_getElem (hsized.length ▸ hlt)⟩
    have hfree : worker.m_lock = none := by
      by_contra hheld
      obtain ⟨th, hth⟩ := Option.ne_none_iff_exists'.mp hheld
      exact hstuck _ _ hk (canGoOn_of_held (lockHeld (run_seen h₀ h hk).2) hth)
    obtain ⟨r, hr⟩ := step_perform hcall hdist hk hfree
    rw [hend (.perform i r) rfl] at hr
    cases hr
  · exact (atRest_or_canGoOn (run_seen h₀ h hk).2).resolve_right (hstuck k worker hk)

/-! ## Every task is executed

The books are kept worker by worker, and the theorem is about all of them.  Entries with an index
that no worker has would be lost between the two, so that there are none has to be said
(`executed_lt`, `received_lt`). -/

/-- Tasks are executed by workers that there are. -/
theorem executed_lt (h₀ : JustStarted s₀ n) (h : run step s₀ tr = some s) :
    ∀ e ∈ executed tr, e.1 < n := by
  intro e hmem
  obtain ⟨l, hl, he⟩ := List.mem_flatMap.mp hmem
  clear hmem
  obtain ⟨tr₁, tr₂, rfl⟩ := List.append_of_mem hl
  obtain ⟨s₁, h₁, h₂⟩ := run_append.mp h
  obtain ⟨s₂, hs, -⟩ := run_cons_eq_some.mp h₂
  cases l with
  | work k l =>
    obtain ⟨t, -, rfl⟩ := List.mem_map.mp he
    obtain ⟨worker, hk, -⟩ := Option.bind_eq_some_iff.mp hs
    exact (sized h₀.sized h₁).length ▸ (List.getElem?_eq_some_iff.mp hk).1
  | _ => cases he

/-- And they are received by such workers. -/
theorem received_lt (h₀ : JustStarted s₀ n) (h : run step s₀ tr = some s) :
    ∀ e ∈ tasks (received s₀ tr), e.1 < n := by
  have hlt : ∀ e ∈ received s₀ tr, e.2.1.toNat < n := by
    refine run_induction (P := fun tr _ ↦ ∀ e ∈ received s₀ tr, e.2.1.toNat < n) (by
      simp [received, emitted]) ?_ h
    intro tr s l s' hr ih hs e he
    rw [received_concat hr] at he
    rcases List.mem_append.mp he with he | he
    · exact ih e he
    · cases l with
      | perform i r =>
        obtain ⟨call, hcall, rfl⟩ := List.mem_map.mp he
        exact ((sized h₀.sized hr).picked i call (Option.mem_toList.mp hcall)).1
      | _ => cases he
  intro e he
  obtain ⟨call, hcall, he⟩ := List.mem_filterMap.mp he
  obtain ⟨t, -, rfl⟩ := Option.map_eq_some_iff.mp he
  exact hlt call hcall

/-- Entries are the tasks of their workers. -/
theorem count_ofWorker (l : List (ℕ × τ)) (k : ℕ) (t : τ) :
    l.count (k, t) = (ofWorker k l).count t := by
  induction l with
  | nil => rfl
  | cons e l ih =>
    obtain ⟨k', t'⟩ := e
    by_cases hk : k' = k
    · by_cases ht : t' = t <;> simp_all [ofWorker]
    · simp_all [ofWorker]

/-- A call that is under way has been before, or begins in this step. -/
theorem calls_back {s s' : Clients τ} {l : Label τ} (h : s.step l = some s') {j : ℕ}
    (hj : s'.calls j ≠ none) : s.calls j ≠ none ∨ ∃ c, l = .pick j c := by
  cases l with
  | pick i c =>
    obtain ⟨-, rfl⟩ := Option.ite_none_right_eq_some.mp h |>.imp_right Option.some_inj.mp
    by_cases he : j = i
    · exact .inr ⟨c, he ▸ rfl⟩
    · exact .inl (by simpa [he] using hj)
  | perform i r =>
    obtain ⟨call, -, h⟩ := Option.bind_eq_some_iff.mp h
    obtain ⟨q, -, h⟩ := Option.bind_eq_some_iff.mp h
    obtain ⟨-, rfl⟩ := Option.ite_none_right_eq_some.mp h |>.imp_right Option.some_inj.mp
    by_cases he : j = i
    · simp [he] at hj
    · exact .inl (by simpa [he] using hj)
  | purge id =>
    obtain ⟨q, -, rfl⟩ := Option.map_eq_some_iff.mp h
    exact .inl hj
  | work k l =>
    obtain ⟨worker, -, h⟩ := Option.bind_eq_some_iff.mp h
    obtain ⟨-, h⟩ := Option.ite_none_left_eq_some.mp h
    obtain ⟨worker', -, rfl⟩ := Option.map_eq_some_iff.mp h
    exact .inl hj

/-- Only finitely many clients have a call under way. -/
theorem exists_waiting (h₀ : JustStarted s₀ n) (h : run step s₀ tr = some s) :
    ∃ waiting, Waiting waiting s := by
  have hatWork : ∀ worker ∈ s.m_pool, AtWork worker := by
    intro worker hmem
    obtain ⟨k, hk⟩ := List.mem_iff_getElem?.mp hmem
    exact (run_seen h₀ h hk).1
  have hcalls : ∃ waiting : Finset ℕ, ∀ i, s.calls i ≠ none → i ∈ waiting := by
    refine run_invariant (P := fun s : Clients τ ↦
      ∃ waiting : Finset ℕ, ∀ i, s.calls i ≠ none → i ∈ waiting)
      ⟨∅, fun i hi ↦ absurd (h₀.calls i) hi⟩ ?_ h
    rintro s l s' ⟨waiting, hwaiting⟩ hs
    cases l with
    | pick i c =>
      refine ⟨insert i waiting, fun j hj ↦ ?_⟩
      rcases calls_back hs hj with hold | ⟨c', hc'⟩
      · exact Finset.mem_insert_of_mem (hwaiting j hold)
      · exact (Label.pick.inj hc').1 ▸ Finset.mem_insert_self i waiting
    | perform | purge | work =>
      refine ⟨waiting, fun j hj ↦ hwaiting j ((calls_back hs hj).resolve_right ?_)⟩
      rintro ⟨c', hc'⟩
      cases hc'
  exact hcalls.imp fun waiting hwaiting ↦ ⟨hatWork, hwaiting⟩

/-- **A pool comes to rest.**  In a run of the clients of a pool that its owner has started, let no
client begin a call and no timer fire after some point.  There is a bound on the number of steps
from there, in whatever order the clients and the workers move; and when no such step is left, all
calls have returned, every worker waits in its loop with nothing in its queues, and the tasks that
have been executed are exactly those that the clients have ever handed in, each at the worker that
it was given. -/
theorem comes_to_rest {tr₀ : List (Owned.Label τ)} {o : Owned τ}
    (hown : run Owned.step Owned.init tr₀ = some o) {c m : UInt64} {fds : ℕ → Bool}
    (hstart : ((counterAt o c).start m fds).2 = true)
    (h : run step (startedAt o c m fds) tr = some s) :
    ∃ bound, ∀ (tr' : List (Label τ)) (s' : Clients τ), (∀ l ∈ tr', l.goesOn = true) →
      run step s tr' = some s' → tr'.length ≤ bound ∧
      ((∀ l, l.goesOn = true → step s' l = none) → (∀ i, s'.calls i = none) ∧
        (∀ worker ∈ s'.m_pool, worker.loop = .dispatch ∧ ∀ q, ¬ worker.hasPending q) ∧
        (executed (tr ++ tr')).Perm (tasks (picked (startedAt o c m fds) (tr ++ tr')))) := by
  have h₀ := justStarted hown hstart
  have hsized := sized h₀.sized h
  obtain ⟨waiting, hwaiting⟩ := exists_waiting h₀ h
  refine ⟨s.rank waiting, fun tr' s' hgoes h' ↦ ⟨?_, fun hend ↦ ?_⟩⟩
  · have hle := (rank_add_length_le (P := fun s ↦ Sized m.toNat s ∧ Waiting waiting s)
      (c := fun l : Label τ ↦ l.goesOn = true) ⟨hsized, hwaiting⟩
      (fun s l s' ⟨hs, hi⟩ hl hstep ↦ ⟨⟨hs.step hstep, (hi.step hs hl hstep).1⟩,
        (hi.step hs hl hstep).2⟩) hgoes h').2
    omega
  · have hrun : run step (startedAt o c m fds) (tr ++ tr') = some s' := run_append.mpr ⟨s, h, h'⟩
    obtain ⟨hcalls, hrest⟩ := rest_of_stuck h₀ hrun hend
    have hdone : ∀ (k : ℕ) (worker : Life τ), s'.m_pool[k]? = some worker →
        worker.loop = .dispatch ∧ (∀ q, ¬ worker.hasPending q) ∧
        executedTasks (seen k (startedAt o c m fds) (tr ++ tr'))
          = pushedTasks (seen k (startedAt o c m fds) (tr ++ tr')) := by
      intro k worker hk
      obtain ⟨hwork, hseen⟩ := run_seen h₀ hrun hk
      exact ((hrest k worker hk).done hseen).1 hwork.running
    refine ⟨hcalls, fun worker hmem ↦ ?_, ?_⟩
    · obtain ⟨k, hk⟩ := List.mem_iff_getElem?.mp hmem
      exact ⟨(hdone k worker hk).1, (hdone k worker hk).2.1⟩
    · have hperm := ((received_perm_iff h₀.calls hrun).mpr hcalls).filterMap
        fun e ↦ (taskOf e.2.2).map (e.2.1.toNat, ·)
      refine List.Perm.trans (List.perm_iff_count.mpr fun e ↦ ?_) hperm
      obtain ⟨k, t⟩ := e
      show (executed (tr ++ tr')).count (k, t)
        = (tasks (received (startedAt o c m fds) (tr ++ tr'))).count (k, t)
      by_cases hk : k < m.toNat
      · obtain ⟨hexecuted, hpushed⟩ := seen_tasks h₀ hrun hk
        have hget := List.getElem?_eq_getElem ((sized h₀.sized hrun).length ▸ hk)
        rw [count_ofWorker, count_ofWorker, ← hexecuted, ← hpushed, (hdone k _ hget).2.2]
      · rw [List.count_eq_zero_of_not_mem fun he ↦ hk (executed_lt h₀ hrun _ he),
          List.count_eq_zero_of_not_mem fun he ↦ hk (received_lt h₀ hrun _ he)]

end Runs

/-- Two clients have taken a worker each; one of them has come to it with its task. -/
def underWay : List (Label ℕ) :=
  [.pick 0 (.addTask 5), .pick 1 (.addTask 6), .perform 1 (.future 6)]

theorem comes_to_rest_underWay : ∃ s bound,
    run step (startedAt Owned.init 0 2 fun _ ↦ true) underWay = some s ∧
    ∀ (tr' : List (Label ℕ)) (s' : Clients ℕ), (∀ l ∈ tr', l.goesOn = true) →
      run step s tr' = some s' → tr'.length ≤ bound ∧
      ((∀ l, l.goesOn = true → step s' l = none) → ∀ i, s'.calls i = none) := by
  have hrun : ((run step (startedAt Owned.init 0 2 fun _ ↦ true) underWay).any fun _ ↦ true)
      = true := by decide
  obtain ⟨s, hs, -⟩ := exists_run_of_any hrun
  have hown : run Owned.step (Owned.init : Owned ℕ) [] = some Owned.init := rfl
  have hstart : ((counterAt (Owned.init : Owned ℕ) 0).start 2 fun _ ↦ true).2 = true := rfl
  obtain ⟨bound, hbound⟩ := comes_to_rest hown hstart hs
  refine ⟨s, bound, hs, fun tr' s' hgoes h' ↦ ?_⟩
  obtain ⟨hle, hend⟩ := hbound tr' s' hgoes h'
  exact ⟨hle, fun hnone ↦ (hend hnone).1⟩

end GeneralThreadPool.Clients
