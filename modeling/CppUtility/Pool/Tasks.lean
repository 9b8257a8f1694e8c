import CppUtility.Pool.Shutdown
import CppUtility.Pool.Turns
import CppUtility.Worker.Settle

/-!
# What becomes of the tasks of a pool

A pool is a row of workers that know nothing of each other.  What happens in a run of its clients
is, seen from one worker, a run of that worker (`run_seen`): a client's call comes to it as the five
steps of `CppUtility.Worker.Step`, and the steps of the other workers do not come to it at all.  So
what is known of a single worker holds in the pool.

* **A call in steps.**  `run_callSteps` says that `Worker.perform` is what a call does in five steps
  of the worker, if no other thread is inside a call there.  In a pool no other is, since the calls
  of the clients are whole steps; the worker's own thread can be anywhere.
* **What a worker sees.**  `seenAt` gives for each step of the pool the steps of the worker at `k`,
  and `seen` for each run.  This is a projection in the sense of `CppUtility.Transition`, and
  `run_seenAt` is the one step of it.
* **Reading a history.**  Whatever is read off the steps that a worker sees is read off its own
  steps and off the calls that come to it (`seenAt_flatMap`).  Tasks pushed are of the second kind,
  tasks executed of the first kind, and so `seen_own` and `seen_calls` bring the books of one worker
  to those of the pool.

The result is `tasks_in_order`: every worker executes the tasks that it receives, in the order in
which they come.  `CppUtility.Pool.Share` counts them with the same lemmas, and
`CppUtility.Pool.Rest` says that none is left behind.
-/

set_option autoImplicit false

open GeneralWorker Transition

variable {τ : Type*}

/-! ## A whole call, as steps of the worker -/

namespace GeneralWorker

/-- The steps of a call at `w` that pushes. -/
def callSteps (th : Thread) (w : Worker τ) (c : Call τ) : List (Label τ) :=
  (pushSection w c).elim [] fun r ↦
    [.call th c, .push th c, .unlock th, .notify th r.1.writable, .ret th r.2]

/-- No thread is inside a call. -/
def State.AllIdle (s : State τ) : Prop := ∀ th, s.frame th = .idle

/-- A step that is not a new call leaves it so. -/
theorem Rule.allIdle {s s' : State τ} {l : Label τ} (h : Rule s l s') (hi : s.AllIdle)
    (hl : ∀ th c, l ≠ .call th c) : s'.AllIdle := by
  cases h with
  | @call th c hidle hmay => exact absurd rfl (hl th c)
  | @push th c w r hcalled hfree hpush => simp [hi th] at hcalled
  | @unlock th r hpushed => simp [hi th] at hpushed
  | @loadStopped th hcalled => simp [hi th] at hcalled
  | @storeStopped th hstopping => simp [hi th] at hstopping
  | @notify th ok r w howes hwrite => simp [hi th] at howes
  | @ret th r hret => simp [hi th] at hret
  | wake | read | testStopped | swap | release | runTask | endTask | register | purge | endBlock
  | fire | endFire | exit => exact hi

/-- Nobody pushes anything then. -/
theorem Rule.ne_push {s s' : State τ} {l : Label τ} (h : Rule s l s') (hi : s.AllIdle)
    (th : Thread) (c : Call τ) : l ≠ .push th c := by
  rintro rfl
  cases h with
  | push hcalled hfree hpush => simp [hi th] at hcalled

variable [DecidableEq τ]

/-- **`Worker.perform` is the five steps of a call** with nothing in between. -/
theorem run_callSteps {s : State τ} {i : ℕ} {c : Call τ} {w : Worker τ} {r : Ret τ}
    (hidle : s.frame (.client i) = .idle) (hfree : s.m_lock = none)
    (h : s.toWorker.perform c = some (w, r)) :
    run step s (callSteps (.client i) s.toWorker c) = some { s with toWorker := w } := by
  obtain ⟨⟨w₁, r₁⟩, hpush, heq⟩ := Option.map_eq_some_iff.mp h
  obtain ⟨rfl, rfl⟩ := Prod.mk.inj heq
  obtain ⟨w₂, hw₂⟩ := Option.isSome_iff_exists.mp (Life.notify_writable w₁)
  have hback : Function.update s.frame (.client i) .idle = s.frame := by
    rw [← hidle, Function.update_eq_self]
  simp [callSteps, hpush, run, step, hidle, State.mayCall, State.setFrame, hfree, hw₂, hback]

end GeneralWorker

namespace GeneralThreadPool.Clients

/-! ## What a worker sees of the pool -/

/-- A call that comes to the worker at `idx`, as the worker at `k` sees it. -/
def callAt (s : Clients τ) (k : ℕ) (th : Thread) (idx : UInt64) (c : Call τ) :
    List (GeneralWorker.Label τ) :=
  if idx.toNat = k then s.m_pool[k]?.elim [] fun worker ↦ callSteps th worker.toWorker c else []

/-- A step of the pool, as the worker at `k` sees it. -/
def seenAt (k : ℕ) (s : Clients τ) : Label τ → List (GeneralWorker.Label τ)
  | .pick _ _ => []
  | .perform i _ => (s.calls i).elim [] fun call ↦ s.callAt k (.client i) call.1 call.2
  | .purge id =>
    s.callAt k (.client 0) (id >>> TIMER_ID_BITS) (.purgeTimerTask (id &&& TIMER_ID_MASK))
  | .work k' l => if k' = k then [l] else []

/-- A worker of a pool whose clients are between their calls: nobody is inside one at the worker,
and it has been started once and not been stopped. -/
structure AtWork (worker : Life τ) : Prop where
  idle : worker.toState.AllIdle
  attached : worker.detached = none
  running : worker.m_stopped = false

variable [DecidableEq τ]

/-- What the worker at `k` sees of a run. -/
def seen (k : ℕ) (s₀ : Clients τ) (tr : List (Label τ)) : List (GeneralWorker.Label τ) :=
  emitted step (seenAt k) s₀ tr

omit [DecidableEq τ] in
/-- **What a call at a worker does**: the worker performs it, and the others stay as they are. -/
theorem performAt_cases {p p' : GeneralThreadPool τ} {idx : UInt64} {c : Call τ} {r : Ret τ}
    (h : p.performAt idx c = some (p', r)) :
    ∃ worker w, p.m_pool[idx.toNat]? = some worker ∧ worker.m_lock = none ∧
      worker.toWorker.perform c = some (w, r) ∧
      p'.m_pool = p.m_pool.set idx.toNat { worker with toWorker := w } := by
  obtain ⟨worker, hworker, h⟩ := Option.bind_eq_some_iff.mp h
  obtain ⟨hfree, h⟩ := Option.ite_none_right_eq_some.mp h
  obtain ⟨⟨w, r'⟩, hperform, heq⟩ := Option.map_eq_some_iff.mp h
  obtain ⟨rfl, rfl⟩ := Prod.mk.inj heq
  exact ⟨worker, w, hworker, hfree, hperform, rfl⟩

/-- A worker that has been started once moves as its threads do. -/
theorem work_attached {worker worker' : Life τ} {l : GeneralWorker.Label τ}
    (hattached : worker.detached = none) (h : worker.work l = some worker') :
    GeneralWorker.step worker.toState l = some worker'.toState ∧ worker'.detached = none := by
  rw [Life.work, hattached] at h
  obtain ⟨-, h⟩ := Option.ite_none_right_eq_some.mp h
  obtain ⟨s', hs, rfl⟩ := Option.map_eq_some_iff.mp h
  exact ⟨hs, rfl⟩

omit [DecidableEq τ] in
theorem perform_stopped {w w' : Worker τ} {c : Call τ} {r : Ret τ}
    (h : w.perform c = some (w', r)) : w'.m_stopped = w.m_stopped := by
  obtain ⟨w₁, hpush, hsame⟩ := perform_eq h
  rw [hsame]
  exact (pushSection_flags hpush).1

/-- A call that comes to the worker at `idx`, for the worker at `k`. -/
theorem run_callAt {s : Clients τ} {p' : GeneralThreadPool τ} {k i : ℕ} {idx : UInt64}
    {c : Call τ} {r : Ret τ} {worker : Life τ} (hk : s.m_pool[k]? = some worker)
    (hw : AtWork worker) (h : s.performAt idx c = some (p', r)) :
    ∃ worker', p'.m_pool[k]? = some worker' ∧ AtWork worker' ∧
      run GeneralWorker.step worker.toState (s.callAt k (.client i) idx c)
        = some worker'.toState := by
  obtain ⟨owner, w, howner, hfree, hperform, hpool⟩ := performAt_cases h
  rw [hpool, callAt]
  by_cases he : idx.toNat = k
  · rw [he, hk, Option.some_inj] at howner
    subst howner
    have hlt : k < s.m_pool.length := (List.getElem?_eq_some_iff.mp hk).1
    refine ⟨{ worker with toWorker := w }, by rw [he, List.getElem?_set_self hlt],
      ⟨hw.idle, hw.attached, (perform_stopped hperform).trans hw.running⟩, ?_⟩
    rw [if_pos he, hk, Option.elim_some]
    exact run_callSteps (hw.idle _) hfree hperform
  · refine ⟨worker, by rw [List.getElem?_set_ne he, hk], hw, ?_⟩
    rw [if_neg he, run_nil]

/-- **One step of the pool, for the worker at `k`.** -/
theorem run_seenAt {s s' : Clients τ} {l : Label τ} {k : ℕ} {worker : Life τ}
    (hk : s.m_pool[k]? = some worker) (hw : AtWork worker) (h : s.step l = some s') :
    ∃ worker', s'.m_pool[k]? = some worker' ∧ AtWork worker' ∧
      run GeneralWorker.step worker.toState (s.seenAt k l) = some worker'.toState := by
  cases l with
  | pick i c =>
    obtain ⟨-, rfl⟩ := Option.ite_none_right_eq_some.mp h |>.imp_right Option.some_inj.mp
    exact ⟨worker, hk, hw, rfl⟩
  | perform i r =>
    obtain ⟨call, hcall, h⟩ := Option.bind_eq_some_iff.mp h
    obtain ⟨⟨p', r'⟩, hperform, h⟩ := Option.bind_eq_some_iff.mp h
    obtain ⟨-, rfl⟩ := Option.ite_none_right_eq_some.mp h |>.imp_right Option.some_inj.mp
    rw [seenAt, hcall, Option.elim_some]
    exact run_callAt hk hw hperform
  | purge id =>
    obtain ⟨⟨p', r⟩, hperform, rfl⟩ := Option.map_eq_some_iff.mp h
    exact run_callAt hk hw hperform
  | work k' l =>
    obtain ⟨mover, hmover, h⟩ := Option.bind_eq_some_iff.mp h
    obtain ⟨hcall, h⟩ := Option.ite_none_left_eq_some.mp h
    obtain ⟨worker', hwork, rfl⟩ := Option.map_eq_some_iff.mp h
    rw [seenAt]
    by_cases he : k' = k
    · subst he
      obtain rfl := Option.some_inj.mp (hk.symm.trans hmover)
      have hlt : k' < s.m_pool.length := (List.getElem?_eq_some_iff.mp hk).1
      obtain ⟨hs, hattached⟩ := work_attached hw.attached hwork
      have hrule := rule_of_step hs
      have hne : ∀ th c, l ≠ .call th c := by
        rintro th c rfl
        exact hcall rfl
      have hquiet : worker.toState.NoStop := fun th ↦ by simp [hw.idle th]
      refine ⟨worker', List.getElem?_set_self hlt, ⟨hrule.allIdle hw.idle hne, hattached,
        (hrule.noStop hquiet fun th ↦ hne th _).2.trans hw.running⟩, ?_⟩
      rw [if_pos rfl]
      simp [run, hs]
    · refine ⟨worker, by simpa [he] using hk, hw, ?_⟩
      rw [if_neg he, run_nil]

/-! ## From the start on

The runs of clients begin where the owner has started the pool.  The owner may have used the pool
before, and clients may have left the counter anywhere; the workers are new all the same, since
`wait` has cleared the vector and `start` makes its own. -/

omit [DecidableEq τ] in
/-- The workers of a pool that has been started are those that `start` has made. -/
theorem startWorkers_fresh {fds : ℕ → Bool} {i k : ℕ}
    (h : (startWorkers (τ := τ) fds i k).2 = true) :
    ∀ worker ∈ (startWorkers (τ := τ) fds i k).1, worker = Life.init.start true := by
  induction k generalizing i with
  | zero => simp [startWorkers]
  | succ k ih =>
    rw [startWorkers] at h ⊢
    cases hfd : fds i with
    | false => simp [hfd, Worker.start, Worker.init] at h
    | true =>
      have hok : (Worker.init.start (τ := τ) true).2 = true := rfl
      rw [hfd, if_pos hok] at h
      rw [if_pos hok, List.forall_mem_cons]
      exact ⟨rfl, ih h⟩

/-- A pool has just been started, by an owner who may have used it before: `s₀` is the pool with its
clients, and `n` the number of its workers. -/
structure JustStarted (s₀ : Clients τ) (n : ℕ) : Prop where
  sized : Sized n s₀
  calls : ∀ i, s₀.calls i = none
  fresh : ∀ worker ∈ s₀.m_pool, worker = Life.init.start true

theorem justStarted {tr₀ : List (Owned.Label τ)} {o : Owned τ}
    (hown : run Owned.step Owned.init tr₀ = some o) {c n : UInt64} {fds : ℕ → Bool}
    (hstart : ((counterAt o c).start n fds).2 = true) :
    JustStarted (startedAt o c n fds) n.toNat := by
  have hempty : (counterAt o c).m_nrThreads = 0 → (counterAt o c).m_pool = [] :=
    (Owned.kept hown).empty
  obtain ⟨hnr, -, hlength⟩ := start_length hempty hstart
  obtain ⟨hunused, hne, hfds⟩ := (start_ok _ n fds).mp hstart
  refine ⟨⟨hlength, congrArg UInt64.toNat hnr, fun i call hi ↦ by cases hi⟩, fun i ↦ rfl, ?_⟩
  have hzero : ¬ n ≤ 0 := fun h0 ↦ hne (UInt64.le_zero_iff.mp h0)
  have hok : (startWorkers (τ := τ) fds 0 n.toNat).2 = true :=
    (startWorkers_ok fds 0 _).mpr fun j hj ↦ by rw [Nat.zero_add]; exact hfds j hj
  have hpool : (startedAt o c n fds).m_pool = (startWorkers (τ := τ) fds 0 n.toNat).1 := by
    rw [startedAt, start, if_neg (not_not.mpr hunused), if_neg hzero]
    show (counterAt o c).m_pool ++ _ = _
    rw [hempty hunused, List.nil_append]
  rw [hpool]
  exact startWorkers_fresh hok

section Runs

variable {s₀ s s' : Clients τ} {tr tr' : List (Label τ)} {l : Label τ} {n k : ℕ} {worker : Life τ}

omit [DecidableEq τ] in
theorem JustStarted.atWork (h₀ : JustStarted s₀ n) (hk : s₀.m_pool[k]? = some worker) :
    AtWork worker ∧ worker.toState = started := by
  rw [h₀.fresh worker (List.mem_of_getElem? hk)]
  exact ⟨⟨fun th ↦ rfl, rfl, rfl⟩, rfl⟩

/-- **What a worker sees of a run of the pool is a run of a worker.** -/
theorem run_seen (h₀ : JustStarted s₀ n) (h : run step s₀ tr = some s)
    (hk : s.m_pool[k]? = some worker) :
    AtWork worker ∧ run GeneralWorker.step started (seen k s₀ tr) = some worker.toState := by
  have hlt : k < s₀.m_pool.length := by
    rw [h₀.sized.length, ← (sized h₀.sized h).length]
    exact (List.getElem?_eq_some_iff.mp hk).1
  obtain ⟨hwork₀, hstarted⟩ := h₀.atWork (List.getElem?_eq_getElem hlt)
  have hstep : ∀ (tr : List (Label τ)) (s : Clients τ) (l : Label τ) (s' : Clients τ)
      (a : State τ), run step s₀ tr = some s →
      (∃ worker, s.m_pool[k]? = some worker ∧ AtWork worker ∧ worker.toState = a) →
      step s l = some s' → ∃ a', run GeneralWorker.step a (seenAt k s l) = some a' ∧
        ∃ worker, s'.m_pool[k]? = some worker ∧ AtWork worker ∧ worker.toState = a' := by
    rintro tr s l s' a - ⟨worker, hk, hw, rfl⟩ hs
    obtain ⟨worker', hk', hw', hrun⟩ := run_seenAt hk hw hs
    exact ⟨_, hrun, worker', hk', hw', rfl⟩
  obtain ⟨a, ha, worker', hk', hwork, rfl⟩ := run_projection
    (R := fun _ s a ↦ ∃ worker, s.m_pool[k]? = some worker ∧ AtWork worker ∧ worker.toState = a)
    ⟨_, List.getElem?_eq_getElem hlt, hwork₀, hstarted⟩ hstep h
  obtain rfl := Option.some_inj.mp (hk.symm.trans hk')
  exact ⟨hwork, ha⟩

/-! ## Tasks in order

The order of the tasks at a worker is that in which they come to it.  It is not the order in which
clients are given the worker: between the two steps of a call a client can be overtaken. -/

omit [DecidableEq τ] in
/-- The task that this call hands in. -/
def taskOf : Call τ → Option τ
  | .addTask t => some t
  | _ => none

/-- The general tasks among calls, each with the index of its worker. -/
def tasks (l : List (ℕ × UInt64 × Call τ)) : List (ℕ × τ) :=
  l.filterMap fun e ↦ (taskOf e.2.2).map (e.2.1.toNat, ·)

/-- The task that returns in this step, with the index of its worker. -/
def Label.executed : Label τ → List (ℕ × τ)
  | .work k l => l.executed.map (k, ·)
  | _ => []

/-- The tasks that have run to their end, each with the index of its worker, in order. -/
def executed (tr : List (Label τ)) : List (ℕ × τ) := tr.flatMap Label.executed

/-- The tasks of the worker at `k`. -/
def ofWorker (k : ℕ) (l : List (ℕ × τ)) : List τ :=
  l.filterMap fun e ↦ if e.1 = k then some e.2 else none

omit [DecidableEq τ] in
theorem ofWorker_append (l l' : List (ℕ × τ)) :
    ofWorker k (l ++ l') = ofWorker k l ++ ofWorker k l' := List.filterMap_append

omit [DecidableEq τ] in
theorem tasks_append (l l' : List (ℕ × UInt64 × Call τ)) : tasks (l ++ l') = tasks l ++ tasks l' :=
  List.filterMap_append

/-- The steps of the worker at `k` itself. -/
def Label.ofWork (k : ℕ) : Label τ → List (GeneralWorker.Label τ)
  | .work k' l => if k' = k then [l] else []
  | _ => []

/-- The steps that the worker at `k` has taken. -/
def workOf (k : ℕ) (tr : List (Label τ)) : List (GeneralWorker.Label τ) :=
  tr.flatMap (Label.ofWork k)

/-- The calls, among these, at the worker at `k`. -/
def callsAt (k : ℕ) (l : List (ℕ × UInt64 × Call τ)) : List (Call τ) :=
  l.filterMap fun e ↦ if e.2.1.toNat = k then some e.2.2 else none

omit [DecidableEq τ] in
/-- **What can be read off one step that the worker at `k` sees**: what is read off its own steps,
and off the calls that come to it. -/
theorem seenAt_flatMap {β : Type*} {f : GeneralWorker.Label τ → List β} {g : Call τ → List β}
    (hcall : ∀ th w c, (callSteps th w c).flatMap f = g c)
    (hpurge : ∀ id, g (.purgeTimerTask id) = []) (hk : s.m_pool[k]? = some worker) :
    (s.seenAt k l).flatMap f
      = (l.ofWork k).flatMap f ++ (callsAt k (s.receivedAt l)).flatMap g := by
  have hcallAt : ∀ th idx c, (s.callAt k th idx c).flatMap f
      = (if idx.toNat = k then some c else none).toList.flatMap g := by
    intro th idx c
    by_cases he : idx.toNat = k
    · rw [callAt, if_pos he, hk, Option.elim_some, hcall, if_pos he]
      exact (List.append_nil _).symm
    · rw [callAt, if_neg he, if_neg he]
      rfl
  cases l with
  | pick i c => rfl
  | perform i r =>
    cases hi : s.calls i with
    | none => simp [seenAt, receivedAt, hi, Label.ofWork, callsAt]
    | some call =>
      rw [seenAt, hi, Option.elim_some, hcallAt]
      by_cases he : call.1.toNat = k <;> simp [receivedAt, hi, Label.ofWork, callsAt, he]
  | purge id =>
    rw [seenAt, hcallAt]
    by_cases he : (id >>> TIMER_ID_BITS).toNat = k <;>
      simp [receivedAt, Label.ofWork, callsAt, he, hpurge]
  | work k' l => exact (List.append_nil _).symm

theorem seen_concat (h : run step s₀ tr = some s) :
    seen k s₀ (tr ++ [l]) = seen k s₀ tr ++ s.seenAt k l := emitted_concat h

/-- The worker at `k`, in every state of a run. -/
theorem getElem?_pool (h₀ : JustStarted s₀ n) (h : run step s₀ tr = some s) (hk : k < n) :
    ∃ worker, s.m_pool[k]? = some worker ∧ AtWork worker := by
  have hget := List.getElem?_eq_getElem ((sized h₀.sized h).length ▸ hk)
  exact ⟨_, hget, (run_seen h₀ h hget).1⟩

/-- What is read off the worker's own steps alone. -/
theorem seen_own {β : Type*} {f : GeneralWorker.Label τ → List β}
    (hcall : ∀ th w c, (callSteps th w c).flatMap f = []) (h₀ : JustStarted s₀ n)
    (h : run step s₀ tr = some s) (hk : k < n) :
    (seen k s₀ tr).flatMap f = (workOf k tr).flatMap f := by
  refine run_induction (P := fun tr _ ↦ (seen k s₀ tr).flatMap f = (workOf k tr).flatMap f)
    rfl ?_ h
  intro tr s l s' hr ih hs
  obtain ⟨worker, hget, -⟩ := getElem?_pool h₀ hr hk
  have hstep := seenAt_flatMap (l := l) (g := fun _ ↦ []) hcall (fun _ ↦ rfl) hget
  have hnone : (callsAt k (s.receivedAt l)).flatMap (fun _ ↦ ([] : List β)) = [] := by simp
  rw [seen_concat hr, List.flatMap_append, ih, hstep, hnone, List.append_nil]
  simp [workOf]

/-- What is read off the calls alone, when nothing is read off steps that are not a push. -/
theorem seen_calls {β : Type*} {f : GeneralWorker.Label τ → List β} {g : Call τ → List β}
    (hcall : ∀ th w c, (callSteps th w c).flatMap f = g c)
    (hpurge : ∀ id, g (.purgeTimerTask id) = []) (hpush : ∀ l, (∀ th c, l ≠ .push th c) → f l = [])
    (h₀ : JustStarted s₀ n) (h : run step s₀ tr = some s) (hk : k < n) :
    (seen k s₀ tr).flatMap f = (callsAt k (received s₀ tr)).flatMap g := by
  refine run_induction (P := fun tr _ ↦
    (seen k s₀ tr).flatMap f = (callsAt k (received s₀ tr)).flatMap g) rfl ?_ h
  intro tr s l s' hr ih hs
  obtain ⟨worker, hget, hwork⟩ := getElem?_pool h₀ hr hk
  have hstep := seenAt_flatMap (l := l) hcall hpurge hget
  have hown : (l.ofWork k).flatMap f = [] := by
    refine List.flatMap_eq_nil_iff.mpr fun m hm ↦ hpush m ?_
    cases l with
    | work k' l =>
      obtain ⟨mover, hmover, hs⟩ := Option.bind_eq_some_iff.mp hs
      obtain ⟨-, hs⟩ := Option.ite_none_left_eq_some.mp hs
      obtain ⟨mover', hmove, rfl⟩ := Option.map_eq_some_iff.mp hs
      by_cases he : k' = k
      · subst he
        obtain rfl := Option.some_inj.mp (hget.symm.trans hmover)
        obtain rfl : m = l := by simpa [Label.ofWork] using hm
        exact (rule_of_step (work_attached hwork.attached hmove).1).ne_push hwork.idle
      · simp [Label.ofWork, he] at hm
    | _ => cases hm
  rw [seen_concat hr, received_concat hr, List.flatMap_append, ih, hstep, hown, List.nil_append]
  simp [callsAt]

omit [DecidableEq τ] in
/-- What is executed in the steps of the worker at `k`. -/
theorem executedTasks_workOf (k : ℕ) (tr : List (Label τ)) :
    executedTasks (workOf k tr) = ofWorker k (executed tr) := by
  induction tr with
  | nil => rfl
  | cons l tr ih =>
    have hhead : executedTasks (l.ofWork k) = ofWorker k l.executed := by
      cases l with
      | work k' l =>
        by_cases he : k' = k <;>
          simp [Label.ofWork, executedTasks, ofWorker, Label.executed, he, List.filterMap_map]
      | _ => rfl
    have hsplit : executedTasks (workOf k (l :: tr))
        = executedTasks (l.ofWork k) ++ executedTasks (workOf k tr) := List.flatMap_append
    have hsplit' : executed (l :: tr) = l.executed ++ executed tr := rfl
    rw [hsplit, hhead, ih, hsplit', ofWorker_append]

omit [DecidableEq τ] in
/-- The general tasks handed in by calls at the worker at `k`. -/
theorem callsAt_tasks (k : ℕ) (l : List (ℕ × UInt64 × Call τ)) :
    (callsAt k l).flatMap (fun c ↦ (taskOf c).toList) = ofWorker k (tasks l) := by
  induction l with
  | nil => rfl
  | cons e l ih =>
    have hsplit : tasks (e :: l) = tasks [e] ++ tasks l := tasks_append [e] l
    rw [hsplit, ofWorker_append, ← ih]
    by_cases he : e.2.1.toNat = k <;> cases htask : taskOf e.2.2 <;>
      simp [callsAt, tasks, ofWorker, he, htask]

/-- A run, and the tasks of the worker at `k`. -/
theorem seen_tasks (h₀ : JustStarted s₀ n) (h : run step s₀ tr = some s) (hk : k < n) :
    executedTasks (seen k s₀ tr) = ofWorker k (executed tr) ∧
      pushedTasks (seen k s₀ tr) = ofWorker k (tasks (received s₀ tr)) := by
  refine ⟨?_, ?_⟩
  · rw [← executedTasks_workOf]
    refine seen_own (fun th w c ↦ ?_) h₀ h hk
    cases c <;> rfl
  · rw [← callsAt_tasks, pushedTasks, taskPushes, List.map_flatMap]
    refine seen_calls (fun th w c ↦ ?_) (fun _ ↦ rfl) (fun l hl ↦ ?_) h₀ h hk
    · cases c <;> rfl
    · cases l with
      | push th c => exact absurd rfl (hl th c)
      | _ => rfl

/-- **Every worker of a pool executes what it receives, in order.**  In every run of the clients of
a pool that its owner has started, in whatever order they and the workers move: the tasks that the
worker at `k` has executed, then those left of the batch that it is working on, then those in its
queue, are the tasks that clients have been given this worker for and brought to it, in the order in
which they brought them. -/
theorem tasks_in_order {tr₀ : List (Owned.Label τ)} {o : Owned τ}
    (hown : run Owned.step Owned.init tr₀ = some o) {c m : UInt64} {fds : ℕ → Bool}
    (hstart : ((counterAt o c).start m fds).2 = true)
    (h : run step (startedAt o c m fds) tr = some s) (hk : s.m_pool[k]? = some worker) :
    ofWorker k (executed tr) ++ worker.loop.remaining ++ worker.m_pendingTasks
      = ofWorker k (tasks (received (startedAt o c m fds) tr)) := by
  have h₀ := justStarted hown hstart
  have hlt : k < m.toNat := (sized h₀.sized h).length ▸ (List.getElem?_eq_some_iff.mp hk).1
  obtain ⟨hexecuted, hpushed⟩ := seen_tasks h₀ h hlt
  rw [← hexecuted, ← hpushed, List.append_assoc]
  exact tasks_line (run_seen h₀ h hk).2

end Runs

/-- Two tasks for the worker 1, whose clients were given it in the other order, and a task for the
worker 0; the worker 1 has executed one of them. -/
def crossing : List (Label ℕ) :=
  [.pick 0 (.addTask 5), .pick 1 (.addTask 6), .pick 2 (.addTask 7), .pick 3 (.addTask 8),
    .perform 3 (.future 8), .perform 1 (.future 6), .perform 2 (.future 7)] ++
    (roundStart false ++ [GeneralWorker.Label.runTask 8, .endTask 8, .runTask 6]).map (.work 1)

theorem tasks_in_order_crossing : ∃ s worker,
    run step (startedAt Owned.init 0 2 fun _ ↦ true) crossing = some s ∧
    s.m_pool[1]? = some worker ∧ worker.loop = .running 6 [] ∧
    [8] ++ worker.loop.remaining ++ worker.m_pendingTasks = [8, 6] := by
  have hrun : ((run step (startedAt Owned.init 0 2 fun _ ↦ true) crossing).any fun s ↦
      s.m_pool[1]?.any fun worker ↦ decide (worker.loop = .running 6 [])) = true := by decide
  obtain ⟨s, hs, hp⟩ := exists_run_of_any hrun
  obtain ⟨worker, hk, hloop⟩ := (Option.any_eq_true _ _).mp hp
  have hown : run Owned.step (Owned.init : Owned ℕ) [] = some Owned.init := rfl
  have hstart : ((counterAt (Owned.init : Owned ℕ) 0).start 2 fun _ ↦ true).2 = true := rfl
  have horder := tasks_in_order hown hstart hs hk
  exact ⟨s, worker, hs, hk, of_decide_eq_true hloop, horder⟩

end GeneralThreadPool.Clients
