import CppUtility.Worker.Life

/-!
# `GeneralThreadPool`: its members, and what each member function does to them

A pool is a vector of workers, the number of workers it was started with, and a counter that hands
out the workers one after the other.  Its functions are for two kinds of caller.

* **The owner** calls `start`, `stop` and `wait`.  They go through the vector and cease calling the
  workers after the first one that returns false: `ok = ok && worker->stop()`.  So each of the loops
  has a flag that it carries along, and the workers behind a failure are left as they are.
* **Anybody** calls the others, once the pool has been started.  `addTask`, `addDelayTask` and
  `addRepeatTask` take the next worker of the counter, and `addRepeatTask` puts the index of the
  worker into the high bits of the id that the worker gives it, where `purgeTimerTask` finds it
  again.

The number of workers is recorded beside the vector, which has a size of its own.  The two are set
at different moments, and `CppUtility.Pool.Start` is about what that can lead to.

A worker in the vector is a `Life`, the whole of its state with that of its threads: the functions
of the pool only see its members, but the runs of a pool have its threads at work as well.  A call
of the pool at a worker is `performAt`, the section under `m_lock` and the `notify` behind it, with
nothing in between; `run_callSteps` of `CppUtility.Pool.Tasks` says that this is what the call does
in steps.
-/

set_option autoImplicit false

open GeneralWorker

variable {τ : Type*}

/-! ## A whole call at a worker -/

/-- A call of the interface of a worker that pushes: the section under `m_lock`, then `notify`. -/
def GeneralWorker.Worker.perform (w : Worker τ) (c : Call τ) : Option (Worker τ × Ret τ) :=
  (pushSection w c).map fun r ↦ ((r.1.notify r.1.writable).getD r.1, r.2)

/-! ## The members -/

/-- The members of a `GeneralThreadPool`. -/
structure GeneralThreadPool (τ : Type*) where
  m_nrThreads : UInt64
  m_nextThread : UInt64
  m_pool : List (Life τ)

namespace GeneralThreadPool

/-- The default constructor. -/
def init : GeneralThreadPool τ := ⟨0, 0, []⟩

/-! ## For the owner -/

/-- The loop of `start` from the position `i` on, with `k` positions left; `fds i` says whether
`eventfd` gives a descriptor to the worker at `i`.  The new workers, and `ok` at the end. -/
def startWorkers (fds : ℕ → Bool) : ℕ → ℕ → List (Life τ) × Bool
  | _, 0 => ([], true)
  | i, k + 1 =>
    let worker := Life.init.start (fds i)
    if (Worker.init.start (τ := τ) (fds i)).2 then
      let r := startWorkers fds (i + 1) k
      (worker :: r.1, r.2)
    else ([worker], false)

/-- `start`. -/
def start (p : GeneralThreadPool τ) (nrThreads : UInt64) (fds : ℕ → Bool) :
    GeneralThreadPool τ × Bool :=
  if p.m_nrThreads ≠ 0 then (p, false)
  else if nrThreads ≤ 0 then (p, false)
  else
    let r := startWorkers fds 0 nrThreads.toNat
    ({ p with m_nrThreads := nrThreads, m_pool := p.m_pool ++ r.1 }, r.2)

/-- The loop of `stop`: `ok = ok && worker->stop()`. -/
def stopWorkers : Bool → List (Life τ) → List (Life τ) × Bool
  | ok, [] => ([], ok)
  | true, worker :: pool =>
    let r := stopWorkers worker.stop.2 pool
    (worker.stop.1 :: r.1, r.2)
  | false, worker :: pool =>
    let r := stopWorkers false pool
    (worker :: r.1, r.2)

/-- `stop`. -/
def stop (p : GeneralThreadPool τ) : GeneralThreadPool τ × Bool :=
  let r := stopWorkers true p.m_pool
  ({ p with m_pool := r.1 }, r.2)

section Wait

variable [DecidableEq τ]

/-- The loop of `wait`: `ok = ok && worker->wait()`, where a worker's `wait` returns whether there
was a thread to join.  `none` while such a thread has not exited. -/
def waitWorkers : Bool → List (Life τ) → Option (List (Life τ) × Bool)
  | ok, [] => some ([], ok)
  | true, worker :: pool =>
    worker.wait.bind fun worker' ↦
      (waitWorkers worker.m_thread pool).map fun r ↦ (worker' :: r.1, r.2)
  | false, worker :: pool => (waitWorkers false pool).map fun r ↦ (worker :: r.1, r.2)

/-- `wait`, with its result, and the workers as its loop leaves them to `m_pool.clear()`. -/
def wait (p : GeneralThreadPool τ) : Option (GeneralThreadPool τ × Bool × List (Life τ)) :=
  (waitWorkers true p.m_pool).map fun r ↦ ({ p with m_nrThreads := 0, m_pool := [] }, r.2, r.1)

end Wait

/-! ## For everybody -/

/-- `m_nextThread++ % m_nrThreads`, and the pool afterwards. -/
def nextThread (p : GeneralThreadPool τ) : UInt64 × GeneralThreadPool τ :=
  (p.m_nextThread % p.m_nrThreads, { p with m_nextThread := p.m_nextThread + 1 })

/-- `m_pool[idx]->…`: a call at one worker, when nobody holds its `m_lock`; `none` also if there is
no such worker. -/
def performAt (p : GeneralThreadPool τ) (idx : UInt64) (c : Call τ) :
    Option (GeneralThreadPool τ × Ret τ) :=
  p.m_pool[idx.toNat]?.bind fun worker ↦
    if worker.m_lock = none then
      (worker.toWorker.perform c).map fun r ↦
        ({ p with m_pool := p.m_pool.set idx.toNat { worker with toWorker := r.1 } }, r.2)
    else none

/-- What the pool makes of a worker's result: `addRepeatTask` returns
`(idx << TIMER_ID_BITS) | id`. -/
def result (idx : UInt64) : Ret τ → Ret τ
  | .timerId p id => .timerId p ((idx <<< TIMER_ID_BITS) ||| id)
  | r => r

/-- `purgeTimerTask`. -/
def purgeTimerTask (p : GeneralThreadPool τ) (id : UInt64) :
    Option (GeneralThreadPool τ × Ret τ) :=
  p.performAt (id >>> TIMER_ID_BITS) (.purgeTimerTask (id &&& TIMER_ID_MASK))

end GeneralThreadPool
