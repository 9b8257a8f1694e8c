import CppUtility.Pool.Shutdown

/-!
# When a worker of the pool fails to start

`start` records the number of workers before it launches them, and puts each worker into the vector
before it starts it.  When one of them fails, `start` returns false and leaves everything as it is
then:

* the recorded number, which is the one that was asked for;
* the workers before the failure, whose threads run;
* the worker that has failed, which is in the vector and has no thread.

The pool is in use from there on, with a number of workers that it does not have.  No later `start`
gets past the test of that number, and a client that takes an index from the counter may go beyond
the end of the vector.

What one would expect instead is `Untouched`: a `start` that returns false has changed nothing that
anybody can notice.  It does not ask for the same members, since a failure may well leave traces in
a pool that is not in use.  It asks for the recorded number, the workers that run, and the answers
of all later calls of `start`.

A `start` can also return false without having tried, because the pool is in use or no workers are
asked for, and then nothing has changed.  So the condition is on the arguments and the pool alone
(`Launches`), and it is exact: for one call in `untouched_iff`, and for the runs of an owner in
`failsCleanly_iff`, where the size of the vector has to be the recorded number in every state.
-/

set_option autoImplicit false

open GeneralWorker Transition

variable {τ : Type*}

namespace GeneralThreadPool

/-! ## What `start` answers -/

/-- The loop goes on to the end when every worker gets its descriptor. -/
theorem startWorkers_ok (fds : ℕ → Bool) (i k : ℕ) :
    (startWorkers (τ := τ) fds i k).2 = true ↔ ∀ j < k, fds (i + j) = true := by
  induction k generalizing i with
  | zero => exact iff_of_true rfl fun j hj ↦ absurd hj (Nat.not_lt_zero j)
  | succ k ih =>
    rw [startWorkers]
    cases hfd : fds i with
    | false => exact iff_of_false Bool.false_ne_true fun h ↦
        Bool.false_ne_true (hfd.symm.trans (h 0 (Nat.zero_lt_succ k)))
    | true =>
      refine (ih (i + 1)).trans ⟨fun h j hj ↦ ?_, fun h j hj ↦ ?_⟩
      · cases j with
        | zero => exact hfd
        | succ j =>
          rw [← Nat.succ_add_eq_add_succ]
          exact h j (Nat.lt_of_succ_lt_succ hj)
      · rw [Nat.succ_add_eq_add_succ]
        exact h (j + 1) (Nat.succ_lt_succ hj)

/-- Then there are as many workers as positions. -/
theorem startWorkers_length {fds : ℕ → Bool} {i k : ℕ}
    (h : (startWorkers (τ := τ) fds i k).2 = true) :
    (startWorkers (τ := τ) fds i k).1.length = k := by
  induction k generalizing i with
  | zero => rfl
  | succ k ih =>
    rw [startWorkers] at h ⊢
    cases hfd : fds i with
    | false =>
      rw [hfd] at h
      cases h
    | true =>
      rw [hfd] at h
      exact congrArg Nat.succ (ih h)

/-- What `start` returns depends on nothing else than whether the pool is in use, the number of
workers and the descriptors. -/
theorem start_ok (p : GeneralThreadPool τ) (n : UInt64) (fds : ℕ → Bool) :
    (p.start n fds).2 = true ↔ p.m_nrThreads = 0 ∧ n ≠ 0 ∧ ∀ i < n.toNat, fds i = true := by
  rw [start]
  split
  · next hused => exact iff_of_false Bool.false_ne_true fun h ↦ hused h.1
  · next hunused =>
    split
    · next hzero =>
      exact iff_of_false Bool.false_ne_true fun h ↦ h.2.1 (UInt64.le_zero_iff.mp hzero)
    · next hpos =>
      have hne : n ≠ 0 := fun h0 ↦ hpos (h0 ▸ UInt64.le_refl 0)
      simp only [startWorkers_ok, Nat.zero_add]
      exact ⟨fun h ↦ ⟨not_not.mp hunused, hne, h⟩, fun h ↦ h.2.2⟩

/-- A pool that has been started with `n` workers has them. -/
theorem start_length {p : GeneralThreadPool τ} {n : UInt64} {fds : ℕ → Bool}
    (hempty : p.m_nrThreads = 0 → p.m_pool = []) (h : (p.start n fds).2 = true) :
    (p.start n fds).1.m_nrThreads = n ∧ (p.start n fds).1.m_nextThread = p.m_nextThread ∧
      (p.start n fds).1.m_pool.length = n.toNat := by
  obtain ⟨hunused, hne, hfds⟩ := (start_ok p n fds).mp h
  have hzero : ¬ n ≤ 0 := fun h0 ↦ hne (UInt64.le_zero_iff.mp h0)
  have hok : (startWorkers (τ := τ) fds 0 n.toNat).2 = true :=
    (startWorkers_ok fds 0 _).mpr fun j hj ↦ by rw [Nat.zero_add]; exact hfds j hj
  rw [start, if_neg (not_not.mpr hunused), if_neg hzero, hempty hunused]
  exact ⟨rfl, rfl, startWorkers_length hok⟩

/-! ## The pool after a failure

That a failed `start` is noticed is easy in one direction: the recorded number is not 0 any more.
For the other one it has to be seen that the number alone decides: `start` looks at nothing else
before it begins. -/

/-- The workers with a thread. -/
def running (pool : List (Life τ)) : List (Life τ) := pool.filter fun worker ↦ worker.m_thread

/-- The pool is used as it was before: it records the same number of workers, the same workers run,
and every `start` answers as it would have done. -/
structure Untouched (p p' : GeneralThreadPool τ) : Prop where
  nrThreads : p'.m_nrThreads = p.m_nrThreads
  running : running p'.m_pool = running p.m_pool
  later : ∀ n fds, (p'.start n fds).2 = (p.start n fds).2

/-- No worker fails in this `start`: the pool is in use already, or no workers are asked for, or
there is a descriptor for each of them. -/
def Launches (p : GeneralThreadPool τ) (n : UInt64) (fds : ℕ → Bool) : Prop :=
  p.m_nrThreads ≠ 0 ∨ n = 0 ∨ ∀ i < n.toNat, fds i = true

instance (p : GeneralThreadPool τ) (n : UInt64) (fds : ℕ → Bool) : Decidable (Launches p n fds) :=
  inferInstanceAs (Decidable (p.m_nrThreads ≠ 0 ∨ n = 0 ∨ ∀ i < n.toNat, fds i = true))

/-- **A `start` that returns false leaves the pool untouched only if no worker has failed.** -/
theorem untouched_iff {p : GeneralThreadPool τ} {n : UInt64} {fds : ℕ → Bool} :
    ((p.start n fds).2 = false → Untouched p (p.start n fds).1) ↔ Launches p n fds := by
  constructor
  · intro h
    by_contra hfails
    obtain ⟨hunused, hne, hfds⟩ : p.m_nrThreads = 0 ∧ n ≠ 0 ∧ ¬ ∀ i < n.toNat, fds i = true := by
      simpa only [Launches, not_or, not_not] using hfails
    have hfalse : (p.start n fds).2 = false :=
      Bool.eq_false_iff.mpr fun hok ↦ hfds ((start_ok p n fds).mp hok).2.2
    have hzero : ¬ n ≤ 0 := fun h0 ↦ hne (UInt64.le_zero_iff.mp h0)
    have hrecorded : (p.start n fds).1.m_nrThreads = n := by
      rw [start, if_neg (not_not.mpr hunused), if_neg hzero]
    exact hne (hrecorded.symm.trans ((h hfalse).nrThreads.trans hunused))
  · intro h hfalse
    have hsame : (p.start n fds).1 = p := by
      rcases Owned.start_cases p n fds with hsame | ⟨hunused, hne, -⟩
      · exact hsame
      · have hfds := (h.resolve_left (not_not.mpr hunused)).resolve_left hne
        have hok := (start_ok p n fds).mpr ⟨hunused, hne, hfds⟩
        exact absurd (hok.symm.trans hfalse) (by decide)
    rw [hsame]
    exact ⟨rfl, rfl, fun _ _ ↦ rfl⟩

theorem stopWorkers_length (ok : Bool) (pool : List (Life τ)) :
    (stopWorkers ok pool).1.length = pool.length := by
  induction pool generalizing ok with
  | nil => cases ok <;> rfl
  | cons worker pool ih => cases ok <;> exact congrArg Nat.succ (ih _)

namespace Owned

variable [DecidableEq τ]

/-! ## Runs of the owner

Once a worker has failed, the pool is spoilt until a `wait`, which sets the recorded number back and
clears the vector.  The first failure of a run is enough for one direction.  For the other one it is
an invariant of the steps in which nothing fails that the vector has the recorded size. -/

/-- In the run of `tr`, a `start` that returns false leaves the pool untouched, and the number of
workers that is recorded is the size of the vector at any time. -/
def FailsCleanly (tr : List (Label τ)) : Prop :=
  Along step (fun _ s l ↦ ∀ n fds, l = .start n fds → (s.start n fds).2 = false →
    Untouched s.toGeneralThreadPool (s.start n fds).1) init tr ∧
  ∀ tr₁ s₁, tr₁ <+: tr → run step init tr₁ = some s₁ → s₁.m_nrThreads.toNat = s₁.m_pool.length

/-- In this step no worker fails to start. -/
def LaunchesAt (s : Owned τ) : Label τ → Prop
  | .start n fds => Launches s.toGeneralThreadPool n fds
  | _ => True

instance (s : Owned τ) : DecidablePred (LaunchesAt s)
  | .start n fds => inferInstanceAs (Decidable (Launches s.toGeneralThreadPool n fds))
  | .stop | .wait | .work _ _ => isTrue trivial

/-- Without such a failure the number stays the size of the vector. -/
theorem step_size {s s' : Owned τ} {l : Label τ} (hi : Kept s)
    (hsize : s.m_nrThreads.toNat = s.m_pool.length) (h : s.step l = some s')
    (hl : LaunchesAt s l) :
    s'.m_nrThreads.toNat = s'.m_pool.length := by
  cases l with
  | start n fds =>
    obtain rfl := Option.some_inj.mp h
    rcases start_cases s.toGeneralThreadPool n fds with hsame | ⟨hunused, hne, -⟩
    · simp only [hsame, hsize]
    · have hfds := (hl.resolve_left (not_not.mpr hunused)).resolve_left hne
      have hstarts := (start_ok _ n fds).mpr ⟨hunused, hne, hfds⟩
      obtain ⟨hnr, -, hlength⟩ := start_length hi.empty hstarts
      simp only [hnr, hlength]
  | stop =>
    obtain rfl := Option.some_inj.mp h
    have hlength : (stopWorkers true s.m_pool).1.length = s.m_pool.length := stopWorkers_length ..
    exact hsize.trans hlength.symm
  | wait =>
    obtain ⟨q, hq, rfl⟩ := Option.map_eq_some_iff.mp h
    obtain ⟨r, -, rfl⟩ := Option.map_eq_some_iff.mp hq
    rfl
  | work k l =>
    obtain ⟨worker, -, h⟩ := Option.bind_eq_some_iff.mp h
    obtain ⟨-, h⟩ := Option.ite_none_left_eq_some.mp h
    obtain ⟨worker', -, rfl⟩ := Option.map_eq_some_iff.mp h
    simpa using hsize

theorem size_of_launches {tr : List (Label τ)} {s : Owned τ}
    (hl : Along step (fun _ ↦ LaunchesAt) init tr) (h : run step init tr = some s) :
    s.m_nrThreads.toNat = s.m_pool.length := by
  refine run_induction (P := fun tr s ↦ Along step (fun _ ↦ LaunchesAt) init tr →
    s.m_nrThreads.toNat = s.m_pool.length) (fun _ ↦ rfl) ?_ h hl
  intro tr s l s' hr ih hs hl
  obtain ⟨hold, hlast⟩ := (along_concat hr).mp hl
  exact step_size (kept hr) (ih hold) hs hlast

/-- **When failures are clean.**  In a run of the owner every `start` that returns false leaves the
pool untouched, and the recorded number is the size of the vector all the time, if and only if no
worker fails in any `start` of a pool that is not in use. -/
theorem failsCleanly_iff {tr : List (Label τ)} {s : Owned τ} (h : run step init tr = some s) :
    FailsCleanly tr ↔ Along step (fun _ ↦ LaunchesAt) init tr := by
  constructor
  · rintro ⟨hclean, -⟩
    refine along_mono hclean fun tr s l _ hl ↦ ?_
    cases l with
    | start n fds => exact untouched_iff.mp (hl n fds rfl)
    | stop | wait | work => trivial
  · intro hl
    constructor
    · refine along_mono hl fun tr s l _ hl n fds hstart ↦ ?_
      subst hstart
      exact untouched_iff.mpr hl
    · rintro tr₁ s₁ ⟨tr₂, rfl⟩ h₁
      refine size_of_launches (fun tr₃ l tr₄ s₃ htr ↦ ?_) h₁
      exact hl tr₃ l (tr₄ ++ tr₂) s₃ (by rw [htr, List.append_assoc, List.cons_append])

/-- Three workers, the second of which gets no descriptor. -/
def secondFails : List (Label ℕ) := [.start 3 fun i ↦ i ≠ 1]

/-- The pool says that it has three workers and has two, and it cannot be started any more. -/
theorem run_secondFails : ∃ s, run step init secondFails = some s ∧
    s.m_nrThreads.toNat = 3 ∧ s.m_pool.length = 2 ∧ (s.start 3 fun _ ↦ true).2 = false := by
  have hrun : ((run step init secondFails).any fun s ↦ decide (s.m_nrThreads.toNat = 3 ∧
    s.m_pool.length = 2 ∧ (s.start 3 fun _ ↦ true).2 = false)) = true := by decide
  obtain ⟨s, hs, hp⟩ := exists_run_of_any hrun
  exact ⟨s, hs, of_decide_eq_true hp⟩

theorem not_failsCleanly_secondFails : ¬ FailsCleanly secondFails := by
  intro hclean
  obtain ⟨s, hs, hnr, hlength, -⟩ := run_secondFails
  have hsize := hclean.2 _ s (List.prefix_refl _) hs
  omega

theorem not_failsCleanly : ¬ ∀ (tr : List (Label ℕ)) (s : Owned ℕ), run step init tr = some s →
    FailsCleanly tr := fun h ↦ by
  obtain ⟨s, hs, -⟩ := run_secondFails
  exact not_failsCleanly_secondFails (h _ s hs)

/-- A `start` of two workers and a second one, which is refused. -/
def startedTwice : List (Label ℕ) := [.start 2 fun _ ↦ true, .start 5 fun _ ↦ false]

theorem failsCleanly_startedTwice : FailsCleanly startedTwice ∧ ∃ s,
    run step init startedTwice = some s ∧ s.m_pool.length = 2 := by
  have hrun : ((run step init startedTwice).any fun s ↦ decide (s.m_pool.length = 2)) = true := by
    decide
  obtain ⟨s, hs, hp⟩ := exists_run_of_any hrun
  have hcheck : checkAlong step (fun s l ↦ decide (LaunchesAt s l)) init startedTwice = true := by
    decide
  have hlaunches := along_of_check (C := fun _ ↦ LaunchesAt) (fun _ _ _ ↦ of_decide_eq_true) hcheck
  exact ⟨(failsCleanly_iff hs).mpr hlaunches, s, hs, of_decide_eq_true hp⟩

end Owned

end GeneralThreadPool
