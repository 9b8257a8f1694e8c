import Mathlib.Data.List.Perm.Basic
import CppUtility.Pool.Ids
import CppUtility.Pool.Start
import CppUtility.RoundRobin

/-!
# The workers of a pool take turns

The counter that hands out the workers goes up by one with each call, in one step, whoever makes the
call.  A call is in two parts for its client: it takes a worker from the counter (`picked` lists
these moments), and some time later it is made at that worker (`received`).  Between the two the
client can be overtaken by any number of others, so the order in which workers are taken and the
order in which the calls come to them are different, and so are the lists at any given moment.

* **The order of taking.**  As long as the counter does not wrap around, the workers that the calls
  get are those of turns in a row (`workers_picked`), wherever the counter has been left by an
  earlier use of the pool.  When it does wrap around, and the number of workers is not a power of
  two, the turns jump; so the theorem says for how many calls it is good.
* **The order of coming.**  A call that has taken a worker has come to it, or its client still holds
  it (`count_picked`); so when nobody holds one, the two lists have the same elements
  (`received_perm_iff`).

What a worker has of the calls that have come to it is the subject of `CppUtility.Pool.Share`.
-/

set_option autoImplicit false

open GeneralWorker Transition RoundRobin

variable {τ : Type*} [DecidableEq τ]

namespace GeneralThreadPool.Clients

/-! ## Calls that take a worker, and calls that come to it -/

/-- The worker that a step takes for a client's call. -/
def pickedAt (s : Clients τ) : Label τ → List (ℕ × UInt64 × Call τ)
  | .pick i c => [(i, s.nextThread.1, c)]
  | _ => []

/-- The worker at which a step makes a client's call. -/
def receivedAt (s : Clients τ) : Label τ → List (ℕ × UInt64 × Call τ)
  | .perform i _ => (s.calls i).toList.map fun call ↦ (i, call)
  | _ => []

/-- The calls of a run, each with its client and the worker that it has been given. -/
def picked (s₀ : Clients τ) (tr : List (Label τ)) : List (ℕ × UInt64 × Call τ) :=
  emitted step pickedAt s₀ tr

/-- The calls that have been made at a worker. -/
def received (s₀ : Clients τ) (tr : List (Label τ)) : List (ℕ × UInt64 × Call τ) :=
  emitted step receivedAt s₀ tr

/-- The indices of the workers. -/
def workers (l : List (ℕ × UInt64 × Call τ)) : List ℕ := l.map fun e ↦ e.2.1.toNat

variable {s₀ s s' : Clients τ} {tr : List (Label τ)} {l : Label τ}

theorem picked_concat (h : run step s₀ tr = some s) :
    picked s₀ (tr ++ [l]) = picked s₀ tr ++ s.pickedAt l := emitted_concat h

theorem received_concat (h : run step s₀ tr = some s) :
    received s₀ (tr ++ [l]) = received s₀ tr ++ s.receivedAt l := emitted_concat h

/-! ## The counter

`m_nextThread` is a 64-bit number that nobody sets back, neither `wait` nor `start`.  So where a
window of calls begins is arbitrary, and all that can be said is that its turns are consecutive. -/

omit [DecidableEq τ] in
/-- A call at a worker does not touch the counter. -/
theorem performAt_nextThread {p p' : GeneralThreadPool τ} {idx : UInt64} {c : Call τ} {r : Ret τ}
    (h : p.performAt idx c = some (p', r)) : p'.m_nextThread = p.m_nextThread := by
  obtain ⟨worker, -, h⟩ := Option.bind_eq_some_iff.mp h
  obtain ⟨-, h⟩ := Option.ite_none_right_eq_some.mp h
  obtain ⟨q, -, hq⟩ := Option.map_eq_some_iff.mp h
  obtain ⟨rfl, rfl⟩ := Prod.mk.inj hq
  rfl

/-- A step takes at most one worker, the one that the counter says, and then the counter goes up;
the number of workers stays. -/
theorem step_counter (h : s.step l = some s') : s'.m_nrThreads = s.m_nrThreads ∧
    s'.m_nextThread = s.m_nextThread + UInt64.ofNat (s.pickedAt l).length ∧
    workers (s.pickedAt l)
      = turns s.m_nrThreads.toNat s.m_nextThread.toNat (s.pickedAt l).length := by
  cases l with
  | pick i c =>
    obtain ⟨-, rfl⟩ := Option.ite_none_right_eq_some.mp h |>.imp_right Option.some_inj.mp
    refine ⟨rfl, rfl, ?_⟩
    simp [pickedAt, workers, turns, nextThread, UInt64.toNat_mod]
  | perform i r =>
    obtain ⟨call, -, h⟩ := Option.bind_eq_some_iff.mp h
    obtain ⟨⟨p', r'⟩, hq, h⟩ := Option.bind_eq_some_iff.mp h
    obtain ⟨-, rfl⟩ := Option.ite_none_right_eq_some.mp h |>.imp_right Option.some_inj.mp
    exact ⟨(performAt_length hq).2, (performAt_nextThread hq).trans (UInt64.add_zero _).symm, rfl⟩
  | purge id =>
    obtain ⟨⟨p', r⟩, hq, rfl⟩ := Option.map_eq_some_iff.mp h
    exact ⟨(performAt_length hq).2, (performAt_nextThread hq).trans (UInt64.add_zero _).symm, rfl⟩
  | work k l =>
    obtain ⟨worker, -, h⟩ := Option.bind_eq_some_iff.mp h
    obtain ⟨-, h⟩ := Option.ite_none_left_eq_some.mp h
    obtain ⟨worker', -, rfl⟩ := Option.map_eq_some_iff.mp h
    exact ⟨rfl, (UInt64.add_zero _).symm, rfl⟩

theorem run_counter (h : run step s₀ tr = some s) : s.m_nrThreads = s₀.m_nrThreads ∧
    s.m_nextThread.toNat = (s₀.m_nextThread.toNat + (picked s₀ tr).length) % 2 ^ 64 := by
  refine run_induction (P := fun tr s ↦ s.m_nrThreads = s₀.m_nrThreads ∧
    s.m_nextThread.toNat = (s₀.m_nextThread.toNat + (picked s₀ tr).length) % 2 ^ 64) ?_ ?_ h
  · exact ⟨rfl, (Nat.mod_eq_of_lt s₀.m_nextThread.toNat_lt).symm⟩
  · rintro tr s l s' hr ⟨hnr, hnext⟩ hs
    obtain ⟨hnr', hnext', -⟩ := step_counter hs
    refine ⟨hnr'.trans hnr, ?_⟩
    rw [hnext', UInt64.toNat_add, hnext, picked_concat hr, List.length_append,
      UInt64.toNat_ofNat', Nat.mod_add_mod, Nat.add_mod_mod, Nat.add_assoc]

/-- **The workers that the calls get are those of consecutive turns**, until the counter wraps
around. -/
theorem workers_picked (h : run step s₀ tr = some s)
    (hwrap : s₀.m_nextThread.toNat + (picked s₀ tr).length ≤ 2 ^ 64) :
    workers (picked s₀ tr)
      = turns s₀.m_nrThreads.toNat s₀.m_nextThread.toNat (picked s₀ tr).length := by
  refine run_induction (P := fun tr s ↦ s₀.m_nextThread.toNat + (picked s₀ tr).length ≤ 2 ^ 64 →
    workers (picked s₀ tr)
      = turns s₀.m_nrThreads.toNat s₀.m_nextThread.toNat (picked s₀ tr).length)
    (fun _ ↦ rfl) ?_ h hwrap
  intro tr s l s' hr ih hs hwrap
  rw [picked_concat hr, List.length_append] at hwrap ⊢
  obtain ⟨hnr, hnext⟩ := run_counter hr
  have hlast := (step_counter hs).2.2
  have hturns : turns s.m_nrThreads.toNat s.m_nextThread.toNat (s.pickedAt l).length
      = turns s₀.m_nrThreads.toNat (s₀.m_nextThread.toNat + (picked s₀ tr).length)
        (s.pickedAt l).length := by
    cases hone : (s.pickedAt l).length with
    | zero => rfl
    | succ m => rw [hnr, hnext, Nat.mod_eq_of_lt (by omega)]
  have happend : workers (picked s₀ tr ++ s.pickedAt l)
      = workers (picked s₀ tr) ++ workers (s.pickedAt l) := List.map_append
  rw [happend, ih (by omega), hlast, hturns, turns_add]

/-! ## What the workers receive -/

/-- What a client does to one call: it is given a worker, and then it is at the worker. -/
theorem step_count (h : s.step l = some s') (e : ℕ × UInt64 × Call τ) :
    (s.pickedAt l).count e + (if s.calls e.1 = some e.2 then 1 else 0)
      = (s.receivedAt l).count e + if s'.calls e.1 = some e.2 then 1 else 0 := by
  obtain ⟨j, call⟩ := e
  cases l with
  | pick i c =>
    obtain ⟨⟨hidle, -⟩, rfl⟩ :=
      Option.ite_none_right_eq_some.mp h |>.imp_right Option.some_inj.mp
    by_cases hj : j = i
    · subst hj
      simp [pickedAt, receivedAt, hidle, List.count_singleton]
    · simp [pickedAt, receivedAt, hj, Ne.symm hj]
  | perform i r =>
    obtain ⟨call', hcall, h⟩ := Option.bind_eq_some_iff.mp h
    obtain ⟨q, -, h⟩ := Option.bind_eq_some_iff.mp h
    obtain ⟨-, rfl⟩ := Option.ite_none_right_eq_some.mp h |>.imp_right Option.some_inj.mp
    by_cases hj : j = i
    · subst hj
      simp [pickedAt, receivedAt, hcall, List.count_singleton]
    · simp [pickedAt, receivedAt, hcall, hj, Ne.symm hj]
  | purge id =>
    obtain ⟨q, -, rfl⟩ := Option.map_eq_some_iff.mp h
    rfl
  | work k l =>
    obtain ⟨worker, -, h⟩ := Option.bind_eq_some_iff.mp h
    obtain ⟨-, h⟩ := Option.ite_none_left_eq_some.mp h
    obtain ⟨worker', -, rfl⟩ := Option.map_eq_some_iff.mp h
    rfl

/-- A call that has been given a worker has come to it, or is on its way. -/
theorem count_picked (hidle : ∀ i, s₀.calls i = none) (h : run step s₀ tr = some s)
    (e : ℕ × UInt64 × Call τ) : (picked s₀ tr).count e
      = (received s₀ tr).count e + if s.calls e.1 = some e.2 then 1 else 0 := by
  refine run_induction (P := fun tr s ↦ (picked s₀ tr).count e
    = (received s₀ tr).count e + if s.calls e.1 = some e.2 then 1 else 0) ?_ ?_ h
  · rw [hidle e.1]
    rfl
  · intro tr s l s' hr ih hs
    have hstep := step_count hs e
    rw [picked_concat hr, received_concat hr, List.count_append, List.count_append]
    omega

/-- Every call has come to its worker exactly when nobody is in the middle of one. -/
theorem received_perm_iff (hidle : ∀ i, s₀.calls i = none) (h : run step s₀ tr = some s) :
    (received s₀ tr).Perm (picked s₀ tr) ↔ ∀ i, s.calls i = none := by
  rw [List.perm_iff_count]
  constructor
  · intro hcount i
    rw [Option.eq_none_iff_forall_ne_some]
    intro call hcall
    have hpicked := count_picked hidle h (i, call)
    rw [if_pos hcall, hcount] at hpicked
    omega
  · intro hdone e
    rw [count_picked hidle h, hdone, if_neg (fun h ↦ by cases h), Nat.add_zero]

/-- The pool of an owner, with its counter where the clients have left it. -/
def counterAt (o : Owned τ) (c : UInt64) : GeneralThreadPool τ :=
  { o.toGeneralThreadPool with m_nextThread := c }

/-- The pool that its owner has started with `n` workers when the counter was at `c`. -/
def startedAt (o : Owned τ) (c n : UInt64) (fds : ℕ → Bool) : Clients τ where
  toGeneralThreadPool := ((counterAt o c).start n fds).1
  calls := fun _ ↦ none

end GeneralThreadPool.Clients
