import Mathlib.Algebra.Group.Nat.Defs
import CppUtility.Pool.Basic

/-!
# The ids of a pool

Any number of clients add tasks to a started pool and purge them.  A call takes a worker in one
step, with the atomic counter, and goes to the worker in another one, so clients overtake each
other; the workers do their own work meanwhile.  `Clients.step` is this, and it is the model of the
pool in use for the rest of the folder.

An id names the worker in its high bits and the worker's own id, which is the low part of that
worker's counter, in the others.

* **Packing.**  `pack` is what the pool makes of an index and a counter, `pack_high` and `pack_low`
  take it apart again.  The index has 16 bits to be in, so the pool may have `2 ^ 16` workers, and
  the counter has 48, after which the ids of a worker come round again.  `pack_inj` says that this
  is all that an id can confuse.
* **Issued ids.**  `Issued` points at the step of a run in which an id was given out, and says at
  which worker and with which counter.  The id in the new `Timer` is the low part of this counter
  too (`perform_timerId`), and that is what makes a purge find the `Timer`.
* **Purges.**  A purge of a packed id goes to the worker of the index, which there still is since
  the vector does not change while clients use it (`Sized`), and puts the id of the `Timer` at the
  end of its queue.  Nothing else is touched but the counter of that worker's eventfd
  (`purge_pack`).

`ids_name_worker` puts these together for all runs, with any interleaving of any number of clients.
-/

set_option autoImplicit false

open GeneralWorker Transition

variable {τ : Type*}

namespace GeneralThreadPool

/-! ## Packing and unpacking

The three functions of the source use one shift and one mask, on 64-bit numbers.  As natural numbers
a packed id is `k * 2 ^ 48 + c % 2 ^ 48`, without overflow as long as `k` is below `2 ^ 16`, and the
rest is division with remainder. -/

theorem mask_toNat (c : UInt64) : (c &&& TIMER_ID_MASK).toNat = c.toNat % 2 ^ 48 := by
  have hmask : TIMER_ID_MASK.toNat = 2 ^ 48 - 1 := by decide
  rw [UInt64.toNat_and, hmask, Nat.and_two_pow_sub_one_eq_mod]

/-- The id that the pool makes of the worker at `k` and its counter `c`. -/
def pack (k c : UInt64) : UInt64 := (k <<< TIMER_ID_BITS) ||| (c &&& TIMER_ID_MASK)

theorem pack_toNat {k : UInt64} (hk : k.toNat < 2 ^ 16) (c : UInt64) :
    (pack k c).toNat = k.toNat * 2 ^ 48 + c.toNat % 2 ^ 48 := by
  have hbits : TIMER_ID_BITS.toNat % 64 = 48 := by decide
  have hhigh : k.toNat * 2 ^ 48 < 2 ^ 64 := by omega
  have hlow : c.toNat % 2 ^ 48 < 2 ^ 48 := Nat.mod_lt _ (by decide)
  rw [pack, UInt64.toNat_or, UInt64.toNat_shiftLeft, hbits, mask_toNat, Nat.shiftLeft_eq,
    Nat.mod_eq_of_lt hhigh, ← Nat.shiftLeft_eq, ← Nat.shiftLeft_add_eq_or_of_lt hlow,
    Nat.shiftLeft_eq]

theorem pack_high {k : UInt64} (hk : k.toNat < 2 ^ 16) (c : UInt64) :
    pack k c >>> TIMER_ID_BITS = k := by
  have hbits : TIMER_ID_BITS.toNat % 64 = 48 := by decide
  rw [← UInt64.toNat_inj, UInt64.toNat_shiftRight, pack_toNat hk, hbits,
    Nat.shiftRight_eq_div_pow]
  omega

theorem pack_low {k : UInt64} (hk : k.toNat < 2 ^ 16) (c : UInt64) :
    pack k c &&& TIMER_ID_MASK = c &&& TIMER_ID_MASK := by
  rw [← UInt64.toNat_inj, mask_toNat, pack_toNat hk, mask_toNat]
  omega

/-- Equal ids name the same worker, and counters that agree in the low bits. -/
theorem pack_inj {k k' c c' : UInt64} (hk : k.toNat < 2 ^ 16) (hk' : k'.toNat < 2 ^ 16)
    (h : pack k c = pack k' c') : k = k' ∧ c.toNat % 2 ^ 48 = c'.toNat % 2 ^ 48 := by
  have hnat := congrArg UInt64.toNat h
  rw [pack_toNat hk, pack_toNat hk'] at hnat
  constructor
  · rw [← UInt64.toNat_inj]
    omega
  · omega

/-! ## A call at a worker -/

/-- A call at a worker is its section under `m_lock`, but for the eventfd. -/
theorem perform_eq {w w' : Worker τ} {c : Call τ} {r : Ret τ} (h : w.perform c = some (w', r)) :
    ∃ w₁, pushSection w c = some (w₁, r) ∧ w' = { w₁ with m_evfd := w'.m_evfd } := by
  obtain ⟨⟨w₁, r₁⟩, hpush, heq⟩ := Option.map_eq_some_iff.mp h
  obtain ⟨rfl, rfl⟩ := Prod.mk.inj heq
  refine ⟨w₁, hpush, ?_⟩
  cases hn : w₁.notify w₁.writable with
  | none => rfl
  | some w₂ => exact notify_same hn

/-- The id of a new `Timer` is the low part of the counter, in the `Timer` as in the result. -/
theorem perform_timerId {w w' : Worker τ} {c : Call τ} {p : Ptr} {id : UInt64}
    (h : w.perform c = some (w', .timerId p id)) : id = w.m_nextTimerId &&& TIMER_ID_MASK ∧
      ∃ t, w'.timers p = some t ∧ t.m_id = w.m_nextTimerId &&& TIMER_ID_MASK := by
  obtain ⟨w₁, hpush, hsame⟩ := perform_eq h
  cases c with
  | addRepeatTask ms f =>
    obtain ⟨rfl, hr⟩ := Prod.mk.inj (Option.some_inj.mp hpush)
    obtain ⟨rfl, rfl⟩ := Ret.timerId.inj hr
    refine ⟨rfl, ⟨w.nextTimerId, ms, ms, f, none, some w.self⟩, ?_, rfl⟩
    rw [hsame]
    exact Function.update_self ..
  | _ => simp [pushSection] at hpush

/-- A purge puts its id at the end of the queue, and writes to the eventfd. -/
theorem perform_purge (w : Worker τ) (id : UInt64) :
    ∃ fd, w.perform (.purgeTimerTask id) = some ({ w with
      m_purgingingTimers := w.m_purgingingTimers ++ [id], m_evfd := fd }, .void) := by
  have hperform : w.perform (.purgeTimerTask id) =
      some (((w.pushPurge id).notify (w.pushPurge id).writable).getD (w.pushPurge id), .void) := rfl
  obtain ⟨w₁, hpush, hsame⟩ := perform_eq hperform
  obtain ⟨rfl, -⟩ := Prod.mk.inj (Option.some_inj.mp hpush)
  exact ⟨_, hperform.trans (congrArg (fun w ↦ some (w, Ret.void)) hsame)⟩

/-! ## Clients of a pool

A client that has taken a worker keeps the index until its call is made there.  It may be kept
waiting for any number of steps of others, and the pool must not shrink meanwhile; this is why the
owner's functions are no steps here. -/

/-- A pool with its clients; `calls i` has the worker that the client `i` has got from the counter
and the call that it is about to make there. -/
structure Clients (τ : Type*) extends GeneralThreadPool τ where
  calls : ℕ → Option (UInt64 × Call τ)

/-- The calls that go to the next worker. -/
def distributed : Call τ → Bool
  | .addTask _ => true
  | .addDelayTask _ _ => true
  | .addRepeatTask _ _ => true
  | _ => false

namespace Clients

/-- A step: a client takes a worker for its call, it makes the call there and the pool returns `r`,
somebody purges an id, or a thread inside the worker at `k` takes a step. -/
inductive Label (τ : Type*)
  | pick (i : ℕ) (c : Call τ)
  | perform (i : ℕ) (r : Ret τ)
  | purge (id : UInt64)
  | work (k : ℕ) (l : GeneralWorker.Label τ)
  deriving DecidableEq

/-- The step is a new call, which at a worker of a pool only the pool makes. -/
def isCall : GeneralWorker.Label τ → Bool
  | .call _ _ => true
  | _ => false

variable [DecidableEq τ]

/-- One step; `none` if it is not enabled. -/
def step (s : Clients τ) : Label τ → Option (Clients τ)
  | .pick i c =>
    if s.calls i = none ∧ distributed c ∧ s.m_nrThreads ≠ 0 then
      some { s with
        toGeneralThreadPool := s.nextThread.2
        calls := Function.update s.calls i (some (s.nextThread.1, c)) }
    else none
  | .perform i r =>
    (s.calls i).bind fun call ↦ (s.performAt call.1 call.2).bind fun q ↦
      if r = result call.1 q.2 then
        some { s with toGeneralThreadPool := q.1, calls := Function.update s.calls i none }
      else none
  | .purge id => (s.purgeTimerTask id).map fun q ↦ { s with toGeneralThreadPool := q.1 }
  | .work k l =>
    s.m_pool[k]?.bind fun worker ↦
      if isCall l then none
      else (worker.work l).map fun worker' ↦ { s with m_pool := s.m_pool.set k worker' }

/-! ## What the steps keep -/

/-- The clients hold indices of workers, and calls that are distributed. -/
structure Sized (n : ℕ) (s : Clients τ) : Prop where
  length : s.m_pool.length = n
  nrThreads : s.m_nrThreads.toNat = n
  picked : ∀ i call, s.calls i = some call → call.1.toNat < n ∧ distributed call.2 = true

omit [DecidableEq τ] in
/-- A call at a worker keeps the size of the pool. -/
theorem performAt_length {p p' : GeneralThreadPool τ} {idx : UInt64} {c : Call τ} {r : Ret τ}
    (h : p.performAt idx c = some (p', r)) :
    p'.m_pool.length = p.m_pool.length ∧ p'.m_nrThreads = p.m_nrThreads := by
  obtain ⟨worker, -, h⟩ := Option.bind_eq_some_iff.mp h
  obtain ⟨-, h⟩ := Option.ite_none_right_eq_some.mp h
  obtain ⟨q, -, hq⟩ := Option.map_eq_some_iff.mp h
  obtain ⟨rfl, rfl⟩ := Prod.mk.inj hq
  exact ⟨by simp, rfl⟩

theorem Sized.step {n : ℕ} {s s' : Clients τ} {l : Label τ} (hi : Sized n s)
    (h : s.step l = some s') : Sized n s' := by
  cases l with
  | pick i c =>
    obtain ⟨⟨-, hdist, hne⟩, rfl⟩ :=
      Option.ite_none_right_eq_some.mp h |>.imp_right Option.some_inj.mp
    refine ⟨hi.length, hi.nrThreads, fun j call hj ↦ ?_⟩
    by_cases he : j = i
    · subst he
      obtain rfl : (s.nextThread.1, c) = call := by simpa using hj
      have hpos : 0 < s.m_nrThreads.toNat :=
        Nat.pos_of_ne_zero fun h0 ↦ hne (UInt64.toNat_inj.mp h0)
      refine ⟨?_, hdist⟩
      rw [nextThread, UInt64.toNat_mod, ← hi.nrThreads]
      exact Nat.mod_lt _ hpos
    · exact hi.picked j call (by simpa [he] using hj)
  | perform i r =>
    obtain ⟨call, hcall, h⟩ := Option.bind_eq_some_iff.mp h
    obtain ⟨⟨p', r'⟩, hq, h⟩ := Option.bind_eq_some_iff.mp h
    obtain ⟨-, rfl⟩ := Option.ite_none_right_eq_some.mp h |>.imp_right Option.some_inj.mp
    obtain ⟨hlength, hnr⟩ := performAt_length hq
    refine ⟨hlength.trans hi.length, (congrArg _ hnr).trans hi.nrThreads, fun j call hj ↦ ?_⟩
    by_cases he : j = i
    · simp [he] at hj
    · exact hi.picked j call (by simpa [he] using hj)
  | purge id =>
    obtain ⟨⟨p', r⟩, hq, rfl⟩ := Option.map_eq_some_iff.mp h
    obtain ⟨hlength, hnr⟩ := performAt_length hq
    exact ⟨hlength.trans hi.length, (congrArg _ hnr).trans hi.nrThreads, hi.picked⟩
  | work k l =>
    obtain ⟨worker, -, h⟩ := Option.bind_eq_some_iff.mp h
    obtain ⟨-, h⟩ := Option.ite_none_left_eq_some.mp h
    obtain ⟨worker', -, rfl⟩ := Option.map_eq_some_iff.mp h
    exact ⟨by simpa using hi.length, hi.nrThreads, hi.picked⟩

/-! ## Ids that have been given out -/

/-- In the run of `tr` from `s₀` a client was given `id` for a call at the worker at `k`, which had
its counter at `c` and stored `m_id` in the new `Timer`. -/
def Issued (s₀ : Clients τ) (tr : List (Label τ)) (id k c m_id : UInt64) : Prop :=
  ∃ tr₁ i p tr₂ s s' call worker worker' t, tr = tr₁ ++ .perform i (.timerId p id) :: tr₂ ∧
    run step s₀ tr₁ = some s ∧ s.step (.perform i (.timerId p id)) = some s' ∧
    s.calls i = some (k, call) ∧ s.m_pool[k.toNat]? = some worker ∧ worker.m_nextTimerId = c ∧
    s'.m_pool[k.toNat]? = some worker' ∧ worker'.timers p = some t ∧ t.m_id = m_id

/-- What a step does that gives out an id. -/
theorem step_timerId {s s' : Clients τ} {i : ℕ} {p : Ptr} {id : UInt64}
    (h : s.step (.perform i (.timerId p id)) = some s') :
    ∃ k call worker worker' t, s.calls i = some (k, call) ∧ s.m_pool[k.toNat]? = some worker ∧
      id = pack k worker.m_nextTimerId ∧ s'.m_pool[k.toNat]? = some worker' ∧
      worker'.timers p = some t ∧ t.m_id = worker.m_nextTimerId &&& TIMER_ID_MASK := by
  obtain ⟨⟨k, call⟩, hcall, h⟩ := Option.bind_eq_some_iff.mp h
  obtain ⟨⟨q, r⟩, hperform, h⟩ := Option.bind_eq_some_iff.mp h
  obtain ⟨hr, rfl⟩ := Option.ite_none_right_eq_some.mp h |>.imp_right Option.some_inj.mp
  obtain ⟨worker, hworker, hperform⟩ := Option.bind_eq_some_iff.mp hperform
  obtain ⟨-, hperform⟩ := Option.ite_none_right_eq_some.mp hperform
  obtain ⟨⟨w', r'⟩, hw', heq⟩ := Option.map_eq_some_iff.mp hperform
  obtain ⟨rfl, rfl⟩ := Prod.mk.inj heq
  have hlt : k.toNat < s.m_pool.length := (List.getElem?_eq_some_iff.mp hworker).1
  cases r' with
  | timerId p' id' =>
    obtain ⟨rfl, rfl⟩ := Ret.timerId.inj hr
    obtain ⟨rfl, t, ht, hid⟩ := perform_timerId hw'
    exact ⟨k, call, worker, _, t, hcall, hworker, rfl, List.getElem?_set_self hlt, ht, hid⟩
  | _ => cases hr

theorem sized {n : ℕ} {s₀ s : Clients τ} {tr : List (Label τ)} (h₀ : Sized n s₀)
    (h : run step s₀ tr = some s) : Sized n s :=
  run_invariant h₀ (fun _ _ _ hi hs ↦ hi.step hs) h

/-- What is behind an id: a worker that there is, and its counter. -/
theorem Issued.spec {n : ℕ} {s₀ : Clients τ} {tr : List (Label τ)} {id k c m_id : UInt64}
    (h : Issued s₀ tr id k c m_id) (h₀ : Sized n s₀) :
    k.toNat < n ∧ id = pack k c ∧ m_id = c &&& TIMER_ID_MASK := by
  obtain ⟨tr₁, i, p, tr₂, s, s', call, worker, worker', t, -, hr, hs, hcall, hworker, rfl, hworker',
    ht, rfl⟩ := h
  obtain ⟨k', call', w, w', t', hcall', hw, rfl, hw', ht', hid⟩ := step_timerId hs
  obtain ⟨rfl, -⟩ := Prod.mk.inj (Option.some_inj.mp (hcall.symm.trans hcall'))
  obtain rfl := Option.some_inj.mp (hworker.symm.trans hw)
  obtain rfl := Option.some_inj.mp (hworker'.symm.trans hw')
  obtain rfl := Option.some_inj.mp (ht.symm.trans ht')
  exact ⟨((sized h₀ hr).picked i _ hcall).1, rfl, hid⟩

omit [DecidableEq τ] in
/-- A purge goes to the worker in the high bits, with the low bits. -/
theorem purge_pack {n : ℕ} {s : Clients τ} (hi : Sized n s) (hn : n ≤ 2 ^ 16) {k : UInt64}
    (hk : k.toNat < n) (c : UInt64) : ∃ worker, s.m_pool[k.toNat]? = some worker ∧
      (worker.m_lock = none → ∃ fd, s.purgeTimerTask (pack k c) = some ({ s.toGeneralThreadPool with
        m_pool := s.m_pool.set k.toNat { worker with
          m_purgingingTimers := worker.m_purgingingTimers ++ [c &&& TIMER_ID_MASK]
          m_evfd := fd } }, .void)) := by
  have hlt : k.toNat < 2 ^ 16 := Nat.lt_of_lt_of_le hk hn
  obtain ⟨worker, hworker⟩ : ∃ worker, s.m_pool[k.toNat]? = some worker :=
    ⟨_, List.getElem?_eq_getElem (hi.length ▸ hk)⟩
  refine ⟨worker, hworker, fun hlock ↦ ?_⟩
  obtain ⟨fd, hw⟩ := perform_purge worker.toWorker (c &&& TIMER_ID_MASK)
  refine ⟨fd, ?_⟩
  rw [purgeTimerTask, pack_high hlt, pack_low hlt, performAt, hworker, Option.bind_some,
    if_pos hlock, hw, Option.map_some]

/-- **An id of a pool names a worker and its counter.**  In every run of clients of a pool of at
most `2 ^ 16` workers: every id that is returned was issued at some worker; two equal ids were
issued at the same worker, at counters that agree in the low 48 bits; and a purge of an id that has
been returned puts the id that the `Timer` has at the end of `m_purgingingTimers` of exactly that
worker, and changes nothing else in the pool than the counter of that worker's eventfd. -/
theorem ids_name_worker {n : ℕ} {s₀ s : Clients τ} {tr : List (Label τ)} (hn : n ≤ 2 ^ 16)
    (h₀ : Sized n s₀) (h : run step s₀ tr = some s) :
    (∀ i p id, .perform i (.timerId p id) ∈ tr → ∃ k c m_id, Issued s₀ tr id k c m_id) ∧
    (∀ id k c m_id k' c' m_id', Issued s₀ tr id k c m_id → Issued s₀ tr id k' c' m_id' →
      k = k' ∧ c.toNat % 2 ^ 48 = c'.toNat % 2 ^ 48) ∧
    ∀ id k c m_id, Issued s₀ tr id k c m_id → ∃ worker, s.m_pool[k.toNat]? = some worker ∧
      (worker.m_lock = none → ∃ fd, s.purgeTimerTask id = some ({ s.toGeneralThreadPool with
        m_pool := s.m_pool.set k.toNat { worker with
          m_purgingingTimers := worker.m_purgingingTimers ++ [m_id]
          m_evfd := fd } }, .void)) := by
  refine ⟨fun i p id hmem ↦ ?_, ?_, ?_⟩
  · obtain ⟨tr₁, tr₂, rfl⟩ := List.append_of_mem hmem
    obtain ⟨s₁, h₁, h₂⟩ := run_append.mp h
    obtain ⟨s₂, hs, -⟩ := run_cons_eq_some.mp h₂
    obtain ⟨k, call, worker, worker', t, hcall, hworker, -, hworker', ht, -⟩ := step_timerId hs
    exact ⟨k, worker.m_nextTimerId, t.m_id, tr₁, i, p, tr₂, s₁, s₂, call, worker, worker', t, rfl,
      h₁, hs, hcall, hworker, rfl, hworker', ht, rfl⟩
  · intro id k c m_id k' c' m_id' hissued hissued'
    obtain ⟨hk, rfl, -⟩ := hissued.spec h₀
    obtain ⟨hk', hid, -⟩ := hissued'.spec h₀
    exact pack_inj (Nat.lt_of_lt_of_le hk hn) (Nat.lt_of_lt_of_le hk' hn) hid
  · intro id k c m_id hissued
    obtain ⟨hk, rfl, rfl⟩ := hissued.spec h₀
    exact purge_pack (sized h₀ h) hn hk c

/-- A pool that has just been started with `n` workers. -/
def startedWith (n : UInt64) : Clients τ where
  toGeneralThreadPool := (init.start n fun _ ↦ true).1
  calls := fun _ ↦ none

/-- Two clients take a worker each, and come to their workers in the other order. -/
def overtaking : List (Label ℕ) :=
  [.pick 0 (.addRepeatTask 50 1), .pick 1 (.addRepeatTask 20 2),
    .perform 1 (.timerId 3 281474976710656), .perform 0 (.timerId 3 0)]

theorem ids_name_worker_overtaking : ∃ s, run step (startedWith 2) overtaking = some s ∧
    ∃ k c m_id, Issued (startedWith 2) overtaking 281474976710656 k c m_id ∧
      ∃ worker, s.m_pool[k.toNat]? = some worker ∧ (worker.m_lock = none →
        ∃ fd, s.purgeTimerTask 281474976710656 = some ({ s.toGeneralThreadPool with
          m_pool := s.m_pool.set k.toNat { worker with
            m_purgingingTimers := worker.m_purgingingTimers ++ [m_id]
            m_evfd := fd } }, .void)) := by
  have hrun : ((run step (startedWith 2) overtaking).any fun _ ↦ true) = true := by decide
  obtain ⟨s, hs, -⟩ := exists_run_of_any hrun
  have h₀ : Sized 2 (startedWith 2 : Clients ℕ) := ⟨rfl, rfl, by simp [startedWith]⟩
  obtain ⟨hissued, -, hpurge⟩ := ids_name_worker (by decide) h₀ hs
  obtain ⟨k, c, m_id, hk⟩ := hissued 1 3 281474976710656 (by simp [overtaking])
  exact ⟨s, hs, k, c, m_id, hk, hpurge _ k c m_id hk⟩

end Clients

end GeneralThreadPool
