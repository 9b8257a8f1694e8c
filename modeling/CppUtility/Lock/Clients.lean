import Mathlib.Data.List.Perm.Basic
import Mathlib.Logic.Function.Basic
import CppUtility.Ownership
import CppUtility.Transition
import CppUtility.Lock.Core

/-!
# Clients of one `MemLockCore`

Any number of clients call `try_lock`, `unlock`, `lockBatch` and `unlockBatch` of one core.  The
single inserts and erases of the concurrent map are atomic, and nothing more is: a batch takes its
keys one at a time, gives them back one at a time when it meets a conflict, and other clients insert
and erase in between.  `step` is one such insert or erase, or the entry or return of a call.

A client that keeps to the rules unlocks only keys it holds; `held` is the record of these, what its
calls have locked and its calls have not started to unlock.  This is no variable of the program.  It
is there so that the rule can be stated, and a call that releases keys is enabled only within it.

* **Positions.**  `Pc` says how far a client is in a call, with the keys that the call has still to
  look at and those it has taken.  `Pc.afterInsert` and `Pc.afterErase` are the position after the
  next insert or erase of the source, and `Pc.result` is what a call returns that has none to make.
* **The keys of a call.**  A client inside a call has some keys more than it holds (`Pc.taking`), or
  some that it is about to lose (`Pc.releasing`).  `holdings_exclusive` of
  `CppUtility.Lock.Exclusive` is the fact that everything else rests on: the keys in the map are the
  disjoint union of what the clients have in these three places.
* **Rules.**  `Rule` has the steps as they act on the map: a call, an insert that succeeds, one that
  fails, an erase, a return.  `rule_of_step` is proved once, and no later proof looks into `step`.

The labels repeat what the source reads, the key and the answer of the map, so that a run is
determined by its labels and can be replayed.
-/

set_option autoImplicit false

namespace MemLock

open Transition Ownership

variable {ι K : Type*}

/-! ## Positions

One position stands for each place in the source where another client can come in between.  The loop
of `unlockBatch` occurs twice, for itself and for the roll-back of `lockBatch`; these are different
positions, since the second one has the iterator to return when it is done. -/

/-- The calls.  The lists are the ranges between the two iterators. -/
inductive Call (K : Type*)
  | tryLock (key : K)
  | unlock (key : K)
  | lockBatch (keys : List K)
  | unlockBatch (keys : List K)
  deriving DecidableEq

/-- What they return: `lockBatch` an iterator and a flag. -/
inductive Ret (K : Type*)
  | bool (b : Bool)
  | void
  | batch (iter : List K) (ok : Bool)
  deriving DecidableEq

/-- How far a client is in a call. -/
inductive Pc (K : Type*)
  /-- Not inside one. -/
  | idle
  /-- In `try_lock`, before the insert. -/
  | trying (key : K)
  /-- In `try_lock`, after it. -/
  | tried (key : K) (inserted : Bool)
  /-- In `unlock`, before the erase. -/
  | unlocking (key : K)
  /-- In `unlock`, after it. -/
  | unlocked (key : K)
  /-- In the loop of `lockBatch`: `taken` is `[begin, curr)`, `iter` is `[curr, end)`. -/
  | locking (taken iter : List K)
  /-- In `lockBatch`, with a conflict at the head of `iter`, inside `unlockBatch(begin, curr)`;
  `todo` is still to be erased. -/
  | rollingBack (todo iter : List K)
  /-- In `unlockBatch`: `gone` has been erased, `todo` not yet. -/
  | unlockingBatch (gone todo : List K)
  deriving DecidableEq

/-- The keys a call will release. -/
def Call.released : Call K → List K
  | .unlock key => [key]
  | .unlockBatch keys => keys
  | _ => []

/-- Where a call begins. -/
def Call.start : Call K → Pc K
  | .tryLock key => .trying key
  | .unlock key => .unlocking key
  | .lockBatch keys => .locking [] keys
  | .unlockBatch keys => .unlockingBatch [] keys

/-- The keys a running call has inserted, and not rolled back. -/
def Pc.taking : Pc K → List K
  | .tried key true => [key]
  | .locking taken _ => taken
  | .rollingBack todo _ => todo
  | _ => []

/-- The keys a running call is there to erase, and has not. -/
def Pc.releasing : Pc K → List K
  | .unlocking key => [key]
  | .unlockingBatch _ todo => todo
  | _ => []

/-- What a call that has nothing left to do returns, and the keys it has locked. -/
def Pc.result : Pc K → Option (Ret K × List K)
  | .tried key inserted => some (.bool inserted, if inserted then [key] else [])
  | .unlocked _ => some (.void, [])
  | .locking taken [] => some (.batch [] true, taken)
  | .rollingBack [] iter => some (.batch iter false, [])
  | .unlockingBatch _ [] => some (.void, [])
  | _ => none

section Next

variable [DecidableEq K]

/-- The position after the insert of `key`, which reported `inserted`; `none` if this is not the
insert that comes next. -/
def Pc.afterInsert (key : K) (inserted : Bool) : Pc K → Option (Pc K)
  | .trying key' => if key = key' then some (.tried key inserted) else none
  | .locking taken (key' :: rest) =>
    if key = key' then
      some (if inserted then .locking (taken ++ [key]) rest else .rollingBack taken (key :: rest))
    else none
  | _ => none

/-- The position after the erase of `key`; `none` if this is not the erase that comes next. -/
def Pc.afterErase (key : K) : Pc K → Option (Pc K)
  | .unlocking key' => if key = key' then some (.unlocked key) else none
  | .rollingBack (key' :: todo) iter => if key = key' then some (.rollingBack todo iter) else none
  | .unlockingBatch gone (key' :: todo) =>
    if key = key' then some (.unlockingBatch (gone ++ [key]) todo) else none
  | _ => none

/-- The inserts of the source: the one of `try_lock` and the one in the loop of `lockBatch`. -/
theorem Pc.afterInsert_eq_some {p p' : Pc K} {key : K} {inserted : Bool} :
    p.afterInsert key inserted = some p' ↔
      (p = .trying key ∧ p' = .tried key inserted) ∨
      ∃ taken rest, p = .locking taken (key :: rest) ∧
        p' = if inserted then .locking (taken ++ [key]) rest
          else .rollingBack taken (key :: rest) := by
  unfold afterInsert
  split
  · simp only [Option.ite_none_right_eq_some, Option.some_inj, trying.injEq, reduceCtorEq,
      false_and, exists_false, or_false]
    exact ⟨fun ⟨h, h'⟩ ↦ ⟨h.symm, h'.symm⟩, fun ⟨h, h'⟩ ↦ ⟨h.symm, h'.symm⟩⟩
  · next taken key' rest =>
    simp only [Option.ite_none_right_eq_some, Option.some_inj, reduceCtorEq, false_and, false_or,
      locking.injEq, List.cons.injEq]
    constructor
    · rintro ⟨rfl, rfl⟩
      exact ⟨taken, rest, ⟨rfl, rfl, rfl⟩, rfl⟩
    · rintro ⟨_, _, ⟨rfl, rfl, rfl⟩, rfl⟩
      exact ⟨rfl, rfl⟩
  · next htry hlock =>
    simp only [reduceCtorEq, false_iff]
    rintro (⟨rfl, -⟩ | ⟨taken, rest, rfl, -⟩)
    · exact htry key rfl
    · exact hlock taken key rest rfl

/-- The erases of the source: the one of `unlock`, and the one in the loop of `unlockBatch`, which
runs for a roll-back or for itself. -/
theorem Pc.afterErase_eq_some {p p' : Pc K} {key : K} :
    p.afterErase key = some p' ↔ (p = .unlocking key ∧ p' = .unlocked key) ∨
      (∃ todo iter, p = .rollingBack (key :: todo) iter ∧ p' = .rollingBack todo iter) ∨
      ∃ gone todo, p = .unlockingBatch gone (key :: todo) ∧
        p' = .unlockingBatch (gone ++ [key]) todo := by
  unfold afterErase
  split
  · simp only [Option.ite_none_right_eq_some, Option.some_inj, unlocking.injEq, reduceCtorEq,
      false_and, exists_false, or_false]
    exact ⟨fun ⟨h, h'⟩ ↦ ⟨h.symm, h'.symm⟩, fun ⟨h, h'⟩ ↦ ⟨h.symm, h'.symm⟩⟩
  · next key' todo iter =>
    simp only [Option.ite_none_right_eq_some, Option.some_inj, reduceCtorEq, false_and, false_or,
      exists_false, or_false, rollingBack.injEq, List.cons.injEq]
    constructor
    · rintro ⟨rfl, rfl⟩
      exact ⟨todo, iter, ⟨⟨rfl, rfl⟩, rfl⟩, rfl⟩
    · rintro ⟨_, _, ⟨⟨rfl, rfl⟩, rfl⟩, rfl⟩
      exact ⟨rfl, rfl⟩
  · next gone key' todo =>
    simp only [Option.ite_none_right_eq_some, Option.some_inj, reduceCtorEq, false_and, false_or,
      exists_false, unlockingBatch.injEq, List.cons.injEq]
    constructor
    · rintro ⟨rfl, rfl⟩
      exact ⟨gone, todo, ⟨rfl, rfl, rfl⟩, rfl⟩
    · rintro ⟨_, _, ⟨rfl, rfl, rfl⟩, rfl⟩
      exact ⟨rfl, rfl⟩
  · next hunlock hroll hbatch =>
    simp only [reduceCtorEq, false_iff]
    rintro (⟨rfl, -⟩ | ⟨todo, iter, rfl, -⟩ | ⟨gone, todo, rfl, -⟩)
    · exact hunlock key rfl
    · exact hroll key todo iter rfl
    · exact hbatch gone key todo rfl

end Next

/-! ## Steps -/

/-- The core with its clients. -/
structure Clients (ι K : Type*) where
  core : MemLockCore K
  pc : ι → Pc K
  /-- What the calls that have returned have locked, and no call has begun to unlock. -/
  held : ι → List K

/-- A step: who does what.  Data that the step reads is repeated in the label. -/
inductive Label (ι K : Type*)
  | call (c : ι) (f : Call K)
  | insert (c : ι) (key : K) (inserted : Bool)
  | erase (c : ι) (key : K)
  | ret (c : ι) (r : Ret K)
  deriving DecidableEq

/-- Who moves. -/
def Label.client : Label ι K → ι
  | .call c _ => c
  | .insert c _ _ => c
  | .erase c _ => c
  | .ret c _ => c

namespace Clients

variable [DecidableEq ι]

/-- Move one client. -/
def goto (s : Clients ι K) (c : ι) (p : Pc K) : Clients ι K :=
  { s with pc := Function.update s.pc c p }

/-- Record what one client holds. -/
def hold (s : Clients ι K) (c : ι) (keys : List K) : Clients ι K :=
  { s with held := Function.update s.held c keys }

@[simp] theorem goto_pc_self (s : Clients ι K) (c : ι) (p : Pc K) : (s.goto c p).pc c = p :=
  Function.update_self ..

theorem goto_pc_ne (s : Clients ι K) {c d : ι} (p : Pc K) (h : d ≠ c) :
    (s.goto c p).pc d = s.pc d := Function.update_of_ne h ..

variable [DecidableEq K]

/-- Nobody has called yet, and nothing is locked. -/
def init : Clients ι K := ⟨.init, fun _ ↦ .idle, fun _ ↦ []⟩

/-- One step of one client; `none` if it is not enabled.  A call that releases keys is only made for
pairwise distinct keys that the client holds. -/
def step (s : Clients ι K) : Label ι K → Option (Clients ι K)
  | .call c f =>
    if s.pc c = .idle ∧ f.released.Nodup ∧ ∀ k ∈ f.released, k ∈ s.held c then
      some ((s.goto c f.start).hold c ((s.held c).filter (· ∉ f.released)))
    else none
  | .insert c key inserted =>
    if inserted = (s.core.insert key).2 then
      ((s.pc c).afterInsert key inserted).map fun p ↦
        { s.goto c p with core := (s.core.insert key).1 }
    else none
  | .erase c key =>
    ((s.pc c).afterErase key).map fun p ↦ { s.goto c p with core := s.core.erase key }
  | .ret c r =>
    match (s.pc c).result with
    | some (r', keys) =>
      if r = r' then some ((s.goto c .idle).hold c (s.held c ++ keys)) else none
    | none => none

/-- The steps as rules, one for each thing a step can do to the map. -/
inductive Rule (s : Clients ι K) : Label ι K → Clients ι K → Prop
  | call {c : ι} {f : Call K} (hidle : s.pc c = .idle) (hnodup : f.released.Nodup)
      (hheld : ∀ k ∈ f.released, k ∈ s.held c) :
      Rule s (.call c f) ((s.goto c f.start).hold c ((s.held c).filter (· ∉ f.released)))
  | inserted {c : ι} {key : K} {p : Pc K} (hpc : (s.pc c).afterInsert key true = some p)
      (hnew : key ∉ s.core.m_hashMap) :
      Rule s (.insert c key true)
        { s.goto c p with core := ⟨Insert.insert key s.core.m_hashMap⟩ }
  | refused {c : ι} {key : K} {p : Pc K} (hpc : (s.pc c).afterInsert key false = some p)
      (hold : key ∈ s.core.m_hashMap) : Rule s (.insert c key false) (s.goto c p)
  | erase {c : ι} {key : K} {p : Pc K} (hpc : (s.pc c).afterErase key = some p) :
      Rule s (.erase c key) { s.goto c p with core := ⟨s.core.m_hashMap.erase key⟩ }
  | ret {c : ι} {r : Ret K} {keys : List K} (hpc : (s.pc c).result = some (r, keys)) :
      Rule s (.ret c r) ((s.goto c .idle).hold c (s.held c ++ keys))

/-- **What a step can do.** -/
theorem rule_of_step {s s' : Clients ι K} {l : Label ι K} (h : step s l = some s') :
    Rule s l s' := by
  cases l with
  | call c f =>
    simp only [step, Option.ite_none_right_eq_some, Option.some_inj] at h
    obtain ⟨⟨h1, h2, h3⟩, rfl⟩ := h
    exact .call h1 h2 h3
  | insert c key inserted =>
    simp only [step, Option.ite_none_right_eq_some, Option.map_eq_some_iff] at h
    obtain ⟨rfl, p, hp, rfl⟩ := h
    by_cases hkey : key ∈ s.core.m_hashMap
    · rw [MemLockCore.insert_of_mem hkey] at hp ⊢
      exact .refused hp hkey
    · rw [MemLockCore.insert_of_not_mem hkey] at hp ⊢
      exact .inserted hp hkey
  | erase c key =>
    obtain ⟨p, hp, rfl⟩ := Option.map_eq_some_iff.mp h
    exact .erase hp
  | ret c r =>
    rw [step] at h
    split at h
    · next r' keys hres =>
      simp only [Option.ite_none_right_eq_some, Option.some_inj] at h
      obtain ⟨rfl, rfl⟩ := h
      exact .ret hres
    · cases h

/-- A step leaves the other clients alone. -/
theorem Rule.other {s s' : Clients ι K} {l : Label ι K} (h : Rule s l s') {d : ι}
    (hd : d ≠ l.client) : s'.pc d = s.pc d ∧ s'.held d = s.held d := by
  cases h with
  | call | ret => exact ⟨Function.update_of_ne hd .., Function.update_of_ne hd ..⟩
  | inserted | refused | erase => exact ⟨Function.update_of_ne hd .., rfl⟩

/-! ## A client on its own

When no other client moves, the single steps of a `lockBatch` add up to what `MemLockCore.lockBatch`
does: the same map and the same answer.  So the functions of `CppUtility.Lock.Core` and the steps of
this file are two descriptions of the same code. -/

/-- A step of the client in front of a run of it. -/
theorem run_cons {s s₁ : Clients ι K} {l : Label ι K} {c : ι} {tr : List (Label ι K)}
    (hstep : step s l = some s₁) (hl : l.client = c) (htr : ∀ m ∈ tr, m.client = c)
    {s' : Clients ι K} (hrun : run step s₁ tr = some s') :
    run step s (l :: tr) = some s' ∧ ∀ m ∈ l :: tr, m.client = c := by
  refine ⟨run_cons_eq_some.mpr ⟨s₁, hstep, hrun⟩, fun m hm ↦ ?_⟩
  rcases List.mem_cons.mp hm with rfl | hm
  · exact hl
  · exact htr m hm

/-- A roll-back that nobody interrupts. -/
theorem run_rollingBack {s : Clients ι K} {c : ι} {todo iter : List K}
    (hpc : s.pc c = .rollingBack todo iter) : ∃ tr s', run step s tr = some s' ∧
      (∀ l ∈ tr, l.client = c) ∧ s'.core = s.core.unlockBatch todo ∧
      s'.pc c = .rollingBack [] iter := by
  induction todo generalizing s with
  | nil => exact ⟨[], s, rfl, fun _ hl ↦ absurd hl List.not_mem_nil, rfl, hpc⟩
  | cons k todo ih =>
    have hstep : step s (.erase c k)
        = some { s.goto c (.rollingBack todo iter) with core := s.core.erase k } := by
      rw [step, hpc, Pc.afterErase, if_pos rfl, Option.map_some]
    obtain ⟨tr, s', hrun, htr, hcore, hpc'⟩ :=
      ih (s := { s.goto c (.rollingBack todo iter) with core := s.core.erase k })
        (goto_pc_self s c (.rollingBack todo iter))
    obtain ⟨hrun', htr'⟩ := run_cons hstep rfl htr hrun
    exact ⟨_, s', hrun', htr', hcore, hpc'⟩

/-- The loop of `lockBatch`, when nobody interrupts it. -/
theorem run_locking {s : Clients ι K} {c : ι} {taken iter : List K}
    (hpc : s.pc c = .locking taken iter) : ∃ tr s' keys, run step s tr = some s' ∧
      (∀ l ∈ tr, l.client = c) ∧ s'.core = (s.core.lockBatchLoop taken iter).1 ∧
      (s'.pc c).result = some (.batch (s.core.lockBatchLoop taken iter).2.1
        (s.core.lockBatchLoop taken iter).2.2, keys) := by
  induction iter generalizing s taken with
  | nil =>
    exact ⟨[], s, taken, rfl, fun _ hl ↦ absurd hl List.not_mem_nil, rfl, by rw [hpc]; rfl⟩
  | cons k iter ih =>
    by_cases hk : k ∈ s.core.m_hashMap
    · have hstep : step s (.insert c k false) = some { s.goto c (.rollingBack taken (k :: iter))
          with core := s.core } := by
        rw [step, MemLockCore.insert_of_mem hk, if_pos rfl, hpc, Pc.afterInsert, if_pos rfl]
        rfl
      obtain ⟨tr, s', hrun, htr, hcore, hpc'⟩ :=
        run_rollingBack (goto_pc_self s c (.rollingBack taken (k :: iter)))
      obtain ⟨hrun', htr'⟩ := run_cons hstep rfl htr hrun
      have hloop : s.core.lockBatchLoop taken (k :: iter)
          = (s.core.unlockBatch taken, k :: iter, false) := by
        rw [MemLockCore.lockBatchLoop, MemLockCore.insert_of_mem hk]
        rfl
      exact ⟨_, s', [], hrun', htr', by rw [hloop]; exact hcore, by rw [hloop, hpc']; rfl⟩
    · have hstep : step s (.insert c k true) = some { s.goto c (.locking (taken ++ [k]) iter) with
          core := ⟨Insert.insert k s.core.m_hashMap⟩ } := by
        rw [step, MemLockCore.insert_of_not_mem hk, if_pos rfl, hpc, Pc.afterInsert, if_pos rfl]
        rfl
      obtain ⟨tr, s', keys, hrun, htr, hcore, hres⟩ :=
        ih (s := { s.goto c (.locking (taken ++ [k]) iter) with
          core := ⟨Insert.insert k s.core.m_hashMap⟩ })
          (goto_pc_self s c (.locking (taken ++ [k]) iter))
      obtain ⟨hrun', htr'⟩ := run_cons hstep rfl htr hrun
      have hloop : s.core.lockBatchLoop taken (k :: iter) = MemLockCore.lockBatchLoop
          ⟨Insert.insert k s.core.m_hashMap⟩ (taken ++ [k]) iter := by
        rw [MemLockCore.lockBatchLoop, MemLockCore.insert_of_not_mem hk]
        rfl
      exact ⟨_, s', keys, hrun', htr', by rw [hloop]; exact hcore, by rw [hloop]; exact hres⟩

/-- **A `lockBatch` on its own** leaves the core as `MemLockCore.lockBatch` does, and returns what
that returns. -/
theorem run_lockBatch {s : Clients ι K} {c : ι} (hidle : s.pc c = .idle) (keys : List K) :
    ∃ tr s', run step s (.call c (.lockBatch keys) :: tr ++ [.ret c (.batch
        (s.core.lockBatch keys).2.1 (s.core.lockBatch keys).2.2)]) = some s' ∧
      (∀ l ∈ tr, l.client = c) ∧ s'.core = (s.core.lockBatch keys).1 := by
  have hcall : step s (.call c (.lockBatch keys)) = some ((s.goto c (.locking [] keys)).hold c
      ((s.held c).filter (· ∉ (Call.lockBatch keys).released))) := by
    rw [step, if_pos ⟨hidle, List.nodup_nil, fun _ hk ↦ absurd hk List.not_mem_nil⟩]
    rfl
  obtain ⟨tr, s₁, taken, hrun, htr, hcore, hres⟩ :=
    run_locking (s := (s.goto c (.locking [] keys)).hold c
      ((s.held c).filter (· ∉ (Call.lockBatch keys).released)))
      (goto_pc_self s c (.locking [] keys))
  refine ⟨tr, (s₁.goto c .idle).hold c (s₁.held c ++ taken), ?_, htr, hcore⟩
  rw [List.cons_append, run_cons_eq_some]
  refine ⟨_, hcall, run_concat.mpr ⟨s₁, hrun, ?_⟩⟩
  rw [step, hres]
  exact if_pos rfl

end Clients

end MemLock
