import CppUtility.Lock.Crowd

/-!
# One guard at a time

`Scope` takes a constructor and a destructor as single steps; in `Crowd` they go key by key.  As
long as no guard is touched while another one is being made or destroyed (`Alone`; with one thread
it cannot be otherwise), nobody can tell the difference: `refines_scope` says that the operations of
such a run of `Crowd`, in their order, are a run of `Scope`, with the same guards and the same map
at the end.

The two disagree in the middle of an operation, which `Scope` has already done when it begins.  A
simulation that compared the states as they are would have nothing to say there.  So the state of
`Crowd` is first run on to where it is going:

* `Pc.finish` runs a call on by itself, from any position in it, with the functions of
  `CppUtility.Lock.Core`;
* `Crowd.finish` does this for the guard that is in the middle of an operation, and puts the guard
  that comes out of it into place;
* `Ahead` says that the scope is what this gives, for every guard that may be the one.

An insert or an erase of the guard is what `finish` would have done next, so nothing changes
(`Ahead.insert`, `Ahead.erase`).  The first step of an operation is where `Scope` moves, and the
last one is where nothing is left to finish.
-/

set_option autoImplicit false

namespace MemLock

open Transition Ownership

variable {G K : Type*}

/-! ## Running a call on to its end

`Pc.finish` is defined by the functions that act at once, so that the two lemmas about the next
insert and the next erase are one unfolding of `lockBatchLoop` and of `unlockBatch` each. -/

section Finish

variable [DecidableEq K]

/-- The core when a call has been run on by itself, and the iterator and the flag of a
`lockBatch`. -/
def Pc.finish (core : MemLockCore K) : Pc K → MemLockCore K × Option (List K × Bool)
  | .trying key => ((core.insert key).1, none)
  | .unlocking key => (core.erase key, none)
  | .locking taken iter =>
    let (core, iter, ok) := core.lockBatchLoop taken iter
    (core, some (iter, ok))
  | .rollingBack todo iter => (core.unlockBatch todo, some (iter, false))
  | .unlockingBatch _ todo => (core.unlockBatch todo, none)
  | _ => (core, none)

/-- An insert is the next thing the call was going to do. -/
theorem Pc.finish_afterInsert {core : MemLockCore K} {p p' : Pc K} {key : K}
    (h : p.afterInsert key (core.insert key).2 = some p') :
    p'.finish (core.insert key).1 = p.finish core := by
  rcases afterInsert_eq_some.mp h with ⟨rfl, rfl⟩ | ⟨taken, rest, rfl, rfl⟩
  · rfl
  · by_cases hkey : key ∈ core.m_hashMap
    · simp [finish, MemLockCore.lockBatchLoop, MemLockCore.insert_of_mem hkey]
    · simp [finish, MemLockCore.lockBatchLoop, MemLockCore.insert_of_not_mem hkey]

/-- So is an erase. -/
theorem Pc.finish_afterErase {core : MemLockCore K} {p p' : Pc K} {key : K}
    (h : p.afterErase key = some p') : p'.finish (core.erase key) = p.finish core := by
  rcases afterErase_eq_some.mp h with ⟨rfl, rfl⟩ | ⟨todo, iter, rfl, rfl⟩ | ⟨gone, todo, rfl, rfl⟩
  · rfl
  · rfl
  · rfl

/-- Nothing is left to do when a `lockBatch` returns. -/
theorem Pc.finish_of_batch {core : MemLockCore K} {p : Pc K} {iter keys : List K} {ok : Bool}
    (h : p.result = some (.batch iter ok, keys)) : p.finish core = (core, some (iter, ok)) := by
  unfold result at h
  split at h <;> cases h <;> rfl

/-- Nor when an `unlockBatch` does. -/
theorem Pc.finish_of_void {core : MemLockCore K} {p : Pc K} {keys : List K}
    (h : p.result = some (.void, keys)) : p.finish core = (core, none) := by
  unfold result at h
  split at h <;> cases h <;> rfl

end Finish

/-- The guard that a step is about. -/
def CrowdLabel.guard : CrowdLabel G K → G
  | .construct g _ _ _ => g
  | .insert g _ _ => g
  | .erase g _ => g
  | .constructed g _ _ => g
  | .moveConstruct g _ => g
  | .moveAssign g _ => g
  | .destroy g => g
  | .destroyed g => g

/-- The operation that a step begins. -/
def CrowdLabel.op : CrowdLabel G K → Option (ScopeOp G K)
  | .construct g keys dedup leftover => some (.construct g keys dedup leftover)
  | .moveConstruct g lg => some (.moveConstruct g lg)
  | .moveAssign g lg => some (.moveAssign g lg)
  | .destroy g => some (.destroy g)
  | _ => none

namespace Crowd

variable [LinearOrder K] [DecidableEq G]

/-- What there will be when the operation that is under way, on this guard if there is one, has come
to its end. -/
def finish (t : Crowd G K) : Option G → Scope G K
  | none => ⟨t.clients.core, t.guards⟩
  | some g =>
    match (t.clients.pc (some g)).finish t.clients.core with
    | (lock, some (iter, ok)) =>
      ⟨lock, Function.update t.guards g (some ⟨t.m_keys g, some iter, ok⟩)⟩
    | (lock, none) => ⟨lock, t.guards⟩

section

variable {t : Crowd G K} {g : G} {lock : MemLockCore K}

theorem finish_of_some {iter : List K} {ok : Bool}
    (h : (t.clients.pc (some g)).finish t.clients.core = (lock, some (iter, ok))) :
    t.finish (some g)
      = ⟨lock, Function.update t.guards g (some ⟨t.m_keys g, some iter, ok⟩)⟩ := by
  simp only [finish, h]

theorem finish_of_none (h : (t.clients.pc (some g)).finish t.clients.core = (lock, none)) :
    t.finish (some g) = ⟨lock, t.guards⟩ := by
  simp only [finish, h]

/-- A guard that is in the middle of nothing has nothing to finish. -/
theorem finish_of_idle (h : t.clients.pc (some g) = .idle) : t.finish (some g) = t.finish none :=
  finish_of_none (by rw [h]; rfl)

end

/-- All guards but this one, if it is one, are in the middle of nothing. -/
def Still (t : Crowd G K) (o : Option G) : Prop :=
  ∀ g, some g ≠ o → t.clients.pc (some g) = .idle

omit [LinearOrder K] in
/-- The step is about a guard, and no other guard is being made or destroyed. -/
def Alone (_ : List (CrowdLabel G K)) (t : Crowd G K) (l : CrowdLabel G K) : Prop :=
  t.Still (some l.guard)

/-- The scope is where the crowd will be. -/
def Ahead (t : Crowd G K) (s : Scope G K) : Prop := ∀ o, t.Still o → s = t.finish o

/-- It is enough to know it of one guard. -/
theorem ahead_of_still {t : Crowd G K} {s : Scope G K} {g : G} (hstill : t.Still (some g))
    (h : s = t.finish (some g)) : t.Ahead s := by
  have hnone : ∀ o, o ≠ some g → t.Still o → t.finish (some g) = t.finish none := by
    intro o ho hstill'
    exact finish_of_idle (hstill' g ho.symm)
  intro o hstill'
  by_cases ho : o = some g
  · rw [ho, h]
  · rw [h, hnone o ho hstill']
    cases o with
    | none => rfl
    | some g' => exact (finish_of_idle (hstill g' ho)).symm

/-! ## One step -/

variable {t t' : Crowd G K} {s : Scope G K} {g : G}

/-- A step of one guard leaves the others where they are. -/
theorem Still.other {clients : Clients (Option G) K} {l : Label (Option G) K}
    (h : t.Still (some g)) (hs : t.clients.step l = some clients) (hl : l.client = some g) :
    ∀ g', some g' ≠ some g → clients.pc (some g') = .idle := by
  intro g' hne
  rw [((Clients.rule_of_step hs).other (by rwa [hl])).1]
  exact h g' hne

/-- Inside a call the guard comes closer to what it will do anyway. -/
theorem Ahead.inside {clients : Clients (Option G) K} {l : Label (Option G) K} (h : t.Ahead s)
    (hstill : t.Still (some g)) (hs : t.clients.step l = some clients) (hl : l.client = some g)
    (hfinish : (clients.pc (some g)).finish clients.core
      = (t.clients.pc (some g)).finish t.clients.core) :
    Ahead { t with clients := clients } s := by
  refine ahead_of_still (hstill.other hs hl) ((h _ hstill).trans ?_)
  simp only [finish, hfinish]

theorem Ahead.insert {clients : Clients (Option G) K} {key : K} {inserted : Bool} (h : t.Ahead s)
    (hstill : t.Still (some g))
    (hs : t.clients.step (.insert (some g) key inserted) = some clients) :
    Ahead { t with clients := clients } s := by
  refine h.inside hstill hs rfl ?_
  obtain ⟨rfl, hs⟩ := Option.ite_none_right_eq_some.mp hs
  obtain ⟨p, hafter, rfl⟩ := Option.map_eq_some_iff.mp hs
  dsimp only
  rw [Clients.goto_pc_self]
  exact Pc.finish_afterInsert hafter

theorem Ahead.erase {clients : Clients (Option G) K} {key : K} (h : t.Ahead s)
    (hstill : t.Still (some g)) (hs : t.clients.step (.erase (some g) key) = some clients) :
    Ahead { t with clients := clients } s := by
  refine h.inside hstill hs rfl ?_
  obtain ⟨p, hafter, rfl⟩ := Option.map_eq_some_iff.mp hs
  dsimp only
  rw [Clients.goto_pc_self]
  exact Pc.finish_afterErase hafter

/-- What a return needs of the position and what it leaves. -/
theorem result_of_ret {clients : Clients (Option G) K} {r : Ret K}
    (hs : t.clients.step (.ret (some g) r) = some clients) :
    ∃ keys, (t.clients.pc (some g)).result = some (r, keys) ∧
      clients.pc (some g) = .idle ∧ clients.core = t.clients.core := by
  cases Clients.rule_of_step hs with
  | ret hpc => exact ⟨_, hpc, Clients.goto_pc_self .., rfl⟩

/-- A constructor that returns has made the guard it was going to make. -/
theorem Ahead.constructed {clients : Clients (Option G) K} {iter : List K} {ok : Bool}
    (h : t.Ahead s) (hstill : t.Still (some g))
    (hs : t.clients.step (.ret (some g) (.batch iter ok)) = some clients) :
    Ahead ({ t with clients := clients }.set g (some ⟨t.m_keys g, some iter, ok⟩)) s := by
  obtain ⟨keys, hresult, hpc, hcore⟩ := result_of_ret hs
  refine ahead_of_still (g := g) (hstill.other hs rfl) ((h _ hstill).trans ?_)
  rw [finish_of_some (Pc.finish_of_batch hresult), finish_of_idle hpc, finish, set, hcore]

/-- A destructor that returns has nothing left to give back. -/
theorem Ahead.destroyed {clients : Clients (Option G) K} (h : t.Ahead s)
    (hstill : t.Still (some g)) (hs : t.clients.step (.ret (some g) .void) = some clients) :
    Ahead { t with clients := clients } s := by
  obtain ⟨keys, hresult, hpc, hcore⟩ := result_of_ret hs
  refine h.inside hstill hs rfl ?_
  rw [Pc.finish_of_void hresult, hpc, hcore]
  rfl

/-- What a call leaves. -/
theorem pc_of_call {clients : Clients (Option G) K} {f : Call K}
    (hs : t.clients.step (.call (some g) f) = some clients) :
    t.clients.pc (some g) = .idle ∧ clients.pc (some g) = f.start ∧
      clients.core = t.clients.core := by
  cases Clients.rule_of_step hs with
  | call hidle => exact ⟨hidle, Clients.goto_pc_self .., rfl⟩

/-- `Scope` constructs the guard when `Crowd` begins to. -/
theorem Ahead.construct {clients : Clients (Option G) K} {keys leftover : List K} {dedup : Bool}
    (h : t.Ahead s) (hstill : t.Still (some g)) (hg : t.guards g = none)
    (hlen : dedup = true → (unique (sort keys)).length + leftover.length = keys.length)
    (hs : t.clients.step (.call (some g)
      (.lockBatch (if dedup then unique (sort keys) ++ leftover else keys))) = some clients) :
    ∃ s', s.step (.construct g keys dedup leftover) = some s' ∧
      Ahead { t with
        clients := clients
        m_keys := Function.update t.m_keys g
          (if dedup then unique (sort keys) ++ leftover else keys) } s' := by
  obtain ⟨hidle, hpc, hcore⟩ := pc_of_call hs
  obtain rfl : s = t.finish none := (h _ hstill).trans (finish_of_idle hidle)
  refine ⟨_, if_pos ⟨hg, hlen⟩, ahead_of_still (g := g) (hstill.other hs rfl) ?_⟩
  simp only [finish, hpc, hcore, Call.start, Pc.finish, Function.update_self, Scope.set]

/-- And destroys it when `Crowd` begins to. -/
theorem Ahead.destroy {clients : Clients (Option G) K} {x : MemLockGuard K} (h : t.Ahead s)
    (hstill : t.Still (some g)) (hg : t.guards g = some x) (hlocked : x.m_locked = true)
    (hs : t.clients.step (.call (some g) (.unlockBatch x.m_keys)) = some clients) :
    ∃ s', s.step (.destroy g) = some s' ∧
      Ahead ({ t with clients := clients }.set g none) s' := by
  obtain ⟨hidle, hpc, hcore⟩ := pc_of_call hs
  obtain rfl : s = t.finish none := (h _ hstill).trans (finish_of_idle hidle)
  refine ⟨{ (t.finish none).set g none with lock := x.destroy t.clients.core }, ?_,
    ahead_of_still (g := g) (hstill.other hs rfl) ?_⟩
  · simp only [Scope.step, finish, hg]
  · simp only [finish, set, Scope.set, hpc, hcore, Call.start, Pc.finish, MemLockGuard.destroy,
      hlocked, if_true]

/-- An operation on guards that are in the middle of nothing, and that leaves them so. -/
theorem Ahead.atOnce {op : ScopeOp G K} {s' : Scope G K} (h : t.Ahead s) (hstill : t.Still (some g))
    (hidle : t.clients.pc (some g) = .idle) (hpc : t'.clients.pc = t.clients.pc)
    (hs : (t.finish none).step op = some s') (hfinish : s' = t'.finish none) :
    ∃ s', s.step op = some s' ∧ t'.Ahead s' := by
  obtain rfl : s = t.finish none := (h _ hstill).trans (finish_of_idle hidle)
  refine ⟨s', hs, ahead_of_still (g := g) ?_ ?_⟩
  · rwa [Still, hpc]
  · rw [hfinish, finish_of_idle (hpc ▸ hidle)]

/-- **One step of a guard that is alone is one operation of `Scope`, or none.** -/
theorem Ahead.step {l : CrowdLabel G K} (h : t.Ahead s) (hi : Kept t)
    (hstill : t.Still (some l.guard)) (hs : t.step l = some t') :
    ∃ s', run Scope.step s l.op.toList = some s' ∧ t'.Ahead s' := by
  have hone : ∀ {op : ScopeOp G K}, (∃ s', s.step op = some s' ∧ t'.Ahead s') →
      ∃ s', run Scope.step s [op] = some s' ∧ t'.Ahead s' := by
    rintro op ⟨s', hop, hahead⟩
    exact ⟨s', run_cons_eq_some.mpr ⟨s', hop, rfl⟩, hahead⟩
  cases l with
  | construct g keys dedup leftover =>
    obtain ⟨⟨hg, hlen⟩, hs⟩ := Option.ite_none_right_eq_some.mp hs
    obtain ⟨clients, hcall, rfl⟩ := Option.map_eq_some_iff.mp hs
    exact hone (h.construct hstill hg hlen hcall)
  | insert g key inserted =>
    obtain ⟨clients, hinsert, rfl⟩ := Option.map_eq_some_iff.mp hs
    exact ⟨s, rfl, h.insert hstill hinsert⟩
  | erase g key =>
    obtain ⟨clients, herase, rfl⟩ := Option.map_eq_some_iff.mp hs
    exact ⟨s, rfl, h.erase hstill herase⟩
  | constructed g iter ok =>
    obtain ⟨clients, hret, rfl⟩ := Option.map_eq_some_iff.mp hs
    exact ⟨s, rfl, h.constructed hstill hret⟩
  | moveConstruct g lg =>
    rw [Crowd.step] at hs
    split at hs
    · next y hg hlg =>
      obtain ⟨hpc, rfl⟩ := Option.ite_none_right_eq_some.mp hs |>.imp_right Option.some_inj.mp
      refine hone (h.atOnce hstill hpc rfl ?_ rfl)
      simp only [Scope.step, finish, hg, hlg]
      rfl
    · cases hs
  | moveAssign g lg =>
    rw [Crowd.step] at hs
    split at hs
    · next x y hg hlg =>
      have hpc := (hi.alive g x hg).1
      by_cases hself : g = lg
      · rw [if_pos hself, Option.some_inj] at hs
        subst hs
        refine hone (h.atOnce hstill hpc rfl ?_ rfl)
        simp only [Scope.step, finish, hg, hlg]
        exact if_pos hself
      · rw [if_neg hself, Option.some_inj] at hs
        subst hs
        refine hone (h.atOnce hstill hpc rfl ?_ rfl)
        simp only [Scope.step, finish, hg, hlg]
        exact if_neg hself
    · cases hs
  | destroy g =>
    rw [Crowd.step] at hs
    split at hs
    · next x hg =>
      by_cases hlocked : x.m_locked = true
      · rw [if_pos hlocked] at hs
        obtain ⟨clients, hcall, rfl⟩ := Option.map_eq_some_iff.mp hs
        exact hone (h.destroy hstill hg hlocked hcall)
      · rw [if_neg hlocked, Option.some_inj] at hs
        subst hs
        refine hone (h.atOnce hstill (hi.alive g x hg).1 rfl ?_ rfl)
        simp only [Scope.step, finish, hg, MemLockGuard.destroy, if_neg hlocked]
        rfl
    · cases hs
  | destroyed g =>
    obtain ⟨clients, hret, rfl⟩ := Option.map_eq_some_iff.mp hs
    exact ⟨s, rfl, h.destroyed hstill hret⟩

/-! ## All runs -/

theorem ahead_run {tr : List (CrowdLabel G K)} (h : run step init tr = some t)
    (halone : Along step Alone init tr) :
    ∃ s, run Scope.step Scope.init (tr.filterMap CrowdLabel.op) = some s ∧ t.Ahead s := by
  refine run_induction (P := fun tr t ↦ Along step Alone init tr →
    ∃ s, run Scope.step Scope.init (tr.filterMap CrowdLabel.op) = some s ∧ t.Ahead s) ?_ ?_ h halone
  · refine fun _ ↦ ⟨Scope.init, rfl, fun o _ ↦ ?_⟩
    cases o with
    | none => rfl
    | some g => exact (finish_of_idle (t := init) rfl).symm
  · intro tr t l t' hr ih hs halone
    obtain ⟨hbefore, hl⟩ := (along_concat hr).mp halone
    obtain ⟨s, hrun, hahead⟩ := ih hbefore
    obtain ⟨s', hstep, hahead'⟩ := hahead.step (kept hr) hl hs
    refine ⟨s', ?_, hahead'⟩
    rw [List.filterMap_append, run_append]
    refine ⟨s, hrun, ?_⟩
    rw [List.filterMap_cons, List.filterMap_nil]
    cases hop : l.op <;> simpa [hop] using hstep

/-- **Guards that are made and destroyed one at a time are those of `Scope`.**  In a run in which no
step is about a guard while another one is being made or destroyed, the operations, in the order in
which they begin, are a run of `Scope`; when none is under way, it has led to the same map and to
the same guards, with their vectors, iterators and flags. -/
theorem refines_scope {tr : List (CrowdLabel G K)} (h : run step init tr = some t)
    (halone : Along step Alone init tr) :
    ∃ s, run Scope.step Scope.init (tr.filterMap CrowdLabel.op) = some s ∧
      ((∀ g, t.clients.pc (some g) = .idle) → s = ⟨t.clients.core, t.guards⟩) := by
  obtain ⟨s, hrun, hahead⟩ := ahead_run h halone
  exact ⟨s, hrun, fun hidle ↦ hahead none fun g _ ↦ hidle g⟩

/-- Two guards that want the same key, the second after the first. -/
def oneByOne : List (CrowdLabel Bool ℕ) :=
  [.construct true [2, 1] true [], .insert true 1 true, .insert true 2 true,
    .constructed true [] true, .construct false [3, 2] false [], .insert false 3 true,
    .insert false 2 false, .erase false 3, .constructed false [2] false, .moveAssign false true,
    .destroy true, .destroyed true, .destroy false, .erase false 1, .erase false 2,
    .destroyed false]

theorem refines_scope_oneByOne : ∃ t s, run step init oneByOne = some t ∧
    run Scope.step Scope.init [.construct true [2, 1] true [], .construct false [3, 2] false [],
      .moveAssign false true, .destroy true, .destroy false] = some s ∧
    s = ⟨t.clients.core, t.guards⟩ := by
  have hrun : ((run step init oneByOne).any fun t ↦
      decide (∀ g, t.clients.pc (some g) = .idle)) = true := by decide
  have halone : checkAlong step (fun t l ↦ decide (∀ g, some g ≠ some l.guard →
      t.clients.pc (some g) = .idle)) init oneByOne = true := by decide
  obtain ⟨t, ht, hp⟩ := exists_run_of_any hrun
  have halong : Along step Alone init oneByOne := by
    refine along_of_check (fun _ _ _ hc ↦ ?_) halone
    have hall := of_decide_eq_true hc
    exact hall
  obtain ⟨s, hs, hend⟩ := refines_scope ht halong
  exact ⟨t, s, ht, hs, hend (of_decide_eq_true hp)⟩

end Crowd

end MemLock
