import CppUtility.Ownership
import CppUtility.Transition
import CppUtility.Lock.Guard

/-!
# Guards coming and going

A `Scope` is one `MemLockCore` together with the guards that are alive, and `Scope.step` is one
construction, move or destruction.  It is the program of one thread, where nothing can come between
the inserts of a batch.

What a guard has to give back is `MemLockGuard.owned`: its keys, if its flag is set.  The keys in
the map should always be the disjoint union of what the guards own (`NoLeak`); then a key is locked
exactly as long as some guard owns it, and the map is empty when all guards are gone.

* A construction adds what the new guard owns, and a failed one adds nothing (`owns_construct`).
* A destruction gives it back (`owns_destroy`).
* A move passes it on to a target that owned nothing (`owns_move`).  The source keeps its flag, but
  has lost its keys, and owns nothing by that alone (`MemLockGuard.owned_moved`).
* The move assignment overwrites `m_keys` without unlocking them, so a target that owned something
  leaves its keys in the map with nobody to release them (`not_owns_move`).

So all operations keep the union but one, and that one exactly when its target owned a key.  This is
an equivalence for one step, `noLeak_step`, and `Transition.forall_prefix_iff_along` makes it one
for all sequences of operations, `noLeak_iff`.
-/

set_option autoImplicit false

namespace MemLock

open Transition Ownership

variable {G K : Type*} [LinearOrder K]

/-! ## The model -/

/-- One core, and the guards that are alive, by name. -/
structure Scope (G K : Type*) where
  lock : MemLockCore K
  guards : G → Option (MemLockGuard K)

/-- What a program can do with guards. -/
inductive ScopeOp (G K : Type*)
  | construct (g : G) (keys : List K) (dedup : Bool) (leftover : List K)
  | constructKey (g : G) (key : K)
  | moveConstruct (g lg : G)
  | moveAssign (g lg : G)
  | destroy (g : G)
  deriving DecidableEq

namespace Scope

/-- Nothing is locked and no guard is alive. -/
def init : Scope G K := ⟨.init, fun _ ↦ none⟩

variable [DecidableEq G]

/-- Give a name a guard, or take it away. -/
def set (s : Scope G K) (g : G) (x : Option (MemLockGuard K)) : Scope G K :=
  { s with guards := Function.update s.guards g x }

/-- One operation; `none` if it names a guard that is not there, or constructs one that is.  The
tail `std::unique` leaves is as long as what it removed. -/
def step (s : Scope G K) : ScopeOp G K → Option (Scope G K)
  | .construct g keys dedup leftover =>
    if s.guards g = none ∧
        (dedup = true → (unique (sort keys)).length + leftover.length = keys.length) then
      let (x, lock) := MemLockGuard.construct s.lock keys dedup leftover
      some { s.set g (some x) with lock := lock }
    else none
  | .constructKey g key =>
    if s.guards g = none then
      let (x, lock) := MemLockGuard.constructKey s.lock key
      some { s.set g (some x) with lock := lock }
    else none
  | .moveConstruct g lg =>
    match s.guards g, s.guards lg with
    | none, some y => some ((s.set g (some y.moveConstruct.1)).set lg (some y.moveConstruct.2))
    | _, _ => none
  | .moveAssign g lg =>
    match s.guards g, s.guards lg with
    | some x, some y =>
      if g = lg then some s
      else some ((s.set g (some (x.moveAssign y).1)).set lg (some (x.moveAssign y).2))
    | _, _ => none
  | .destroy g =>
    match s.guards g with
    | some x => some { s.set g none with lock := x.destroy s.lock }
    | none => none

end Scope

omit [LinearOrder K] in
/-- The keys a guard will unlock. -/
def MemLockGuard.owned (x : MemLockGuard K) : List K := if x.m_locked then x.m_keys else []

omit [LinearOrder K] in
/-- A guard that was moved from owns nothing, whatever its flag says. -/
theorem MemLockGuard.owned_moved (x : MemLockGuard K) :
    ({ x with m_keys := [] } : MemLockGuard K).owned = [] := ite_self _

namespace Scope

omit [LinearOrder K] in
/-- What the guard of a name owns; a name without a guard owns nothing. -/
def owned (s : Scope G K) (g : G) : List K := (s.guards g).elim [] MemLockGuard.owned

omit [LinearOrder K] in
/-- **No key is leaked or given away twice**: the keys in the map are the disjoint union of what the
guards own, and so there are none when there is no guard. -/
def NoLeak (s : Scope G K) : Prop :=
  Owns s.lock.m_hashMap s.owned ∧ ((∀ g, s.guards g = none) → s.lock.m_hashMap = ∅)

omit [LinearOrder K] in
theorem noLeak_of_owns {s : Scope G K} (h : Owns s.lock.m_hashMap s.owned) : s.NoLeak :=
  ⟨h, fun hdead ↦ h.eq_empty fun g ↦ by rw [owned, hdead g, Option.elim_none]⟩

/-! ## One operation -/

variable [DecidableEq G]

omit [LinearOrder K] in
theorem owned_set_self (s : Scope G K) (g : G) (x : Option (MemLockGuard K)) :
    (s.set g x).owned g = x.elim [] MemLockGuard.owned := by
  simp [owned, set]

omit [LinearOrder K] in
theorem owned_set_ne (s : Scope G K) {g g' : G} (x : Option (MemLockGuard K)) (h : g' ≠ g) :
    (s.set g x).owned g' = s.owned g' := by
  simp [owned, set, h]

/-- A construction, with or without `dedup`, locks exactly what the new guard owns. -/
theorem owns_construct {s : Scope G K} {g : G} (h : Owns s.lock.m_hashMap s.owned)
    (hdead : s.guards g = none) (keys : List K) (dedup : Bool) (leftover : List K) :
    Owns (MemLockGuard.construct s.lock keys dedup leftover).2.m_hashMap
      (s.set g (some (MemLockGuard.construct s.lock keys dedup leftover).1)).owned := by
  obtain ⟨m_keys, hkeys⟩ : ∃ m_keys,
    m_keys = if dedup = true then unique (sort keys) ++ leftover else keys := ⟨_, rfl⟩
  have hnothing : s.owned g = [] := by rw [owned, hdead, Option.elim_none]
  by_cases hfree : s.lock.Free m_keys
  · rw [MemLockGuard.construct_of_free hkeys hfree]
    refine h.gain hfree.1 hfree.2 (i := g) ?_ fun g' hg' ↦ owned_set_ne s _ hg'
    rw [owned_set_self, hnothing, List.append_nil]
    exact List.Perm.refl _
  · obtain ⟨_, _, _, -, -, -, hconstruct⟩ := MemLockGuard.construct_of_not_free hkeys hfree
    rw [hconstruct]
    refine h.perm fun g' ↦ ?_
    by_cases hg' : g' = g
    · rw [hg', owned_set_self, hnothing]
      exact List.Perm.refl _
    · rw [owned_set_ne s _ hg']

omit [LinearOrder K] in
/-- A move passes what the source owns on to a target that owned nothing. -/
theorem owns_move {s : Scope G K} {g lg : G} {x y y' : MemLockGuard K} {S : Finset K}
    (h : Owns S s.owned) (hne : g ≠ lg) (hg : s.owned g = []) (hlg : s.guards lg = some y)
    (hx : x.owned = y.owned) (hy' : y'.owned = []) :
    Owns S ((s.set g (some x)).set lg (some y')).owned := by
  refine h.transfer (i := lg) (j := g) hne.symm hg ?_ ?_ fun g' hlg' hg' ↦ ?_
  · rw [owned_set_self]
    exact hy'
  · rw [owned_set_ne _ _ hne, owned_set_self, owned, hlg]
    exact hx
  · rw [owned_set_ne _ _ hlg', owned_set_ne _ _ hg']

omit [LinearOrder K] in
/-- A move onto a target that owned a key leaves that key without an owner. -/
theorem not_owns_move {s : Scope G K} {g lg : G} {x y y' : MemLockGuard K} {S : Finset K}
    (h : Owns S s.owned) (hne : g ≠ lg) (hg : s.owned g ≠ []) (hlg : s.guards lg = some y)
    (hx : x.owned = y.owned) (hy' : y'.owned = []) :
    ¬Owns S ((s.set g (some x)).set lg (some y')).owned := by
  intro h'
  obtain ⟨k, hk⟩ := List.exists_mem_of_ne_nil _ hg
  obtain ⟨g', hg'⟩ := (h'.mem_iff k).mp (h.mem hk)
  by_cases hlg' : g' = lg
  · rw [hlg', owned_set_self, Option.elim_some, hy'] at hg'
    cases hg'
  · rw [owned_set_ne _ _ hlg'] at hg'
    by_cases hgg' : g' = g
    · rw [hgg', owned_set_self, Option.elim_some, hx] at hg'
      have hky : k ∈ s.owned lg := by rw [owned, hlg]; exact hg'
      exact hne (h.unique g lg k hk hky)
    · rw [owned_set_ne _ _ hgg'] at hg'
      exact hgg' (h.unique g' g k hg' hk)

/-- A destruction gives back what the guard owned. -/
theorem owns_destroy {s : Scope G K} {g : G} {x : MemLockGuard K}
    (h : Owns s.lock.m_hashMap s.owned) (hg : s.guards g = some x) :
    Owns (x.destroy s.lock).m_hashMap (s.set g none).owned := by
  have hown : s.owned g = x.owned := by rw [owned, hg, Option.elim_some]
  have hmap : (x.destroy s.lock).m_hashMap = s.lock.m_hashMap \ x.owned.toFinset := by
    rw [MemLockGuard.destroy, MemLockGuard.owned]
    cases x.m_locked
    · simp
    · exact MemLockCore.unlockBatch_m_hashMap _ _
  rw [hmap]
  refine h.lose (i := g) ?_ fun g' hg' ↦ owned_set_ne s _ hg'
  rw [owned_set_self, hown, Option.elim_none, List.append_nil]

/-- The operation is not a move assignment that overwrites keys a guard owns. -/
def KeepsTarget (_ : List (ScopeOp G K)) (s : Scope G K) : ScopeOp G K → Prop
  | .moveAssign g lg => g = lg ∨ s.owned g = []
  | _ => True

/-- **One operation keeps the books exactly when it does not overwrite keys.** -/
theorem noLeak_step {tr : List (ScopeOp G K)} {s s' : Scope G K} {op : ScopeOp G K}
    (h : s.NoLeak) (hs : s.step op = some s') : s'.NoLeak ↔ KeepsTarget tr s op := by
  have howns := h.1
  cases op with
  | construct g keys dedup leftover =>
    simp only [step, Option.ite_none_right_eq_some, Option.some_inj] at hs
    obtain ⟨⟨hdead, -⟩, rfl⟩ := hs
    exact iff_of_true (noLeak_of_owns (owns_construct howns hdead keys dedup leftover)) trivial
  | constructKey g key =>
    simp only [step, Option.ite_none_right_eq_some, Option.some_inj] at hs
    obtain ⟨hdead, rfl⟩ := hs
    exact iff_of_true (noLeak_of_owns (owns_construct howns hdead [key] false [])) trivial
  | moveConstruct g lg =>
    rw [step] at hs
    split at hs
    · next y hg hlg =>
      obtain rfl := Option.some_inj.mp hs
      have hne : g ≠ lg := by rintro rfl; rw [hg] at hlg; cases hlg
      have hnothing : s.owned g = [] := by rw [owned, hg, Option.elim_none]
      refine iff_of_true (noLeak_of_owns ?_) trivial
      exact owns_move howns hne hnothing hlg rfl y.owned_moved
    · cases hs
  | moveAssign g lg =>
    rw [step] at hs
    split at hs
    · next x y hg hlg =>
      by_cases hself : g = lg
      · rw [if_pos hself, Option.some_inj] at hs
        exact iff_of_true (hs ▸ h) (.inl hself)
      · rw [if_neg hself, Option.some_inj] at hs
        subst hs
        have hx : (x.moveAssign y).1.owned = y.owned := rfl
        have hy' : (x.moveAssign y).2.owned = [] := y.owned_moved
        by_cases hnothing : s.owned g = []
        · exact iff_of_true (noLeak_of_owns (owns_move howns hself hnothing hlg hx hy'))
            (.inr hnothing)
        · refine iff_of_false (fun hleak ↦ ?_) (not_or.mpr ⟨hself, hnothing⟩)
          exact not_owns_move howns hself hnothing hlg hx hy' hleak.1
    · cases hs
  | destroy g =>
    rw [step] at hs
    split at hs
    · next x hg =>
      obtain rfl := Option.some_inj.mp hs
      exact iff_of_true (noLeak_of_owns (owns_destroy howns hg)) trivial
    · cases hs

/-! ## All sequences of operations -/

/-- **Guards leak nothing, unless a move assignment overwrites keys.**  In a sequence of operations
the books are right after every step exactly when each move assignment is one onto itself, or onto a
guard that owns nothing. -/
theorem noLeak_iff {tr : List (ScopeOp G K)} {s : Scope G K} (h : run step init tr = some s) :
    (∀ tr₁ s₁, tr₁ <+: tr → run step init tr₁ = some s₁ → s₁.NoLeak) ↔
      Along step KeepsTarget init tr :=
  forall_prefix_iff_along (noLeak_of_owns (.empty fun _ ↦ rfl))
    (fun _ _ _ _ _ hQ hs ↦ noLeak_step hQ hs) h

/-- A locked guard is assigned to one that failed to lock, which then gives the keys back. -/
def takeOver : List (ScopeOp ℕ ℕ) :=
  [.construct 0 [2, 1] true [], .constructKey 1 1, .moveAssign 1 0, .destroy 0, .destroy 1]

theorem noLeak_iff_takeOver : ∃ s, run step init takeOver = some s ∧
    ((∀ tr₁ s₁, tr₁ <+: takeOver → run step init tr₁ = some s₁ → s₁.NoLeak) ↔
      Along step KeepsTarget init takeOver) := by
  have hrun : ((run step init takeOver).any fun _ ↦ true) = true := by decide
  obtain ⟨s, hs, -⟩ := exists_run_of_any hrun
  exact ⟨s, hs, noLeak_iff hs⟩

/-- Two locked guards, one assigned to the other, and both destroyed. -/
def overwrite : List (ScopeOp (Fin 2) ℕ) :=
  [.constructKey 0 1, .constructKey 1 2, .moveAssign 0 1, .destroy 0, .destroy 1]

/-- **A move assignment onto a locked guard leaks its keys**: no guard is left, and the map is not
empty. -/
theorem moveAssign_leaks :
    ¬∀ (tr : List (ScopeOp (Fin 2) ℕ)) s, run step init tr = some s → s.NoLeak := by
  have hrun : ((run step init overwrite).any fun s ↦
      decide ((∀ g, s.guards g = none) ∧ 1 ∈ s.lock.m_hashMap)) = true := by decide
  obtain ⟨s, hs, hp⟩ := exists_run_of_any hrun
  obtain ⟨hdead, hleft⟩ := of_decide_eq_true hp
  intro hall
  rw [(hall overwrite s hs).2 hdead] at hleft
  exact absurd hleft (Finset.notMem_empty 1)

end Scope

end MemLock
