import CppUtility.Serial
import CppUtility.Lock.Crowd

/-!
# Data behind guards

What the locks are for: every key stands for some data, and a thread reads and writes the data of a
key only in the scope of a guard that is locked and has the key.  The scope of a guard begins when
its constructor returns and ends with its destructor, or with a move that overwrites it; a move to
another guard takes the scope with it.

The data are no part of the source, which has locks only.  They are added here in the weakest way
that can be used: any number of values, one under each key, and accesses that read and write one
value and depend on what the owner of the guard knows by then.  The threads may construct further
guards meanwhile, with what they have learnt.

`guards_serialize` says that this cannot be told from scopes that are executed one at a time, in the
order in which they end.  `CppUtility.Serial` has the argument, and what is left for this file is to
find its four moves in the steps of `Crowd`:

* a constructor that returns begins a section with keys that no other guard has, since the keys of
  the guards are disjoint;
* an access is an access;
* a move passes the section on with the keys, and the owners are swapped;
* a destructor ends the section when it *begins*: from then on the guard's keys go back to the map
  one by one, and nobody may use them in its name.

A guard that a move assignment overwrites ends its section as well, and its keys are at rest from
then on, locked for ever.
-/

set_option autoImplicit false

namespace MemLock

open Transition Serial

variable {G K V L : Type*}

/-- The guards, the data, and what has been done in the scope of each guard.  `V` is what there may
be under a key, `L` what the owner of a guard may know. -/
structure Vault (G K V L : Type*) where
  crowd : Crowd G K
  store : K → V
  sect : G → Sect K V L

/-- A step: one of the guards, with what the owner of a new one knows, or an access. -/
inductive VaultLabel (G K V L : Type*)
  | guard (l : CrowdLabel G K) (know : L)
  | access (g : G) (a : Access K V L)

/-- The keys that the owner of a guard may use. -/
def Crowd.keys (s : Crowd G K) (g : G) : List K := (s.guards g).elim [] MemLockGuard.owned

namespace Vault

variable [LinearOrder K] [DecidableEq G]

/-- Nothing is locked. -/
def init (store : K → V) (know : L) : Vault G K V L := ⟨.init, store, fun _ ↦ .empty know⟩

omit [LinearOrder K] in
/-- The sections after a step of the guards. -/
def sectAfter (s : Vault G K V L) (know : L) : CrowdLabel G K → G → Sect K V L
  | .constructed g _ _ => Function.update s.sect g (.empty know)
  | .moveConstruct g lg => s.sect ∘ Equiv.swap lg g
  | .moveAssign g lg =>
    if g = lg then s.sect else Function.update s.sect g (.empty know) ∘ Equiv.swap lg g
  | .destroy g => Function.update s.sect g (.empty know)
  | _ => s.sect

/-- One step; `none` if it is not enabled. -/
def step (s : Vault G K V L) : VaultLabel G K V L → Option (Vault G K V L)
  | .guard l know =>
    (s.crowd.step l).map fun crowd ↦ { s with crowd := crowd, sect := s.sectAfter know l }
  | .access g a =>
    if a.key ∈ s.crowd.keys g then
      some { s with
        store := (a.exec (s.store, (s.sect g).finish)).1
        sect := Function.update s.sect g ((s.sect g).access s.store a) }
    else none

omit [LinearOrder K] in
/-- The sections that a step of the guards ends. -/
def closedBy (s : Vault G K V L) : CrowdLabel G K → List (Sect K V L)
  | .moveAssign g lg => if g = lg then [] else [s.sect g]
  | .destroy g => [s.sect g]
  | _ => []

omit [LinearOrder K] in
/-- The sections that a step ends. -/
def closed (s : Vault G K V L) : VaultLabel G K V L → List (Sect K V L)
  | .guard l _ => s.closedBy l
  | .access _ _ => []

end Vault

/-! ## The keys of the guards -/

namespace Crowd

variable {s : Crowd G K} {g g' : G} {k : K}

theorem keys_of_none (h : s.guards g = none) : s.keys g = [] := by rw [keys, h]; rfl

theorem keys_of_some {x : MemLockGuard K} (h : s.guards g = some x) : s.keys g = x.owned := by
  rw [keys, h]
  rfl

theorem keys_set [DecidableEq G] (x : Option (MemLockGuard K)) :
    (s.set g x).keys = Function.update s.keys g (x.elim [] MemLockGuard.owned) :=
  Function.comp_update (Option.elim · [] MemLockGuard.owned) s.guards g x

/-- Two guards have no key in common. -/
theorem Kept.keys_unique (hi : Kept s) (hk : k ∈ s.keys g) (hk' : k ∈ s.keys g') : g = g' := by
  have hhas : ∀ g, k ∈ s.keys g → k ∈ s.clients.holdings (some g) := by
    intro g hk
    cases hg : s.guards g with
    | none =>
      rw [keys_of_none hg] at hk
      exact (List.not_mem_nil hk).elim
    | some x =>
      rw [keys_of_some hg] at hk
      rwa [hi.holdings_alive hg]
  exact Option.some_inj.mp (hi.owns.unique _ _ k (hhas g hk) (hhas g' hk'))

end Crowd

/-! ## One step

`Matched` is what the rules of `CppUtility.Serial` give for a step of the guards.  There is a lemma
for each operation on guards, and steps inside constructors and destructors leave the sections as
they are. -/

namespace Vault

open Crowd

variable [LinearOrder K] [DecidableEq G] {s s' : Vault G K V L} {before : K → V}
  {crowd : Crowd G K} {g lg : G}

/-- The guards have kept their books, and the data are those of the sections that have ended, each
executed by itself, with the open ones on top. -/
structure Good (before : K → V) (s : Vault G K V L) : Prop where
  kept : Kept s.crowd
  apart : Apart before s.store s.crowd.keys s.sect

section

variable [DecidableEq L] {clients : Clients (Option G) K} {x y : MemLockGuard K}

/-- The sections that a step of the guards ends can be executed, and what they lead to goes with the
keys and the sections after the step. -/
def Matched (before : K → V) (s : Vault G K V L) (l : CrowdLabel G K) (know : L)
    (crowd : Crowd G K) : Prop :=
  ∃ before', run Serial.step before (s.closedBy l) = some before' ∧
    Apart before' s.store crowd.keys (s.sectAfter know l)

/-- A new guard has keys that no other guard has. -/
theorem Good.constructed {iter : List K} {ok : Bool} (h : Good before s)
    (hs : s.crowd.clients.step (.ret (some g) (.batch iter ok)) = some clients) (know : L)
    (hkept : Kept ({ s.crowd with clients := clients }.set g (some x))) :
    Matched before s (.constructed g iter ok) know
      ({ s.crowd with clients := clients }.set g (some x)) := by
  have hg : s.crowd.guards g = none := by
    refine h.kept.guards_of_pc fun hidle ↦ ?_
    cases Clients.rule_of_step hs with
    | ret hpc =>
      rw [hidle] at hpc
      cases hpc
  have hset : ({ s.crowd with clients := clients }.set g (some x)).keys
      = Function.update s.crowd.keys g x.owned := keys_set (some x)
  refine ⟨before, rfl, ?_⟩
  rw [hset]
  refine h.apart.begin (keys_of_none hg) (fun g' hne k hk hmem ↦ hne ?_) know
  refine hkept.keys_unique (k := k) ?_ ?_
  · rwa [hset, Function.update_of_ne hne]
  · rwa [hset, Function.update_self]

theorem Good.destroy (h : Good before s) (know : L) :
    Matched before s (.destroy g) know ({ s.crowd with clients := clients }.set g none) := by
  refine ⟨_, run_cons_eq_some.mpr ⟨_, h.apart.step_eq g, rfl⟩, ?_⟩
  have hset : ({ s.crowd with clients := clients }.set g none).keys
      = Function.update s.crowd.keys g [] := keys_set none
  rw [hset]
  exact h.apart.end_ g know

theorem Good.moveConstruct (h : Good before s) (know : L) (hg : s.crowd.guards g = none)
    (hlg : s.crowd.guards lg = some y) :
    Matched before s (.moveConstruct g lg) know
      (((s.crowd.pass g lg).set g (some y.moveConstruct.1)).set lg
        (some y.moveConstruct.2)) := by
  have hset : (((s.crowd.pass g lg).set g (some y.moveConstruct.1)).set lg
      (some y.moveConstruct.2)).keys = s.crowd.keys ∘ Equiv.swap lg g := by
    rw [keys_set, keys_set, Equiv.comp_swap_eq_update, keys_of_none hg, keys_of_some hlg]
    exact congrArg _ y.owned_moved
  refine ⟨before, rfl, ?_⟩
  rw [hset]
  exact h.apart.comp _

/-- What the target has held is at rest from now on. -/
theorem Good.moveAssign (h : Good before s) (know : L) (hne : g ≠ lg)
    (hlg : s.crowd.guards lg = some y) :
    Matched before s (.moveAssign g lg) know
      ((((s.crowd.lose g).pass g lg).set g (some (x.moveAssign y).1)).set lg
        (some (x.moveAssign y).2)) := by
  have hset : ((((s.crowd.lose g).pass g lg).set g (some (x.moveAssign y).1)).set lg
      (some (x.moveAssign y).2)).keys
      = Function.update s.crowd.keys g [] ∘ Equiv.swap lg g := by
    rw [keys_set, keys_set, Equiv.comp_swap_eq_update, Function.update_of_ne hne.symm,
      Function.update_self, Function.update_idem, keys_of_some hlg]
    exact congrArg _ y.owned_moved
  rw [Matched, closedBy, sectAfter, if_neg hne, if_neg hne, hset]
  exact ⟨_, run_cons_eq_some.mpr ⟨_, h.apart.step_eq g, rfl⟩, (h.apart.end_ g know).comp _⟩

/-- **One step of the guards.** -/
theorem Good.guard {l : CrowdLabel G K} (h : Good before s) (know : L)
    (hs : s.crowd.step l = some crowd) : Matched before s l know crowd := by
  have hkept : Kept crowd := h.kept.step hs
  cases l with
  | construct g keys dedup leftover =>
    obtain ⟨-, hs⟩ := Option.ite_none_right_eq_some.mp hs
    obtain ⟨clients, -, rfl⟩ := Option.map_eq_some_iff.mp hs
    exact ⟨before, rfl, h.apart⟩
  | insert g key inserted =>
    obtain ⟨clients, -, rfl⟩ := Option.map_eq_some_iff.mp hs
    exact ⟨before, rfl, h.apart⟩
  | erase g key =>
    obtain ⟨clients, -, rfl⟩ := Option.map_eq_some_iff.mp hs
    exact ⟨before, rfl, h.apart⟩
  | constructed g iter ok =>
    obtain ⟨clients, hret, rfl⟩ := Option.map_eq_some_iff.mp hs
    exact h.constructed hret know hkept
  | moveConstruct g lg =>
    rw [Crowd.step] at hs
    split at hs
    · next y hg hlg =>
      obtain ⟨-, rfl⟩ := Option.ite_none_right_eq_some.mp hs |>.imp_right Option.some_inj.mp
      exact h.moveConstruct know hg hlg
    · cases hs
  | moveAssign g lg =>
    rw [Crowd.step] at hs
    split at hs
    · next x y hg hlg =>
      by_cases hself : g = lg
      · rw [if_pos hself, Option.some_inj] at hs
        rw [Matched, closedBy, sectAfter, if_pos hself, if_pos hself, ← hs]
        exact ⟨before, rfl, h.apart⟩
      · rw [if_neg hself, Option.some_inj] at hs
        exact hs ▸ h.moveAssign know hself hlg
    · cases hs
  | destroy g =>
    rw [Crowd.step] at hs
    split at hs
    · next x hg =>
      by_cases hlocked : x.m_locked = true
      · rw [if_pos hlocked] at hs
        obtain ⟨clients, -, rfl⟩ := Option.map_eq_some_iff.mp hs
        exact h.destroy know
      · rw [if_neg hlocked, Option.some_inj] at hs
        exact hs ▸ h.destroy know
    · cases hs
  | destroyed g =>
    obtain ⟨clients, -, rfl⟩ := Option.map_eq_some_iff.mp hs
    exact ⟨before, rfl, h.apart⟩

end

/-! ## All runs -/

variable [DecidableEq L]

theorem Good.step {l : VaultLabel G K V L} (h : Good before s) (hs : s.step l = some s') :
    ∃ before', run Serial.step before (s.closed l) = some before' ∧ Good before' s' := by
  cases l with
  | guard l know =>
    obtain ⟨crowd, hcrowd, rfl⟩ := Option.map_eq_some_iff.mp hs
    obtain ⟨before', hrun, hapart⟩ := h.guard know hcrowd
    exact ⟨before', hrun, h.kept.step hcrowd, hapart⟩
  | access g a =>
    obtain ⟨hkey, rfl⟩ := Option.ite_none_right_eq_some.mp hs |>.imp_right Option.some_inj.mp
    exact ⟨before, rfl, h.kept, h.apart.access hkey⟩

/-- **Guarded scopes take effect at once.**  Whatever the threads do with their guards and, in the
scopes of these, with the data, executing the scopes that have ended one at a time, in the order in
which they have ended, lets their owners know in the end what they know, and gives data such that

* the scope of a guard that is alive, executed on them up to where it is, gives what is there now
  under the keys of the guard, and what its owner knows;
* under a key that no guard has they are what is there now. -/
theorem guards_serialize {store : K → V} {know : L} {tr : List (VaultLabel G K V L)}
    (h : run step (init store know) tr = some s) :
    ∃ before, run Serial.step store (emitted step closed (init store know) tr) = some before ∧
      (∀ g x, s.crowd.guards g = some x → ((s.sect g).exec before).2 = (s.sect g).finish ∧
        ∀ k ∈ x.owned, ((s.sect g).exec before).1 k = s.store k) ∧
      ∀ k, (∀ g x, s.crowd.guards g = some x → k ∉ x.owned) → before k = s.store k := by
  obtain ⟨before, hrun, hgood⟩ := run_projection (R := fun _ s before ↦ Good before s)
    ⟨kept (run_nil _), .init store know⟩ (fun _ _ _ _ _ _ hgood hs ↦ hgood.step hs) h
  refine ⟨before, hrun, fun g x hg ↦ ⟨(hgood.apart.alike g).1, fun k hk ↦ ?_⟩, fun k hk ↦ ?_⟩
  · refine (hgood.apart.alike g).2 k ?_
    rwa [keys_of_some hg]
  · refine hgood.apart.rest k fun g hmem ↦ ?_
    cases hg : s.crowd.guards g with
    | none =>
      rw [keys_of_none hg] at hmem
      exact List.not_mem_nil hmem
    | some x =>
      rw [keys_of_some hg] at hmem
      exact hk g x hg hmem

/-- Two transfers between the same accounts, the guard of the first one moved in the middle.  A
third guard, for another account, is made meanwhile and is still alive. -/
def transfers : List (VaultLabel ℕ ℕ ℕ ℕ) :=
  let read (key : ℕ) : Access ℕ ℕ ℕ := ⟨key, fun v _ ↦ (v, v)⟩
  let add (key n : ℕ) : Access ℕ ℕ ℕ := ⟨key, fun v know ↦ (v + min n know, know)⟩
  let sub (key n : ℕ) : Access ℕ ℕ ℕ := ⟨key, fun v know ↦ (v - n, know)⟩
  [.guard (.construct 0 [2, 1] true []) 0, .guard (.insert 0 1 true) 0,
    .guard (.construct 1 [3] false []) 0, .guard (.insert 1 3 true) 0,
    .guard (.insert 0 2 true) 0, .guard (.constructed 0 [] true) 0, .access 0 (read 1),
    .guard (.constructed 1 [] true) 0, .access 0 (add 2 30), .access 1 (read 3),
    .guard (.moveConstruct 4 0) 0, .access 4 (sub 1 30), .guard (.destroy 4) 0,
    .guard (.erase 4 1) 0, .guard (.erase 4 2) 0, .guard (.construct 2 [1, 2] false []) 0,
    .guard (.insert 2 1 true) 0, .guard (.insert 2 2 true) 0, .guard (.constructed 2 [] true) 0,
    .access 2 (read 2), .access 2 (add 1 50), .access 2 (sub 2 50), .guard (.destroy 2) 0]

theorem guards_serialize_transfers : ∃ s before,
    run step (init (fun _ ↦ 100) 0) transfers = some s ∧
    run Serial.step (fun _ ↦ 100) (emitted step closed (init (fun _ ↦ 100) 0) transfers)
      = some before ∧
    s.store 1 = 120 ∧ s.store 2 = 80 ∧ ((s.sect 1).exec before).2 = 100 := by
  have hrun : ((run step (init (fun _ ↦ 100) 0) transfers).any fun s ↦
      decide (s.store 1 = 120 ∧ s.store 2 = 80 ∧ (s.sect 1).finish = 100 ∧
        s.crowd.guards 1 = some ⟨[3], some [], true⟩)) = true := by decide
  obtain ⟨s, hs, hp⟩ := exists_run_of_any hrun
  obtain ⟨h1, h2, hknow, hg⟩ := of_decide_eq_true hp
  obtain ⟨before, hbefore, hopen, -⟩ := guards_serialize hs
  exact ⟨s, before, hs, hbefore, h1, h2, (hopen 1 _ hg).1.trans hknow⟩

end Vault

end MemLock
