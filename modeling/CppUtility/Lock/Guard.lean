import Mathlib.Data.List.Destutter
import Mathlib.Data.List.Sort
import CppUtility.Lock.Core

/-!
# `MemLockGuard`: one guard

A guard copies the keys it is given, locks them as a batch when it is constructed and unlocks them
when it is destroyed.  This file has its member functions, and what one guard does to the map.  The
guards of a program are the subject of `CppUtility.Lock.Scope`, and those of many threads that of
`CppUtility.Lock.Crowd`.

With `dedup` a guard first sorts its copy and runs `std::unique` over it, but it drops the iterator
that `unique` returns, so the tail behind that iterator is locked with the rest.  Two things follow,
and neither depends on what the standard leaves open.

* The tail is as long as the number of elements removed, so it is empty exactly when there was
  nothing to remove (`length_unique_sort`).  Then the guard does what it is for.
* A tail that is not empty is locked too.  Its contents are arbitrary here, an argument `leftover`
  of the constructor: if it repeats a key, then the batch conflicts with itself, and if it does not,
  then keys are locked that nobody asked for.

`dedup_iff` says that the guard does what it is for exactly when there was nothing to remove, or one
of the keys is held and the answer is no anyway.

A guard keeps a pointer to its `MemLockCore`; there is one core here, and it is passed around.  The
iterator it keeps is the rest of its vector from there; the move constructor does not set it, and
the move assignment leaves the old one.
-/

set_option autoImplicit false

namespace MemLock

variable {K : Type*} [LinearOrder K]

/-! ## The algorithms of the standard library

`std::sort` and `std::unique` have their documented behaviour.  On a total order the sorted sequence
is unique, so that any algorithm will do; `unique` keeps the first element of every run of equal
ones, which after sorting means that it keeps each value once. -/

/-- `std::sort`.  On a total order the sorted sequence does not depend on the algorithm. -/
def sort (l : List K) : List K := l.insertionSort (· ≤ ·)

/-- The part of the range that `std::unique` leaves before the iterator it returns: the first
element of every run of equal ones. -/
def unique (l : List K) : List K := l.destutter (· ≠ ·)

theorem mem_destutter' {a b : K} {l : List K} :
    a ∈ l.destutter' (· ≠ ·) b ↔ a = b ∨ a ∈ l := by
  induction l generalizing b with
  | nil => simp
  | cons c l ih =>
    by_cases h : b = c
    · rw [List.destutter'_cons_neg _ (not_not.mpr h), ih, List.mem_cons, h]
      tauto
    · rw [List.destutter'_cons_pos _ h, List.mem_cons, ih, List.mem_cons]

/-- `unique` loses no value. -/
theorem mem_unique {a : K} {l : List K} : a ∈ unique l ↔ a ∈ l := by
  cases l with
  | nil => rfl
  | cons b l => rw [unique, List.destutter_cons', mem_destutter', List.mem_cons]

/-- Neighbours that are in order and differ are strictly in order. -/
theorem isChain_lt {l : List K} (hle : l.Pairwise (· ≤ ·)) (hne : l.IsChain (· ≠ ·)) :
    l.IsChain (· < ·) := by
  induction l with
  | nil => exact .nil
  | cons a l ih =>
    cases l with
    | nil => exact .singleton a
    | cons b l =>
      obtain ⟨ha, hl⟩ := List.pairwise_cons.mp hle
      rw [List.isChain_cons_cons] at hne ⊢
      exact ⟨lt_of_le_of_ne (ha b List.mem_cons_self) hne.1, ih hl hne.2⟩

/-- On a sorted range `unique` leaves no duplicate. -/
theorem pairwise_unique {l : List K} (h : l.Pairwise (· ≤ ·)) : (unique l).Pairwise (· < ·) := by
  have hle : (unique l).Pairwise (· ≤ ·) := h.sublist (List.destutter_sublist _ l)
  have hne : (unique l).IsChain (· ≠ ·) := List.isChain_destutter _ l
  exact (isChain_lt hle hne).pairwise

theorem pairwise_sort (l : List K) : (sort l).Pairwise (· ≤ ·) := List.pairwise_insertionSort _ l

theorem perm_sort (l : List K) : (sort l).Perm l := List.perm_insertionSort _ l

theorem mem_unique_sort {a : K} {l : List K} : a ∈ unique (sort l) ↔ a ∈ l := by
  rw [mem_unique, (perm_sort l).mem_iff]

theorem nodup_unique_sort (l : List K) : (unique (sort l)).Nodup :=
  (pairwise_unique (pairwise_sort l)).imp fun hlt ↦ hlt.ne

/-- There is a tail behind the iterator exactly when there was something to remove. -/
theorem length_unique_sort {l : List K} : (unique (sort l)).length = l.length ↔ l.Nodup := by
  have hsub : (unique (sort l)).Sublist (sort l) := List.destutter_sublist _ _
  rw [← (perm_sort l).length_eq, ← (perm_sort l).nodup_iff]
  constructor
  · intro hlen
    rw [← hsub.eq_of_length hlen]
    exact nodup_unique_sort l
  · intro hnodup
    have hchain : (sort l).IsChain (· ≠ ·) := List.Pairwise.isChain hnodup
    rw [unique, List.destutter_of_isChain _ _ hchain]

/-! ## The guard -/

/-- `MemLockGuard`.  `m_iter` is an iterator into `m_keys`, `none` while it has not been set. -/
structure MemLockGuard (K : Type*) where
  m_keys : List K
  m_iter : Option (List K)
  m_locked : Bool
  deriving DecidableEq

namespace MemLockGuard

/-- The constructor.  `leftover` is what `std::unique` leaves behind the iterator it returns. -/
def construct (lock : MemLockCore K) (keys : List K) (dedup : Bool) (leftover : List K) :
    MemLockGuard K × MemLockCore K :=
  let m_keys := if dedup then unique (sort keys) ++ leftover else keys
  let (lock, m_iter, m_locked) := lock.lockBatch m_keys
  (⟨m_keys, some m_iter, m_locked⟩, lock)

/-- The constructor for a single key. -/
def constructKey (lock : MemLockCore K) (key : K) : MemLockGuard K × MemLockCore K :=
  construct lock [key] false []

omit [LinearOrder K] in
/-- The move constructor: the new guard, and `lg` afterwards. -/
def moveConstruct (lg : MemLockGuard K) : MemLockGuard K × MemLockGuard K :=
  (⟨lg.m_keys, none, lg.m_locked⟩, { lg with m_keys := [] })

omit [LinearOrder K] in
/-- The move assignment from another guard: `this` and `lg` afterwards. -/
def moveAssign (this lg : MemLockGuard K) : MemLockGuard K × MemLockGuard K :=
  ({ this with m_keys := lg.m_keys, m_locked := lg.m_locked }, { lg with m_keys := [] })

/-- The destructor. -/
def destroy (g : MemLockGuard K) (lock : MemLockCore K) : MemLockCore K :=
  if g.m_locked then lock.unlockBatch g.m_keys else lock

omit [LinearOrder K] in
/-- `isLocked`. -/
def isLocked (g : MemLockGuard K) : Bool := g.m_locked

omit [LinearOrder K] in
/-- `conflictKey`. -/
def conflictKey (g : MemLockGuard K) : Option K := g.m_iter.bind List.head?

theorem construct_of_free {lock : MemLockCore K} {keys leftover : List K} {dedup : Bool}
    {m_keys : List K} (hkeys : m_keys = if dedup then unique (sort keys) ++ leftover else keys)
    (h : lock.Free m_keys) :
    construct lock keys dedup leftover = (⟨m_keys, some [], true⟩, lock.withKeys m_keys) := by
  rw [construct, ← hkeys, MemLockCore.lockBatch_of_free h]

theorem construct_of_not_free {lock : MemLockCore K} {keys leftover : List K} {dedup : Bool}
    {m_keys : List K} (hkeys : m_keys = if dedup then unique (sort keys) ++ leftover else keys)
    (h : ¬lock.Free m_keys) :
    ∃ before k after, m_keys = before ++ k :: after ∧ lock.Free before ∧
      ¬lock.Free (before ++ [k]) ∧
      construct lock keys dedup leftover = (⟨m_keys, some (k :: after), false⟩, lock) := by
  obtain ⟨before, k, after, hsplit, hfree, hconflict, hbatch⟩ :=
    MemLockCore.lockBatch_of_not_free h
  exact ⟨before, k, after, hsplit, hfree, hconflict, by rw [construct, ← hkeys, hbatch]⟩

/-- A guard that is not locked names the first key that stood in its way: one that is held, or
that it met for the second time. -/
theorem conflictKey_construct {lock : MemLockCore K} {keys leftover : List K} {dedup : Bool}
    (h : (construct lock keys dedup leftover).1.isLocked = false) :
    ∃ before k after, (construct lock keys dedup leftover).1.m_keys = before ++ k :: after ∧
      lock.Free before ∧ ¬lock.Free (before ++ [k]) ∧
      (construct lock keys dedup leftover).1.conflictKey = some k := by
  by_cases hfree : lock.Free (if dedup then unique (sort keys) ++ leftover else keys)
  · rw [construct_of_free rfl hfree] at h
    cases h
  · obtain ⟨before, k, after, hsplit, hbefore, hconflict, hconstruct⟩ :=
      construct_of_not_free rfl hfree
    rw [hconstruct]
    exact ⟨before, k, after, hsplit, hbefore, hconflict, rfl⟩

/-! ## `dedup` -/

/-- What a guard with `dedup` is for: it is locked if and only if none of the keys is held, and then
the map has gained exactly these keys, all of which the destructor gives back; otherwise the map is
as before. -/
def DedupLocks (lock : MemLockCore K) (keys leftover : List K) : Prop :=
  let (g, lock') := construct lock keys true leftover
  (g.isLocked = true ↔ ∀ k ∈ keys, k ∉ lock.m_hashMap) ∧
    (g.isLocked = true → lock' = lock.withKeys keys ∧ g.destroy lock' = lock) ∧
    (g.isLocked = false → lock' = lock)

/-- **When a guard with `dedup` does what it is for.**  `std::unique` leaves as many elements behind
its iterator as it removed, whatever they are. -/
theorem dedup_iff (lock : MemLockCore K) {keys leftover : List K}
    (hlen : (unique (sort keys)).length + leftover.length = keys.length) :
    DedupLocks lock keys leftover ↔ keys.Nodup ∨ ∃ k ∈ keys, k ∈ lock.m_hashMap := by
  have hmem : ∀ k, k ∈ unique (sort keys) ↔ k ∈ keys := fun k ↦ mem_unique_sort
  have htail : leftover = [] ↔ keys.Nodup := by
    rw [← length_unique_sort, ← List.length_eq_zero_iff]
    omega
  unfold DedupLocks
  by_cases hfree : lock.Free (unique (sort keys) ++ leftover)
  · -- everything in the vector is locked, the tail included
    have hnone : ∀ k ∈ keys, k ∉ lock.m_hashMap :=
      fun k hk ↦ hfree.2 k (List.mem_append_left _ ((hmem k).mpr hk))
    rw [construct_of_free (if_pos rfl).symm hfree]
    simp only [isLocked, true_iff, forall_true_left, reduceCtorEq, false_implies, and_true]
    constructor
    · rintro ⟨-, hkeys, -⟩
      left
      refine htail.mp (List.eq_nil_iff_forall_not_mem.mpr fun k hk ↦ ?_)
      have hheld : k ∈ (lock.withKeys keys).m_hashMap := by
        rw [← hkeys, MemLockCore.withKeys, Finset.mem_union, List.mem_toFinset]
        exact .inr (List.mem_append_right _ hk)
      rw [MemLockCore.withKeys, Finset.mem_union, List.mem_toFinset] at hheld
      rcases hheld with hheld | hin
      · exact hfree.2 k (List.mem_append_right _ hk) hheld
      · exact (List.nodup_append.mp hfree.1).2.2 k ((hmem k).mpr hin) k hk rfl
    · rintro (hnodup | ⟨k, hk, hheld⟩)
      · obtain rfl := htail.mpr hnodup
        refine ⟨hnone, ?_, ?_⟩
        · ext k
          simp [MemLockCore.withKeys, hmem]
        · rw [destroy, if_pos rfl]
          exact MemLockCore.unlockBatch_withKeys hfree
      · exact absurd hheld (hnone k hk)
  · -- nothing is locked
    obtain ⟨_, _, _, -, -, -, hconstruct⟩ := construct_of_not_free (if_pos rfl).symm hfree
    rw [hconstruct]
    simp only [isLocked, Bool.false_eq_true, false_iff, false_implies, forall_true_left, and_true]
    constructor
    · intro hheld
      by_contra hneither
      rw [not_or, not_exists] at hneither
      exact hheld fun k hk hin ↦ hneither.2 k ⟨hk, hin⟩
    · rintro (hnodup | ⟨k, hk, hheld⟩) hnone
      · rw [htail.mpr hnodup, List.append_nil] at hfree
        exact hfree ⟨nodup_unique_sort keys, fun k hk ↦ hnone k ((hmem k).mp hk)⟩
      · exact hnone k hk hheld

/-- A list without duplicates, on a map where another key is held. -/
theorem dedup_iff_distinct : DedupLocks ⟨{2}⟩ [3, 1] [] ↔
    [3, 1].Nodup ∨ ∃ k ∈ [3, 1], k ∈ ({2} : Finset ℕ) :=
  dedup_iff ⟨{2}⟩ (by decide)

/-- **A key given twice defeats its own guard**: the tail is locked too, here with the value that
was there before, and nothing is locked although nothing was held. -/
theorem dedup_twice_fails : ¬∀ (lock : MemLockCore ℕ) (keys leftover : List ℕ),
    (unique (sort keys)).length + leftover.length = keys.length →
      DedupLocks lock keys leftover := by
  intro hall
  have hlocks := (hall .init [1, 1] [1] (by decide)).1
  have hlocked : (construct MemLockCore.init [1, 1] true [1]).1.isLocked = true :=
    hlocks.mpr fun k _ ↦ Finset.notMem_empty k
  exact absurd hlocked (by decide)

end MemLockGuard

end MemLock
