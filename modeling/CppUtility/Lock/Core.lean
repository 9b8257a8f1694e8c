import Mathlib.Data.Finset.Union
import Mathlib.Data.List.Nodup

/-!
# `MemLockCore`: locks on keys

A `MemLockCore` is a concurrent hash map whose keys are the locked ones; the values are all 0 and
nobody reads them, so the map is a finite set here.  This file has the member functions as they run
when no other client is about.  What happens when the single inserts and erases of several clients
interleave is `CppUtility.Lock.Clients`, and `run_lockBatch` there is the link to the functions
here.

An iterator into a collection is the rest of the collection from there: `begin` is the whole list,
`end` the empty one, and dereferencing an iterator is taking its head.  With this reading
`lockBatch` returns a list, and `([], true)` is `(end, true)`.

* `lockBatchLoop` is the loop of `lockBatch` with what it has taken already, which it needs to roll
  back: the source keeps `begin` and the position, and calls `unlockBatch` for what is between.
* `Free` is the condition that decides everything: the keys are pairwise distinct and none of them
  is held.  A repeated key is a conflict with oneself, since the second insert fails.
* When all keys are free, the loop takes them (`lockBatchLoop_of_free`).  Otherwise it stops at the
  first key that is held or repeats an earlier one, and what it has taken is given back
  (`lockBatchLoop_of_not_free`); the map is then what it was, since the keys given back were new.

`lockBatch_spec` puts the two cases into one statement, with the position of the conflict.
-/

set_option autoImplicit false

namespace MemLock

/-- `MemLockCore`. -/
@[ext]
structure MemLockCore (K : Type*) where
  m_hashMap : Finset K
  deriving DecidableEq

namespace MemLockCore

variable {K : Type*} [DecidableEq K]

/-- The default constructor. -/
def init : MemLockCore K := ⟨∅⟩

/-- `ConcurrentHashMap::insert`; the second component says whether the key was new. -/
def insert (m : MemLockCore K) (k : K) : MemLockCore K × Bool :=
  if k ∈ m.m_hashMap then (m, false) else (⟨Insert.insert k m.m_hashMap⟩, true)

/-- `ConcurrentHashMap::erase`. -/
def erase (m : MemLockCore K) (k : K) : MemLockCore K := ⟨m.m_hashMap.erase k⟩

/-- `try_lock`. -/
def tryLock (m : MemLockCore K) (key : K) : MemLockCore K × Bool := m.insert key

/-- `unlock`. -/
def unlock (m : MemLockCore K) (key : K) : MemLockCore K := m.erase key

/-- `unlockBatch`. -/
def unlockBatch (m : MemLockCore K) : List K → MemLockCore K
  | [] => m
  | k :: rest => (m.erase k).unlockBatch rest

/-- The loop of `lockBatch`: `taken` is `[begin, curr)`, the list is `[curr, end)`. -/
def lockBatchLoop (m : MemLockCore K) (taken : List K) : List K → MemLockCore K × List K × Bool
  | [] => (m, [], true)
  | k :: rest =>
    let (m, inserted) := m.insert k
    if !inserted then (m.unlockBatch taken, k :: rest, false)
    else m.lockBatchLoop (taken ++ [k]) rest

/-- `lockBatch`: the map afterwards, and the pair it returns. -/
def lockBatch (m : MemLockCore K) (keys : List K) : MemLockCore K × List K × Bool :=
  m.lockBatchLoop [] keys

/-! ## What they do

The loop is followed with `withKeys`: after some keys have been taken, the map is the one from
before with these keys added.  A roll-back can only be trusted because the keys were free:
`unlockBatch` erases what it is told to, whoever has put it there. -/

theorem insert_of_mem {m : MemLockCore K} {k : K} (h : k ∈ m.m_hashMap) :
    m.insert k = (m, false) := by
  rw [insert, if_pos h]

theorem insert_of_not_mem {m : MemLockCore K} {k : K} (h : k ∉ m.m_hashMap) :
    m.insert k = (⟨Insert.insert k m.m_hashMap⟩, true) := by
  rw [insert, if_neg h]

theorem unlockBatch_m_hashMap (m : MemLockCore K) (ks : List K) :
    (m.unlockBatch ks).m_hashMap = m.m_hashMap \ ks.toFinset := by
  induction ks generalizing m with
  | nil => simp [unlockBatch]
  | cons k ks ih =>
    rw [unlockBatch, ih, erase, List.toFinset_cons]
    ext x
    simp only [Finset.mem_sdiff, Finset.mem_erase, Finset.mem_insert, not_or]
    tauto

omit [DecidableEq K] in
/-- The keys are pairwise distinct and none of them is held. -/
def Free (m : MemLockCore K) (keys : List K) : Prop :=
  keys.Nodup ∧ ∀ k ∈ keys, k ∉ m.m_hashMap

instance (m : MemLockCore K) (keys : List K) : Decidable (m.Free keys) :=
  inferInstanceAs (Decidable (_ ∧ _))

/-- The map with the keys added. -/
def withKeys (m : MemLockCore K) (keys : List K) : MemLockCore K := ⟨m.m_hashMap ∪ keys.toFinset⟩

@[simp] theorem withKeys_nil (m : MemLockCore K) : m.withKeys [] = m := by
  simp [withKeys]

/-- Giving back what has just been taken restores the map. -/
theorem unlockBatch_withKeys {m : MemLockCore K} {keys : List K} (h : m.Free keys) :
    (m.withKeys keys).unlockBatch keys = m := by
  ext k
  rw [unlockBatch_m_hashMap, withKeys, Finset.mem_sdiff, Finset.mem_union, List.mem_toFinset]
  have hk : k ∈ keys → k ∉ m.m_hashMap := h.2 k
  tauto

theorem free_concat {m : MemLockCore K} {keys : List K} {k : K} :
    m.Free (keys ++ [k]) ↔ m.Free keys ∧ k ∉ (m.withKeys keys).m_hashMap := by
  simp only [Free, withKeys, Finset.mem_union, List.mem_toFinset, List.nodup_append,
    List.nodup_singleton, List.mem_append, List.mem_singleton]
  constructor
  · rintro ⟨⟨hnodup, -, hne⟩, hfree⟩
    refine ⟨⟨hnodup, fun a ha ↦ hfree a (.inl ha)⟩, ?_⟩
    rintro (hk | hk)
    · exact hfree k (.inr rfl) hk
    · exact hne k hk k rfl rfl
  · rintro ⟨⟨hnodup, hfree⟩, hk⟩
    refine ⟨⟨hnodup, trivial, ?_⟩, ?_⟩
    · rintro a ha b rfl rfl
      exact hk (.inr ha)
    · rintro a (ha | rfl)
      · exact hfree a ha
      · exact fun hm ↦ hk (.inl hm)

theorem withKeys_concat (m : MemLockCore K) (keys : List K) (k : K) :
    ⟨Insert.insert k (m.withKeys keys).m_hashMap⟩ = m.withKeys (keys ++ [k]) := by
  ext a
  simp only [withKeys, Finset.mem_insert, Finset.mem_union, List.mem_toFinset, List.mem_append,
    List.mem_singleton]
  tauto

/-- The loop with `taken` already taken, when all the keys are free. -/
theorem lockBatchLoop_of_free {m : MemLockCore K} {taken keys : List K}
    (h : m.Free (taken ++ keys)) :
    (m.withKeys taken).lockBatchLoop taken keys = (m.withKeys (taken ++ keys), [], true) := by
  induction keys generalizing taken with
  | nil => simp [lockBatchLoop]
  | cons k keys ih =>
    have hassoc : taken ++ k :: keys = taken ++ [k] ++ keys := by simp
    rw [hassoc] at h
    have hfree : m.Free (taken ++ [k]) :=
      ⟨(List.nodup_append.mp h.1).1, fun a ha ↦ h.2 a (List.mem_append_left _ ha)⟩
    rw [lockBatchLoop, insert_of_not_mem (free_concat.mp hfree).2, withKeys_concat, hassoc]
    exact ih h

/-- The loop with `taken` already taken, when not all the keys are free: it stops at the first key
that is held or repeats one before it, and has rolled back what it took. -/
theorem lockBatchLoop_of_not_free {m : MemLockCore K} {taken keys : List K} (htaken : m.Free taken)
    (h : ¬m.Free (taken ++ keys)) :
    ∃ before k after, keys = before ++ k :: after ∧ m.Free (taken ++ before) ∧
      ¬m.Free (taken ++ before ++ [k]) ∧
      (m.withKeys taken).lockBatchLoop taken keys = (m, k :: after, false) := by
  induction keys generalizing taken with
  | nil => exact absurd (by simpa using htaken) h
  | cons k keys ih =>
    by_cases hk : k ∈ (m.withKeys taken).m_hashMap
    · refine ⟨[], k, keys, rfl, by simpa using htaken, ?_, ?_⟩
      · rw [List.append_nil, free_concat]
        exact fun hfree ↦ hfree.2 hk
      · rw [lockBatchLoop, insert_of_mem hk]
        simp only [Bool.not_false, if_true, unlockBatch_withKeys htaken]
    · have htaken' : m.Free (taken ++ [k]) := free_concat.mpr ⟨htaken, hk⟩
      obtain ⟨before, k', after, rfl, hfree, hconflict, hloop⟩ :=
        ih htaken' (by simpa using h)
      refine ⟨k :: before, k', after, rfl, by simpa using hfree, by simpa using hconflict, ?_⟩
      rw [lockBatchLoop, insert_of_not_mem hk, withKeys_concat]
      exact hloop

/-- **A batch of free keys is taken as a whole.** -/
theorem lockBatch_of_free {m : MemLockCore K} {keys : List K} (h : m.Free keys) :
    m.lockBatch keys = (m.withKeys keys, [], true) := by
  have hloop : (m.withKeys []).lockBatchLoop [] keys = (m.withKeys keys, [], true) :=
    lockBatchLoop_of_free h
  rwa [withKeys_nil] at hloop

/-- **Any other batch is refused**, and the map is as before; the iterator points to the first key
that is held or repeats an earlier one. -/
theorem lockBatch_of_not_free {m : MemLockCore K} {keys : List K} (h : ¬m.Free keys) :
    ∃ before k after, keys = before ++ k :: after ∧ m.Free before ∧ ¬m.Free (before ++ [k]) ∧
      m.lockBatch keys = (m, k :: after, false) := by
  have hnil : m.Free [] := ⟨List.nodup_nil, fun _ hk ↦ absurd hk List.not_mem_nil⟩
  have hloop := lockBatchLoop_of_not_free hnil h
  rwa [withKeys_nil] at hloop

/-- The key at position `i` is held, or occurs earlier among the keys. -/
def ConflictAt (m : MemLockCore K) (keys : List K) (i : ℕ) : Prop :=
  ∃ k, keys[i]? = some k ∧ (k ∈ m.m_hashMap ∨ k ∈ keys.take i)

omit [DecidableEq K] in
theorem not_conflictAt_of_free {m : MemLockCore K} {keys : List K} (h : m.Free keys) (i : ℕ) :
    ¬m.ConflictAt keys i := by
  rintro ⟨k, hk, hheld | hearlier⟩
  · exact h.2 k (List.mem_of_getElem? hk) hheld
  · -- the key would occur twice
    obtain ⟨j, hj, hjk⟩ := List.mem_take_iff_getElem.mp hearlier
    obtain ⟨hi, hik⟩ := List.getElem?_eq_some_iff.mp hk
    have hij := (List.Nodup.getElem_inj_iff h.1).mp (hjk.trans hik.symm)
    omega

/-- **A batch is locked as a whole or not at all, and the first conflict is reported.**  The result
is `(end, true)` exactly when the keys are pairwise distinct and none of them is held, and then they
have been added; otherwise the iterator points to the first key that is held or occurs earlier, and
the map is as before. -/
theorem lockBatch_spec (m : MemLockCore K) (keys : List K) :
    ((m.lockBatch keys).2 = ([], true) ↔ keys.Nodup ∧ ∀ k ∈ keys, k ∉ m.m_hashMap) ∧
    ((m.lockBatch keys).2 = ([], true) →
      ∀ k, k ∈ (m.lockBatch keys).1.m_hashMap ↔ k ∈ m.m_hashMap ∨ k ∈ keys) ∧
    ((m.lockBatch keys).2 ≠ ([], true) → ∃ i, i < keys.length ∧
      m.lockBatch keys = (m, keys.drop i, false) ∧ m.ConflictAt keys i ∧
      ∀ j < i, ¬m.ConflictAt keys j) := by
  by_cases h : m.Free keys
  · rw [lockBatch_of_free h]
    refine ⟨iff_of_true rfl h, fun _ k ↦ ?_, fun hne ↦ absurd rfl hne⟩
    rw [withKeys, Finset.mem_union, List.mem_toFinset]
  · obtain ⟨before, k, after, hkeys, hfree, hconflict, hlock⟩ := lockBatch_of_not_free h
    have hfalse : (m.lockBatch keys).2 ≠ ([], true) := by simp [hlock]
    refine ⟨iff_of_false hfalse h, fun htrue ↦ absurd htrue hfalse, fun _ ↦
      ⟨before.length, by simp [hkeys], by rw [hlock, hkeys, List.drop_left],
        ⟨k, by simp [hkeys], ?_⟩, ?_⟩⟩
    · rw [free_concat, not_and, not_not] at hconflict
      have hk := hconflict hfree
      rw [withKeys, Finset.mem_union, List.mem_toFinset] at hk
      simpa [hkeys] using hk
    · -- up to `j` the keys are those before the conflict
      rintro j hj ⟨k', hk', hwhy⟩
      refine not_conflictAt_of_free hfree j ⟨k', ?_, ?_⟩
      · rw [hkeys, List.getElem?_append_left hj] at hk'
        exact hk'
      · rwa [hkeys, List.take_append_of_le_length (Nat.le_of_lt hj)] at hwhy

example : (MemLockCore.mk {3}).lockBatch [1, 2, 1, 3] = (⟨{3}⟩, [1, 3], false) := by decide

end MemLockCore

end MemLock
