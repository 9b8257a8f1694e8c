import Mathlib.Data.Finset.Union
import Mathlib.Data.List.Nodup

/-!
# A set owned in parts

`Owns S own` says that the finite set `S` is the disjoint union of the lists `own i`, one for each
owner `i`, none of which has a duplicate.  It is the invariant of anything that hands out keys,
locks, descriptors or slots, to several holders and must neither give one key away twice nor forget
one.

What a holder has is a list and not a set, since a holder often goes through its keys one after
another, taking or releasing one at a time, and the order is the one in which it does that.  The
rules do not look at the order (`Owns.perm`).

* **With the store.**  A holder gains keys that nobody has (`Owns.gain`) or gives keys back
  (`Owns.lose`), and the set changes with it.
* **Between holders.**  A holder passes all it has on to a holder that has nothing
  (`Owns.transfer`), or some or all of it to any other one (`Owns.give`, `Owns.merge`).  The set
  stays as it is.
* **Holders that come and go.**  A holder that has nothing does not count: `Owns.comp_some_iff`
  leaves one out, and `Owns.empty` and `Owns.eq_empty` are about the case that nobody has anything.

Each rule asks what the one or two holders have afterwards, up to the order, and that the others
have what they had.  A step of a program is then matched with one rule, and its side conditions are
read off the step.
-/

set_option autoImplicit false

namespace Ownership

variable {ι K : Type*} [DecidableEq K] {S : Finset K} {own own' : ι → List K}

/-- `S` is the disjoint union of the lists `own i`. -/
structure Owns (S : Finset K) (own : ι → List K) : Prop where
  nodup : ∀ i, (own i).Nodup
  unique : ∀ i j k, k ∈ own i → k ∈ own j → i = j
  mem_iff : ∀ k, k ∈ S ↔ ∃ i, k ∈ own i

namespace Owns

omit [DecidableEq K] in
/-- Nobody has anything, and there is nothing. -/
theorem empty (h : ∀ i, own i = []) : Owns (∅ : Finset K) own :=
  ⟨fun i ↦ by simp [h i], fun i j k hk ↦ by simp [h i] at hk, fun k ↦ by simp [h]⟩

omit [DecidableEq K] in
theorem mem (h : Owns S own) {i : ι} {k : K} (hk : k ∈ own i) : k ∈ S :=
  (h.mem_iff k).mpr ⟨i, hk⟩

omit [DecidableEq K] in
/-- When nobody has anything, there is nothing. -/
theorem eq_empty (h : Owns S own) (hown : ∀ i, own i = []) : S = ∅ := by
  refine Finset.eq_empty_of_forall_notMem fun k hk ↦ ?_
  obtain ⟨i, hi⟩ := (h.mem_iff k).mp hk
  rw [hown i] at hi
  cases hi

omit [DecidableEq K] in
/-- Holders may regroup what they have. -/
theorem perm (h : Owns S own) (hperm : ∀ i, (own' i).Perm (own i)) : Owns S own' := by
  refine ⟨fun i ↦ (hperm i).nodup_iff.mpr (h.nodup i), fun i j k hi hj ↦ ?_, fun k ↦ ?_⟩
  · exact h.unique i j k ((hperm i).mem_iff.mp hi) ((hperm j).mem_iff.mp hj)
  · rw [h.mem_iff]
    exact exists_congr fun i ↦ (hperm i).mem_iff.symm

/-- One holder gains distinct keys that were not in the set. -/
theorem gain (h : Owns S own) {i : ι} {ks : List K} (hnodup : ks.Nodup) (hnew : ∀ k ∈ ks, k ∉ S)
    (hi : (own' i).Perm (ks ++ own i)) (hother : ∀ j, j ≠ i → own' j = own j) :
    Owns (S ∪ ks.toFinset) own' := by
  have hmem : ∀ k, k ∈ own' i ↔ k ∈ ks ∨ k ∈ own i := fun k ↦ by
    rw [hi.mem_iff, List.mem_append]
  have hdisj : ∀ k ∈ ks, ∀ j, k ∉ own j := fun k hk j hj ↦ hnew k hk (h.mem hj)
  -- a key that `j` has is either one of the new ones, and `j` is `i`, or `j` had it before
  have hcases : ∀ j k, k ∈ own' j → j = i ∧ k ∈ ks ∨ k ∈ own j := by
    intro j k hk
    by_cases hj : j = i
    · subst hj
      exact ((hmem k).mp hk).imp_left fun hks ↦ ⟨rfl, hks⟩
    · exact .inr (hother j hj ▸ hk)
  refine ⟨fun j ↦ ?_, fun j₁ j₂ k h₁ h₂ ↦ ?_, fun k ↦ ?_⟩
  · by_cases hj : j = i
    · subst hj
      rw [hi.nodup_iff, List.nodup_append]
      exact ⟨hnodup, h.nodup j, fun a ha b hb hab ↦ hdisj a ha j (hab ▸ hb)⟩
    · rw [hother j hj]
      exact h.nodup j
  · rcases hcases j₁ k h₁ with ⟨rfl, hk⟩ | hk₁
    · rcases hcases j₂ k h₂ with ⟨rfl, -⟩ | hk₂
      · rfl
      · exact absurd hk₂ (hdisj k hk j₂)
    · rcases hcases j₂ k h₂ with ⟨-, hk⟩ | hk₂
      · exact absurd hk₁ (hdisj k hk j₁)
      · exact h.unique j₁ j₂ k hk₁ hk₂
  · rw [Finset.mem_union, List.mem_toFinset, h.mem_iff]
    constructor
    · rintro (⟨j, hj⟩ | hk)
      · by_cases hji : j = i
        · exact ⟨i, (hmem k).mpr (.inr (hji ▸ hj))⟩
        · exact ⟨j, (hother j hji).symm ▸ hj⟩
      · exact ⟨i, (hmem k).mpr (.inl hk)⟩
    · rintro ⟨j, hj⟩
      rcases hcases j k hj with ⟨-, hk⟩ | hk
      · exact .inr hk
      · exact .inl ⟨j, hk⟩

/-- One holder gives keys back, which leave the set. -/
theorem lose (h : Owns S own) {i : ι} {ks : List K} (hi : (own i).Perm (ks ++ own' i))
    (hother : ∀ j, j ≠ i → own' j = own j) : Owns (S \ ks.toFinset) own' := by
  have hsub : ∀ j k, k ∈ own' j → k ∈ own j := by
    intro j k hk
    by_cases hj : j = i
    · subst hj
      exact hi.mem_iff.mpr (List.mem_append_right _ hk)
    · exact hother j hj ▸ hk
  have hnodup : (ks ++ own' i).Nodup := hi.nodup_iff.mp (h.nodup i)
  -- a key that was given back is nobody's
  have hgone : ∀ k ∈ ks, ∀ j, k ∉ own' j := by
    intro k hk j hj
    have hki : k ∈ own i := hi.mem_iff.mpr (List.mem_append_left _ hk)
    obtain rfl := h.unique i j k hki (hsub j k hj)
    exact (List.nodup_append.mp hnodup).2.2 k hk k hj rfl
  refine ⟨fun j ↦ ?_, fun j₁ j₂ k h₁ h₂ ↦ h.unique j₁ j₂ k (hsub j₁ k h₁) (hsub j₂ k h₂),
    fun k ↦ ?_⟩
  · by_cases hj : j = i
    · subst hj
      exact (List.nodup_append.mp hnodup).2.1
    · rw [hother j hj]
      exact h.nodup j
  · rw [Finset.mem_sdiff, List.mem_toFinset, h.mem_iff]
    constructor
    · rintro ⟨⟨j, hj⟩, hk⟩
      by_cases hji : j = i
      · subst hji
        exact ⟨j, (List.mem_append.mp (hi.mem_iff.mp hj)).resolve_left hk⟩
      · exact ⟨j, (hother j hji).symm ▸ hj⟩
    · rintro ⟨j, hj⟩
      exact ⟨⟨j, hsub j k hj⟩, fun hk ↦ hgone k hk j hj⟩

omit [DecidableEq K] in
/-- A holder passes all it has on to one that has nothing. -/
theorem transfer (h : Owns S own) {i j : ι} (hne : i ≠ j) (hj : own j = []) (hi' : own' i = [])
    (hj' : own' j = own i) (hother : ∀ l, l ≠ i → l ≠ j → own' l = own l) : Owns S own' := by
  have hback : ∀ l k, k ∈ own' l → l ≠ i ∧ (l = j ∧ k ∈ own i ∨ l ≠ j ∧ k ∈ own l) := by
    intro l k hk
    have hli : l ≠ i := by rintro rfl; simp [hi'] at hk
    by_cases hlj : l = j
    · subst hlj
      exact ⟨hli, .inl ⟨rfl, hj' ▸ hk⟩⟩
    · exact ⟨hli, .inr ⟨hlj, hother l hli hlj ▸ hk⟩⟩
  refine ⟨fun l ↦ ?_, fun l₁ l₂ k h₁ h₂ ↦ ?_, fun k ↦ ?_⟩
  · by_cases hli : l = i
    · rw [hli, hi']
      exact List.nodup_nil
    · by_cases hlj : l = j
      · rw [hlj, hj']
        exact h.nodup i
      · rw [hother l hli hlj]
        exact h.nodup l
  · obtain ⟨hi₁, ⟨rfl, hk₁⟩ | ⟨hj₁, hk₁⟩⟩ := hback l₁ k h₁ <;>
      obtain ⟨hi₂, ⟨rfl, hk₂⟩ | ⟨hj₂, hk₂⟩⟩ := hback l₂ k h₂
    · rfl
    · exact absurd (h.unique _ _ k hk₁ hk₂).symm hi₂
    · exact absurd (h.unique _ _ k hk₁ hk₂) hi₁
    · exact h.unique _ _ k hk₁ hk₂
  · rw [h.mem_iff]
    constructor
    · rintro ⟨l, hl⟩
      have hlj : l ≠ j := by rintro rfl; simp [hj] at hl
      by_cases hli : l = i
      · exact ⟨j, by rw [hj', ← hli]; exact hl⟩
      · exact ⟨l, (hother l hli hlj).symm ▸ hl⟩
    · rintro ⟨l, hl⟩
      obtain ⟨-, ⟨rfl, hk⟩ | ⟨-, hk⟩⟩ := hback l k hl
      · exact ⟨i, hk⟩
      · exact ⟨l, hk⟩

/-- A holder gives some keys to another one. -/
theorem give [DecidableEq ι] (h : Owns S own) {i j : ι} {ks : List K} (hne : i ≠ j)
    (hi : (own i).Perm (ks ++ own' i)) (hj : (own' j).Perm (ks ++ own j))
    (hother : ∀ l, l ≠ i → l ≠ j → own' l = own l) : Owns S own' := by
  -- the keys leave the set, and come back to it
  have hperm : (own i).Perm (ks ++ Function.update own i (own' i) i) := by
    rwa [Function.update_self]
  have hleft : Owns (S \ ks.toFinset) (Function.update own i (own' i)) :=
    h.lose hperm fun l hl ↦ Function.update_of_ne hl ..
  have hhad : ∀ k ∈ ks, k ∈ own i := fun k hk ↦ hi.mem_iff.mpr (List.mem_append_left _ hk)
  have hnodup : ks.Nodup := (List.nodup_append.mp (hi.nodup_iff.mp (h.nodup i))).1
  have hback : (S \ ks.toFinset) ∪ ks.toFinset = S :=
    Finset.sdiff_union_of_subset fun k hk ↦ h.mem (hhad k (List.mem_toFinset.mp hk))
  rw [← hback]
  refine hleft.gain (i := j) hnodup (fun k hk hmem ↦ ?_) ?_ fun l hl ↦ ?_
  · exact (Finset.mem_sdiff.mp hmem).2 (List.mem_toFinset.mpr hk)
  · rwa [Function.update_of_ne hne.symm]
  · by_cases hli : l = i
    · rw [hli, Function.update_self]
    · rw [hother l hli hl, Function.update_of_ne hli]

/-- It may give all it has. -/
theorem merge [DecidableEq ι] (h : Owns S own) {i j : ι} (hne : i ≠ j) (hi' : own' i = [])
    (hj' : own' j = own j ++ own i) (hother : ∀ l, l ≠ i → l ≠ j → own' l = own l) :
    Owns S own' := by
  have hi : (own i).Perm (own i ++ own' i) := by rw [hi', List.append_nil]
  refine h.give hne hi ?_ hother
  rw [hj']
  exact List.perm_append_comm

omit [DecidableEq K] in
/-- A holder can be left out when it has nothing. -/
theorem comp_some_iff {own : Option ι → List K} (h : Owns S own) :
    Owns S (fun i ↦ own (some i)) ↔ own none = [] := by
  constructor
  · intro hsome
    refine List.eq_nil_iff_forall_not_mem.mpr fun k hk ↦ ?_
    obtain ⟨i, hi⟩ := (hsome.mem_iff k).mp (h.mem hk)
    cases h.unique none (some i) k hk hi
  · intro hnone
    refine ⟨fun i ↦ h.nodup (some i),
      fun i j k hi hj ↦ Option.some_inj.mp (h.unique _ _ k hi hj), fun k ↦ ?_⟩
    rw [h.mem_iff, Option.exists, hnone]
    exact or_iff_right List.not_mem_nil

end Owns

end Ownership
