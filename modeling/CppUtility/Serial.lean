import Mathlib.Logic.Equiv.Basic

/-!
# Sections that take effect at once

Owners work on a shared store in sections.  A section begins with something that its owner knows,
makes accesses to the store one after another, each of which may depend on what the owner has learnt
by then, and ends with what the owner knows in the end.  The sections of different owners are
interleaved in any way.

If at no time two owners have the same key, and each accesses only keys that it has, then nobody can
tell the interleaving from a run of `step`, where a whole section is one step, taken when it ends.
The order of the sections is that of their ends and not that of their beginnings: what a section has
read cannot have been written by one that ends later, since the keys are kept to the end.

Two stores are compared all along: `store`, which the interleaving has led to, and `before`, which
the sections that have ended have led to, each in one step.  They differ where a section is under
way.  `Apart` is the relation between them that carries the argument, and its main clause is about
one owner at a time: its section so far, executed on `before`, gives what is in `store` at the keys
that it has, and what it knows.  At all other keys the two stores are the same.

* An owner gets keys that nobody has, and begins a section (`Apart.begin`).
* It makes an access (`Apart.access`).
* It passes its section on with the keys: owners can be renamed (`Apart.comp`).
* It ends its section (`Apart.end_`), and this is where `before` catches up with `store`.
-/

set_option autoImplicit false

namespace Serial

variable {ι K V L : Type*}

/-- An access to the value at a key: from the value and what the owner knows, the new value and what
the owner knows then. -/
structure Access (K V L : Type*) where
  key : K
  act : V → L → V × L

/-- A section, or the part of one that has been executed. -/
structure Sect (K V L : Type*) where
  start : L
  accesses : List (Access K V L)
  finish : L

/-- A section that has not done anything yet. -/
def Sect.empty (l : L) : Sect K V L := ⟨l, [], l⟩

variable [DecidableEq K]

/-- One access. -/
def Access.exec (a : Access K V L) (s : (K → V) × L) : (K → V) × L :=
  (Function.update s.1 a.key (a.act (s.1 a.key) s.2).1, (a.act (s.1 a.key) s.2).2)

/-- Accesses one after another, with nothing in between. -/
def execAll (accesses : List (Access K V L)) (s : (K → V) × L) : (K → V) × L :=
  accesses.foldl (fun s a ↦ a.exec s) s

/-- A section executed by itself. -/
def Sect.exec (x : Sect K V L) (store : K → V) : (K → V) × L := execAll x.accesses (store, x.start)

/-- The section after one more access, to this store. -/
def Sect.access (x : Sect K V L) (store : K → V) (a : Access K V L) : Sect K V L :=
  ⟨x.start, x.accesses ++ [a], (a.exec (store, x.finish)).2⟩

/-- The machine where a section is one step; `none` if its owner would not know in the end what the
section says. -/
def step [DecidableEq L] (store : K → V) (x : Sect K V L) : Option (K → V) :=
  if (x.exec store).2 = x.finish then some (x.exec store).1 else none

/-! ## What accesses depend on, and what they change

Two facts about a single access are all that is needed: its effect depends on the value at its key
and on what the owner knows (`Alike.exec`), and it changes no other key (`execAll_of_ne`).  By the
first one an owner learns the same in `store` as on `before`; by the second one the others do not
notice. -/

/-- Two stores that have the same at some keys, and owners that know the same. -/
def Alike (P : K → Prop) (s s' : (K → V) × L) : Prop := s.2 = s'.2 ∧ ∀ k, P k → s.1 k = s'.1 k

variable {P : K → Prop} {s s' : (K → V) × L} {accesses : List (Access K V L)}

/-- An access depends on its key only. -/
theorem Alike.exec (h : Alike P s s') {a : Access K V L} (ha : P a.key) :
    Alike P (a.exec s) (a.exec s') := by
  have hact : a.act (s.1 a.key) s.2 = a.act (s'.1 a.key) s'.2 := by rw [h.1, h.2 _ ha]
  refine ⟨congrArg (·.2) hact, fun k hk ↦ ?_⟩
  simp only [Access.exec, hact]
  by_cases hka : k = a.key
  · rw [hka, Function.update_self, Function.update_self]
  · rw [Function.update_of_ne hka, Function.update_of_ne hka, h.2 k hk]

omit [DecidableEq K] in
theorem Alike.trans {s'' : (K → V) × L} (h : Alike P s s') (h' : Alike P s' s'') : Alike P s s'' :=
  ⟨h.1.trans h'.1, fun k hk ↦ (h.2 k hk).trans (h'.2 k hk)⟩

theorem Alike.execAll (h : Alike P s s') (ha : ∀ a ∈ accesses, P a.key) :
    Alike P (execAll accesses s) (execAll accesses s') := by
  induction accesses generalizing s s' with
  | nil => exact h
  | cons a accesses ih =>
    obtain ⟨ha, hrest⟩ := List.forall_mem_cons.mp ha
    exact ih (h.exec ha) hrest

/-- Accesses leave the other keys alone. -/
theorem execAll_of_ne {k : K} (h : ∀ a ∈ accesses, a.key ≠ k) (s : (K → V) × L) :
    (execAll accesses s).1 k = s.1 k := by
  induction accesses generalizing s with
  | nil => rfl
  | cons a accesses ih =>
    obtain ⟨ha, hrest⟩ := List.forall_mem_cons.mp h
    exact (ih hrest _).trans (Function.update_of_ne ha.symm ..)

theorem Sect.exec_access (x : Sect K V L) (store store' : K → V) (a : Access K V L) :
    (x.access store' a).exec store = a.exec (x.exec store) := by
  rw [exec, access, Serial.execAll, List.foldl_append]
  rfl

/-! ## Interleaved and one at a time -/

/-- The interleaving has led to `store`, and the sections that have ended, each in one step, to
`before`; `sect i` is what the section of `i` has done so far.  Executed on `before`, that gives
what is in `store` at the keys that `i` has, and what `i` knows. -/
structure Apart (before store : K → V) (has : ι → List K) (sect : ι → Sect K V L) : Prop where
  unique : ∀ i j k, k ∈ has i → k ∈ has j → i = j
  inside : ∀ i, ∀ a ∈ (sect i).accesses, a.key ∈ has i
  alike : ∀ i, Alike (· ∈ has i) ((sect i).exec before) (store, (sect i).finish)
  rest : ∀ k, (∀ i, k ∉ has i) → before k = store k

namespace Apart

variable {before before' store store' : K → V} {has : ι → List K} {sect : ι → Sect K V L}

theorem init (store : K → V) (know : L) :
    Apart store store (fun _ : ι ↦ []) (fun _ ↦ .empty know) :=
  ⟨fun _ _ _ hk ↦ (List.not_mem_nil hk).elim, fun _ _ ha ↦ (List.not_mem_nil ha).elim,
    fun _ ↦ ⟨rfl, fun _ _ ↦ rfl⟩, fun _ _ ↦ rfl⟩

/-- What an owner knows in the end is what it would know had its section been executed alone. -/
theorem step_eq [DecidableEq L] (h : Apart before store has sect) (i : ι) :
    step before (sect i) = some ((sect i).exec before).1 :=
  if_pos (h.alike i).1

/-- It does not matter who the owners are. -/
theorem comp {κ : Type*} (h : Apart before store has sect) (e : κ ≃ ι) :
    Apart before store (has ∘ e) (sect ∘ e) := by
  refine ⟨fun i j k hi hj ↦ e.injective (h.unique _ _ k hi hj), fun i ↦ h.inside (e i),
    fun i ↦ h.alike (e i), fun k hk ↦ h.rest k fun i hi ↦ ?_⟩
  refine hk (e.symm i) ?_
  rwa [Function.comp_apply, e.apply_symm_apply]

variable [DecidableEq ι] {i : ι}

/-- One owner does something, and leaves what the others have alone. -/
theorem update (h : Apart before store has sect) {keys : List K} {x : Sect K V L}
    (hother : ∀ j, j ≠ i → ∀ k ∈ has j, k ∉ keys ∧ before' k = before k ∧ store' k = store k)
    (hinside : ∀ a ∈ x.accesses, a.key ∈ keys)
    (halike : Alike (· ∈ keys) (x.exec before') (store', x.finish))
    (hrest : ∀ k, k ∉ keys → (∀ j, j ≠ i → k ∉ has j) → before' k = store' k) :
    Apart before' store' (Function.update has i keys) (Function.update sect i x) := by
  refine ⟨fun j₁ j₂ k h₁ h₂ ↦ ?_, fun j a ha ↦ ?_, fun j ↦ ?_, fun k hk ↦ ?_⟩
  · by_cases hj₁ : j₁ = i <;> by_cases hj₂ : j₂ = i
    · rw [hj₁, hj₂]
    · rw [hj₁, Function.update_self] at h₁
      rw [Function.update_of_ne hj₂] at h₂
      exact absurd h₁ (hother j₂ hj₂ k h₂).1
    · rw [hj₂, Function.update_self] at h₂
      rw [Function.update_of_ne hj₁] at h₁
      exact absurd h₂ (hother j₁ hj₁ k h₁).1
    · rw [Function.update_of_ne hj₁] at h₁
      rw [Function.update_of_ne hj₂] at h₂
      exact h.unique j₁ j₂ k h₁ h₂
  · by_cases hj : j = i
    · subst hj
      rw [Function.update_self] at ha ⊢
      exact hinside a ha
    · rw [Function.update_of_ne hj] at ha ⊢
      exact h.inside j a ha
  · by_cases hj : j = i
    · subst hj
      rwa [Function.update_self, Function.update_self]
    · rw [Function.update_of_ne hj, Function.update_of_ne hj]
      -- its section finds before what it found then, and what it wrote is still there
      have hbefore : Alike (· ∈ has j) (before', (sect j).start) (before, (sect j).start) :=
        ⟨rfl, fun k hk ↦ (hother j hj k hk).2.1⟩
      have hstore : Alike (· ∈ has j) (store, (sect j).finish) (store', (sect j).finish) :=
        ⟨rfl, fun k hk ↦ (hother j hj k hk).2.2.symm⟩
      exact ((hbefore.execAll (h.inside j)).trans (h.alike j)).trans hstore
  · refine hrest k (fun hki ↦ hk i ?_) fun j hj hkj ↦ hk j ?_
    · rwa [Function.update_self]
    · rwa [Function.update_of_ne hj]

/-- An owner accesses a key that it has. -/
theorem access (h : Apart before store has sect) {a : Access K V L} (ha : a.key ∈ has i) :
    Apart before (a.exec (store, (sect i).finish)).1 has
      (Function.update sect i ((sect i).access store a)) := by
  have hsame : ∀ k, k ≠ a.key → (a.exec (store, (sect i).finish)).1 k = store k :=
    fun k hk ↦ Function.update_of_ne hk ..
  rw [← Function.update_eq_self i has]
  refine h.update (fun j hj k hk ↦ ?_) (fun b hb ↦ ?_) ?_ fun k hk hothers ↦ ?_
  · have hki : k ∉ has i := fun hki ↦ hj (h.unique j i k hk hki)
    exact ⟨hki, rfl, hsame k fun hka ↦ hki (hka ▸ ha)⟩
  · rcases List.mem_append.mp hb with hb | hb
    · exact h.inside i b hb
    · exact List.mem_singleton.mp hb ▸ ha
  · rw [Sect.exec_access]
    exact (h.alike i).exec ha
  · refine (h.rest k fun j ↦ ?_).trans (hsame k fun hka ↦ hk (hka ▸ ha)).symm
    by_cases hj : j = i
    · exact hj ▸ hk
    · exact hothers j hj

/-- An owner that has nothing gets keys that nobody has, and begins a section. -/
theorem begin (h : Apart before store has sect) (hi : has i = []) {keys : List K}
    (hkeys : ∀ j, j ≠ i → ∀ k ∈ has j, k ∉ keys) (know : L) :
    Apart before store (Function.update has i keys) (Function.update sect i (.empty know)) := by
  have hrest : ∀ k, (∀ j, j ≠ i → k ∉ has j) → before k = store k := by
    refine fun k hk ↦ h.rest k fun j hkj ↦ ?_
    by_cases hj : j = i
    · rw [hj, hi] at hkj
      exact List.not_mem_nil hkj
    · exact hk j hj hkj
  refine h.update (fun j hj k hk ↦ ⟨hkeys j hj k hk, rfl, rfl⟩)
    (fun a ha ↦ (List.not_mem_nil ha).elim) ⟨rfl, fun k hk ↦ hrest k fun j hj hkj ↦ ?_⟩
    fun k _ ↦ hrest k
  exact hkeys j hj k hkj hk

/-- A section ends, and its owner has nothing any more. -/
theorem end_ (h : Apart before store has sect) (i : ι) (know : L) :
    Apart ((sect i).exec before).1 store (Function.update has i [])
      (Function.update sect i (.empty know)) := by
  have hsame : ∀ k, k ∉ has i → ((sect i).exec before).1 k = before k := by
    intro k hk
    refine execAll_of_ne (fun a ha ↦ ?_) _
    rintro rfl
    exact hk (h.inside i a ha)
  refine h.update (fun j hj k hk ↦ ⟨List.not_mem_nil, ?_, rfl⟩)
    (fun a ha ↦ (List.not_mem_nil ha).elim) ⟨rfl, fun k hk ↦ (List.not_mem_nil hk).elim⟩
    fun k _ hothers ↦ ?_
  · exact hsame k fun hki ↦ hj (h.unique j i k hk hki)
  · by_cases hki : k ∈ has i
    · exact (h.alike i).2 k hki
    · refine (hsame k hki).trans (h.rest k fun j ↦ ?_)
      by_cases hj : j = i
      · exact hj ▸ hki
      · exact hothers j hj

end Apart

end Serial
