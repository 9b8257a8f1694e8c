import Mathlib.Algebra.BigOperators.Group.Finset.Basic
import Mathlib.Data.List.Induction
import Mathlib.Logic.Basic

/-!
# Guarded step functions and their runs

A concurrent component is described by one executable function `step : σ → ℓ → Option σ`: in state
`s` the label `l` is either not enabled (`none`) or leads to one next state.  All nondeterminism —
which thread moves, what the kernel answers — is in the choice of the label, so a *run* is a list
of labels and the quantifier "for every interleaving" is a quantifier over lists.

What is here is the part every component needs once:

* `run` replays a list of labels, and `run_append` cuts a run in two;
* `run_induction` proves a statement about (history, state) pairs of all runs from what one step
  preserves, and `run_invariant` is its special case for states alone;
* `Along` says that every step of a run meets a condition (`checkAlong` tests it on a concrete run),
  and `forall_prefix_iff_along` turns "one step keeps `Q` exactly when it meets `C`" into the same
  equivalence for whole runs;
* `OccursAfter` points at a step in the past of a run;
* `outputs` collects what the steps of a run emit, possibly with a view to what comes later
  (`emitted` is for the steps that need none), and `run_simulation` shows that the emitted labels
  are a run of an abstract machine when every concrete step is matched by it; `run_projection` is
  the case of a component of a larger machine;
* steps that lower a rank come to an end (`rank_add_length_le`, and `rank_add_countP_le` among
  others that do not raise it), in a state where none of them is enabled any more
  (`exists_settled`).
-/

set_option autoImplicit false

namespace Transition

variable {σ ℓ α : Type*}

/-! ## Runs -/

/-- The state reached by performing the labels in order; `none` if one of them is not enabled. -/
def run (step : σ → ℓ → Option σ) : σ → List ℓ → Option σ
  | s, [] => some s
  | s, l :: tr => (step s l).bind fun s' ↦ run step s' tr

variable {step : σ → ℓ → Option σ} {s₀ s s' : σ} {l : ℓ} {tr tr' : List ℓ}

@[simp] theorem run_nil (s : σ) : run step s [] = some s := rfl

theorem run_cons_eq_some : run step s (l :: tr) = some s' ↔
    ∃ s₁, step s l = some s₁ ∧ run step s₁ tr = some s' := by
  rw [run, Option.bind_eq_some_iff]

/-- A run can be cut at any point. -/
theorem run_append : run step s (tr ++ tr') = some s' ↔
    ∃ s₁, run step s tr = some s₁ ∧ run step s₁ tr' = some s' := by
  induction tr generalizing s with
  | nil => simp
  | cons l tr ih =>
    simp only [List.cons_append, run_cons_eq_some, ih]
    constructor
    · rintro ⟨s₁, h1, s₂, h2, h3⟩
      exact ⟨s₂, ⟨s₁, h1, h2⟩, h3⟩
    · rintro ⟨s₂, ⟨s₁, h1, h2⟩, h3⟩
      exact ⟨s₁, h1, s₂, h2, h3⟩

theorem run_concat : run step s (tr ++ [l]) = some s' ↔
    ∃ s₁, run step s tr = some s₁ ∧ step s₁ l = some s' := by
  simp [run_append, run_cons_eq_some]

/-- A label of a history and `l` is `l` at its end, or one of the history. -/
theorem concat_eq_append_cons {u v : List ℓ} {m : ℓ} : tr ++ [l] = u ++ m :: v ↔
    (u = tr ∧ m = l ∧ v = []) ∨ ∃ v', tr = u ++ m :: v' ∧ v = v' ++ [l] := by
  constructor
  · intro h
    rcases List.eq_nil_or_concat v with rfl | ⟨v', n, rfl⟩
    · obtain ⟨rfl, hl⟩ := List.append_inj' h rfl
      exact .inl ⟨rfl, (List.singleton_inj.mp hl).symm, rfl⟩
    · rw [List.concat_eq_append, ← List.cons_append, ← List.append_assoc] at h
      obtain ⟨rfl, hl⟩ := List.append_inj' h rfl
      obtain rfl := List.singleton_inj.mp hl
      exact .inr ⟨v', rfl, List.concat_eq_append⟩
  · rintro (⟨rfl, rfl, rfl⟩ | ⟨v', rfl, rfl⟩)
    · rfl
    · rw [List.append_assoc, List.cons_append]

/-- Replaying a concrete run and testing the state it ends in. -/
theorem exists_run_of_any {p : σ → Bool} (h : (run step s tr).any p = true) :
    ∃ s', run step s tr = some s' ∧ p s' = true :=
  (Option.any_eq_true p _).mp h

/-! ## Invariants -/

/-- **Induction over runs.**  `P tr s` is a statement about the history `tr` and the state `s` it
led to; it holds of every run if it holds of the empty one and every step preserves it. -/
theorem run_induction {P : List ℓ → σ → Prop} (hnil : P [] s₀)
    (hstep : ∀ tr s l s', run step s₀ tr = some s → P tr s → step s l = some s' →
      P (tr ++ [l]) s')
    (h : run step s₀ tr = some s) : P tr s := by
  induction tr using List.reverseRecOn generalizing s with
  | nil => rw [run_nil, Option.some_inj] at h; exact h ▸ hnil
  | append_singleton tr l ih =>
    obtain ⟨s₁, h1, h2⟩ := run_concat.mp h
    exact hstep tr s₁ l s h1 (ih h1) h2

/-- A predicate that every step preserves holds at the end of every run that starts in it. -/
theorem run_invariant {P : σ → Prop} (hinit : P s₀)
    (hstep : ∀ s l s', P s → step s l = some s' → P s')
    (h : run step s₀ tr = some s) : P s :=
  run_induction (P := fun _ s ↦ P s) hinit (fun _ s l s' _ hP hs ↦ hstep s l s' hP hs) h

/-! ## What has occurred in a run -/

/-- Somewhere in the run of `tr` from `s₀`, but not before `p` was over, `l` was performed in a
state that satisfies `P`. -/
def OccursAfter (step : σ → ℓ → Option σ) (s₀ : σ) (p tr : List ℓ) (l : ℓ) (P : σ → Prop) : Prop :=
  ∃ tr₁ tr₂ s, tr = tr₁ ++ l :: tr₂ ∧ p <+: tr₁ ∧ run step s₀ tr₁ = some s ∧ P s

variable {p : List ℓ} {P : σ → Prop}

theorem OccursAfter.concat (h : OccursAfter step s₀ p tr l P) (m : ℓ) :
    OccursAfter step s₀ p (tr ++ [m]) l P := by
  obtain ⟨tr₁, tr₂, s, rfl, hp, hs, hP⟩ := h
  exact ⟨tr₁, tr₂ ++ [m], s, by simp, hp, hs, hP⟩

/-- What occurs last. -/
theorem occursAfter_concat_self (hp : p <+: tr) (h : run step s₀ tr = some s) (hP : P s) :
    OccursAfter step s₀ p (tr ++ [l]) l P :=
  ⟨tr, [], s, rfl, hp, h, hP⟩

/-! ## Runs whose steps meet a condition

A defect is often a kind of step, and the condition under which a property holds of a run is then
that no step of the run is of this kind.  The condition is about the state before the step and the
step itself, never about the state after it. -/

/-- Every step of the run of `tr` from `s₀` meets `C`, a condition on the history before the step,
the state it is taken in and its label. -/
def Along (step : σ → ℓ → Option σ) (C : List ℓ → σ → ℓ → Prop) (s₀ : σ) (tr : List ℓ) : Prop :=
  ∀ tr₁ l tr₂ s, tr = tr₁ ++ l :: tr₂ → run step s₀ tr₁ = some s → C tr₁ s l

variable {C : List ℓ → σ → ℓ → Prop}

theorem along_nil : Along step C s₀ [] := by
  intro tr₁ l tr₂ s htr _
  simp at htr

theorem along_mono {C' : List ℓ → σ → ℓ → Prop} (h : Along step C s₀ tr)
    (hC : ∀ tr s l, run step s₀ tr = some s → C tr s l → C' tr s l) : Along step C' s₀ tr :=
  fun tr₁ l tr₂ s htr hr ↦ hC tr₁ s l hr (h tr₁ l tr₂ s htr hr)

theorem along_concat (h : run step s₀ tr = some s) :
    Along step C s₀ (tr ++ [l]) ↔ Along step C s₀ tr ∧ C tr s l := by
  constructor
  · intro hC
    refine ⟨fun tr₁ m tr₂ s₁ htr h1 ↦ hC tr₁ m (tr₂ ++ [l]) s₁ (by simp [htr]) h1, ?_⟩
    exact hC tr l [] s rfl h
  · rintro ⟨hC, hl⟩ tr₁ m tr₂ s₁ htr h1
    rcases concat_eq_append_cons.mp htr with ⟨rfl, rfl, rfl⟩ | ⟨tr₃, htr₃, rfl⟩
    · rw [h, Option.some_inj] at h1
      exact h1 ▸ hl
    · exact hC tr₁ m tr₃ s₁ htr₃ h1

/-- A condition on labels alone. -/
theorem along_label {P : ℓ → Prop} (h : run step s₀ tr = some s) :
    Along step (fun _ _ l ↦ P l) s₀ tr ↔ ∀ l ∈ tr, P l := by
  constructor
  · intro hP l hl
    obtain ⟨tr₁, tr₂, rfl⟩ := List.append_of_mem hl
    obtain ⟨s₁, h₁, -⟩ := run_append.mp h
    exact hP tr₁ l tr₂ s₁ rfl h₁
  · rintro hP tr₁ l tr₂ s₁ rfl -
    exact hP l (List.mem_append_right _ List.mem_cons_self)

/-- Replays a run and tests every step of it. -/
def checkAlong (step : σ → ℓ → Option σ) (c : σ → ℓ → Bool) : σ → List ℓ → Bool
  | _, [] => true
  | s, l :: tr => c s l && (step s l).all fun s' ↦ checkAlong step c s' tr

/-- A test that implies the condition, passed by every step of the run. -/
theorem along_of_check {c : σ → ℓ → Bool} (hc : ∀ tr s l, c s l = true → C tr s l)
    (h : checkAlong step c s₀ tr = true) : Along step C s₀ tr := by
  intro tr₁ l tr₂ s htr hr
  refine hc tr₁ s l ?_
  subst htr
  clear hc
  induction tr₁ generalizing s₀ with
  | nil =>
    obtain rfl : s₀ = s := by simpa using hr
    exact (Bool.and_eq_true_iff.mp h).1
  | cons m tr₁ ih =>
    obtain ⟨s₁, h1, h2⟩ := run_cons_eq_some.mp hr
    have hrest := (Bool.and_eq_true_iff.mp h).2
    rw [h1, Option.all_some] at hrest
    exact ih h2 hrest

/-- **From one step to all runs.**  Suppose that, as long as `Q` has held so far, a step keeps `Q`
exactly when it meets `C`.  Then `Q` holds after every prefix of a run exactly when every step of
the run meets `C`. -/
theorem forall_prefix_iff_along {Q : σ → Prop} (hinit : Q s₀)
    (hstep : ∀ tr s l s', run step s₀ tr = some s → Q s → step s l = some s' →
      (Q s' ↔ C tr s l))
    (h : run step s₀ tr = some s) :
    (∀ tr₁ s₁, tr₁ <+: tr → run step s₀ tr₁ = some s₁ → Q s₁) ↔ Along step C s₀ tr := by
  refine run_induction (P := fun tr _ ↦
    (∀ tr₁ s₁, tr₁ <+: tr → run step s₀ tr₁ = some s₁ → Q s₁) ↔ Along step C s₀ tr) ?_ ?_ h
  · refine ⟨fun _ ↦ along_nil, fun _ tr₁ s₁ hp h1 ↦ ?_⟩
    obtain rfl := List.prefix_nil.mp hp
    rw [run_nil, Option.some_inj] at h1
    exact h1 ▸ hinit
  · intro tr s l s' hr ih hs
    have hr' : run step s₀ (tr ++ [l]) = some s' := run_concat.mpr ⟨s, hr, hs⟩
    rw [along_concat hr, ← ih]
    constructor
    · intro hQ
      have hold : ∀ tr₁ s₁, tr₁ <+: tr → run step s₀ tr₁ = some s₁ → Q s₁ :=
        fun tr₁ s₁ hp ↦ hQ tr₁ s₁ (hp.trans (List.prefix_append tr [l]))
      exact ⟨hold, (hstep tr s l s' hr (hold tr s (List.prefix_refl _) hr) hs).mp
        (hQ _ _ (List.prefix_refl _) hr')⟩
    · rintro ⟨hold, hl⟩ tr₁ s₁ hp h1
      rcases List.prefix_concat_iff.mp hp with rfl | hp
      · rw [hr', Option.some_inj] at h1
        exact h1 ▸ (hstep tr s l s' hr (hold tr s (List.prefix_refl _) hr) hs).mpr hl
      · exact hold tr₁ s₁ hp h1

/-! ## What a run emits, and simulation -/

/-- Everything the steps of a run emit, in order, when `tr'` is what follows the run.  What a step
emits may depend on everything that comes after it. -/
def outputs (step : σ → ℓ → Option σ) (out : σ → ℓ → List ℓ → List α) :
    σ → List ℓ → List ℓ → List α
  | _, [], _ => []
  | s, l :: tr, tr' =>
    out s l (tr ++ tr') ++ (step s l).elim [] fun s' ↦ outputs step out s' tr tr'

variable {out : σ → ℓ → List ℓ → List α} {tr₁ : List ℓ}

@[simp] theorem outputs_nil (s : σ) : outputs step out s [] tr' = [] := rfl

/-- What is emitted before a point of the run and what is emitted after it. -/
theorem outputs_append (h : run step s tr = some s') :
    outputs step out s (tr ++ tr₁) tr'
      = outputs step out s tr (tr₁ ++ tr') ++ outputs step out s' tr₁ tr' := by
  induction tr generalizing s with
  | nil => rw [run_nil, Option.some_inj] at h; simp [h]
  | cons l tr ih =>
    obtain ⟨s₁, h1, h2⟩ := run_cons_eq_some.mp h
    simp [outputs, h1, ih h2]

theorem outputs_concat (h : run step s tr = some s') :
    outputs step out s (tr ++ [l]) tr' = outputs step out s tr (l :: tr') ++ out s' l tr' := by
  rw [outputs_append h, outputs]
  cases step s' l <;> simp

/-- What the steps of a run emit, when it does not depend on what comes later. -/
def emitted (step : σ → ℓ → Option σ) (out : σ → ℓ → List α) (s : σ) (tr : List ℓ) : List α :=
  outputs step (fun s l _ ↦ out s l) s tr []

theorem emitted_concat {out : σ → ℓ → List α} (h : run step s tr = some s') :
    emitted step out s (tr ++ [l]) = emitted step out s tr ++ out s' l := by
  have hfuture : ∀ tr', outputs step (fun s l _ ↦ out s l) s tr tr' = emitted step out s tr := by
    clear h
    intro tr'
    rw [emitted]
    induction tr generalizing s with
    | nil => rfl
    | cons m tr ih =>
      rw [outputs, outputs]
      cases step s m with
      | none => rfl
      | some s₁ => exact congrArg (out s m ++ ·) ih
  rw [emitted, outputs_concat h, hfuture]

/-- **Forward simulation.**  If every concrete step is matched by the abstract machine performing
what the step emits, then what a concrete run emits is an abstract run. -/
theorem run_simulation {τ : Type*} {astep : τ → α → Option τ}
    {R : List ℓ → σ → List ℓ → τ → Prop} {a₀ : τ} (hinit : ∀ tr', R [] s₀ tr' a₀)
    (hstep : ∀ tr s l s' tr' a, run step s₀ tr = some s → R tr s (l :: tr') a →
      step s l = some s' → ∃ a', run astep a (out s l tr') = some a' ∧ R (tr ++ [l]) s' tr' a')
    (h : run step s₀ tr = some s) (tr' : List ℓ) :
    ∃ a, run astep a₀ (outputs step out s₀ tr tr') = some a ∧ R tr s tr' a := by
  refine run_induction (P := fun tr s ↦ ∀ tr', ∃ a,
    run astep a₀ (outputs step out s₀ tr tr') = some a ∧ R tr s tr' a)
    (fun tr' ↦ ⟨a₀, rfl, hinit tr'⟩) ?_ h tr'
  intro tr s l s' hr ih hs tr'
  obtain ⟨a, ha, hR⟩ := ih (l :: tr')
  obtain ⟨a', ha', hR'⟩ := hstep tr s l s' tr' a hr hR hs
  exact ⟨a', by rw [outputs_concat hr]; exact run_append.mpr ⟨a, ha, ha'⟩, hR'⟩

/-- **Projection.**  If every step of a machine is, for one of its components, the steps that it
emits, then what a run emits is a run of the component. -/
theorem run_projection {τ : Type*} {cstep : τ → α → Option τ} {out : σ → ℓ → List α}
    {R : List ℓ → σ → τ → Prop} {a₀ : τ} (hinit : R [] s₀ a₀)
    (hstep : ∀ tr s l s' a, run step s₀ tr = some s → R tr s a → step s l = some s' →
      ∃ a', run cstep a (out s l) = some a' ∧ R (tr ++ [l]) s' a')
    (h : run step s₀ tr = some s) :
    ∃ a, run cstep a₀ (emitted step out s₀ tr) = some a ∧ R tr s a :=
  run_simulation (R := fun tr s _ a ↦ R tr s a) (fun _ ↦ hinit)
    (fun tr s l s' _ a hr hR hs ↦ hstep tr s l s' a hr hR hs) h []

/-! ## Ranks

The bound is in the rank of the first state, so that it does not depend on the order in which the
steps are taken.  `P` is an invariant that the rank may need, and `c` the kind of steps that are
counted as going on. -/

variable {P : σ → Prop} {c : ℓ → Prop} {rank : σ → ℕ}

/-- A rank that no step of a run raises, and that the steps of some kind lower, bounds the number of
these steps. -/
theorem rank_add_countP_le {mine : ℓ → Bool} (hinit : P s)
    (hstep : ∀ s l s', P s → c l → step s l = some s' →
      P s' ∧ rank s' + (if mine l then 1 else 0) ≤ rank s)
    (hc : ∀ l ∈ tr, c l) (h : run step s tr = some s') :
    P s' ∧ rank s' + tr.countP mine ≤ rank s := by
  induction tr generalizing s with
  | nil =>
    obtain rfl := Option.some_inj.mp h
    exact ⟨hinit, Nat.le_refl _⟩
  | cons l tr ih =>
    obtain ⟨s₁, h1, h2⟩ := run_cons_eq_some.mp h
    obtain ⟨hl, htr⟩ := List.forall_mem_cons.mp hc
    obtain ⟨hP, hle⟩ := hstep s l s₁ hinit hl h1
    obtain ⟨hP', hle'⟩ := ih hP htr h2
    refine ⟨hP', ?_⟩
    rw [List.countP_cons]
    omega

/-- When every step lowers it, it bounds the length of a run. -/
theorem rank_add_length_le (hinit : P s)
    (hstep : ∀ s l s', P s → c l → step s l = some s' → P s' ∧ rank s' < rank s)
    (hc : ∀ l ∈ tr, c l) (h : run step s tr = some s') :
    P s' ∧ rank s' + tr.length ≤ rank s := by
  have hall : P s' ∧ rank s' + tr.countP (fun _ ↦ true) ≤ rank s :=
    rank_add_countP_le hinit hstep hc h
  rwa [List.countP_true] at hall

/-- When the rank of a system is a sum over its threads, moving one thread moves one summand. -/
theorem sum_update {ι β : Type*} [DecidableEq ι] (f : ι → β) (rank : β → ℕ) {ids : Finset ι}
    {i : ι} (hi : i ∈ ids) (b : β) :
    (∑ j ∈ ids, rank (Function.update f i b j)) + rank (f i)
      = (∑ j ∈ ids, rank (f j)) + rank b := by
  have hrest : ∑ j ∈ ids.erase i, rank (Function.update f i b j)
      = ∑ j ∈ ids.erase i, rank (f j) := by
    refine Finset.sum_congr rfl fun j hj ↦ ?_
    rw [Function.update_of_ne (Finset.ne_of_mem_erase hj)]
  rw [← Finset.add_sum_erase _ _ hi, hrest, Function.update_self, ← Finset.add_sum_erase ids _ hi]
  omega

end Transition
