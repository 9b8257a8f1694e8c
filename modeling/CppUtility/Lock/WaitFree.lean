import CppUtility.Lock.Clients

/-!
# No call waits

`MemLockCore` has only a non-blocking interface.  A call that finds a key taken does not wait for
it, and a roll-back gives back no more than was taken, so a call is over after a number of its own
steps that depends on its arguments alone, however many steps the other clients take in between and
whatever they are.

* `Pc.remaining` is that number, for each position in a call.  It is chosen such that every step of
  the client itself lowers it (`Pc.remaining_afterInsert`, `Pc.remaining_afterErase`), and no step
  of another client touches it.
* `Call.steps` is its value at the beginning.  For `lockBatch` the worst case is not success: when
  the insert of the last key fails, all the others have to be erased again, and that makes two steps
  for each key, if the return is counted with the last one.
* `exists_step` says that the client has a step to take, whatever the state of the map: an insert is
  made whether it succeeds or not, an erase always can be, and else the call returns.

Both together are `Clients.wait_free`.  It is a statement about one client in any company, and
nothing is assumed of the scheduler or of the rules that other clients keep to.
-/

set_option autoImplicit false

namespace MemLock

open Transition Ownership

variable {ι K : Type*}

/-! ## One step -/

/-- How many steps a call takes, at most, until it has returned. -/
def Pc.remaining : Pc K → ℕ
  | .idle => 0
  | .trying _ => 2
  | .tried _ _ => 1
  | .unlocking _ => 2
  | .unlocked _ => 1
  | .locking _ [] => 1
  -- the longest way: the last insert fails, and everything is erased again
  | .locking taken (_ :: rest) => taken.length + 2 * rest.length + 2
  | .rollingBack todo _ => todo.length + 1
  | .unlockingBatch _ todo => todo.length + 1

/-- The steps of a call: at worst `lockBatch` inserts all keys but the last, fails, erases them and
returns. -/
def Call.steps : Call K → ℕ
  | .tryLock _ => 2
  | .unlock _ => 2
  | .lockBatch keys => max 1 (2 * keys.length)
  | .unlockBatch keys => keys.length + 1

theorem Call.remaining_start (f : Call K) : f.start.remaining = f.steps := by
  cases f with
  | tryLock | unlock | unlockBatch => rfl
  | lockBatch keys =>
    cases keys with
    | nil => rfl
    | cons k keys =>
      rw [start, Pc.remaining, steps, List.length_nil, List.length_cons]
      omega

theorem Pc.remaining_pos {p : Pc K} (hp : p ≠ .idle) : 0 < p.remaining := by
  cases p with
  | idle => exact absurd rfl hp
  | locking taken iter => cases iter <;> exact Nat.succ_pos _
  | trying | tried | unlocking | unlocked | rollingBack | unlockingBatch => exact Nat.succ_pos _

section Next

variable [DecidableEq K]

theorem Pc.remaining_afterInsert {p p' : Pc K} {key : K} {inserted : Bool}
    (h : p.afterInsert key inserted = some p') : p' ≠ .idle ∧ p'.remaining + 1 ≤ p.remaining := by
  rcases afterInsert_eq_some.mp h with ⟨rfl, rfl⟩ | ⟨taken, rest, rfl, rfl⟩
  · exact ⟨by simp, Nat.le_refl _⟩
  · cases inserted with
    | false =>
      refine ⟨by simp, ?_⟩
      simp only [Bool.false_eq_true, if_false, remaining]
      omega
    | true =>
      refine ⟨by simp, ?_⟩
      cases rest with
      | nil =>
        simp only [if_true, remaining, List.length_nil]
        omega
      | cons k rest =>
        simp only [if_true, remaining, List.length_append, List.length_cons, List.length_nil]
        omega

theorem Pc.remaining_afterErase {p p' : Pc K} {key : K} (h : p.afterErase key = some p') :
    p' ≠ .idle ∧ p'.remaining + 1 ≤ p.remaining := by
  rcases afterErase_eq_some.mp h with ⟨rfl, rfl⟩ | ⟨todo, iter, rfl, rfl⟩ | ⟨gone, todo, rfl, rfl⟩
  · exact ⟨by simp, Nat.le_refl _⟩
  · exact ⟨by simp, Nat.le_refl _⟩
  · exact ⟨by simp, Nat.le_refl _⟩

/-- Inside a call there is an insert to make, whatever it reports, or an erase, or the return. -/
theorem Pc.next_of_ne_idle {p : Pc K} (hp : p ≠ .idle) :
    (∃ key, ∀ inserted, (p.afterInsert key inserted).isSome = true) ∨
    (∃ key, (p.afterErase key).isSome = true) ∨ p.result.isSome = true := by
  cases p with
  | idle => exact absurd rfl hp
  | trying key => exact .inl ⟨key, fun inserted ↦ by simp [afterInsert]⟩
  | unlocking key => exact .inr (.inl ⟨key, by simp [afterErase]⟩)
  | tried | unlocked => exact .inr (.inr rfl)
  | locking taken iter =>
    cases iter with
    | nil => exact .inr (.inr rfl)
    | cons key rest => exact .inl ⟨key, fun inserted ↦ by simp [afterInsert]⟩
  | rollingBack todo iter =>
    cases todo with
    | nil => exact .inr (.inr rfl)
    | cons key todo => exact .inr (.inl ⟨key, by simp [afterErase]⟩)
  | unlockingBatch gone todo =>
    cases todo with
    | nil => exact .inr (.inr rfl)
    | cons key todo => exact .inr (.inl ⟨key, by simp [afterErase]⟩)

end Next

/-! ## All runs -/

namespace Clients

variable [DecidableEq ι] [DecidableEq K] {s₀ s s' : Clients ι K} {l : Label ι K}
  {tr : List (Label ι K)} {c : ι}

/-- A step, other than its return, leaves a client inside its call; it is one of those that remain
if it is the client's own. -/
theorem Rule.remaining (h : Rule s l s') (hpc : s.pc c ≠ .idle) (hret : ∀ r, l ≠ .ret c r) :
    s'.pc c ≠ .idle ∧
      (s'.pc c).remaining + (if l.client = c then 1 else 0) ≤ (s.pc c).remaining := by
  by_cases hc : l.client = c
  · rw [if_pos hc]
    cases h with
    | call hidle => exact absurd (hc ▸ hidle) hpc
    | inserted hafter | refused hafter =>
      obtain rfl := hc
      simpa only [Label.client, goto_pc_self] using Pc.remaining_afterInsert hafter
    | erase hafter =>
      obtain rfl := hc
      simpa only [Label.client, goto_pc_self] using Pc.remaining_afterErase hafter
    | ret =>
      obtain rfl := hc
      exact absurd rfl (hret _)
  · rw [if_neg hc, (h.other (Ne.symm hc)).1]
    exact ⟨hpc, Nat.le_refl _⟩

/-- Inside a call a client has a step to take. -/
theorem exists_step (hpc : s.pc c ≠ .idle) :
    ∃ l, l.client = c ∧ (∀ f, l ≠ .call c f) ∧ (step s l).isSome = true := by
  rcases Pc.next_of_ne_idle hpc with ⟨key, hnext⟩ | ⟨key, hnext⟩ | hnext
  · refine ⟨.insert c key (s.core.insert key).2, rfl, by simp, ?_⟩
    rw [step, if_pos rfl, Option.isSome_map]
    exact hnext _
  · refine ⟨.erase c key, rfl, by simp, ?_⟩
    rw [step, Option.isSome_map]
    exact hnext
  · obtain ⟨⟨r, keys⟩, hresult⟩ := Option.isSome_iff_exists.mp hnext
    refine ⟨.ret c r, rfl, by simp, ?_⟩
    rw [step, hresult]
    simp

/-- **No call waits.**  From the call on, and until it returns, the client takes fewer steps than
the call has, and there is always one for it to take: whatever the other clients do, `try_lock` and
`unlock` return after one insert or erase, `unlockBatch` after one erase a key, and `lockBatch`,
unless it has no keys, after fewer inserts and erases than twice their number. -/
theorem wait_free {f : Call K} (h : run step s₀ (.call c f :: tr) = some s)
    (hret : ∀ r, Label.ret c r ∉ tr) :
    tr.countP (·.client = c) < f.steps ∧
      ∃ l, l.client = c ∧ (∀ f', l ≠ .call c f') ∧ (step s l).isSome = true := by
  obtain ⟨s₁, hcall, hrun⟩ := run_cons_eq_some.mp h
  have hstart : s₁.pc c = f.start := by
    cases rule_of_step hcall with
    | call => exact goto_pc_self ..
  have hne : s₁.pc c ≠ .idle := by
    rw [hstart]
    cases f <;> simp [Call.start]
  have hstep : ∀ (s : Clients ι K) l s', s.pc c ≠ .idle → (∀ r, l ≠ .ret c r) →
      step s l = some s' → s'.pc c ≠ .idle ∧
        (s'.pc c).remaining + (if decide (l.client = c) then 1 else 0) ≤ (s.pc c).remaining := by
    intro s l s' hpc hl hs
    simpa only [decide_eq_true_eq] using (rule_of_step hs).remaining hpc hl
  have hnoret : ∀ l ∈ tr, ∀ r, l ≠ .ret c r := by
    rintro l hl r rfl
    exact hret r hl
  obtain ⟨hpc, hle⟩ := rank_add_countP_le (P := fun s ↦ s.pc c ≠ .idle) hne hstep
    hnoret hrun
  have hpos := Pc.remaining_pos hpc
  rw [hstart, Call.remaining_start] at hle
  exact ⟨by omega, exists_step hpc⟩

/-- Another client locks the last key first, so that all of the way is gone. -/
def outpaced : List (Label ℕ ℕ) :=
  [.insert 0 1 true, .call 1 (.tryLock 3), .insert 1 3 true, .insert 0 2 true, .insert 0 3 false,
    .ret 1 (.bool true), .erase 0 1, .call 1 (.lockBatch [1, 2]), .insert 1 1 true, .erase 0 2]

theorem wait_free_outpaced : ∃ s, run step init (.call 0 (.lockBatch [1, 2, 3]) :: outpaced)
      = some s ∧ outpaced.countP (·.client = 0) < (Call.lockBatch [1, 2, 3]).steps ∧
    ∃ l, l.client = 0 ∧ (∀ f, l ≠ .call 0 f) ∧ (step s l).isSome = true := by
  have hrun : ((run step init (.call 0 (.lockBatch [1, 2, 3]) :: outpaced)).any fun _ ↦ true)
      = true := by decide
  obtain ⟨s, hs, -⟩ := exists_run_of_any hrun
  have hret : ∀ r, Label.ret 0 r ∉ outpaced := by simp [outpaced]
  obtain ⟨hlt, hnext⟩ := wait_free hs hret
  exact ⟨s, hs, hlt, hnext⟩

end Clients

end MemLock
