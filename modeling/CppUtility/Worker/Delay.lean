import CppUtility.Worker.Outcome

/-!
# Delayed tasks

The event of a `Timer` is persistent, so that libevent puts it back before every callback.  For a
delayed task, the callback ends with `purgeTimerInternal` on its own id; this takes the `Timer` out
of `m_activeTimers`, destroys it, and frees the event, whether it had been put back or not.  So the
callback of a delayed task runs once, and after it the `Timer` is nowhere (`delayed_fires_once`).

The id that the callback purges is that of its `Timer`, and the purge takes out whatever the map has
under this id.  That it is the `Timer` itself, and not another one with the same id, is the last
clause of `Wired`: the `Timer` whose callback runs is still active.

* `OneShot` says where such a `Timer` is on its way, with the number of times its callback has
  begun: before its callback, in it, or gone.
* Its step lemma `OneShot.step` needs that nothing interrupts a callback on the loop thread
  (`Rule.calling_stays`) and that a `Timer` that is nowhere does not fire (`not_fire_of_not_holds`).
* A run is cut at the step that allocates the `Timer`.  Nothing before that step is about its
  address (`not_mem_of_unallocated`), and the rest is followed by `OneShot` (`oneShot_of_run`).

The promise of the task is completed by the callback, and so once at most; this part is about
`Tasks` of `CppUtility.Worker.Outcome`, which has the promises.
-/

set_option autoImplicit false

namespace GeneralWorker

open Transition

variable {τ : Type*}

/-! ## The callback of one timer -/

/-- The step is the beginning of the callback of the `Timer` at `p`. -/
def Label.firesTimer (p : Ptr) : Label τ → Bool
  | .fire _ q => q = p
  | _ => false

/-- The callback of a one-shot `Timer` ends, and the `Timer` is in none of the three places. -/
theorem Rule.endFire_gone {s s' : State τ} {p : Ptr} (h : Rule s (.endFire p) s')
    (ho : TimersOwned s.toWorker s.loop.timerBatch) (hw : Wired s.toWorker s.loop)
    (hzero : ∀ t, s.timers p = some t → t.m_intervalMSec = 0) : ¬s'.Holds p := by
  cases h with
  | @endFire _ w hloop hidle hafter =>
    obtain ⟨t, ht, hact⟩ := hw.calling p hloop
    rw [Worker.afterCallback, ht, Option.map_some, if_pos (hzero t ht), Option.some_inj] at hafter
    subst hafter
    rintro (hin | hin | ⟨id, hact'⟩)
    · have hin' := (purgeTimerInternal_same s.toWorker t.m_id).timers ▸ hin
      exact ho.apart _ p hact (List.mem_append_right _ hin')
    · cases hin
    · obtain ⟨hne, hold⟩ := purgeTimerInternal_active.mp hact'
      exact hne (ho.active_inj hold hact)

/-- Nothing but its end interrupts a callback on the loop thread. -/
theorem Rule.calling_stays {s s' : State τ} {l : Label τ} {p : Ptr} (h : Rule s l s')
    (hloop : s.loop = .calling p) : l = .endFire p ∨ s'.loop = .calling p ∧
      l.firesTimer p = false := by
  cases h with
  | endFire hloop' =>
    rw [hloop] at hloop'
    obtain rfl := LoopPC.calling.inj hloop'
    exact .inl rfl
  | call | push | unlock | loadStopped | storeStopped | notify | ret => exact .inr ⟨hloop, rfl⟩
  | wake hloop' | read hloop' | testStopped hloop' | swap hloop' | release hloop' | runTask hloop'
  | endTask hloop' | register hloop' | purge hloop' | endBlock hloop' | fire hloop'
  | exit hloop' =>
    rw [hloop] at hloop'
    cases hloop'

/-- The `Timer` whose callback begins or ends is alive. -/
theorem Rule.lt_nextPtr {s s' : State τ} {l : Label τ} {p : Ptr} (h : Rule s l s')
    (ho : TimersOwned s.toWorker s.loop.timerBatch)
    (hl : l.firesTimer p = true ∨ l = .endFire p) : p < s.nextPtr := by
  cases h with
  | fire hloop hfire =>
    have hq := of_decide_eq_true (hl.resolve_right (by simp))
    obtain ⟨e, -, ⟨-, -, hlive⟩, -⟩ := fireTimer_eq_some.mp hfire
    obtain ⟨t, ht⟩ := Option.isSome_iff_exists.mp hlive
    exact hq ▸ ho.lt_nextPtr ht
  | endFire hloop hidle hafter =>
    obtain rfl := Label.endFire.inj (hl.resolve_left (by simp [Label.firesTimer]))
    obtain ⟨t, ht, -⟩ := Option.map_eq_some_iff.mp hafter
    exact ho.lt_nextPtr ht
  | _ => simp [Label.firesTimer] at hl

/-! ## The way of a delayed task

`OneShot` goes through its cases in one direction, and what takes it further are the beginning and
the end of the callback of this `Timer`.  A `Timer` that is purged before it fires stays in the
first case. -/

/-- The one-shot `Timer` at `p`, after the steps `x` since it was allocated: it has not fired yet,
or its callback is running, or it has fired and is gone. -/
def OneShot (p : Ptr) (x : List (Label τ)) (s : State τ) : Prop :=
  .endFire p ∉ x ∧ (x.countP (Label.firesTimer p) = 0 ∧ s.loop ≠ .calling p ∨
    x.countP (Label.firesTimer p) = 1 ∧ s.loop = .calling p) ∨
  x.countP (Label.firesTimer p) = 1 ∧ ¬s.Holds p

theorem OneShot.step [DecidableEq τ] {s s' : State τ} {l : Label τ} {p : Ptr} {x : List (Label τ)}
    (h : OneShot p x s) (hs : GeneralWorker.step s l = some s')
    (ho : TimersOwned s.toWorker s.loop.timerBatch) (hw : Wired s.toWorker s.loop)
    (hlt : p < s.nextPtr) (hzero : ∀ t, s.timers p = some t → t.m_intervalMSec = 0) :
    OneShot p (x ++ [l]) s' := by
  have hrule := rule_of_step hs
  have hcount : (x ++ [l]).countP (Label.firesTimer p)
      = x.countP (Label.firesTimer p) + if l.firesTimer p then 1 else 0 := by
    rw [List.countP_append, List.countP_singleton]
  have hend : ∀ {l}, l ≠ .endFire p → .endFire p ∉ x → .endFire p ∉ x ++ [l] := by
    intro l hne hnot
    simpa using ⟨hnot, fun he ↦ hne he.symm⟩
  rcases h with ⟨hnot, ⟨hzero', hloop⟩ | ⟨hone, hloop⟩⟩ | ⟨hone, hgone⟩
  · -- it has not fired
    have hne : l ≠ .endFire p := by
      rintro rfl
      cases hrule with
      | endFire hloop' => exact hloop hloop'
    left
    refine ⟨hend hne hnot, ?_⟩
    cases hfires : l.firesTimer p with
    | true =>
      cases hrule with
      | fire hloop' hfire =>
        obtain rfl := of_decide_eq_true hfires
        exact .inr ⟨by rw [hcount, hzero', if_pos hfires], rfl⟩
      | _ => cases hfires
    | false =>
      refine .inl ⟨by rw [hcount, hzero', hfires]; rfl, fun hloop' ↦ ?_⟩
      rcases hrule.calling_back hloop' with hold | ⟨ev, rfl⟩
      · exact hloop hold
      · simp [Label.firesTimer] at hfires
  · -- its callback is running
    rcases hrule.calling_stays hloop with rfl | ⟨hloop', hfires⟩
    · exact .inr ⟨by rw [hcount, hone]; rfl, hrule.endFire_gone ho hw hzero⟩
    · have hne : l ≠ .endFire p := by
        rintro rfl
        cases hrule with
        | endFire => cases hloop'
      exact .inl ⟨hend hne hnot, .inr ⟨by rw [hcount, hone, hfires]; rfl, hloop'⟩⟩
  · -- it is gone
    have hfires : l.firesTimer p = false := by
      cases l with
      | fire ev q =>
        refine decide_eq_false ?_
        rintro rfl
        rw [not_fire_of_not_holds ho hgone ev] at hs
        cases hs
      | _ => rfl
    exact .inr ⟨by rw [hcount, hone, hfires]; rfl, fun hin ↦ hgone (hrule.holds_back ho hlt hin)⟩

/-! ## All runs -/

variable [DecidableEq τ]

/-- Before its allocation, no callback of a `Timer` begins or ends. -/
theorem not_mem_of_unallocated {tr : List (Label τ)} {s : State τ} {l : Label τ}
    (h : run step started tr = some s)
    (hl : l.firesTimer s.nextPtr = true ∨ l = .endFire s.nextPtr) : l ∉ tr := by
  intro hin
  obtain ⟨u, v, rfl⟩ := List.append_of_mem hin
  obtain ⟨s₀, h₀, hrest⟩ := run_append.mp h
  obtain ⟨s₁, hs, -⟩ := run_cons_eq_some.mp hrest
  have hle : s₀.nextPtr ≤ s.nextPtr := (evolves_of_run h₀ hrest).next
  exact absurd ((rule_of_step hs).lt_nextPtr (timersOwned h₀) hl) (Nat.not_lt.mpr hle)

/-- **The `Timer` of a call of `addDelayTask`** at any later time. -/
theorem oneShot_of_run {u x : List (Label τ)} {s₀ s : State τ} {th : Thread} {ms : UInt64} {t : τ}
    (h₀ : run step started u = some s₀)
    (h : run step s₀ (.push th (.addDelayTask ms t) :: x) = some s) :
    OneShot s₀.nextPtr x s := by
  obtain ⟨s₁, hpush, hx⟩ := run_cons_eq_some.mp h
  have h₁ := run_concat.mpr ⟨s₀, h₀, hpush⟩
  obtain ⟨hw₁, hloop₁⟩ : s₁.toWorker = s₀.toWorker.addTimerTask ms 0 t ∧ s₁.loop = s₀.loop := by
    cases rule_of_step hpush with
    | push hcalled hfree hsection =>
      simp only [pushSection, Option.some_inj, Prod.mk.injEq] at hsection
      exact ⟨hsection.1.symm, rfl⟩
  have hlt : ∀ {y s'}, run step s₁ y = some s' → s₀.nextPtr < s'.nextPtr := by
    intro y s' hy
    have hnext : s₁.nextPtr = s₀.nextPtr + 1 := congrArg Worker.nextPtr hw₁
    exact Nat.lt_of_lt_of_le (hnext ▸ Nat.lt_succ_self _) (evolves_of_run h₁ hy).next
  have hzero : ∀ {y s'}, run step s₁ y = some s' →
      ∀ t', s'.timers s₀.nextPtr = some t' → t'.m_intervalMSec = 0 := by
    intro y s' hy t' ht'
    obtain ⟨t₁, ht₁, he⟩ := (evolves_of_run h₁ hy).timers _ t' (hlt (run_nil s₁)) ht'
    rw [hw₁] at ht₁
    rcases addTimerTask_timers ht₁ with ⟨hne, -⟩ | ⟨-, rfl⟩
    · exact absurd rfl hne
    · rw [he]
  have hfirst : OneShot s₀.nextPtr [] s₁ := by
    refine .inl ⟨List.not_mem_nil, .inl ⟨rfl, fun hcalling ↦ ?_⟩⟩
    obtain ⟨t', ht', -⟩ := (wired h₀).calling _ (hloop₁ ▸ hcalling)
    exact Nat.lt_irrefl _ ((timersOwned h₀).lt_nextPtr ht')
  refine run_induction (P := fun x s ↦ OneShot s₀.nextPtr x s) hfirst ?_ hx
  intro y s l s' hy ih hs
  have hr := run_append.mpr ⟨s₁, h₁, hy⟩
  exact ih.step hs (timersOwned hr) (wired hr) (hlt hy) (hzero hy)

/-- The callback of a delayed task begins at most once, and when it is over, the `Timer` is in none
of the three places and no event has it as its argument. -/
theorem oneShot_fires {u x : List (Label τ)} {s₀ s : State τ} {th : Thread} {ms : UInt64} {t : τ}
    (h₀ : run step started u = some s₀)
    (h : run step started (u ++ .push th (.addDelayTask ms t) :: x) = some s) :
    (u ++ .push th (.addDelayTask ms t) :: x).countP (Label.firesTimer s₀.nextPtr) ≤ 1 ∧
      (.endFire s₀.nextPtr ∈ u ++ .push th (.addDelayTask ms t) :: x →
        ¬s.Holds s₀.nextPtr ∧ ∀ ev e, s.events ev = some e → e.cb ≠ .timer s₀.nextPtr) := by
  obtain ⟨s₀', h₀', hrest⟩ := run_append.mp h
  obtain rfl : s₀ = s₀' := Option.some_inj.mp (h₀.symm.trans h₀')
  have hshot := oneShot_of_run h₀ hrest
  have hbefore : u.countP (Label.firesTimer s₀.nextPtr) = 0 :=
    List.countP_eq_zero.mpr fun l hl hfires ↦ not_mem_of_unallocated h₀ (.inl hfires) hl
  have hcount : (u ++ .push th (.addDelayTask ms t) :: x).countP (Label.firesTimer s₀.nextPtr)
      = x.countP (Label.firesTimer s₀.nextPtr) := by
    simp [List.countP_append, hbefore, Label.firesTimer]
  refine ⟨?_, fun hend ↦ ?_⟩
  · rw [hcount]
    rcases hshot with ⟨-, ⟨hnone, -⟩ | ⟨hone, -⟩⟩ | ⟨hone, -⟩ <;> omega
  · have hx : .endFire s₀.nextPtr ∈ x := by
      rcases List.mem_append.mp hend with hin | hin
      · exact absurd hin (not_mem_of_unallocated h₀ (.inr rfl))
      · exact (List.mem_cons.mp hin).resolve_left (by simp)
    have hgone : ¬s.Holds s₀.nextPtr := (hshot.resolve_left fun hl ↦ hl.1 hx).2
    refine ⟨hgone, fun ev e he hcb ↦ ?_⟩
    obtain ⟨t', -, -, hact⟩ := (timersOwned h).event ev e _ he hcb
    exact hgone (.inr (.inr ⟨_, hact⟩))

variable {α ρ ε δ κ : Type*} [DecidableEq α]

/-- **A delayed task fires at most once.**  Of the `Timer` that a call of `addDelayTask` allocates,
in any run: the callback begins at most once, the promise is completed at most once, and from the
end of the callback on the `Timer` is not pending, not in `m_activeTimers`, and libevent has no
event for it. -/
theorem delayed_fires_once {u x : List (Act α ρ ε δ κ)} {s₀ s : Tasks α ρ ε δ κ} {th : Thread}
    {ms : UInt64} {c : Closure α} (h₀ : run Tasks.step Tasks.init u = some s₀)
    (h : run Tasks.step Tasks.init (u ++ .work (.push th (.addDelayTask ms c)) :: x) = some s) :
    ((u ++ .work (.push th (.addDelayTask ms c)) :: x).flatMap Act.labels).countP
        (Label.firesTimer s₀.worker.nextPtr) ≤ 1 ∧
      (∀ q, c.promise = some q → (s.completed.map Prod.fst).count q ≤ 1) ∧
      ((∃ c' o, .endFire s₀.worker.nextPtr c' o ∈ u ++ .work (.push th (.addDelayTask ms c)) :: x) →
        ¬s.worker.Holds s₀.worker.nextPtr ∧
          ∀ ev e, s.worker.events ev = some e → e.cb ≠ .timer s₀.worker.nextPtr) := by
  have hlabels : (u ++ .work (.push th (.addDelayTask ms c)) :: x).flatMap Act.labels
      = u.flatMap Act.labels ++ .push th (.addDelayTask ms c) :: x.flatMap Act.labels := by
    rw [List.flatMap_append, List.flatMap_cons]
    rfl
  have hrun := worker_run h
  rw [hlabels] at hrun ⊢
  obtain ⟨hcount, hgone⟩ := oneShot_fires (worker_run h₀) hrun
  refine ⟨hcount, fun q _ ↦ ?_, ?_⟩
  · exact List.nodup_iff_count_le_one.mp (List.nodup_append.mp (promised h).nodup).1 q
  · rintro ⟨c', o, hin⟩
    refine hgone (hlabels ▸ List.mem_flatMap.mpr ⟨_, hin, ?_⟩)
    exact List.mem_singleton_self _

/-- The call returns to its caller later; the next round registers the `Timer`, and it fires. -/
def registeredAndFired : List (Label (Closure ℕ)) :=
  [.unlock (.client 0), .notify (.client 0) true] ++ roundStart false ++
    [.endBlock, .swap .timers, .release, .register 3, .endBlock, .swap .purges, .release,
      .endBlock, .fire 4 3]

/-- A task is delayed by 50 ms and runs. -/
def delayedRun : List (Act ℕ ℕ ℕ ℕ ℕ) :=
  [.work (.call (.client 0) (.addDelayTask 50 (.setWith 0 7)))] ++
    .work (.push (.client 0) (.addDelayTask 50 (.setWith 0 7))) ::
      (registeredAndFired.map .work ++ [.endFire 3 (.setWith 0 7) (.value 1)])

theorem delayed_fires_once_delayedRun : ∃ s, run Tasks.step Tasks.init delayedRun = some s ∧
    s.completed = [(0, .value 1)] ∧ ¬s.worker.Holds 3 := by
  have hrun : ((run Tasks.step Tasks.init delayedRun).any fun s ↦
      decide (s.completed = [(0, .value 1)])) = true := by decide
  obtain ⟨s, hs, hp⟩ := exists_run_of_any hrun
  have hcall : ((run Tasks.step Tasks.init
      [(.work (.call (.client 0) (.addDelayTask 50 (.setWith 0 7))) : Act ℕ ℕ ℕ ℕ ℕ)]).any
        fun s ↦ decide (s.worker.nextPtr = 3)) = true := by decide
  obtain ⟨s₀, h₀, hp₀⟩ := exists_run_of_any hcall
  have hthree : s₀.worker.nextPtr = 3 := of_decide_eq_true hp₀
  refine ⟨s, hs, of_decide_eq_true hp, ?_⟩
  have hgone := (delayed_fires_once h₀ hs).2.2
  rw [hthree] at hgone
  exact (hgone ⟨_, _, List.mem_append_right _ (List.mem_cons_of_mem _
    (List.mem_append_right _ (List.mem_singleton_self _)))⟩).1

end GeneralWorker
