import CppUtility.Ownership
import CppUtility.Worker.Delay

/-!
# What becomes of the promises

A promise is owned by the closure that is to complete it, and the closure by a queue of the worker,
by the batch the loop thread is at, or by a `Timer`.  When a `Timer` is destroyed before its
callback has run, because it was purged or because its id was given out again, its promise is
destroyed with it, and the future gets a `BrokenPromise`.

So a promise is always in one place (`promises_accounted`): it has been completed, or it waits in
the line of general tasks or in one `Timer`, or it has been broken, which happens to delayed tasks
only.  That each is in one place is the predicate `Owns` of `CppUtility.Ownership`, with the places
as owners: a push gains a promise, the end of a closure passes one on to the completed ones, and the
destruction of a `Timer` passes one on to the broken ones.

* **Destruction.**  `State.destroys` is the `Timer` that a step destroys: the one that a
  registration replaces, the one that a purge finds, or the one whose one-shot callback is over.
  `Rule.callback` says that a step destroys no other, and changes no callback.
* **Shelter.**  For a promise to be broken its `Timer` has to be destroyed, and so every `Timer`
  that is alive has to be in one of the containers of the worker (`Rule.sheltered`); otherwise its
  destruction would never come, and the future would wait for ever.
* **At the end.**  When the loop thread has exited there is no batch any more, and what is open is
  in `m_pendingTasks` or in a `Timer` of the two containers that the destructor goes through.
-/

set_option autoImplicit false

namespace GeneralWorker

open Transition Ownership

section Timers

variable {τ : Type*}

/-! ## What a step does to the timers -/

/-- The `Timer` that a step destroys. -/
def State.destroys (s : State τ) : Label τ → Option Ptr
  | .register p => (s.timers p).bind fun t ↦ s.m_activeTimers t.m_id
  | .purge id => s.m_activeTimers id
  | .endFire p => (s.timers p).bind fun t ↦
    if t.m_intervalMSec = 0 then s.m_activeTimers t.m_id else none
  | _ => none

/-- The callback of the `Timer` at an address. -/
def Worker.callback (w : Worker τ) (p : Ptr) : Option τ := (w.timers p).map Timer.m_callback

theorem callback_purgeTimerInternal (w : Worker τ) (id : UInt64) (p : Ptr) :
    (w.purgeTimerInternal id).callback p
      = if w.m_activeTimers id = some p then none else w.callback p := by
  by_cases hp : w.m_activeTimers id = some p
  · rw [if_pos hp, Worker.callback, Option.map_eq_none_iff, Option.eq_none_iff_forall_ne_some]
    exact fun t ht ↦ (purgeTimerInternal_timers.mp ht).1 hp
  · have htimers : (w.purgeTimerInternal id).timers p = w.timers p := by
      ext t
      exact purgeTimerInternal_timers.trans (and_iff_right hp)
    rw [if_neg hp, Worker.callback, htimers]
    rfl

theorem callback_addTimerTask (w : Worker τ) (delay interval : UInt64) (f : τ) (p : Ptr) :
    (w.addTimerTask delay interval f).callback p
      = if p = w.nextPtr then some f else w.callback p := by
  by_cases hp : p = w.nextPtr
  · simp [Worker.callback, Worker.addTimerTask, hp]
  · simp [Worker.callback, Worker.addTimerTask, hp]

/-- A `Timer` keeps its callback when it is registered. -/
theorem callback_install {w : Worker τ} {p : Ptr} {t : Timer τ} (ht : w.timers p = some t)
    (q : Ptr) : (w.install p t).callback q = w.callback q := by
  by_cases hq : q = p
  · simp [Worker.callback, Worker.install, hq, ht]
  · simp [Worker.callback, Worker.install, hq]

/-- **One step and the timers.**  A step that allocates none destroys `State.destroys`, and leaves
the callbacks of the others alone. -/
theorem Rule.callback {s s' : State τ} {l : Label τ} (h : Rule s l s')
    (hi : TimersOwned s.toWorker s.loop.timerBatch) (hl : l.addsTimer = false) (p : Ptr) :
    s'.toWorker.callback p = if s.destroys l = some p then none else s.toWorker.callback p := by
  cases h with
  | @push th c w r hcalled hfree hpush =>
    cases c <;> simp only [pushSection, Option.some_inj, Prod.mk.injEq, reduceCtorEq] at hpush <;>
      obtain ⟨rfl, -⟩ := hpush
    · rfl
    · cases hl
    · cases hl
    · rfl
  | notify howes hwrite =>
    rw [notify_same hwrite]
    rfl
  | @swap q hloop hfree => cases q <;> rfl
  | @register q rest w hloop hreg =>
    rw [hloop] at hi
    obtain ⟨t, hq⟩ := hi.alive q (by simp [LoopPC.timerBatch])
    have hact : s.m_activeTimers t.m_id ≠ some q :=
      fun hact ↦ hi.apart _ q hact (by simp [LoopPC.timerBatch])
    rw [hi.registerTimer_eq hq, Option.some_inj] at hreg
    subst hreg
    have hdestroys : s.destroys (.register q) = s.m_activeTimers t.m_id := by
      rw [State.destroys, hq]
      rfl
    rw [hdestroys]
    exact (callback_install (purgeTimerInternal_timers.mpr ⟨hact, hq⟩) p).trans
      (callback_purgeTimerInternal ..)
  | purge hloop => exact callback_purgeTimerInternal ..
  | fire hloop hfire =>
    obtain ⟨e, -, -, rfl⟩ := fireTimer_eq_some.mp hfire
    rfl
  | @endFire q w hloop hidle hafter =>
    obtain ⟨t, ht, rfl⟩ := Option.map_eq_some_iff.mp hafter
    rw [State.destroys, ht, Option.bind_some]
    dsimp only
    split
    · exact callback_purgeTimerInternal ..
    · rfl
  | call | unlock | loadStopped | storeStopped | ret | wake | read | testStopped | release | runTask
  | endTask | endBlock | exit => rfl

/-! ## No `Timer` is leaked -/

/-- Every `Timer` that is alive is in a container of the worker. -/
structure Sheltered (s : State τ) : Prop where
  holds : ∀ p t, s.timers p = some t → s.Holds p

theorem Sheltered.congr {s s' : State τ} (h : Sheltered s) (ht : s'.timers = s.timers)
    (hp : s'.m_pendingTimers = s.m_pendingTimers) (ha : s'.m_activeTimers = s.m_activeTimers)
    (hb : s'.loop.timerBatch = s.loop.timerBatch) : Sheltered s' := by
  refine ⟨fun p t hpt ↦ ?_⟩
  rw [State.Holds, hp, ha, hb]
  exact h.holds p t (ht ▸ hpt)

/-- What was purged is gone, and everything else is where it was. -/
theorem Sheltered.purge {s : State τ} {pc : LoopPC τ} (h : Sheltered s) (id : UInt64)
    (hb : pc.timerBatch = s.loop.timerBatch) :
    Sheltered { s with toWorker := s.toWorker.purgeTimerInternal id, loop := pc } := by
  refine ⟨fun p t hp ↦ ?_⟩
  obtain ⟨hne, ht⟩ := purgeTimerInternal_timers.mp hp
  rcases h.holds p t ht with hin | hin | ⟨id', hact⟩
  · exact .inl ((purgeTimerInternal_same s.toWorker id).timers ▸ hin)
  · exact .inr (.inl (hb ▸ hin))
  · refine .inr (.inr ⟨id', purgeTimerInternal_active.mpr ⟨?_, hact⟩⟩)
    rintro rfl
    exact hne hact

theorem Sheltered.addTimerTask {s : State τ} (h : Sheltered s) (delay interval : UInt64) (f : τ)
    {w : State τ} (hw : w.toWorker = s.toWorker.addTimerTask delay interval f)
    (hb : w.loop = s.loop) : Sheltered w := by
  refine ⟨fun p t hp ↦ ?_⟩
  rw [State.Holds, hw, hb]
  rw [hw] at hp
  rcases addTimerTask_timers hp with ⟨-, ht⟩ | ⟨rfl, -⟩
  · exact (h.holds p t ht).imp_left (List.mem_append_left _)
  · exact .inl (List.mem_append_right _ (List.mem_singleton_self _))

theorem Rule.sheltered {s s' : State τ} {l : Label τ} (h : Rule s l s')
    (ho : TimersOwned s.toWorker s.loop.timerBatch) (hi : Sheltered s) : Sheltered s' := by
  cases h with
  | @push th c w r hcalled hfree hpush =>
    cases c <;> simp only [pushSection, Option.some_inj, Prod.mk.injEq, reduceCtorEq] at hpush <;>
      obtain ⟨rfl, -⟩ := hpush
    · exact hi.congr rfl rfl rfl rfl
    · exact hi.addTimerTask _ _ _ rfl rfl
    · exact hi.addTimerTask _ _ _ rfl rfl
    · exact hi.congr rfl rfl rfl rfl
  | notify howes hwrite =>
    rw [notify_same hwrite]
    exact hi.congr rfl rfl rfl rfl
  | @swap q hloop hfree =>
    have hbatch : s.loop.timerBatch = [] := by rw [hloop]; rfl
    cases q with
    | tasks => exact hi.congr rfl rfl rfl hbatch.symm
    | timers =>
      refine ⟨fun p t hp ↦ ?_⟩
      rcases hi.holds p t hp with hin | hin | hact
      · exact .inr (.inl hin)
      · rw [hbatch] at hin
        cases hin
      · exact .inr (.inr hact)
    | purges => exact hi.congr rfl rfl rfl hbatch.symm
  | @release b hloop => exact hi.congr rfl rfl rfl (by rw [hloop]; cases b <;> rfl)
  | @register q rest w hloop hreg =>
    rw [hloop] at ho
    obtain ⟨t, hq⟩ := ho.alive q (by simp [LoopPC.timerBatch])
    rw [ho.registerTimer_eq hq, Option.some_inj] at hreg
    subst hreg
    refine ⟨fun p u hp ↦ ?_⟩
    by_cases hpq : p = q
    · exact .inr (.inr ⟨t.m_id, hpq ▸ Function.update_self ..⟩)
    · have hp' := (Function.update_of_ne hpq _ _).symm.trans hp
      obtain hin | hin | ⟨id, hact⟩ := (hi.purge t.m_id rfl).holds p u hp'
      · exact .inl hin
      · refine .inr (.inl ?_)
        rw [hloop] at hin
        exact (List.mem_cons.mp hin).resolve_left hpq
      · have hid : id ≠ t.m_id := (purgeTimerInternal_active.mp hact).1
        exact .inr (.inr ⟨id, (Function.update_of_ne hid _ _).trans hact⟩)
  | purge hloop => exact hi.purge _ (by rw [hloop]; rfl)
  | endBlock hloop hnext =>
    obtain ⟨h1, h2⟩ := Batch.next_timerBatch hnext
    exact hi.congr rfl rfl rfl (by rw [hloop, h1, h2])
  | fire hloop hfire =>
    obtain ⟨e, -, -, rfl⟩ := fireTimer_eq_some.mp hfire
    exact hi.congr rfl rfl rfl (by rw [hloop]; rfl)
  | @endFire q w hloop hidle hafter =>
    obtain ⟨t, ht, rfl⟩ := Option.map_eq_some_iff.mp hafter
    have hbatch : (LoopPC.dispatch : LoopPC τ).timerBatch = s.loop.timerBatch := by rw [hloop]; rfl
    split
    · exact hi.purge _ hbatch
    · exact hi.congr rfl rfl rfl hbatch
  | call | unlock | loadStopped | storeStopped | ret => exact hi.congr rfl rfl rfl rfl
  | wake hloop | read hloop | testStopped hloop | runTask hloop | endTask hloop | exit hloop =>
    exact hi.congr rfl rfl rfl (by rw [hloop]; rfl)

/-- **Every `Timer` that is alive is in a container of the worker**, in every reachable state. -/
theorem sheltered [DecidableEq τ] {tr : List (Label τ)} {s : State τ}
    (h : run step started tr = some s) : Sheltered s := by
  refine run_induction (P := fun _ (s : State τ) ↦ Sheltered s) ⟨fun p t ht ↦ by cases ht⟩ ?_ h
  exact fun _ _ _ _ hr hi hs ↦ (rule_of_step hs).sheltered (timersOwned hr) hi

end Timers

/-! ## Where a promise can be

The places are not containers: the batch and the queue of tasks are one place, since a promise does
not notice the swap, and every `Timer` is one of its own. -/

variable {α ρ ε δ κ : Type*}

/-- The places of a promise. -/
inductive Place
  | completed
  /-- In the batch or the queue of general tasks. -/
  | waiting
  | timer (p : Ptr)
  | broken
  deriving DecidableEq

namespace Tasks

/-- The promise of the `Timer` at an address. -/
def promiseAt (s : Tasks α ρ ε δ κ) (p : Ptr) : List ℕ :=
  ((s.worker.toWorker.callback p).bind Closure.promise).toList

/-- The promises in each place, when some have been broken. -/
def has (s : Tasks α ρ ε δ κ) (broken : List ℕ) : Place → List ℕ
  | .completed => s.completed.map Prod.fst
  | .waiting => (s.worker.loop.remaining ++ s.worker.m_pendingTasks).filterMap Closure.promise
  | .timer p => s.promiseAt p
  | .broken => broken

/-- The promise that a step breaks, by destroying a `Timer` whose callback has not run. -/
def breaks (s : Tasks α ρ ε δ κ) : Act α ρ ε δ κ → List ℕ
  | .work l => (s.worker.destroys l).elim [] s.promiseAt
  | _ => []

variable [DecidableEq α]

/-- The promises that have been broken in a run. -/
def broken (tr : List (Act α ρ ε δ κ)) : List ℕ := emitted step breaks init tr

end Tasks

/-! ## One step -/

/-- Each promise that has been made is in one place. -/
def Accounted (s : Tasks α ρ ε δ κ) (broken : List ℕ) : Prop :=
  Owns s.made.toFinset (s.has broken)

namespace Accounted

variable {s : Tasks α ρ ε δ κ} {broken : List ℕ} {w : State (Closure α)}

/-- A new promise, of a general task. -/
theorem addTask (h : Accounted s broken) {c : Closure α} {q : ℕ}
    (hline : w.loop.remaining ++ w.m_pendingTasks
      = s.worker.loop.remaining ++ s.worker.m_pendingTasks ++ [c])
    (hcallback : w.toWorker.callback = s.worker.toWorker.callback)
    (hq : c.promise = some q) (hnew : q ∉ s.made) :
    Accounted { s with worker := w, made := s.made ++ [q] } broken := by
  rw [Accounted, List.toFinset_append]
  refine h.gain (i := .waiting) (List.nodup_singleton q) ?_ ?_ fun place hplace ↦ ?_
  · rintro k hk hin
    obtain rfl := List.mem_singleton.mp hk
    exact hnew (List.mem_toFinset.mp hin)
  · have hlast : [c].filterMap Closure.promise = [q] := by simp [hq]
    rw [Tasks.has, hline, List.filterMap_append, hlast]
    exact List.perm_append_singleton q _
  · cases place with
    | waiting => exact absurd rfl hplace
    | completed | broken => rfl
    | timer p => simp only [Tasks.has, Tasks.promiseAt, hcallback]

/-- A new `Timer`, with a new promise or none. -/
theorem addTimerTask (h : Accounted s broken) {delay interval : UInt64} {c : Closure α}
    (ho : TimersOwned s.worker.toWorker s.worker.loop.timerBatch)
    (hline : w.loop.remaining ++ w.m_pendingTasks
      = s.worker.loop.remaining ++ s.worker.m_pendingTasks)
    (hw : w.toWorker = s.worker.toWorker.addTimerTask delay interval c)
    (hnew : ∀ q, c.promise = some q → q ∉ s.made) :
    Accounted { s with worker := w, made := s.made ++ c.promise.toList } broken := by
  have hcallback : w.toWorker.callback s.worker.nextPtr = some c := by
    rw [hw, callback_addTimerTask, if_pos rfl]
  have hempty : s.worker.toWorker.callback s.worker.nextPtr = none := by
    rw [Worker.callback, (ho.fresh _ (Nat.le_refl _)).1, Option.map_none]
  rw [Accounted, List.toFinset_append]
  refine h.gain (i := .timer s.worker.nextPtr) ?_ ?_ ?_ fun place hplace ↦ ?_
  · cases c.promise with
    | none => exact List.nodup_nil
    | some q => exact List.nodup_singleton q
  · intro q hq hin
    exact hnew q (Option.mem_toList.mp hq) (List.mem_toFinset.mp hin)
  · simp only [Tasks.has, Tasks.promiseAt, hcallback, hempty, Option.bind_some, Option.bind_none,
      Option.toList_none, List.append_nil]
    exact List.Perm.refl _
  · cases place with
    | waiting => simp only [Tasks.has, hline]
    | completed | broken => rfl
    | timer p =>
      have hp : p ≠ s.worker.nextPtr := fun hp ↦ hplace (congrArg Place.timer hp)
      simp only [Tasks.has, Tasks.promiseAt, hw, callback_addTimerTask, if_neg hp]

/-- No promise is made, and the one of a `Timer` that is destroyed is broken. -/
theorem other (h : Accounted s broken) {gone : Option Ptr}
    (hline : w.loop.remaining ++ w.m_pendingTasks
      = s.worker.loop.remaining ++ s.worker.m_pendingTasks)
    (hcallback : ∀ p, w.toWorker.callback p
      = if gone = some p then none else s.worker.toWorker.callback p) :
    Accounted { s with worker := w } (broken ++ gone.elim [] s.promiseAt) := by
  cases gone with
  | none =>
    refine h.perm fun place ↦ ?_
    cases place with
    | waiting => simp only [Tasks.has, hline, List.Perm.refl]
    | completed => exact List.Perm.refl _
    | broken => simp only [Tasks.has, Option.elim_none, List.append_nil, List.Perm.refl]
    | timer p => simp [Tasks.has, Tasks.promiseAt, hcallback]
  | some p₀ =>
    refine h.merge (i := .timer p₀) (j := .broken) (by simp) ?_ rfl fun place hp hbroken ↦ ?_
    · simp [Tasks.has, Tasks.promiseAt, hcallback]
    · cases place with
      | waiting => simp only [Tasks.has, hline]
      | completed => rfl
      | broken => exact absurd rfl hbroken
      | timer p =>
        have hne : ¬some p₀ = some p := by
          intro he
          exact hp (congrArg Place.timer (Option.some_inj.mp he).symm)
        simp only [Tasks.has, Tasks.promiseAt, hcallback, if_neg hne]

/-- A general task completes its promise. -/
theorem endTask (h : Accounted s broken) {c : Closure α} {o : Outcome ρ ε δ κ}
    {r : Option (ℕ × Outcome ρ ε δ κ)} (hbody : c.body o = .ok r)
    (hline : c :: (w.loop.remaining ++ w.m_pendingTasks)
      = s.worker.loop.remaining ++ s.worker.m_pendingTasks)
    (hcallback : w.toWorker.callback = s.worker.toWorker.callback) :
    Accounted (s.returned w c o r) broken := by
  have hfrom : (s.has broken .waiting).Perm
      (c.promise.toList ++ (s.returned w c o r).has broken .waiting) := by
    simp only [Tasks.has, Tasks.returned, ← hline]
    cases hq : c.promise <;> simp [hq]
  have hinto : ((s.returned w c o r).has broken .completed).Perm
      (c.promise.toList ++ s.has broken .completed) := by
    simp only [Tasks.has, Promised.returned_fst hbody]
    exact List.perm_append_comm
  refine h.give (by simp) hfrom hinto fun place hwaiting hcompleted ↦ ?_
  cases place with
  | waiting => exact absurd rfl hwaiting
  | completed => exact absurd rfl hcompleted
  | broken => rfl
  | timer p => simp only [Tasks.has, Tasks.promiseAt, Tasks.returned, hcallback]

/-- The callback of the `Timer` at `p` completes its promise, if it has one, and then the `Timer` is
destroyed. -/
theorem endFire (h : Accounted s broken) {p : Ptr} {c : Closure α} {o : Outcome ρ ε δ κ}
    {r : Option (ℕ × Outcome ρ ε δ κ)} (hbody : c.body o = .ok r)
    (hline : w.loop.remaining ++ w.m_pendingTasks
      = s.worker.loop.remaining ++ s.worker.m_pendingTasks)
    (hc : s.worker.toWorker.callback p = some c)
    (hgone : c.promise ≠ none → w.toWorker.callback p = none)
    (hcallback : ∀ p', p' ≠ p → w.toWorker.callback p' = s.worker.toWorker.callback p')
    (hkept : c.promise = none → w.toWorker.callback p = none ∨ w.toWorker.callback p = some c) :
    Accounted (s.returned w c o r) broken := by
  have hempty : ((w.toWorker.callback p).bind Closure.promise).toList = [] := by
    by_cases hnone : c.promise = none
    · rcases hkept hnone with hp | hp
      · rw [hp]
        rfl
      · rw [hp, Option.bind_some, hnone]
        rfl
    · rw [hgone hnone]
      rfl
  have hfrom : (s.has broken (.timer p)).Perm
      (c.promise.toList ++ (s.returned w c o r).has broken (.timer p)) := by
    simp only [Tasks.has, Tasks.promiseAt, Tasks.returned, hempty, hc, Option.bind_some,
      List.append_nil, List.Perm.refl]
  have hinto : ((s.returned w c o r).has broken .completed).Perm
      (c.promise.toList ++ s.has broken .completed) := by
    simp only [Tasks.has, Promised.returned_fst hbody]
    exact List.perm_append_comm
  refine h.give (by simp) hfrom hinto fun place htimer hcompleted ↦ ?_
  cases place with
  | waiting => simp only [Tasks.has, Tasks.returned, hline]
  | completed => exact absurd rfl hcompleted
  | broken => rfl
  | timer p' =>
    have hne : p' ≠ p := fun he ↦ htimer (congrArg Place.timer he)
    simp only [Tasks.has, Tasks.promiseAt, Tasks.returned, hcallback p' hne]

/-- A step of the worker other than the end of a closure. -/
theorem work (h : Accounted s broken) {l : Label (Closure α)}
    (ho : TimersOwned s.worker.toWorker s.worker.loop.timerBatch)
    (hmade : l.wellMade s.made = true) (hrule : Rule s.worker l w) :
    Accounted { s with worker := w, made := s.made ++ l.makes.toList }
      (broken ++ s.breaks (.work l)) := by
  have hexecuted : l.executed = [] := by
    unfold Label.executed
    split
    · cases hmade
    · rfl
  have hline := hrule.tasks
  rw [hexecuted, List.nil_append] at hline
  cases hadd : l.addsTimer with
  | true =>
    obtain ⟨th, delay, interval, c, hw, ⟨rfl, -⟩ | ⟨rfl, -⟩⟩ := hrule.adds hadd
    · have hbreaks : s.breaks (.work (.push th (.addDelayTask delay c))) = [] := rfl
      rw [hbreaks, List.append_nil]
      refine h.addTimerTask ho (by simpa [Label.taskPush] using hline) hw fun q hq ↦ ?_
      simpa [Label.wellMade, hq] using hmade
    · have hbreaks : s.breaks (.work (.push th (.addRepeatTask delay c))) = [] := rfl
      have hnone : c.promise = none := Option.isNone_iff_eq_none.mp hmade
      have hstep := h.addTimerTask ho (by simpa [Label.taskPush] using hline) hw
        fun q hq ↦ by cases hnone.symm.trans hq
      rw [hbreaks, List.append_nil]
      rwa [hnone] at hstep
  | false =>
    have hcallback := hrule.callback ho hadd
    by_cases hpush : ∃ th c, l = .push th (.addTask c)
    · obtain ⟨th, c, rfl⟩ := hpush
      have hbreaks : s.breaks (.work (.push th (.addTask c))) = [] := rfl
      obtain ⟨q, hq, hnew⟩ := Option.any_eq_true _ _ |>.mp hmade
      rw [hbreaks, List.append_nil, Label.makes, hq]
      exact h.addTask (by simpa [Label.taskPush] using hline) (funext hcallback) hq
        (of_decide_eq_true hnew)
    · have htaskPush : l.taskPush = [] := by
        unfold Label.taskPush
        split
        · exact absurd ⟨_, _, rfl⟩ hpush
        · rfl
      have hmakes : l.makes = none := by
        unfold Label.makes
        split
        · exact absurd ⟨_, _, rfl⟩ hpush
        · cases hadd
        · rfl
      rw [htaskPush, List.map_nil, List.append_nil] at hline
      rw [hmakes, Option.toList_none, List.append_nil]
      exact h.other hline hcallback

end Accounted

/-- **One step.** -/
theorem TasksRule.accounted [DecidableEq α] {s s' : Tasks α ρ ε δ κ} {a : Act α ρ ε δ κ}
    {broken : List ℕ} (h : TasksRule s a s') (hp : Promised s)
    (ho : TimersOwned s.worker.toWorker s.worker.loop.timerBatch)
    (hw : Wired s.worker.toWorker s.worker.loop) (hi : Accounted s broken) :
    Accounted s' (broken ++ s.breaks a) := by
  cases h with
  | work hmade hstep => exact hi.work ho hmade (rule_of_step hstep)
  | @endTask c o r w hbody hstep =>
    have hrule := rule_of_step hstep
    rw [show s.breaks (.endTask c o) = [] from rfl, List.append_nil]
    refine hi.endTask hbody (by simpa [Label.executed, Label.taskPush] using hrule.tasks) ?_
    cases hrule with
    | endTask hloop hidle => rfl
  | @endFire p c o r w hcurrent hbody hstep =>
    have hrule := rule_of_step hstep
    have hline : w.loop.remaining ++ w.m_pendingTasks
        = s.worker.loop.remaining ++ s.worker.m_pendingTasks := by
      simpa [Label.executed, Label.taskPush] using hrule.tasks
    have hcallback := hrule.callback ho rfl
    rw [show s.breaks (.endFire p c o) = [] from rfl, List.append_nil]
    have hloop : s.worker.loop = .calling p := by
      cases hrule with
      | endFire hloop hidle hafter => exact hloop
    rw [Tasks.current, hloop] at hcurrent
    obtain ⟨t, ht, rfl⟩ := Option.map_eq_some_iff.mp hcurrent
    -- the `Timer` that purges itself is the one whose callback it was
    obtain ⟨u, hu, hact⟩ := hw.calling p hloop
    obtain rfl : t = u := Option.some_inj.mp (ht.symm.trans hu)
    have hdestroys : s.worker.destroys (.endFire p)
        = if t.m_intervalMSec = 0 then some p else none := by
      rw [State.destroys, ht, Option.bind_some, hact]
    have hp' : s.worker.toWorker.callback p = some t.m_callback := by
      rw [Worker.callback, ht, Option.map_some]
    refine hi.endFire hbody hline hp' (fun hsome ↦ ?_) (fun p' hne ↦ ?_) fun _ ↦ ?_
    · obtain ⟨q, hq⟩ := Option.ne_none_iff_exists'.mp hsome
      rw [hcallback, hdestroys, if_pos (hp.timers p t q ht hq).1, if_pos rfl]
    · rw [hcallback, hdestroys, if_neg]
      intro he
      obtain ⟨-, he⟩ := Option.ite_none_right_eq_some.mp he
      exact hne (Option.some_inj.mp he).symm
    · rw [hcallback, hp']
      split
      · exact .inl rfl
      · exact .inr rfl
  | terminate hcurrent hbody =>
    rw [show s.breaks (.terminate _ _) = [] from rfl, List.append_nil]
    exact hi.perm fun place ↦ by cases place <;> exact List.Perm.refl _

/-! ## Whose promises are broken -/

/-- The promise was made by `addDelayTask`. -/
def Delayed (tr : List (Act α ρ ε δ κ)) (q : ℕ) : Prop :=
  ∃ th ms c, .work (.push th (.addDelayTask ms c)) ∈ tr ∧ c.promise = some q

theorem Delayed.concat {tr : List (Act α ρ ε δ κ)} {q : ℕ} (h : Delayed tr q)
    (a : Act α ρ ε δ κ) : Delayed (tr ++ [a]) q := by
  obtain ⟨th, ms, c, hin, hq⟩ := h
  exact ⟨th, ms, c, List.mem_append_left _ hin, hq⟩

/-- A promise in a `Timer` was made by `addDelayTask`. -/
theorem TasksRule.delayed [DecidableEq α] {tr : List (Act α ρ ε δ κ)} {s s' : Tasks α ρ ε δ κ}
    {a : Act α ρ ε δ κ} (h : TasksRule s a s')
    (ho : TimersOwned s.worker.toWorker s.worker.loop.timerBatch)
    (hi : ∀ p, ∀ q ∈ s.promiseAt p, Delayed tr q) (p : Ptr) :
    ∀ q ∈ s'.promiseAt p, Delayed (tr ++ [a]) q := by
  have hold : ∀ {l w}, Rule s.worker l w → l.addsTimer = false →
      ∀ q ∈ ((w.toWorker.callback p).bind Closure.promise).toList, q ∈ s.promiseAt p := by
    intro l w hrule hadd q hq
    rw [hrule.callback ho hadd] at hq
    split at hq
    · cases hq
    · exact hq
  intro q hq
  cases h with
  | @work l w hmade hstep =>
    have hrule := rule_of_step hstep
    cases hadd : l.addsTimer with
    | false => exact (hi p q (hold hrule hadd q hq)).concat _
    | true =>
      obtain ⟨th, delay, interval, c, hw, hl⟩ := hrule.adds hadd
      rw [Tasks.promiseAt, hw, callback_addTimerTask] at hq
      split at hq
      · rw [Option.bind_some, Option.mem_toList] at hq
        rcases hl with ⟨rfl, -⟩ | ⟨rfl, -⟩
        · exact ⟨th, delay, c, List.mem_append_right _ (List.mem_singleton_self _), hq⟩
        · have hnone : c.promise = none := Option.isNone_iff_eq_none.mp hmade
          cases hnone.symm.trans hq
      · exact (hi p q hq).concat _
  | endTask hbody hstep => exact (hi p q (hold (rule_of_step hstep) rfl q hq)).concat _
  | endFire hcurrent hbody hstep => exact (hi p q (hold (rule_of_step hstep) rfl q hq)).concat _
  | terminate hcurrent hbody => exact (hi p q hq).concat _

/-! ## All runs -/

variable [DecidableEq α] {tr : List (Act α ρ ε δ κ)} {s : Tasks α ρ ε δ κ}

theorem broken_concat {a : Act α ρ ε δ κ} (h : run Tasks.step Tasks.init tr = some s) :
    Tasks.broken (tr ++ [a]) = Tasks.broken tr ++ s.breaks a := emitted_concat h

theorem accounted (h : run Tasks.step Tasks.init tr = some s) :
    Accounted s (Tasks.broken tr) := by
  refine run_induction (P := fun tr (s : Tasks α ρ ε δ κ) ↦ Accounted s (Tasks.broken tr)) ?_ ?_ h
  · exact .empty fun place ↦ by cases place <;> rfl
  · intro tr s a s' hr hi hs
    have hworker := worker_run hr
    rw [broken_concat hr]
    exact (tasksRule_of_step hs).2.accounted (promised hr) (timersOwned hworker) (wired hworker) hi

theorem delayed (h : run Tasks.step Tasks.init tr = some s) :
    (∀ p, ∀ q ∈ s.promiseAt p, Delayed tr q) ∧ ∀ q ∈ Tasks.broken tr, Delayed tr q := by
  refine run_induction (P := fun tr (s : Tasks α ρ ε δ κ) ↦
    (∀ p, ∀ q ∈ s.promiseAt p, Delayed tr q) ∧ ∀ q ∈ Tasks.broken tr, Delayed tr q) ?_ ?_ h
  · exact ⟨fun p q hq ↦ (by cases hq), fun q hq ↦ (by cases hq)⟩
  · intro tr s a s' hr hi hs
    refine ⟨(tasksRule_of_step hs).2.delayed (timersOwned (worker_run hr)) hi.1, fun q hq ↦ ?_⟩
    rw [broken_concat hr, List.mem_append] at hq
    refine Delayed.concat (hq.elim (hi.2 q) fun hq ↦ ?_) a
    cases a with
    | work l =>
      rw [Tasks.breaks] at hq
      cases hdestroys : s.worker.destroys l with
      | none =>
        rw [hdestroys] at hq
        cases hq
      | some p =>
        rw [hdestroys] at hq
        exact hi.1 p q hq
    | endTask | endFire | terminate => cases hq

/-- **Every promise is accounted for.**  In every run,

* each promise that has been made is in exactly one place: it has been completed, or it is in the
  line of the general tasks, or in the `Timer` of a delayed task, or it was broken when that was
  destroyed;
* so a promise that is broken is one of `addDelayTask`;
* and when the loop thread has ended, a promise that is still open is in `m_pendingTasks`, or in a
  `Timer` of `m_pendingTimers` or `m_activeTimers`, with which it is broken by the destructor. -/
theorem promises_accounted (h : run Tasks.step Tasks.init tr = some s) :
    Owns s.made.toFinset (s.has (Tasks.broken tr)) ∧
    (∀ q ∈ Tasks.broken tr, Delayed tr q) ∧
    (s.worker.loop = .exited →
      s.has (Tasks.broken tr) .waiting = s.worker.m_pendingTasks.filterMap Closure.promise ∧
      ∀ p, s.promiseAt p ≠ [] →
        p ∈ s.worker.m_pendingTimers ∨ ∃ id, s.worker.m_activeTimers id = some p) := by
  refine ⟨accounted h, (delayed h).2, fun hexited ↦ ⟨?_, fun p hp ↦ ?_⟩⟩
  · rw [Tasks.has, hexited]
    rfl
  · cases ht : s.worker.timers p with
    | none =>
      rw [Tasks.promiseAt, Worker.callback, ht] at hp
      exact absurd rfl hp
    | some t =>
      have hholds := (sheltered (worker_run h)).holds p t ht
      rw [State.Holds, hexited] at hholds
      exact hholds.imp_right fun hin ↦ hin.resolve_left List.not_mem_nil

/-- A task is delayed and purged by a client that has guessed its id; then the worker is stopped,
and another delayed task comes too late. -/
def guessAndStop : List (Label (Closure ℕ)) :=
  [.call (.client 0) (.addDelayTask 50 (.setWith 0 7)),
    .push (.client 0) (.addDelayTask 50 (.setWith 0 7)), .unlock (.client 0),
    .notify (.client 0) true, .ret (.client 0) (.delayFuture (.setWith 0 7)),
    .call (.client 1) (.purgeTimerTask 0), .push (.client 1) (.purgeTimerTask 0),
    .unlock (.client 1), .notify (.client 1) true, .ret (.client 1) .void] ++
    addTaskCall (.client 1) (.tryCatch 1 8) ++
    [.call (.client 1) .stop, .loadStopped (.client 1) false, .storeStopped (.client 1),
      .notify (.client 1) true] ++ roundStart true

/-- The round registers the timer and purges it again. -/
def lateRound : List (Label (Closure ℕ)) :=
  [.endBlock, .swap .timers, .release, .register 3, .endBlock, .swap .purges, .release, .purge 0,
    .endBlock, .exit, .call (.client 0) (.addDelayTask 50 (.tryCatch 2 9)),
    .push (.client 0) (.addDelayTask 50 (.tryCatch 2 9))]

/-- All of this, with a general task that runs in between. -/
def purgedAndLeft : List (Act ℕ ℕ ℕ ℕ ℕ) :=
  guessAndStop.map .work ++ [.work (.runTask (.tryCatch 1 8)), .endTask (.tryCatch 1 8) .unit] ++
    lateRound.map .work

theorem promises_accounted_purgedAndLeft : ∃ s,
    run Tasks.step Tasks.init purgedAndLeft = some s ∧
      Owns s.made.toFinset (s.has (Tasks.broken purgedAndLeft)) ∧ s.made = [0, 1, 2] ∧
      s.completed = [(1, .unit)] ∧ Tasks.broken purgedAndLeft = [0] ∧
      s.worker.m_pendingTimers = [5] := by
  have hrun : ((run Tasks.step Tasks.init purgedAndLeft).any fun s ↦
      decide (s.made = [0, 1, 2] ∧ s.completed = [(1, .unit)] ∧
        Tasks.broken purgedAndLeft = [0] ∧ s.worker.m_pendingTimers = [5])) = true := by decide
  obtain ⟨s, hs, hp⟩ := exists_run_of_any hrun
  exact ⟨s, hs, (promises_accounted hs).1, of_decide_eq_true hp⟩

end GeneralWorker
