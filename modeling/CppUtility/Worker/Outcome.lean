import CppUtility.Worker.Events

/-!
# What becomes of a task's outcome

`addTask` and `addDelayTask` return a future.  The closure they put into the worker runs the task
and completes the promise behind that future, in one of two ways.

* The overloads for a task that returns a value do it with `promise->setWith(*task)`, which captures
  whatever the task throws as it is.
* The overloads for a `void` task have a `try` block of their own, which catches `const
  std::exception&` and hands the reference to `setException`.  So the future of a `void` task gets a
  copy of static type `std::exception`, without what a derived class has added to it; and an object
  of any other type leaves the closure and propagates into the event loop, whose thread nothing
  protects.

`Closure.body` is the two bodies, and `body_eq_iff` says on which outcomes they agree.

`Tasks` is a worker together with its promises.  The worker runs as one without promises
(`worker_run`): what a task does is not known to it, and the end of a task is the one step where the
outcome comes in.  `Promised` is the bookkeeping that is needed then, that each promise is made for
one closure, which completes it once.

`delivered_iff` says that, in every run, each future gets exactly the outcome of its task, nothing
propagates into the event loop and no batch is broken off, if and only if no `void` task throws
anything but a plain `std::exception`.
-/

set_option autoImplicit false

namespace GeneralWorker

open Transition

/-! ## Tasks and their closures

An object that is thrown is described by what a handler can do with it: a handler for
`std::exception` catches it or does not, and what it gets of a derived object is the base. -/

/-- An object that a task throws, by its dynamic type: `std::exception` itself, a class derived from
it (with its base and all the rest), or any other type. -/
inductive Thrown (ε δ κ : Type*)
  | exception (base : ε)
  | derived (base : ε) (rest : δ)
  | other (obj : κ)
  deriving DecidableEq

/-- How a task ends: it returns a value, returns from a `void` function, or throws. -/
inductive Outcome (ρ ε δ κ : Type*)
  | value (v : ρ)
  | unit
  | threw (x : Thrown ε δ κ)
  deriving DecidableEq

/-- The callables the worker is given, by the bodies of their lambdas: those of `addTask` and
`addDelayTask` for a task that returns a value, those for a `void` task, and what `addRepeatTask`
binds. -/
inductive Closure (α : Type*)
  | setWith (promise : ℕ) (task : α)
  | tryCatch (promise : ℕ) (task : α)
  | bind (task : α)
  deriving DecidableEq

variable {α ρ ε δ κ : Type*}

/-- What a handler for `const std::exception&` is bound to, if it catches the object. -/
def Thrown.caught : Thrown ε δ κ → Option ε
  | .exception base => some base
  | .derived base _ => some base
  | .other _ => none

namespace Closure

/-- The promise that the lambda has captured. -/
def promise : Closure α → Option ℕ
  | .setWith q _ => some q
  | .tryCatch q _ => some q
  | .bind _ => none

/-- A task whose return type is `void` returns no value, and one with another return type does. -/
def typed : Closure α → Outcome ρ ε δ κ → Bool
  | .setWith _ _, .unit => false
  | .tryCatch _ _, .value _ => false
  | _, _ => true

/-- The body of the lambda, when its task ends with `o`: the promise it completes and with what, or
the object that it throws itself. -/
def body : Closure α → Outcome ρ ε δ κ → Except (Thrown ε δ κ) (Option (ℕ × Outcome ρ ε δ κ))
  -- `promise->setWith(*task);`
  | .setWith q _, o => .ok (some (q, o))
  -- `catch (const std::exception& ex) { promise->setException(ex); }`
  | .tryCatch q _, .threw x =>
    match x.caught with
    | some ex => .ok (some (q, .threw (.exception ex)))
    | none => .error x
  -- `(*task)(); promise->setValue(folly::unit);`
  | .tryCatch q _, o => .ok (some (q, o))
  | .bind _, .threw x => .error x
  | .bind _, _ => .ok none

/-- It is no `void` task that throws an object of a type other than `std::exception` itself. -/
def keeps : Closure α → Outcome ρ ε δ κ → Bool
  | .tryCatch _ _, .threw (.derived _ _) => false
  | .tryCatch _ _, .threw (.other _) => false
  | _, _ => true

/-- **The two ways to complete a promise agree** on what `keeps` describes, and on nothing else. -/
theorem body_eq_iff {c : Closure α} {q : ℕ} (hq : c.promise = some q) (o : Outcome ρ ε δ κ) :
    c.body o = .ok (some (q, o)) ↔ c.keeps o = true := by
  cases c with
  | setWith q' t => simpa [body, keeps, promise] using hq
  | tryCatch q' t =>
    obtain rfl : q' = q := by simpa [promise] using hq
    cases o with
    | value v | unit => simp [body, keeps]
    | threw x => cases x <;> simp [body, Thrown.caught, keeps]
  | bind t => cases hq

theorem keeps_of_promise_none {c : Closure α} (h : c.promise = none) (o : Outcome ρ ε δ κ) :
    c.keeps o = true := by
  cases c with
  | bind t => rfl
  | setWith q t | tryCatch q t => cases h

/-- A promise is completed by its own closure. -/
theorem body_promise {c : Closure α} {o : Outcome ρ ε δ κ} {r : Option (ℕ × Outcome ρ ε δ κ)}
    (h : c.body o = .ok r) : r.map Prod.fst = c.promise := by
  cases c with
  | setWith q t => obtain rfl := Except.ok.inj h; rfl
  | tryCatch q t =>
    cases o with
    | value v | unit => obtain rfl := Except.ok.inj h; rfl
    | threw x =>
      cases x with
      | exception b | derived b d => obtain rfl := Except.ok.inj h; rfl
      | other obj => cases h
  | bind t =>
    cases o with
    | value v | unit => obtain rfl := Except.ok.inj h; rfl
    | threw x => cases h

/-- A closure that throws has no promise, or its outcome is not kept. -/
theorem promise_of_body_error {c : Closure α} {o : Outcome ρ ε δ κ} {x : Thrown ε δ κ}
    (h : c.body o = .error x) : c.keeps o = true ↔ c.promise = none := by
  cases c with
  | setWith q t => cases h
  | tryCatch q t =>
    cases o with
    | value v | unit => cases h
    | threw x =>
      cases x with
      | exception b | derived b d => cases h
      | other obj => simp [keeps, promise]
  | bind t => simp [keeps, promise]

end Closure

/-! ## A worker and its promises -/

/-- A worker, the promises that have been made for it and the results they have been completed
with, in order.  `ended` lists the closures that have returned, each with the outcome of its task;
`escaped` is the closure that an object has left into the event loop, which ends the process. -/
structure Tasks (α ρ ε δ κ : Type*) where
  worker : State (Closure α)
  made : List ℕ
  completed : List (ℕ × Outcome ρ ε δ κ)
  ended : List (Closure α × Outcome ρ ε δ κ)
  escaped : Option (Closure α × Thrown ε δ κ)

/-- What happens: a step of the worker other than the end of a closure, or the end of a general
task, of a timer's callback, or of the whole process. -/
inductive Act (α ρ ε δ κ : Type*)
  | work (l : Label (Closure α))
  | endTask (c : Closure α) (o : Outcome ρ ε δ κ)
  | endFire (p : Ptr) (c : Closure α) (o : Outcome ρ ε δ κ)
  | terminate (c : Closure α) (o : Outcome ρ ε δ κ)

/-- The promise that the call whose section under `m_lock` this is has made at its entry. -/
def Label.makes : Label (Closure α) → Option ℕ
  | .push _ (.addTask c) => c.promise
  | .push _ (.addDelayTask _ c) => c.promise
  | _ => none

/-- The closures that the overloads make: with a promise of their own for `addTask` and
`addDelayTask`, and without one for `addRepeatTask`.  The two ends are not steps by themselves. -/
def Label.wellMade (made : List ℕ) : Label (Closure α) → Bool
  | .push _ (.addTask c) => c.promise.any (· ∉ made)
  | .push _ (.addDelayTask _ c) => c.promise.any (· ∉ made)
  | .push _ (.addRepeatTask _ c) => c.promise.isNone
  | .endTask _ => false
  | .endFire _ => false
  | _ => true

namespace Tasks

/-- A started worker, before the first call. -/
def init : Tasks α ρ ε δ κ := ⟨started, [], [], [], none⟩

/-- The closure that the loop thread is in. -/
def current (s : Tasks α ρ ε δ κ) : Option (Closure α) :=
  match s.worker.loop with
  | .running c _ => some c
  | .calling p => (s.worker.timers p).map Timer.m_callback
  | _ => none

/-- The closure `c` has returned, its task having ended with `o`; `r` is what it has completed. -/
def returned (s : Tasks α ρ ε δ κ) (w : State (Closure α)) (c : Closure α) (o : Outcome ρ ε δ κ)
    (r : Option (ℕ × Outcome ρ ε δ κ)) : Tasks α ρ ε δ κ :=
  { s with worker := w, completed := s.completed ++ r.toList, ended := s.ended ++ [(c, o)] }

variable [DecidableEq α]

/-- The closure `c` that the loop thread is in returns, its task having ended with `o`; `l` is the
step of the worker. -/
def finish (s : Tasks α ρ ε δ κ) (l : Label (Closure α)) (c : Closure α) (o : Outcome ρ ε δ κ) :
    Option (Tasks α ρ ε δ κ) :=
  if s.current = some c ∧ c.typed o then
    match c.body o with
    | .ok r => (GeneralWorker.step s.worker l).map fun w ↦ s.returned w c o r
    | .error _ => none
  else none

/-- One step; none is enabled after the end of the process. -/
def step (s : Tasks α ρ ε δ κ) (a : Act α ρ ε δ κ) : Option (Tasks α ρ ε δ κ) :=
  if s.escaped.isSome then none
  else match a with
    | .work l =>
      if l.wellMade s.made then
        (GeneralWorker.step s.worker l).map fun w ↦
          { s with worker := w, made := s.made ++ l.makes.toList }
      else none
    | .endTask c o => s.finish (.endTask c) c o
    | .endFire p c o => s.finish (.endFire p) c o
    | .terminate c o =>
      if s.current = some c ∧ c.typed o ∧ s.worker.frame .loop = .idle then
        match c.body o with
        | .ok _ => none
        | .error x => some { s with escaped := some (c, x) }
      else none

end Tasks

/-! ## The steps as rules -/

variable [DecidableEq α]

/-- The steps as an inductive relation. -/
inductive TasksRule (s : Tasks α ρ ε δ κ) : Act α ρ ε δ κ → Tasks α ρ ε δ κ → Prop
  | work {l : Label (Closure α)} {w : State (Closure α)} (hmade : l.wellMade s.made = true)
      (hstep : GeneralWorker.step s.worker l = some w) :
      TasksRule s (.work l) { s with worker := w, made := s.made ++ l.makes.toList }
  | endTask {c : Closure α} {o : Outcome ρ ε δ κ} {r : Option (ℕ × Outcome ρ ε δ κ)}
      {w : State (Closure α)} (hbody : c.body o = .ok r)
      (hstep : GeneralWorker.step s.worker (.endTask c) = some w) :
      TasksRule s (.endTask c o) (s.returned w c o r)
  | endFire {p : Ptr} {c : Closure α} {o : Outcome ρ ε δ κ} {r : Option (ℕ × Outcome ρ ε δ κ)}
      {w : State (Closure α)} (hcurrent : s.current = some c) (hbody : c.body o = .ok r)
      (hstep : GeneralWorker.step s.worker (.endFire p) = some w) :
      TasksRule s (.endFire p c o) (s.returned w c o r)
  | terminate {c : Closure α} {o : Outcome ρ ε δ κ} {x : Thrown ε δ κ}
      (hcurrent : s.current = some c) (hbody : c.body o = .error x) :
      TasksRule s (.terminate c o) { s with escaped := some (c, x) }

/-- **What a step can do**, and that nothing has escaped before it. -/
theorem tasksRule_of_step {s s' : Tasks α ρ ε δ κ} {a : Act α ρ ε δ κ} (h : s.step a = some s') :
    s.escaped = none ∧ TasksRule s a s' := by
  unfold Tasks.step at h
  rw [Option.ite_none_left_eq_some, Option.not_isSome_iff_eq_none] at h
  refine ⟨h.1, ?_⟩
  obtain ⟨-, h⟩ := h
  cases a with
  | work l =>
    simp only [Option.ite_none_right_eq_some, Option.map_eq_some_iff] at h
    obtain ⟨hmade, w, hw, rfl⟩ := h
    exact .work hmade hw
  | endTask c o =>
    simp only [Tasks.finish, Option.ite_none_right_eq_some] at h
    obtain ⟨-, h⟩ := h
    split at h
    · next r hbody =>
      obtain ⟨w, hw, rfl⟩ := Option.map_eq_some_iff.mp h
      exact .endTask hbody hw
    · cases h
  | endFire p c o =>
    simp only [Tasks.finish, Option.ite_none_right_eq_some] at h
    obtain ⟨⟨hcurrent, -⟩, h⟩ := h
    split at h
    · next r hbody =>
      obtain ⟨w, hw, rfl⟩ := Option.map_eq_some_iff.mp h
      exact .endFire hcurrent hbody hw
    · cases h
  | terminate c o =>
    simp only [Option.ite_none_right_eq_some] at h
    obtain ⟨⟨hcurrent, -⟩, h⟩ := h
    split at h
    · cases h
    · next x hbody =>
      obtain rfl := Option.some_inj.mp h
      exact .terminate hcurrent hbody

/-- What the worker itself does in a step. -/
def Act.labels : Act α ρ ε δ κ → List (Label (Closure α))
  | .work l => [l]
  | .endTask c _ => [.endTask c]
  | .endFire p _ _ => [.endFire p]
  | .terminate _ _ => []

/-- **The worker runs as one without promises.** -/
theorem worker_run {tr : List (Act α ρ ε δ κ)} {s : Tasks α ρ ε δ κ}
    (h : run Tasks.step Tasks.init tr = some s) :
    run GeneralWorker.step started (tr.flatMap Act.labels) = some s.worker := by
  refine run_induction (P := fun tr (s : Tasks α ρ ε δ κ) ↦
    run GeneralWorker.step started (tr.flatMap Act.labels) = some s.worker) rfl ?_ h
  intro tr s a s' _ ih hs
  rw [List.flatMap_append, List.flatMap_singleton]
  cases (tasksRule_of_step hs).2 with
  | work hmade hstep | endTask hbody hstep | endFire hcurrent hbody hstep =>
    exact run_concat.mpr ⟨s.worker, ih, hstep⟩
  | terminate hcurrent hbody => simpa [Act.labels] using ih

/-! ## Whose promise it is

A promise could be completed twice if two closures had it, or if one closure ran twice.  The first
is ruled out by the calls, each of which makes a promise of its own.  For the second, a general task
leaves the line when it has run, and a `Timer` with a promise is one-shot and is destroyed. -/

/-- The promises that have been completed, and those of the general tasks that have not ended. -/
def Tasks.spent (s : Tasks α ρ ε δ κ) : List ℕ :=
  s.completed.map Prod.fst ++
    (s.worker.loop.remaining ++ s.worker.m_pendingTasks).filterMap Closure.promise

/-- Every promise is made for one closure, which completes it once. -/
structure Promised (s : Tasks α ρ ε δ κ) : Prop where
  nodup : s.spent.Nodup
  made : ∀ q ∈ s.spent, q ∈ s.made
  /-- General tasks come from `addTask`. -/
  tasks : ∀ c ∈ s.worker.loop.remaining ++ s.worker.m_pendingTasks, c.promise ≠ none
  /-- A `Timer` with a promise comes from `addDelayTask` and has not run. -/
  timers : ∀ p t q, s.worker.timers p = some t → t.m_callback.promise = some q →
    t.m_intervalMSec = 0 ∧ q ∈ s.made ∧ q ∉ s.spent
  timer_inj : ∀ p p' t t' q, s.worker.timers p = some t → s.worker.timers p' = some t' →
    t.m_callback.promise = some q → t'.m_callback.promise = some q → p = p'

namespace Promised

omit [DecidableEq α]

variable {s : Tasks α ρ ε δ κ}

/-- A worker step that neither pushes a task nor ends one, with or without a new promise. -/
theorem other (h : Promised s) {w : State (Closure α)} {made : List ℕ}
    (hline : w.loop.remaining ++ w.m_pendingTasks
      = s.worker.loop.remaining ++ s.worker.m_pendingTasks)
    (hmade : ∀ q ∈ s.made, q ∈ made)
    (htimers : ∀ p t', w.timers p = some t' → ∃ t, s.worker.timers p = some t ∧
      t'.m_intervalMSec = t.m_intervalMSec ∧ t'.m_callback = t.m_callback) :
    Promised { s with worker := w, made := made } := by
  have hspent : Tasks.spent { s with worker := w, made := made } = s.spent := by
    simp only [Tasks.spent, hline]
  refine ⟨hspent ▸ h.nodup, fun q hq ↦ hmade q (h.made q (hspent ▸ hq)), ?_, ?_, ?_⟩
  · simpa only [hline] using h.tasks
  · intro p t' q ht' hq
    obtain ⟨t, ht, hinterval, hcb⟩ := htimers p t' ht'
    obtain ⟨hzero, hmem, hnot⟩ := h.timers p t q ht (hcb ▸ hq)
    exact ⟨hinterval.trans hzero, hmade q hmem, hspent ▸ hnot⟩
  · intro p₁ p₂ t₁' t₂' q ht₁' ht₂' hq₁ hq₂
    obtain ⟨t₁, ht₁, -, hcb₁⟩ := htimers p₁ t₁' ht₁'
    obtain ⟨t₂, ht₂, -, hcb₂⟩ := htimers p₂ t₂' ht₂'
    exact h.timer_inj p₁ p₂ t₁ t₂ q ht₁ ht₂ (hcb₁ ▸ hq₁) (hcb₂ ▸ hq₂)

/-- `addTask` with a new promise. -/
theorem addTask (h : Promised s) {w : State (Closure α)} {c : Closure α} {q : ℕ}
    (hline : w.loop.remaining ++ w.m_pendingTasks
      = s.worker.loop.remaining ++ s.worker.m_pendingTasks ++ [c])
    (htimers : w.timers = s.worker.timers) (hq : c.promise = some q) (hnew : q ∉ s.made) :
    Promised { s with worker := w, made := s.made ++ [q] } := by
  have hspent : Tasks.spent { s with worker := w, made := s.made ++ [q] } = s.spent ++ [q] := by
    simp only [Tasks.spent, hline, List.filterMap_append, List.append_assoc]
    simp [hq]
  refine ⟨?_, fun q' hq' ↦ ?_, ?_, ?_, fun p p' t t' q' ht ht' ↦ ?_⟩
  · rw [hspent, ← List.concat_eq_append]
    exact List.Nodup.concat (fun hin ↦ hnew (h.made q hin)) h.nodup
  · rw [hspent, List.mem_append] at hq'
    exact List.mem_append.mpr (hq'.imp_left (h.made q'))
  · simp only [hline, List.mem_append, List.mem_singleton]
    rintro c' (hc' | rfl)
    · exact h.tasks c' (List.mem_append.mpr hc')
    · simp [hq]
  · intro p t q' ht hq'
    obtain ⟨hzero, hmem, hnot⟩ := h.timers p t q' (htimers ▸ ht) hq'
    refine ⟨hzero, List.mem_append_left _ hmem, ?_⟩
    rw [hspent, List.mem_append, List.mem_singleton, not_or]
    exact ⟨hnot, fun he ↦ hnew (he ▸ hmem)⟩
  · exact h.timer_inj p p' t t' q' (htimers ▸ ht) (htimers ▸ ht')

/-- `addDelayTask` with a new promise, or `addRepeatTask` without one. -/
theorem addTimerTask (h : Promised s) {w : State (Closure α)} {delay interval : UInt64}
    {c : Closure α}
    (hline : w.loop.remaining ++ w.m_pendingTasks
      = s.worker.loop.remaining ++ s.worker.m_pendingTasks)
    (hw : w.toWorker = s.worker.toWorker.addTimerTask delay interval c)
    (hc : ∀ q, c.promise = some q → interval = 0 ∧ q ∉ s.made) :
    Promised { s with worker := w, made := s.made ++ c.promise.toList } := by
  have hspent :
      Tasks.spent { s with worker := w, made := s.made ++ c.promise.toList } = s.spent := by
    simp only [Tasks.spent, hline]
  have hmade : ∀ q ∈ s.made, q ∈ s.made ++ c.promise.toList :=
    fun q hq ↦ List.mem_append_left _ hq
  -- the new `Timer` shares its promise with no other
  have hapart : ∀ {p t q}, s.worker.timers p = some t → t.m_callback.promise = some q →
      c.promise ≠ some q :=
    fun ht hq hcq ↦ (hc _ hcq).2 (h.timers _ _ _ ht hq).2.1
  refine ⟨hspent ▸ h.nodup, fun q hq ↦ hmade q (h.made q (hspent ▸ hq)), ?_, ?_, ?_⟩
  · simpa only [hline] using h.tasks
  · intro p t q ht hq
    rcases addTimerTask_timers (hw ▸ ht) with ⟨-, hold⟩ | ⟨-, rfl⟩
    · obtain ⟨hzero, hmem, hnot⟩ := h.timers p t q hold hq
      exact ⟨hzero, hmade q hmem, hspent ▸ hnot⟩
    · refine ⟨(hc q hq).1, List.mem_append_right _ (by simp [show c.promise = some q from hq]), ?_⟩
      rw [hspent]
      exact fun hin ↦ (hc q hq).2 (h.made q hin)
  · intro p₁ p₂ t₁ t₂ q ht₁ ht₂ hq₁ hq₂
    rcases addTimerTask_timers (hw ▸ ht₁) with ⟨-, hold₁⟩ | ⟨rfl, rfl⟩ <;>
      rcases addTimerTask_timers (hw ▸ ht₂) with ⟨-, hold₂⟩ | ⟨rfl, rfl⟩
    · exact h.timer_inj p₁ p₂ t₁ t₂ q hold₁ hold₂ hq₁ hq₂
    · exact absurd hq₂ (hapart hold₁ hq₁)
    · exact absurd hq₁ (hapart hold₂ hq₂)
    · rfl

/-- The results that a closure adds are those of its promise. -/
theorem returned_fst {w : State (Closure α)} {c : Closure α} {o : Outcome ρ ε δ κ}
    {r : Option (ℕ × Outcome ρ ε δ κ)} (hbody : c.body o = .ok r) :
    (s.returned w c o r).completed.map Prod.fst
      = s.completed.map Prod.fst ++ c.promise.toList := by
  rw [Tasks.returned, List.map_append, ← Closure.body_promise hbody]
  cases r <;> rfl

/-- A general task ends and has completed its promise. -/
theorem endTask (h : Promised s) {w : State (Closure α)} {c : Closure α} {o : Outcome ρ ε δ κ}
    {r : Option (ℕ × Outcome ρ ε δ κ)} (hbody : c.body o = .ok r)
    (hline : c :: (w.loop.remaining ++ w.m_pendingTasks)
      = s.worker.loop.remaining ++ s.worker.m_pendingTasks)
    (htimers : w.timers = s.worker.timers) : Promised (s.returned w c o r) := by
  have hspent : (s.returned w c o r).spent = s.spent := by
    rw [Tasks.spent, Tasks.spent, returned_fst hbody, ← hline, List.append_assoc]
    cases hq : c.promise <;> simp [hq, Tasks.returned]
  refine ⟨hspent ▸ h.nodup, fun q hq ↦ h.made q (hspent ▸ hq), fun c' hc' ↦ ?_, ?_, ?_⟩
  · exact h.tasks c' (hline ▸ List.mem_cons_of_mem c hc')
  · intro p t q ht hq
    rw [hspent]
    exact h.timers p t q (htimers ▸ ht) hq
  · intro p p' t t' q ht ht'
    exact h.timer_inj p p' t t' q (htimers ▸ ht) (htimers ▸ ht')

/-- The callback of a `Timer` ends; if it had a promise, it has completed it and the `Timer` is
gone. -/
theorem endFire (h : Promised s) {w : State (Closure α)} {p : Ptr} {t : Timer (Closure α)}
    {o : Outcome ρ ε δ κ} {r : Option (ℕ × Outcome ρ ε δ κ)}
    (hbody : t.m_callback.body o = .ok r)
    (hline : w.loop.remaining ++ w.m_pendingTasks
      = s.worker.loop.remaining ++ s.worker.m_pendingTasks)
    (ht : s.worker.timers p = some t) (hgone : t.m_intervalMSec = 0 → w.timers p = none)
    (htimers : ∀ p t', w.timers p = some t' → s.worker.timers p = some t') :
    Promised (s.returned w t.m_callback o r) := by
  have hspent : (s.returned w t.m_callback o r).spent.Perm
      (t.m_callback.promise.toList ++ s.spent) := by
    have heq : (s.returned w t.m_callback o r).spent = s.completed.map Prod.fst ++
        (t.m_callback.promise.toList ++
          (s.worker.loop.remaining ++ s.worker.m_pendingTasks).filterMap Closure.promise) := by
      rw [Tasks.spent, returned_fst hbody, List.append_assoc]
      simp only [Tasks.returned, hline]
    rw [heq, Tasks.spent, ← List.append_assoc, ← List.append_assoc]
    exact List.perm_append_comm.append_right _
  refine ⟨?_, fun q hq ↦ ?_, ?_, fun p' t' q ht' hq ↦ ?_, fun p₁ p₂ t₁ t₂ q ht₁ ht₂ ↦ ?_⟩
  · rw [hspent.nodup_iff]
    cases hq : t.m_callback.promise with
    | none => exact h.nodup
    | some q => exact List.nodup_cons.mpr ⟨(h.timers p t q ht hq).2.2, h.nodup⟩
  · rcases List.mem_append.mp (hspent.mem_iff.mp hq) with hq | hq
    · exact (h.timers p t q ht (Option.mem_toList.mp hq)).2.1
    · exact h.made q hq
  · simpa only [Tasks.returned, hline] using h.tasks
  · obtain ⟨hzero, hmem, hnot⟩ := h.timers p' t' q (htimers p' t' ht') hq
    refine ⟨hzero, hmem, ?_⟩
    rw [hspent.mem_iff, List.mem_append, not_or]
    refine ⟨fun hin ↦ ?_, hnot⟩
    -- a `Timer` with the same promise is this one, which is gone
    have hq' : t.m_callback.promise = some q := Option.mem_toList.mp hin
    obtain rfl := h.timer_inj p p' t t' q ht (htimers p' t' ht') hq' hq
    have hnone : w.timers p = none := hgone (h.timers p t q ht hq').1
    have hsome : w.timers p = some t' := ht'
    rw [hnone] at hsome
    cases hsome
  · exact h.timer_inj p₁ p₂ t₁ t₂ q (htimers p₁ t₁ ht₁) (htimers p₂ t₂ ht₂)

/-- A step of the worker other than the end of a closure. -/
theorem work (h : Promised s) {l : Label (Closure α)} {w : State (Closure α)}
    (ho : TimersOwned s.worker.toWorker s.worker.loop.timerBatch)
    (hmade : l.wellMade s.made = true) (hrule : Rule s.worker l w) :
    Promised { s with worker := w, made := s.made ++ l.makes.toList } := by
  have hexecuted : l.executed = [] := by
    unfold Label.executed
    split
    · cases hmade
    · rfl
  have htasks := hrule.tasks
  rw [hexecuted, List.nil_append] at htasks
  cases hadd : l.addsTimer with
  | true =>
    obtain ⟨th, delay, interval, c, hw, ⟨rfl, rfl⟩ | ⟨rfl, rfl⟩⟩ := hrule.adds hadd
    · refine h.addTimerTask (by simpa [Label.taskPush] using htasks) hw fun q hq ↦ ⟨rfl, ?_⟩
      simpa [Label.wellMade, hq] using hmade
    · have hnone : c.promise = none := Option.isNone_iff_eq_none.mp hmade
      have hstep := h.addTimerTask (by simpa [Label.taskPush] using htasks) hw
        fun q hq ↦ absurd (hq.symm.trans hnone) (by simp)
      rwa [hnone] at hstep
  | false =>
    by_cases hpush : ∃ th c, l = .push th (.addTask c)
    · obtain ⟨th, c, rfl⟩ := hpush
      cases hq : c.promise with
      | none => simp [Label.wellMade, hq] at hmade
      | some q =>
        have htimers : w.timers = s.worker.timers := by
          cases hrule with
          | push hcalled hfree hsection =>
            simp only [pushSection, Option.some_inj, Prod.mk.injEq] at hsection
            obtain ⟨rfl, -⟩ := hsection
            rfl
        have hstep := h.addTask (by simpa [Label.taskPush] using htasks) htimers hq
          (by simpa [Label.wellMade, hq] using hmade)
        simpa [Label.makes, hq] using hstep
    · have hnone : l.taskPush = [] := by
        unfold Label.taskPush
        split
        · exact absurd ⟨_, _, rfl⟩ hpush
        · rfl
      rw [hnone, List.map_nil, List.append_nil] at htasks
      refine h.other htasks (fun q hq ↦ List.mem_append_left _ hq) fun p t' ht' ↦ ?_
      obtain ⟨t, ht, he⟩ := hrule.timers_back ho hadd ht'
      exact ⟨t, ht, by rw [he], by rw [he]⟩

end Promised

/-! ## All runs -/

/-- **Every promise is made for one closure, which completes it once**, in every run. -/
theorem promised {tr : List (Act α ρ ε δ κ)} {s : Tasks α ρ ε δ κ}
    (h : run Tasks.step Tasks.init tr = some s) : Promised s := by
  refine run_induction (P := fun _ (s : Tasks α ρ ε δ κ) ↦ Promised s) ?_ ?_ h
  · exact ⟨List.nodup_nil, nofun, nofun, nofun, nofun⟩
  · intro tr s a s' hr ih hs
    have hworker := worker_run hr
    have ho := timersOwned hworker
    cases (tasksRule_of_step hs).2 with
    | work hmade hstep => exact ih.work ho hmade (rule_of_step hstep)
    | @endTask c o r w hbody hstep =>
      have hrule := rule_of_step hstep
      refine ih.endTask hbody (by simpa [Label.executed, Label.taskPush] using hrule.tasks) ?_
      cases hrule with
      | endTask hloop hidle => rfl
    | @endFire p c o r w hcurrent hbody hstep =>
      have hrule := rule_of_step hstep
      have hline : w.loop.remaining ++ w.m_pendingTasks
          = s.worker.loop.remaining ++ s.worker.m_pendingTasks := by
        simpa [Label.executed, Label.taskPush] using hrule.tasks
      cases hrule with
      | @endFire _ w' hloop hidle hafter =>
        rw [Tasks.current, hloop] at hcurrent
        obtain ⟨t, ht, rfl⟩ := Option.map_eq_some_iff.mp hcurrent
        obtain ⟨u, hu, hact⟩ := (wired hworker).calling p hloop
        obtain rfl : t = u := Option.some_inj.mp (ht.symm.trans hu)
        rw [Worker.afterCallback, ht, Option.map_some, Option.some_inj] at hafter
        subst hafter
        refine ih.endFire hbody hline ht (fun hzero ↦ ?_) fun p' t' ht' ↦ ?_
        · rw [Option.eq_none_iff_forall_ne_some]
          intro t' ht'
          rw [if_pos hzero] at ht'
          exact (purgeTimerInternal_timers.mp ht').1 hact
        · show s.worker.timers p' = some t'
          split at ht'
          · exact (purgeTimerInternal_timers.mp ht').2
          · exact ht'
    | terminate hcurrent hbody =>
      exact ⟨ih.nodup, ih.made, ih.tasks, ih.timers, ih.timer_inj⟩

/-- **The outcomes of the tasks have reached their futures unchanged.** -/
structure Delivered (s : Tasks α ρ ε δ κ) : Prop where
  /-- The future of a task that has ended gets its outcome, and nothing else. -/
  outcome : ∀ c o q, (c, o) ∈ s.ended → c.promise = some q →
    ∀ o', (q, o') ∈ s.completed ↔ o' = o
  once : (s.completed.map Prod.fst).Nodup
  /-- No closure of `addTask` or `addDelayTask` lets anything propagate into the event loop. -/
  contained : ∀ c x, s.escaped = some (c, x) → c.promise = none
  /-- The process does not end while tasks of a batch are left. -/
  goesOn : s.worker.loop.remaining ≠ [] → s.escaped = none
  /-- The next task of a batch can start. -/
  next : ∀ c rest, s.worker.loop = .working (.tasks (c :: rest)) →
    (s.step (.work (.runTask c))).isSome = true

/-- The task that ends in this step does not throw what its closure changes or lets through. -/
def Act.keeps : Act α ρ ε δ κ → Bool
  | .work _ => true
  | .endTask c o => c.keeps o
  | .endFire _ c o => c.keeps o
  | .terminate c o => c.keeps o

namespace Delivered

variable {s : Tasks α ρ ε δ κ}

theorem next_enabled (hescaped : s.escaped = none) {c : Closure α} {rest : List (Closure α)}
    (hloop : s.worker.loop = .working (.tasks (c :: rest))) :
    (s.step (.work (.runTask c))).isSome = true := by
  simp [Tasks.step, hescaped, Label.wellMade, GeneralWorker.step, hloop]

/-- As long as nothing has escaped, it is the results that matter. -/
theorem iff_of_escaped_none (hp : Promised s) (hescaped : s.escaped = none) :
    Delivered s ↔ ∀ c o q, (c, o) ∈ s.ended → c.promise = some q →
      ∀ o', (q, o') ∈ s.completed ↔ o' = o := by
  refine ⟨fun h ↦ h.outcome, fun h ↦ ⟨h, ?_, ?_, fun _ ↦ hescaped, fun c rest ↦ ?_⟩⟩
  · exact (List.nodup_append.mp hp.nodup).1
  · rw [hescaped]
    nofun
  · exact next_enabled hescaped

/-- **The end of a closure.**  Its task's outcome is delivered exactly when the closure keeps it. -/
theorem returned_iff (h : Delivered s) {w : State (Closure α)} {c : Closure α}
    {o : Outcome ρ ε δ κ} {r : Option (ℕ × Outcome ρ ε δ κ)} (hescaped : s.escaped = none)
    (hbody : c.body o = .ok r) (hp' : Promised (s.returned w c o r)) :
    Delivered (s.returned w c o r) ↔ c.keeps o = true := by
  rw [iff_of_escaped_none hp' hescaped]
  have hfst := Closure.body_promise hbody
  simp only [Tasks.returned, List.mem_append, List.mem_singleton, Prod.mk.injEq]
  constructor
  · intro hall
    cases hq : c.promise with
    | none => exact Closure.keeps_of_promise_none hq o
    | some q =>
      rw [hq] at hfst
      obtain ⟨⟨_, o₁⟩, rfl, rfl⟩ := Option.map_eq_some_iff.mp hfst
      have ho : o₁ = o := (hall c o _ (.inr ⟨rfl, rfl⟩) hq o₁).mp (.inr (by simp))
      exact (Closure.body_eq_iff hq o).mp (ho ▸ hbody)
  · intro hkeeps c' o' q' hin hq' o''
    cases hq : c.promise with
    | none =>
      rw [hq, Option.map_eq_none_iff] at hfst
      subst hfst
      rcases hin with hin | ⟨rfl, rfl⟩
      · simpa using h.outcome c' o' q' hin hq' o''
      · rw [hq] at hq'
        cases hq'
    | some q =>
      have hr : r = some (q, o) :=
        Except.ok.inj (hbody.symm.trans ((Closure.body_eq_iff hq o).mpr hkeeps))
      subst hr
      have hnew : q ∉ s.completed.map Prod.fst := by
        have hnodup := (List.nodup_append.mp hp'.nodup).1
        rw [Promised.returned_fst hbody, hq] at hnodup
        exact fun hin ↦ (List.nodup_append.mp hnodup).2.2 q hin q (by simp) rfl
      rcases hin with hin | ⟨rfl, rfl⟩
      · have hne : q' ≠ q := by
          rintro rfl
          exact hnew (List.mem_map_of_mem ((h.outcome c' o' q' hin hq' o').mpr rfl))
        simpa [hne] using h.outcome c' o' q' hin hq' o''
      · obtain rfl : q = q' := Option.some_inj.mp (hq.symm.trans hq')
        have hnot : (q, o'') ∉ s.completed := fun hin ↦ hnew (List.mem_map_of_mem hin)
        simp [hnot]

end Delivered

/-- **One step and the outcomes.** -/
theorem delivered_step_iff {tr : List (Act α ρ ε δ κ)} {s s' : Tasks α ρ ε δ κ}
    {a : Act α ρ ε δ κ} (hr : run Tasks.step Tasks.init tr = some s) (h : Delivered s)
    (hs : s.step a = some s') : Delivered s' ↔ a.keeps = true := by
  have hp' := promised (run_concat.mpr ⟨s, hr, hs⟩)
  obtain ⟨hescaped, hrule⟩ := tasksRule_of_step hs
  cases hrule with
  | work hmade hstep =>
    rw [Delivered.iff_of_escaped_none hp' hescaped]
    exact iff_of_true h.outcome rfl
  | endTask hbody hstep => exact h.returned_iff hescaped hbody hp'
  | endFire hcurrent hbody hstep => exact h.returned_iff hescaped hbody hp'
  | @terminate c o x hcurrent hbody =>
    rw [Act.keeps, Closure.promise_of_body_error hbody]
    refine ⟨fun h' ↦ h'.contained c x rfl, fun hnone ↦ ?_⟩
    -- general tasks have promises, so it was a repeated task that threw
    have hremaining : s.worker.loop.remaining = [] := by
      unfold Tasks.current at hcurrent
      split at hcurrent
      · next c' rest hloop =>
        obtain rfl := Option.some_inj.mp hcurrent
        exact absurd hnone ((promised hr).tasks c' (by simp [hloop, LoopPC.remaining]))
      · next p hloop => rw [hloop]; rfl
      · cases hcurrent
    refine ⟨h.outcome, h.once, ?_, fun hne ↦ absurd hremaining hne, fun c' rest hloop ↦ ?_⟩
    · rintro c' x' he
      obtain ⟨rfl, -⟩ := Prod.mk.inj (Option.some_inj.mp he)
      exact hnone
    · have hloop' : s.worker.loop = .working (.tasks (c' :: rest)) := hloop
      simp [hloop', LoopPC.remaining] at hremaining

/-- **A task's outcome reaches its future unchanged** — in every run, at every moment, for every
task that has ended, with nothing propagating into the event loop and no batch broken off — if and
only if no `void` task throws anything but a plain `std::exception`. -/
theorem delivered_iff {tr : List (Act α ρ ε δ κ)} {s : Tasks α ρ ε δ κ}
    (h : run Tasks.step Tasks.init tr = some s) :
    (∀ tr₁ s₁, tr₁ <+: tr → run Tasks.step Tasks.init tr₁ = some s₁ → Delivered s₁) ↔
      ∀ a ∈ tr, a.keeps = true := by
  rw [← along_label h]
  refine forall_prefix_iff_along ?_ (fun tr s a s' hr hQ hs ↦ delivered_step_iff hr hQ hs) h
  exact ⟨nofun, List.nodup_nil, nofun, fun _ ↦ rfl, nofun⟩

/-- Two tasks with promises of their own are added, and the loop thread has swapped them out. -/
def twoTasks (c d : Closure ℕ) : List (Act ℕ ℕ ℕ ℕ ℕ) :=
  (addTaskCall (.client 0) c ++ addTaskCall (.client 1) d ++ roundStart false).map .work

/-- A task that returns a value throws an object of a derived class, and a `void` task a plain
`std::exception`. -/
def keptOutcomes : List (Act ℕ ℕ ℕ ℕ ℕ) :=
  twoTasks (.setWith 0 7) (.tryCatch 1 8) ++
    [.work (.runTask (.setWith 0 7)), .endTask (.setWith 0 7) (.threw (.derived 5 6)),
      .work (.runTask (.tryCatch 1 8)), .endTask (.tryCatch 1 8) (.threw (.exception 5))]

theorem delivered_iff_keptOutcomes : ∃ s, run Tasks.step Tasks.init keptOutcomes = some s ∧
    Delivered s ∧ s.ended.length = 2 := by
  have hrun : ((run Tasks.step Tasks.init keptOutcomes).any fun s ↦
      decide (s.ended.length = 2)) = true := by decide
  obtain ⟨s, hs, hp⟩ := exists_run_of_any hrun
  have hdelivered := (delivered_iff hs).mpr (by decide) _ s (List.prefix_refl _) hs
  exact ⟨s, hs, hdelivered, of_decide_eq_true hp⟩

/-- A `void` task throws an object of a derived class. -/
def slicedOutcome : List (Act ℕ ℕ ℕ ℕ ℕ) :=
  twoTasks (.tryCatch 0 7) (.tryCatch 1 8) ++
    [.work (.runTask (.tryCatch 0 7)), .endTask (.tryCatch 0 7) (.threw (.derived 5 6))]

/-- A `void` task throws an object that is not derived from `std::exception`. -/
def escapedOutcome : List (Act ℕ ℕ ℕ ℕ ℕ) :=
  twoTasks (.tryCatch 0 7) (.tryCatch 1 8) ++
    [.work (.runTask (.tryCatch 0 7)), .terminate (.tryCatch 0 7) (.threw (.other 9))]

/-- **The future of a `void` task gets less than the task has thrown, or the process ends**: of a
derived exception it gets the base, and an object of another type propagates into the event loop
while the second task of the batch is still to run. -/
theorem outcome_changed :
    (∃ s : Tasks ℕ ℕ ℕ ℕ ℕ, run Tasks.step Tasks.init slicedOutcome = some s ∧
      s.completed = [(0, .threw (.exception 5))] ∧ ¬Delivered s) ∧
    ∃ s : Tasks ℕ ℕ ℕ ℕ ℕ, run Tasks.step Tasks.init escapedOutcome = some s ∧
      s.worker.loop.remaining = [.tryCatch 0 7, .tryCatch 1 8] ∧ ¬Delivered s := by
  constructor
  · have hrun : ((run Tasks.step Tasks.init slicedOutcome).any fun s ↦
        decide (s.completed = [(0, .threw (.exception 5))] ∧
          s.ended = [(.tryCatch 0 7, .threw (.derived 5 6))])) = true := by decide
    obtain ⟨s, hs, hp⟩ := exists_run_of_any hrun
    obtain ⟨hcompleted, hended⟩ := of_decide_eq_true hp
    refine ⟨s, hs, hcompleted, fun h ↦ ?_⟩
    have hiff := h.outcome (.tryCatch 0 7) (.threw (.derived 5 6)) 0 (by simp [hended]) rfl
      (.threw (.exception 5))
    simp [hcompleted] at hiff
  · have hrun : ((run Tasks.step Tasks.init escapedOutcome).any fun s ↦
        decide (s.escaped = some (.tryCatch 0 7, .other 9) ∧
          s.worker.loop.remaining = [.tryCatch 0 7, .tryCatch 1 8])) = true := by decide
    obtain ⟨s, hs, hp⟩ := exists_run_of_any hrun
    obtain ⟨hescaped, hremaining⟩ := of_decide_eq_true hp
    refine ⟨s, hs, hremaining, fun h ↦ ?_⟩
    cases h.contained _ _ hescaped

end GeneralWorker
