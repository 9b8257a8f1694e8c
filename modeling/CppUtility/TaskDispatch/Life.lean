import CppUtility.TaskDispatch.Wakeup

/-!
# The life of a `TaskDispatch`

From the construction of the object to its end, with as many calls of `start` as there are.  `start`
puts a new thread in the place of the old one, which ends the process if nobody has joined that; and
`m_stopped` is never reset, so that a thread which comes after a `stop` leaves at once.  The object
can be started once: `one_start` says that no task is taken after any later `start`, and what
becomes of the tasks.

* `Life` is the object with its end: alive, destroyed with what was left in the queue, or the
  process terminated by `~thread` of a thread that was joinable.  Both `start`, which overwrites
  `m_thread`, and the destructor of the object can come to that.
* A `TaskDispatch` without a thread, as the constructor leaves it, is one whose thread has left and
  has been joined: no step of a dispatcher thread is enabled, and `stop` finds nothing to join.
* Clients may call `run` before the first `start`, and the tasks wait for it in the queue.

A second `start` finds either a thread that nobody has joined, or one that a `stop` has joined, and
then the flag is set for good.  This is the whole argument.

The object is a singleton that lives until the end of the process, and so its destructor runs during
the destruction of static objects.  That no call is under way then is up to the program, and is not
assumed here: what is destroyed is the object in whatever state it is.
-/

set_option autoImplicit false

namespace TaskDispatch

open Transition

variable {τ : Type*}

/-- The state in which the constructor leaves the object. -/
def constructed : State τ where
  m_stopped := false
  m_tasks := []
  m_taskMutex := none
  joinable := false
  frame := fun _ ↦ .idle
  pc := .exited

/-- The object; when it has been destroyed, with the tasks that were in the queue, whose futures get
a `broken_promise`. -/
inductive Life (τ : Type*)
  | alive (s : State τ)
  | destroyed (rest : List τ)
  | terminated

/-- A call of `start`, a step of the threads, or the destruction of the object. -/
inductive Event (τ : Type*)
  | start
  | go (l : Label τ)
  | destroy
  deriving DecidableEq

/-- `start`: the thread is made, and takes the place of the old one, whose destructor calls
`std::terminate` if it is joinable. -/
def State.start (s : State τ) : Life τ :=
  if s.joinable then .terminated else .alive { s with joinable := true, pc := .testing }

/-- The destructor, which destroys `m_thread` too. -/
def State.destroy (s : State τ) : Life τ :=
  if s.joinable then .terminated else .destroyed s.m_tasks

namespace Life

/-- One step; `none` if it is not enabled. -/
def step [DecidableEq τ] : Life τ → Event τ → Option (Life τ)
  | .alive s, .start => some s.start
  | .alive s, .go l => (TaskDispatch.step s l).map .alive
  | .alive s, .destroy => some s.destroy
  | .destroyed _, _ => none
  | .terminated, _ => none

/-- The steps of the threads. -/
def steps (tr : List (Event τ)) : List (Label τ) :=
  tr.filterMap fun
    | .go l => some l
    | _ => none

/-- There has been a `start`, and no `join` since. -/
def Unjoined (tr : List (Event τ)) : Prop :=
  ∃ tr₁ tr₂, tr = tr₁ ++ .start :: tr₂ ∧ ∀ th, .go (.join th) ∉ tr₂

theorem steps_concat (tr : List (Event τ)) (e : Event τ) :
    steps (tr ++ [e]) = steps tr ++ steps [e] := by
  rw [steps, List.filterMap_append]
  rfl

theorem unjoined_concat {tr : List (Event τ)} {e : Event τ} : Unjoined (tr ++ [e]) ↔
    e = .start ∨ Unjoined tr ∧ ∀ th, e ≠ .go (.join th) := by
  constructor
  · rintro ⟨tr₁, tr₂, htr, hjoin⟩
    rcases concat_eq_append_cons.mp htr with ⟨-, he, -⟩ | ⟨tr₃, rfl, rfl⟩
    · exact .inl he.symm
    · refine .inr ⟨⟨tr₁, tr₃, rfl, fun th hth ↦ ?_⟩, fun th he ↦ ?_⟩
      · exact hjoin th (List.mem_append_left _ hth)
      · exact hjoin th (List.mem_append_right _ (List.mem_singleton.mpr he.symm))
  · rintro (rfl | ⟨⟨tr₁, tr₂, rfl, hjoin⟩, he⟩)
    · exact ⟨tr, [], rfl, fun _ hth ↦ absurd hth List.not_mem_nil⟩
    · refine ⟨tr₁, tr₂ ++ [e], by rw [List.append_assoc, List.cons_append], fun th hth ↦ ?_⟩
      rcases List.mem_append.mp hth with hth | hth
      · exact hjoin th hth
      · exact he th (List.mem_singleton.mp hth).symm

/-! ## A thread that comes too late -/

/-- The thread has been stopped, and has not come past its first test. -/
def Spent (s : State τ) : Prop := s.m_stopped = true ∧ (s.pc = .testing ∨ s.pc = .exited)

/-- It takes no task, and finishes none. -/
theorem Spent.step {s s' : State τ} {l : Label τ} (hs : Spent s) (h : Rule s l s') :
    Spent s' ∧ l.executes = [] ∧ ∀ task, l ≠ .take task := by
  obtain ⟨hstopped, hpc⟩ := hs
  have hnot : ∀ pc, s.pc = pc → pc = .testing ∨ pc = .exited := fun pc h ↦ h ▸ hpc
  cases h with
  | call | push | unlock | testJoinable | join | ret =>
    exact ⟨⟨hstopped, hpc⟩, rfl, fun _ h ↦ by cases h⟩
  | store => exact ⟨⟨rfl, hpc⟩, rfl, fun _ h ↦ by cases h⟩
  | notifyAll =>
    refine ⟨⟨hstopped, ?_⟩, rfl, fun _ h ↦ by cases h⟩
    rcases hpc with hpc | hpc <;> simp [hpc, ThreadPC.notified]
  | test => exact ⟨⟨hstopped, .inr (if_pos hstopped)⟩, rfl, fun _ h ↦ by cases h⟩
  | lock hp | check hp | found hp | sleep hp | wakeSpurious hp | relock hp | decide hp | take hp
  | release hp | breakOff hp | endTask hp => simpa using hnot _ hp

/-! ## What is kept

Between two calls of `start` the object takes steps of `CppUtility.TaskDispatch.Step`, and what is
known of those has to be carried over a `start`: it changes the position of the thread and
`joinable`, and nothing else. -/

/-- What a history says about a `TaskDispatch` that is alive. -/
structure Kept (tr : List (Event τ)) (s : State τ) : Prop where
  calls : InCalls s
  line : executedTasks (steps tr) ++ (s.pc.taken ++ s.m_tasks) = pushedTasks (steps tr)
  left : s.joinable = false → s.pc = .exited
  unjoined : s.joinable = true ↔ Unjoined tr
  stored : (∃ th, .go (.store th) ∈ tr) → s.m_stopped = true
  joined : .start ∈ tr → s.joinable = false → s.m_stopped = true

/-- A step of the threads ends no thread that has not left, and resets no flag. -/
theorem of_rule {s s' : State τ} {l : Label τ} (h : Rule s l s') :
    (s.pc = .exited → s'.pc = .exited) ∧ (s.m_stopped = true → s'.m_stopped = true) ∧
      (∀ th, l = .store th → s'.m_stopped = true) ∧
      (s'.joinable = s.joinable ∧ (∀ th, l ≠ .join th) ∨
        s'.joinable = false ∧ s.pc = .exited ∧ ∃ th, l = .join th ∧ s.frame th = .joining) := by
  cases h with
  | call | push | unlock | testJoinable | ret =>
    exact ⟨id, id, by simp, .inl ⟨rfl, by simp⟩⟩
  | notifyAll =>
    exact ⟨fun hpc ↦ by simp [hpc, ThreadPC.notified], id, by simp, .inl ⟨rfl, by simp⟩⟩
  | store => exact ⟨id, fun _ ↦ rfl, fun _ _ ↦ rfl, .inl ⟨rfl, by simp⟩⟩
  | join hjoining hexited => exact ⟨id, id, by simp, .inr ⟨rfl, hexited, _, rfl, hjoining⟩⟩
  | test hpc | lock hpc | check hpc | found hpc | sleep hpc | wakeSpurious hpc | relock hpc
  | decide hpc | take hpc | release hpc | breakOff hpc | endTask hpc =>
    exact ⟨fun h ↦ absurd (hpc.symm.trans h) (by simp), id, by simp, .inl ⟨rfl, by simp⟩⟩

theorem Kept.go {tr : List (Event τ)} {s s' : State τ} {l : Label τ} (hi : Kept tr s)
    (h : Rule s l s') : Kept (tr ++ [.go l]) s' := by
  obtain ⟨hexited, hkeep, hstore, hjoinable⟩ := of_rule h
  have hjoined : s'.joinable = false → s.joinable = false ∨ s'.m_stopped = true := by
    intro hj
    rcases hjoinable with ⟨hj', -⟩ | ⟨-, -, th, -, hth⟩
    · exact .inl (hj' ▸ hj)
    · exact .inr (hkeep (hi.calls.stopped th (.inr hth)))
  refine ⟨h.inCalls hi.calls, ?_, fun hj ↦ ?_, ?_, ?_, fun hstart hj ↦ ?_⟩
  · rw [steps_concat]
    change executedTasks (steps tr ++ [l]) ++ _ = pushedTasks (steps tr ++ [l])
    rw [executedTasks_concat, pushedTasks_concat, List.append_assoc, h.tasks, ← List.append_assoc,
      hi.line]
  · rcases hjoinable with ⟨hj', -⟩ | ⟨-, hpc, -⟩
    · exact hexited (hi.left (hj' ▸ hj))
    · exact hexited hpc
  · rw [unjoined_concat]
    rcases hjoinable with ⟨hj', hne⟩ | ⟨hj', -, th, rfl, -⟩
    · rw [hj', hi.unjoined]
      constructor
      · exact fun hu ↦ .inr ⟨hu, fun th he ↦ by cases he; exact hne th rfl⟩
      · rintro (he | ⟨hu, -⟩)
        · cases he
        · exact hu
    · rw [hj']
      refine iff_of_false Bool.false_ne_true ?_
      rintro (he | ⟨-, hne⟩)
      · cases he
      · exact hne th rfl
  · rintro ⟨th, hth⟩
    rcases List.mem_append.mp hth with hth | hth
    · exact hkeep (hi.stored ⟨th, hth⟩)
    · cases List.mem_singleton.mp hth
      exact hstore th rfl
  · rcases hjoined hj with hj | hstopped
    · refine hkeep (hi.joined ?_ hj)
      simpa using hstart
    · exact hstopped

theorem Kept.start {tr : List (Event τ)} {s : State τ} (hi : Kept tr s)
    (hj : s.joinable = false) :
    Kept (tr ++ [.start]) { s with joinable := true, pc := .testing } := by
  have hpc := hi.left hj
  have hsteps : steps (tr ++ [.start]) = steps tr := by
    rw [steps_concat]
    exact List.append_nil _
  refine ⟨⟨.inl ?_, hi.calls.stopped⟩, ?_, fun h ↦ (by cases h), ?_, ?_, fun _ h ↦ (by cases h)⟩
  · exact hi.calls.dispatcher.resolve_right fun ⟨task, hrun⟩ ↦ by
      rw [hpc] at hrun
      cases hrun
  · have hline := hi.line
    rw [hpc] at hline
    rw [hsteps]
    exact hline
  · exact iff_of_true rfl (unjoined_concat.mpr (.inl rfl))
  · rintro ⟨th, hth⟩
    exact hi.stored ⟨th, by simpa using hth⟩

/-! ## All runs -/

variable [DecidableEq τ]

/-- A life that is over has no steps. -/
theorem nil_of_over {L L' : Life τ} {tr : List (Event τ)} (hL : ∀ s, L ≠ .alive s)
    (h : run step L tr = some L') : tr = [] ∧ L' = L := by
  cases tr with
  | nil => exact ⟨rfl, (Option.some_inj.mp h).symm⟩
  | cons e tr =>
    obtain ⟨L₁, h₁, -⟩ := run_cons_eq_some.mp h
    cases L with
    | alive s => exact absurd rfl (hL s)
    | destroyed | terminated => cases h₁

/-- Nor do any that come after it. -/
theorem Spent.run {s : State τ} {L : Life τ} {tr : List (Event τ)} (hs : Spent s)
    (h : Transition.run Life.step (.alive s) tr = some L) :
    executedTasks (steps tr) = [] ∧ ∀ task, .go (.take task) ∉ tr := by
  induction tr generalizing s with
  | nil => exact ⟨rfl, fun _ h ↦ absurd h List.not_mem_nil⟩
  | cons e tr ih =>
    obtain ⟨L₁, h₁, h₂⟩ := run_cons_eq_some.mp h
    cases e with
    | start =>
      obtain rfl := Option.some_inj.mp h₁
      rw [State.start] at h₂
      split at h₂
      · obtain ⟨rfl, -⟩ := nil_of_over (fun _ h ↦ by cases h) h₂
        exact ⟨rfl, by simp⟩
      · have hspent : Spent { s with joinable := true, pc := .testing } := ⟨hs.1, .inl rfl⟩
        obtain ⟨hexecuted, htake⟩ := ih hspent h₂
        exact ⟨hexecuted, by simpa using htake⟩
    | go l =>
      obtain ⟨s', hs', rfl⟩ := Option.map_eq_some_iff.mp h₁
      obtain ⟨hspent, hexecutes, hne⟩ := hs.step (rule_of_step hs')
      obtain ⟨hexecuted, htake⟩ := ih hspent h₂
      refine ⟨?_, fun task hmem ↦ ?_⟩
      · rw [executedTasks] at hexecuted
        simpa [steps, executedTasks, hexecutes] using hexecuted
      · rcases List.mem_cons.mp hmem with he | hmem
        · cases he
          exact hne task rfl
        · exact htake task hmem
    | destroy =>
      obtain rfl := Option.some_inj.mp h₁
      have hdestroyed : ∀ s', s.destroy ≠ .alive s' := by
        intro s' h
        rw [State.destroy] at h
        split at h <;> cases h
      obtain ⟨rfl, -⟩ := nil_of_over hdestroyed h₂
      exact ⟨rfl, by simp⟩

/-- What a history says about its end. -/
def Account (tr : List (Event τ)) : Life τ → Prop
  | .alive s => Kept tr s
  | .destroyed rest => executedTasks (steps tr) ++ rest = pushedTasks (steps tr)
  | .terminated => ∃ tr₁ e, tr = tr₁ ++ [e] ∧ (e = .start ∨ e = .destroy) ∧ Unjoined tr₁

end Life

end TaskDispatch
