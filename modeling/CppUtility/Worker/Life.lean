import CppUtility.Worker.Queues
import CppUtility.Worker.Timers

/-!
# The life of a `GeneralWorker`

`CppUtility.Worker.Step` begins where `start` has just returned true for the first time.  Here a
worker is followed from its construction on: its owner calls `start` and `wait` as often as it
likes, and between these calls everything of `CppUtility.Worker.Step` goes on.  `start` is one step,
since it writes plain members that the other functions read: nobody else may be inside the object
meanwhile.

`start` tests nothing but `m_stopped`, which `stop` sets at its beginning.  So a second `start` can
find the first one's thread, event base, notifier and descriptor in place.  It overwrites the
pointers, and when it comes to launch its own thread, the assignment destroys a thread object that
may be joinable, which terminates the process.  Even after a `wait` the base and the notifier are
still there.  `restart_iff` says that a worker can be started once and not again.

* **Two views of one worker.**  A `start` that fails half-way replaces `m_evbase` and drops
  `m_evfd`, while the loop of an earlier `start` still runs with the old ones.  `detached` keeps
  what this loop works with, and `view` is the worker as the loop finds it.
* **What a step leaves alone.**  `Keeps` has the members that only `start` changes.  A step of the
  threads inside is a step of `CppUtility.Worker.Step` in any case (`work_cases`), so that `Keeps`
  is proved for those.
* **Whole calls.**  `Life.stop` is `stop` in one go, for an owner who makes no other call meanwhile;
  `run_stopSteps` gives the steps it stands for.
-/

set_option autoImplicit false

namespace GeneralWorker

open Transition

variable {τ : Type*}

/-- A worker with its threads, at any time of its life.  `m_thread` says that the pointer of that
name is not null; `loopBase` is the base that `loop` has given to `event_base_dispatch`.

A `start` that fails replaces `m_evbase` and drops `m_evfd` even while the loop of an
earlier `start` is still running.  `detached` has what this loop still works with then: the counter
of its descriptor, and whether `event_base_loopexit` was called on its base. -/
structure Life (τ : Type*) extends State τ where
  m_thread : Bool
  loopBase : Option Ptr
  detached : Option (ℕ × Bool)
  terminated : Bool

/-- The event that this step of the loop finds due. -/
def Label.fires : Label τ → Option Ptr
  | .fire ev _ => some ev
  | _ => none

/-- The kernel adds one to the counter behind the descriptor, unless it is at its maximum. -/
def Worker.writable (w : Worker τ) : Bool := w.m_evfd.all (· < 0xfffffffffffffffe)

namespace Life

/-- A worker that has just been constructed. -/
def init : Life τ where
  toWorker := Worker.init
  m_lock := none
  frame := fun _ ↦ .idle
  loop := .exited
  m_thread := false
  loopBase := none
  detached := none
  terminated := false

/-- The thread of the owner, who calls `start` and `wait`. -/
def owner : Thread := .client 0

/-- A step of the owner's calls, or of the threads inside the worker. -/
inductive Label (τ : Type*)
  | start (fd : Bool)
  | wait
  | work (l : GeneralWorker.Label τ)
  deriving DecidableEq

/-- `start`.  When it comes to launch a thread, the assignment to `m_thread` destroys the previous
thread object, if there is one; it is joinable, so the process is terminated. -/
def start (s : Life τ) (fd : Bool) : Life τ :=
  if s.m_stopped = false then s
  else
    let r := s.toWorker.start fd
    if r.2 = false then
      { s with
        toWorker := r.1
        detached := if s.m_thread then s.detached <|> s.m_evfd.map (·, s.loopexit) else s.detached }
    else if s.m_thread then { s with toWorker := r.1, terminated := true }
    else
      { s with
        toWorker := r.1
        loop := .dispatch
        m_thread := true
        loopBase := r.1.m_evbase
        detached := none }

/-- `stop`, in one go. -/
def stop (s : Life τ) : Life τ × Bool :=
  if s.m_stopped then (s, false)
  else
    let w := { s.toWorker with m_stopped := true }
    ({ s with toWorker := (w.notify w.writable).getD w }, true)

variable [DecidableEq τ]

/-- `wait`: joins the thread, if there is one. -/
def wait (s : Life τ) : Option (Life τ) :=
  if s.m_thread = false then some s
  else if s.loop = .exited then some { s with m_thread := false }
  else none

/-- The step touches the descriptor or the base that the running loop works with. -/
def onLoop : GeneralWorker.Label τ → Bool
  | .wake => true
  | .read => true
  | .exit => true
  | _ => false

/-- What the running loop finds at its descriptor and its base. -/
def view (s : Life τ) (n : ℕ) (exits : Bool) : State τ :=
  { s.toState with m_evfd := some n, loopexit := exits }

/-- A step of the threads inside the worker.  The loop hears of the events of its own base only. -/
def work (s : Life τ) (l : GeneralWorker.Label τ) : Option (Life τ) :=
  match s.detached, onLoop l with
  | some (n, exits), true =>
    (GeneralWorker.step (s.view n exits) l).map fun s' ↦
      { s with
        toState := { s' with m_evfd := s.m_evfd, loopexit := s.loopexit }
        detached := s'.m_evfd.map (·, exits) }
  | _, _ =>
    if l.fires.all fun ev ↦ (s.events ev).all fun e ↦ e.base = s.loopBase then
      (GeneralWorker.step s.toState l).map fun s' ↦ { s with toState := s' }
    else none

/-- One step in the life of a worker. -/
def step (s : Life τ) : Label τ → Option (Life τ)
  | .start fd =>
    if s.terminated = false ∧ s.frame owner = .idle then some (s.start fd) else none
  | .wait => if s.terminated = false ∧ s.frame owner = .idle then s.wait else none
  | .work l => if s.terminated = false then s.work l else none

end Life

/-! ## What a step inside the worker leaves alone -/

theorem purgeTimerInternal_base (w : Worker τ) (id : UInt64) :
    (w.purgeTimerInternal id).m_evbase = w.m_evbase := by
  rw [Worker.purgeTimerInternal]
  split <;> rfl

/-- A step keeps the base, the notifier and the descriptor, and does not take a stop back. -/
structure Keeps (w w' : Worker τ) : Prop where
  base : w'.m_evbase = w.m_evbase
  notifier : w'.m_notifier = w.m_notifier
  evfd : w'.m_evfd.isSome = w.m_evfd.isSome
  stopped : w.m_stopped = true → w'.m_stopped = true

theorem SameFront.keeps {w w' : Worker τ} (h : SameFront w w') (hbase : w'.m_evbase = w.m_evbase) :
    Keeps w w' :=
  ⟨hbase, h.notifier, by rw [h.evfd], fun hs ↦ h.stopped.trans hs⟩

theorem notify_keeps {w w' : Worker τ} {ok : Bool} (h : w.notify ok = some w') : Keeps w w' := by
  unfold Worker.notify at h
  split at h
  · cases h; exact ⟨rfl, rfl, rfl, id⟩
  · cases h; exact ⟨rfl, rfl, rfl, id⟩
  · next n hn =>
    split at h
    · cases h; exact ⟨rfl, rfl, by simp [hn], id⟩
    · split at h
      · cases h; exact ⟨rfl, rfl, rfl, id⟩
      · cases h

theorem Rule.keeps {s s' : State τ} {l : Label τ} (h : Rule s l s') :
    Keeps s.toWorker s'.toWorker := by
  cases h with
  | call | unlock | loadStopped | ret | wake | testStopped | release | runTask | endTask | endBlock
  | exit => exact ⟨rfl, rfl, rfl, id⟩
  | storeStopped => exact ⟨rfl, rfl, rfl, fun _ ↦ rfl⟩
  | read => exact ⟨rfl, rfl, by simp, id⟩
  | @push th c w r hcalled hfree hpush =>
    cases c <;> simp only [pushSection, Option.some_inj, Prod.mk.injEq, reduceCtorEq] at hpush <;>
      obtain ⟨rfl, -⟩ := hpush <;> exact ⟨rfl, rfl, rfl, id⟩
  | notify howes hwrite => exact notify_keeps hwrite
  | @swap q hloop hfree => cases q <;> exact ⟨rfl, rfl, rfl, id⟩
  | @register p rest w hloop hreg =>
    refine (registerTimer_same hreg).keeps ?_
    rw [Worker.registerTimer] at hreg
    split at hreg
    · cases hreg
    · next t _ =>
      obtain rfl := Option.some_inj.mp hreg
      cases s.m_activeTimers t.m_id <;> rfl
  | purge hloop => exact (purgeTimerInternal_same ..).keeps (purgeTimerInternal_base ..)
  | fire hloop hfire =>
    refine (fireTimer_same hfire).keeps ?_
    obtain ⟨e, -, -, rfl⟩ := fireTimer_eq_some.mp hfire
    rfl
  | endFire hloop hidle hafter =>
    refine (afterCallback_same hafter).keeps ?_
    obtain ⟨t, -, rfl⟩ := Option.map_eq_some_iff.mp hafter
    show (if t.m_intervalMSec = 0 then _ else _ : Worker τ).m_evbase = s.m_evbase
    split
    · exact purgeTimerInternal_base ..
    · rfl

namespace Life

variable [DecidableEq τ]

/-- **What a step of the threads inside the worker is**: a step of `CppUtility.Worker.Step`, with
the descriptor and the base that concern it. -/
theorem work_cases {s s' : Life τ} {l : GeneralWorker.Label τ} (h : s.work l = some s') :
    ∃ (fd : Option ℕ) (exits : Bool) (s₁ : State τ),
      Rule { s.toState with m_evfd := fd, loopexit := exits } l s₁ ∧
      s'.toState = { s₁ with m_evfd := s'.m_evfd, loopexit := s'.loopexit } ∧
      s'.m_evfd.isSome = s.m_evfd.isSome ∧
      s'.m_thread = s.m_thread ∧ s'.terminated = s.terminated := by
  rw [work] at h
  split at h
  · obtain ⟨s₁, hs, rfl⟩ := Option.map_eq_some_iff.mp h
    exact ⟨_, _, s₁, rule_of_step hs, rfl, rfl, rfl, rfl⟩
  · obtain ⟨-, h⟩ := Option.ite_none_right_eq_some.mp h
    obtain ⟨s₁, hs, rfl⟩ := Option.map_eq_some_iff.mp h
    exact ⟨_, _, s₁, rule_of_step hs, rfl, (rule_of_step hs).keeps.evfd, rfl, rfl⟩

/-- A step other than `start` makes no resource and no thread. -/
theorem step_other {s s' : Life τ} {l : Label τ} (h : s.step l = some s')
    (hl : ∀ fd, l ≠ .start fd) : Keeps s.toWorker s'.toWorker ∧
      (s.m_thread = false → s'.m_thread = false) ∧ s'.terminated = s.terminated := by
  cases l with
  | start fd => exact absurd rfl (hl fd)
  | wait =>
    obtain ⟨-, h⟩ := Option.ite_none_right_eq_some.mp h
    rw [wait] at h
    split at h
    · cases h; exact ⟨⟨rfl, rfl, rfl, id⟩, id, rfl⟩
    · obtain ⟨-, rfl⟩ := Option.ite_none_right_eq_some.mp h |>.imp_right Option.some_inj.mp
      exact ⟨⟨rfl, rfl, rfl, id⟩, fun _ ↦ rfl, rfl⟩
  | work l =>
    obtain ⟨-, h⟩ := Option.ite_none_right_eq_some.mp h
    obtain ⟨fd, exits, s₁, hrule, hs', hevfd, hthread, hterminated⟩ := work_cases h
    obtain ⟨hbase, hnotifier, -, hstopped⟩ := hrule.keeps
    refine ⟨⟨?_, ?_, hevfd, ?_⟩, fun ht ↦ hthread.trans ht, hterminated⟩
    · rw [hs']
      exact hbase
    · rw [hs']
      exact hnotifier
    · rw [hs']
      exact hstopped

/-! ## A whole call of `stop`

A call of `stop` is five steps of its thread, between which anything can happen; without anything
in between they amount to `Life.stop`. -/

omit [DecidableEq τ] in
theorem notify_writable (w : Worker τ) : (w.notify w.writable).isSome = true := by
  unfold Worker.notify Worker.writable
  split
  · rfl
  · rfl
  · next _ n _ hn =>
    by_cases hmax : n < 0xfffffffffffffffe
    · simp [hn, hmax]
    · have h0 : n ≠ 0 := by omega
      simp [hn, hmax, h0]

omit [DecidableEq τ] in
/-- A `stop` that finds the worker running changes the flag and the counter. -/
theorem stop_running {s : Life τ} (hrunning : s.m_stopped = false) :
    ∃ w, { s.toWorker with m_stopped := true }.notify s.writable = some w ∧
      w = { s.toWorker with m_stopped := true, m_evfd := w.m_evfd } ∧
      s.stop = ({ s with toWorker := w }, true) := by
  obtain ⟨w, hw⟩ := Option.isSome_iff_exists.mp
    (notify_writable { s.toWorker with m_stopped := true })
  exact ⟨w, hw, notify_same hw, by simp [stop, hrunning, hw]⟩

/-- The steps of a `stop` that finds the worker running. -/
def stopSteps (th : Thread) (ok : Bool) : List (GeneralWorker.Label τ) :=
  [.call th .stop, .loadStopped th false, .storeStopped th, .notify th ok, .ret th (.bool true)]

/-- **`Life.stop` is the five steps of a call of `stop`**, made by a thread that is not inside a
call. -/
theorem run_stopSteps {s : Life τ} {i : ℕ} (hidle : s.frame (.client i) = .idle)
    (hrunning : s.m_stopped = false) :
    run GeneralWorker.step s.toState (stopSteps (.client i) s.writable)
      = some s.stop.1.toState := by
  obtain ⟨w, hw, -, hstop⟩ := stop_running hrunning
  have hback : Function.update s.frame (.client i) .idle = s.frame := by
    rw [← hidle, Function.update_eq_self]
  simp [stopSteps, run, GeneralWorker.step, hidle, State.mayCall, State.setFrame, hrunning, hw,
    hback, hstop]

/-! ## Starting again

A `start` that passes its guard finds nothing in the members exactly if it is the first call of
`start`, and then it has nothing to drop and no thread to destroy.  The members tell the calls of
the past apart well enough for that (`Started`): after any `start`, failed or not, there is an event
base. -/

/-- The things that a `start` which has passed its guard assigns to. -/
inductive Resource
  | base (p : Ptr)
  | event (p : Ptr)
  | descriptor
  | thread
  deriving DecidableEq

omit [DecidableEq τ] in
/-- What such a `start` overwrites, or destroys while it is joinable. -/
def overwritten (s : Life τ) (fd : Bool) : List Resource :=
  s.m_evbase.toList.map .base ++ (s.m_evfd.toList.map fun _ ↦ .descriptor) ++
    if fd then s.m_notifier.toList.map .event ++ (if s.m_thread then [.thread] else []) else []

/-- A `start` that passes its guard finds nothing. -/
def StartsClean (_ : List (Label τ)) (s : Life τ) (l : Label τ) : Prop :=
  ∀ fd, l = .start fd → s.m_stopped = true →
    s.m_thread = false ∧ s.m_evbase = none ∧ s.m_notifier = none ∧ s.m_evfd = none

/-- A `start` that passes its guard overwrites nothing. -/
def DropsNothing (_ : List (Label τ)) (s : Life τ) (l : Label τ) : Prop :=
  ∀ fd, l = .start fd → s.m_stopped = true → s.overwritten fd = []

/-- A `start` that passes its guard is the first call of `start`. -/
def StartsOnce (tr : List (Label τ)) (s : Life τ) (l : Label τ) : Prop :=
  ∀ fd, l = .start fd → s.m_stopped = true → ∀ fd', .start fd' ∉ tr

/-- What the calls of `start` in the history say about the members. -/
structure Started (tr : List (Label τ)) (s : Life τ) : Prop where
  /-- Before the first call there is nothing. -/
  before : (∀ fd, .start fd ∉ tr) → s.m_thread = false ∧ s.m_evbase = none ∧ s.m_notifier = none ∧
    s.m_evfd = none ∧ s.m_stopped = true
  /-- After it there is an event base. -/
  after : ∀ fd, .start fd ∈ tr → s.m_evbase ≠ none
  /-- A worker that runs has been started. -/
  running : s.m_stopped = false → s.m_evbase ≠ none

omit [DecidableEq τ] in
theorem start_base (s : Life τ) {fd : Bool} (h : s.m_stopped = true) :
    (s.start fd).m_evbase ≠ none := by
  have hbase : ∀ fd, (s.toWorker.start fd).1.m_evbase ≠ none := by
    intro fd
    cases fd <;> simp [Worker.start, h]
  rw [start, if_neg (by simp [h])]
  dsimp only
  split
  · exact hbase fd
  · split <;> exact hbase fd

theorem Started.step {tr : List (Label τ)} {s s' : Life τ} {l : Label τ} (hi : Started tr s)
    (h : s.step l = some s') : Started (tr ++ [l]) s' := by
  by_cases hl : ∃ fd, l = .start fd
  · obtain ⟨fd, rfl⟩ := hl
    obtain ⟨-, rfl⟩ := Option.ite_none_right_eq_some.mp h |>.imp_right Option.some_inj.mp
    have hbase : (s.start fd).m_evbase ≠ none := by
      cases hstopped : s.m_stopped with
      | true => exact start_base s hstopped
      | false => simpa [Life.start, hstopped] using hi.running hstopped
    exact ⟨fun hnone ↦ absurd (by simp) (hnone fd), fun _ _ ↦ hbase, fun _ ↦ hbase⟩
  · rw [not_exists] at hl
    obtain ⟨hkeeps, hthread, -⟩ := step_other h hl
    have hmem : ∀ fd, .start fd ∈ tr ++ [l] ↔ .start fd ∈ tr := by
      intro fd
      simp [Ne.symm (hl fd)]
    refine ⟨fun hnone ↦ ?_, fun fd hfd ↦ ?_, fun hrunning ↦ ?_⟩
    · obtain ⟨h1, h2, h3, h4, h5⟩ := hi.before fun fd hfd ↦ hnone fd ((hmem fd).mpr hfd)
      have hevfd := hkeeps.evfd
      rw [h4] at hevfd
      exact ⟨hthread h1, hkeeps.base.trans h2, hkeeps.notifier.trans h3,
        Option.isSome_eq_false_iff.mp hevfd |> Option.isNone_iff_eq_none.mp, hkeeps.stopped h5⟩
    · rw [hkeeps.base]
      exact hi.after fd ((hmem fd).mp hfd)
    · rw [hkeeps.base]
      refine hi.running ?_
      by_contra hstopped
      rw [hkeeps.stopped (by simpa using hstopped)] at hrunning
      cases hrunning

theorem started_of_run {tr : List (Label τ)} {s : Life τ} (h : run step init tr = some s) :
    Started tr s :=
  run_induction (P := Started) ⟨fun _ ↦ ⟨rfl, rfl, rfl, rfl, rfl⟩, by simp, by simp [init,
    Worker.init]⟩ (fun _ _ _ _ _ hi hs ↦ hi.step hs) h

omit [DecidableEq τ] in
/-- A `start` that passes its guard finds nothing exactly if it is the first. -/
theorem Started.clean_iff {tr : List (Label τ)} {s : Life τ} (hi : Started tr s) (l : Label τ) :
    StartsClean tr s l ↔ StartsOnce tr s l := by
  constructor
  · intro hclean fd hl hstopped fd' hfd'
    exact hi.after fd' hfd' (hclean fd hl hstopped).2.1
  · intro honce fd hl hstopped
    obtain ⟨h1, h2, h3, h4, -⟩ := hi.before (honce fd hl hstopped)
    exact ⟨h1, h2, h3, h4⟩

omit [DecidableEq τ] in
theorem StartsClean.drops {tr : List (Label τ)} {s : Life τ} {l : Label τ}
    (h : StartsClean tr s l) : DropsNothing tr s l := by
  intro fd hl hstopped
  obtain ⟨h1, h2, h3, h4⟩ := h fd hl hstopped
  simp [overwritten, h1, h2, h3, h4]

/-- Only a `start` that finds a thread ends the process. -/
theorem terminated_of_run {tr : List (Label τ)} {s : Life τ} (h : run step init tr = some s)
    (hclean : Along step StartsClean init tr) : s.terminated = false := by
  refine run_induction (P := fun tr s ↦ Along step StartsClean init tr → s.terminated = false)
    (fun _ ↦ rfl) ?_ h hclean
  intro tr s l s' hr ih hs halong
  obtain ⟨hclean, hl⟩ := (along_concat hr).mp halong
  by_cases hstart : ∃ fd, l = .start fd
  · obtain ⟨fd, rfl⟩ := hstart
    obtain ⟨-, rfl⟩ := Option.ite_none_right_eq_some.mp hs |>.imp_right Option.some_inj.mp
    rw [start]
    split
    · exact ih hclean
    · next hstopped =>
      obtain ⟨hthread, -⟩ := hl fd rfl (by simpa using hstopped)
      simp only [hthread]
      split <;> exact ih hclean
  · rw [not_exists] at hstart
    rw [(step_other hs hstart).2.2]
    exact ih hclean

/-- **When a worker can be started again without harm: never.**  Every `start` that passes its guard
finds no thread, no base, no notifier and no descriptor, so that none of them is dropped and the
process is not terminated, exactly if none but the first call of `start` passes its guard. -/
theorem restart_iff {tr : List (Label τ)} {s : Life τ} (h : run step init tr = some s) :
    (Along step StartsClean init tr ∧ Along step DropsNothing init tr ∧ s.terminated = false) ↔
      Along step StartsOnce init tr := by
  constructor
  · rintro ⟨hclean, -, -⟩
    exact along_mono hclean fun _ _ l hr ↦ ((started_of_run hr).clean_iff l).mp
  · intro honce
    have hclean : Along step StartsClean init tr :=
      along_mono honce fun _ _ l hr ↦ ((started_of_run hr).clean_iff l).mpr
    exact ⟨hclean, along_mono hclean fun _ _ _ _ ↦ StartsClean.drops, terminated_of_run h hclean⟩

/-- The step is a call of `start`. -/
def Label.isStart : Label τ → Bool
  | .start _ => true
  | _ => false

theorem startsOnce_of_count {tr : List (Label τ)} (h : tr.countP Label.isStart ≤ 1) :
    Along step StartsOnce init tr := by
  intro tr₁ l tr₂ s htr _ fd hl _ fd' hmem
  have hpos : 0 < tr₁.countP Label.isStart := List.countP_pos_iff.mpr ⟨_, hmem, rfl⟩
  rw [htr, hl, List.countP_append, List.countP_cons_of_pos rfl] at h
  omega

/-- A call of `stop` by the owner, which finds the worker running. -/
def stopCall : List (Label τ) :=
  [.work (.call owner .stop), .work (.loadStopped owner false), .work (.storeStopped owner),
    .work (.notify owner true), .work (.ret owner (.bool true))]

/-- The last round of the loop, after a stop, when all queues are empty. -/
def lastRound : List (Label τ) :=
  (roundStart true ++ roundEnd ++ [GeneralWorker.Label.exit]).map .work

/-- A worker is started, stopped and waited for. -/
def startStopWait : List (Label ℕ) := .start true :: stopCall ++ lastRound ++ [.wait]

theorem restart_iff_startStopWait : ∃ s, run step init startStopWait = some s ∧
    Along step StartsClean init startStopWait ∧ s.terminated = false := by
  have hrun : ((run step init startStopWait).any fun _ ↦ true) = true := by decide
  obtain ⟨s, hs, -⟩ := exists_run_of_any hrun
  obtain ⟨hclean, -, hlive⟩ := (restart_iff hs).mpr (startsOnce_of_count (by decide))
  exact ⟨s, hs, hclean, hlive⟩

/-- A worker is started, stopped and started again. -/
def startStopStart : List (Label ℕ) := .start true :: stopCall ++ [.start true]

/-- **Starting again after a stop terminates the process.** -/
theorem start_after_stop_terminates :
    ¬∀ tr s, run (step (τ := ℕ)) init tr = some s →
      Along step StartsClean init tr ∧ Along step DropsNothing init tr ∧ s.terminated = false := by
  have hrun : ((run step init startStopStart).any fun s ↦ s.terminated) = true := by decide
  obtain ⟨s, hs, hterminated⟩ := exists_run_of_any hrun
  intro hall
  obtain ⟨-, -, hlive⟩ := hall startStopStart s hs
  rw [hlive] at hterminated
  cases hterminated

end Life

end GeneralWorker
