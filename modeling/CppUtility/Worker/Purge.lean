import CppUtility.Worker.Queues
import CppUtility.Worker.Timers

/-!
# When a purge takes effect

`addRepeatTask` and `purgeTimerTask` put their requests into two queues, which `onNotify` swaps at
two moments: first the timers, then, in a section of its own, the purges.  A client that adds a
timer and purges it *between* the two swaps of one round has its purge consumed while the `Timer`
still waits in `m_pendingTimers`.  `purgeTimerInternal` does not find it, the next round registers
it, and its callback runs until the worker is destroyed (`purge_between_swaps_lost`).

That is the only way: if no purge is pushed between the two swaps while its `Timer` is waiting
(`PurgeInTime`), every purge takes effect (`purge_takes_effect`).  The condition is on the steps
that push, at the moment when they do.

* **Places.**  `State.Holds` says that a `Timer` is in the queue, in the batch or in the map.  No
  step brings a `Timer` back that is in none of them (`Rule.holds_back`), so being purged lasts.
* **Names.**  The id that a call returns names one `Timer` (`named`), as long as that lives.  Other
  timers may get the same id later; a purge may then hit the wrong one, but not miss the right one.
* **One request.**  The requests form a line, as the tasks do, and a request is the `n`-th of it.
  `LoopPC.covers` says that the round that will consume it has swapped the timers already, and
  `Awaits` that the `Timer` is not left waiting in that case.  A request moves up in the line
  (`Awaits.step`), and at the end of it the `Timer` is in the map or nowhere (`Awaits.purged`).
* **Its fate.**  `Fate` is the request at any time, by the number of requests consumed since it was
  pushed: it is still in the line, or its `Timer` is in no place.
-/

set_option autoImplicit false

namespace GeneralWorker

open Transition

variable {τ : Type*}

/-! ## The line of purges -/

/-- The id this step pushes into `m_purgingingTimers`. -/
def Label.purgePush : Label τ → List UInt64
  | .push _ (.purgeTimerTask id) => [id]
  | _ => []

/-- The purges requested, in the order of their sections under `m_lock`. -/
def purgePushes (tr : List (Label τ)) : List UInt64 := tr.flatMap Label.purgePush

/-- The id that this step hands to `purgeTimerInternal` for a request. -/
def Label.purged : Label τ → List UInt64
  | .purge id => [id]
  | _ => []

/-- The purges consumed, in order. -/
def purgesDone (tr : List (Label τ)) : List UInt64 := tr.flatMap Label.purged

theorem purgesDone_append (tr tr' : List (Label τ)) :
    purgesDone (tr ++ tr') = purgesDone tr ++ purgesDone tr' := by
  rw [purgesDone, List.flatMap_append]
  rfl

@[simp] theorem purgesDone_push (th : Thread) (c : Call τ) (tr : List (Label τ)) :
    purgesDone (.push th c :: tr) = purgesDone tr := rfl

/-- What is left of the batch of purges. -/
def LoopPC.purgeBatch : LoopPC τ → List UInt64
  | .swapped (.purges l) => l
  | .working (.purges l) => l
  | _ => []

/-- The requests that have not been consumed, the oldest first. -/
def State.purgeLine (s : State τ) : List UInt64 := s.loop.purgeBatch ++ s.m_purgingingTimers

theorem Batch.next_purgeBatch {b : Batch τ} {pc : LoopPC τ} (h : b.next = some pc) :
    (LoopPC.working b).purgeBatch = [] ∧ pc.purgeBatch = [] := by
  unfold Batch.next at h
  split at h <;> cases h <;> exact ⟨rfl, rfl⟩

theorem pushSection_purges {w w' : Worker τ} {c : Call τ} {r : Ret τ} (th : Thread)
    (h : pushSection w c = some (w', r)) :
    w'.m_purgingingTimers = w.m_purgingingTimers ++ (Label.push th c).purgePush := by
  cases c <;> simp only [pushSection, Option.some_inj, Prod.mk.injEq, reduceCtorEq] at h <;>
    obtain ⟨rfl, -⟩ := h <;>
    simp [Worker.pushTask, Worker.addTimerTask, Worker.pushPurge, Label.purgePush]

/-- **One step and the line of purges.** -/
theorem Rule.purges {s s' : State τ} {l : Label τ} (h : Rule s l s') :
    l.purged ++ s'.purgeLine = s.purgeLine ++ l.purgePush := by
  unfold State.purgeLine
  cases h with
  | call | unlock | loadStopped | storeStopped | ret =>
    simp [Label.purged, Label.purgePush, State.setFrame]
  | @push th c w r hcalled hfree hpush =>
    simp [Label.purged, State.setFrame, pushSection_purges th hpush]
  | notify howes hwrite =>
    rw [notify_same hwrite]
    simp [Label.purged, Label.purgePush, State.setFrame]
  | @swap q hloop hfree =>
    cases q <;> simp [Label.purged, Label.purgePush, LoopPC.purgeBatch, hloop, swapQueue]
  | @release b hloop =>
    cases b <;> simp [Label.purged, Label.purgePush, LoopPC.purgeBatch, hloop]
  | wake hloop | read hloop | testStopped hloop | runTask hloop | endTask hloop | exit hloop =>
    simp [Label.purged, Label.purgePush, LoopPC.purgeBatch, hloop]
  | register hloop hreg =>
    simp [Label.purged, Label.purgePush, LoopPC.purgeBatch, hloop, (registerTimer_same hreg).purges]
  | @purge id rest hloop =>
    simp [Label.purged, Label.purgePush, LoopPC.purgeBatch, hloop,
      (purgeTimerInternal_same s.toWorker id).purges]
  | endBlock hloop hnext =>
    obtain ⟨h1, h2⟩ := Batch.next_purgeBatch hnext
    simp [Label.purged, Label.purgePush, hloop, h1, h2]
  | fire hloop hfire =>
    simp [Label.purged, Label.purgePush, LoopPC.purgeBatch, hloop, (fireTimer_same hfire).purges]
  | endFire hloop hidle hafter =>
    simp [Label.purged, Label.purgePush, LoopPC.purgeBatch, hloop,
      (afterCallback_same hafter).purges]

/-! ## Where a `Timer` can be

A `Timer` goes through its places in one direction: from the queue into the batch, from the batch
into the map, and from the map to nowhere.  The four lemmas say this backwards, from a place after a
step to the places before it. -/

/-- The `Timer` at `p` is in one of the three places that own timers. -/
def State.Holds (s : State τ) (p : Ptr) : Prop :=
  p ∈ s.m_pendingTimers ∨ p ∈ s.loop.timerBatch ∨ ∃ id, s.m_activeTimers id = some p

theorem pushSection_waits {w w' : Worker τ} {c : Call τ} {r : Ret τ}
    (h : pushSection w c = some (w', r)) :
    w'.m_activeTimers = w.m_activeTimers ∧
      ∀ p, p < w.nextPtr → p ∈ w'.m_pendingTimers → p ∈ w.m_pendingTimers := by
  have hadd : ∀ delay interval f p, p < w.nextPtr →
      p ∈ (w.addTimerTask delay interval f).m_pendingTimers → p ∈ w.m_pendingTimers := by
    intro delay interval f p hp hin
    rcases List.mem_append.mp hin with hin | hin
    · exact hin
    · exact absurd (List.mem_singleton.mp hin) (Nat.ne_of_lt hp)
  cases c <;> simp only [pushSection, Option.some_inj, Prod.mk.injEq, reduceCtorEq] at h <;>
    obtain ⟨rfl, -⟩ := h
  · exact ⟨rfl, fun p _ hin ↦ hin⟩
  · exact ⟨rfl, hadd _ _ _⟩
  · exact ⟨rfl, hadd _ _ _⟩
  · exact ⟨rfl, fun p _ hin ↦ hin⟩

/-- A `Timer` never comes back into `m_pendingTimers`. -/
theorem Rule.pending_back {s s' : State τ} {l : Label τ} {p : Ptr} (h : Rule s l s')
    (hp : p < s.nextPtr) (hin : p ∈ s'.m_pendingTimers) : p ∈ s.m_pendingTimers := by
  cases h with
  | push hcalled hfree hpush => exact (pushSection_waits hpush).2 p hp hin
  | notify howes hwrite => rw [notify_same hwrite] at hin; exact hin
  | @swap q hloop hfree =>
    cases q with
    | timers => cases hin
    | tasks | purges => exact hin
  | register hloop hreg => exact (registerTimer_same hreg).timers ▸ hin
  | purge hloop => exact (purgeTimerInternal_same _ _).timers ▸ hin
  | fire hloop hfire => exact (fireTimer_same hfire).timers ▸ hin
  | endFire hloop hidle hafter => exact (afterCallback_same hafter).timers ▸ hin
  | call | unlock | loadStopped | storeStopped | ret | wake | read | testStopped | release | runTask
  | endTask | endBlock | exit => exact hin

/-- Nor does a `Timer` come back into the active map, unless from the batch. -/
theorem Rule.active_back {s s' : State τ} {l : Label τ} {p : Ptr} {id : UInt64} (h : Rule s l s')
    (hi : TimersOwned s.toWorker s.loop.timerBatch) (hact : s'.m_activeTimers id = some p) :
    p ∈ s.loop.timerBatch ∨ s.m_activeTimers id = some p := by
  cases h with
  | push hcalled hfree hpush => exact .inr ((pushSection_waits hpush).1 ▸ hact)
  | notify howes hwrite => rw [notify_same hwrite] at hact; exact .inr hact
  | @swap q hloop hfree => cases q <;> exact .inr hact
  | @register q rest w hloop hreg =>
    rw [hloop] at hi ⊢
    obtain ⟨t, ht⟩ := hi.alive q (by simp [LoopPC.timerBatch])
    rw [hi.registerTimer_eq ht, Option.some_inj] at hreg
    subst hreg
    by_cases hid : id = t.m_id
    · left
      obtain rfl : q = p := by simpa [Worker.install, hid] using hact
      exact List.mem_cons_self
    · right
      have hact' : (s.purgeTimerInternal t.m_id).m_activeTimers id = some p := by
        simpa [Worker.install, hid] using hact
      exact (purgeTimerInternal_active.mp hact').2
  | purge hloop => exact .inr (purgeTimerInternal_active.mp hact).2
  | fire hloop hfire =>
    obtain ⟨e, -, -, rfl⟩ := fireTimer_eq_some.mp hfire
    exact .inr hact
  | endFire hloop hidle hafter =>
    obtain ⟨t, -, rfl⟩ := Option.map_eq_some_iff.mp hafter
    right
    split at hact
    · exact (purgeTimerInternal_active.mp hact).2
    · exact hact
  | call | unlock | loadStopped | storeStopped | ret | wake | read | testStopped | release | runTask
  | endTask | endBlock | exit => exact .inr hact

/-- What is in the batch was there before, or has just been swapped out of `m_pendingTimers`. -/
theorem Rule.batch_back {s s' : State τ} {l : Label τ} {p : Ptr} (h : Rule s l s')
    (hin : p ∈ s'.loop.timerBatch) : p ∈ s.loop.timerBatch ∨ p ∈ s.m_pendingTimers := by
  cases h with
  | @swap q hloop hfree =>
    cases q with
    | timers => exact .inr hin
    | tasks | purges => cases hin
  | @release b hloop =>
    rw [hloop]
    cases b <;> exact .inl hin
  | register hloop hreg => rw [hloop]; exact .inl (List.mem_cons_of_mem _ hin)
  | endBlock hloop hnext => rw [(Batch.next_timerBatch hnext).2] at hin; cases hin
  | wake | read | testStopped | runTask | endTask | purge | fire | endFire | exit => cases hin
  | call | push | unlock | loadStopped | storeStopped | notify | ret => exact .inl hin

/-- **A `Timer` that is nowhere stays nowhere.** -/
theorem Rule.holds_back {s s' : State τ} {l : Label τ} {p : Ptr} (h : Rule s l s')
    (hi : TimersOwned s.toWorker s.loop.timerBatch) (hp : p < s.nextPtr) (hin : s'.Holds p) :
    s.Holds p := by
  rcases hin with hin | hin | ⟨id, hact⟩
  · exact .inl (h.pending_back hp hin)
  · rcases h.batch_back hin with hin | hin
    · exact .inr (.inl hin)
    · exact .inl hin
  · rcases h.active_back hi hact with hin | hact
    · exact .inr (.inl hin)
    · exact .inr (.inr ⟨id, hact⟩)

/-- libevent has no event left for a `Timer` that is nowhere. -/
theorem not_fire_of_not_holds [DecidableEq τ] {s : State τ} {p : Ptr}
    (hi : TimersOwned s.toWorker s.loop.timerBatch) (hgone : ¬s.Holds p) (ev : Ptr) :
    step s (.fire ev p) = none := by
  rw [Option.eq_none_iff_forall_ne_some]
  intro s' hs
  cases rule_of_step hs with
  | fire hloop hfire =>
    obtain ⟨e, he, ⟨-, hcb, -⟩, -⟩ := fireTimer_eq_some.mp hfire
    obtain ⟨t, -, -, hact⟩ := hi.event ev e p he hcb
    exact hgone (.inr (.inr ⟨t.m_id, hact⟩))

/-! ## The ids that have been given out -/

/-- `p` has been allocated, and the `Timer` there has the id `id` as long as it lives. -/
def Worker.Names (w : Worker τ) (p : Ptr) (id : UInt64) : Prop :=
  p < w.nextPtr ∧ ∀ t, w.timers p = some t → t.m_id = id

theorem Evolves.names {w w' : Worker τ} {p : Ptr} {id : UInt64} (h : Evolves w w')
    (hn : w.Names p id) : w'.Names p id := by
  refine ⟨Nat.lt_of_lt_of_le hn.1 h.next, fun t' ht' ↦ ?_⟩
  obtain ⟨t, ht, he⟩ := h.timers p t' hn.1 ht'
  have hid : t'.m_id = t.m_id := by rw [he]
  exact hid.trans (hn.2 t ht)

/-- What a call that has done its work is about to return. -/
def Frame.result : Frame τ → Option (Ret τ)
  | .pushed r => some r
  | .unlocked r => some r
  | .returning r => some r
  | _ => none

/-- The result of a thread that this step gives the id of a new `Timer` names that `Timer`; any
other result it had before. -/
theorem Rule.result {s s' : State τ} {l : Label τ} {th : Thread} {p : Ptr} {id : UInt64}
    (h : Rule s l s') (hres : (s'.frame th).result = some (.timerId p id)) :
    (s.frame th).result = some (.timerId p id) ∨ s'.Names p id := by
  -- a step that moves another thread's frame
  have hother : ∀ {th' : Thread} {f : Frame τ}, (s.setFrame th' f).frame th = s'.frame th →
      th ≠ th' → (s.frame th).result = some (.timerId p id) := by
    intro th' f hf hne
    rw [← hf] at hres
    simpa [State.setFrame, hne] using hres
  cases h with
  | @call th' c hidle hmay =>
    by_cases he : th = th'
    · subst he; simp [State.setFrame, Frame.result] at hres
    · exact .inl (hother rfl he)
  | @push th' c w r hcalled hfree hpush =>
    by_cases he : th = th'
    · subst he
      right
      cases c <;> simp only [pushSection, Option.some_inj, Prod.mk.injEq, reduceCtorEq] at hpush <;>
        obtain ⟨rfl, rfl⟩ := hpush <;> simp [State.setFrame, Frame.result] at hres
      obtain ⟨rfl, rfl⟩ := hres
      refine ⟨Nat.lt_succ_self _, fun t ht ↦ ?_⟩
      simp only [Worker.addTimerTask, Function.update_self, Option.some_inj] at ht
      rw [← ht]
    · exact .inl (hother rfl he)
  | @unlock th' r hpushed =>
    by_cases he : th = th'
    · subst he
      left
      simpa [State.setFrame, Frame.result, hpushed] using hres
    · exact .inl (hother rfl he)
  | @loadStopped th' hcalled =>
    by_cases he : th = th'
    · subst he
      cases hs : s.m_stopped <;> simp [State.setFrame, Frame.result, hs] at hres
    · exact .inl (hother rfl he)
  | @storeStopped th' hstopping =>
    by_cases he : th = th'
    · subst he; simp [State.setFrame, Frame.result] at hres
    · exact .inl (hother rfl he)
  | @notify th' ok r w howes hwrite =>
    by_cases he : th = th'
    · subst he
      left
      rcases howes with ho | ⟨-, rfl⟩
      · simpa [State.setFrame, Frame.result, ho] using hres
      · simp [State.setFrame, Frame.result] at hres
    · exact .inl (hother rfl he)
  | @ret th' r hret =>
    by_cases he : th = th'
    · subst he; simp [State.setFrame, Frame.result] at hres
    · exact .inl (hother rfl he)
  | wake | read | testStopped | swap | release | runTask | endTask | register | purge | endBlock
  | fire | endFire | exit => exact .inl hres

section Named

variable [DecidableEq τ]

/-- **An id that was returned names its `Timer`**, and so does one that is about to be. -/
theorem named {tr : List (Label τ)} {s : State τ} (h : run step started tr = some s) :
    (∀ th p id, (s.frame th).result = some (.timerId p id) → s.Names p id) ∧
      ∀ th p id, .ret th (.timerId p id) ∈ tr → s.Names p id := by
  refine run_induction (P := fun tr s ↦
    (∀ th p id, (s.frame th).result = some (.timerId p id) → s.Names p id) ∧
      ∀ th p id, .ret th (.timerId p id) ∈ tr → s.Names p id) ⟨nofun, nofun⟩ ?_ h
  rintro tr s l s' hr ⟨hframe, htr⟩ hs
  have hrule := rule_of_step hs
  have hev : Evolves s.toWorker s'.toWorker := hrule.evolves (timersOwned hr)
  refine ⟨fun th p id hres ↦ ?_, fun th p id hin ↦ ?_⟩
  · rcases hrule.result hres with hres | hn
    · exact hev.names (hframe th p id hres)
    · exact hn
  · rcases List.mem_append.mp hin with hin | hin
    · exact hev.names (htr th p id hin)
    · obtain rfl := List.mem_singleton.mp hin
      cases hrule with
      | ret hret => exact hframe th p id (by rw [hret]; rfl)

end Named

/-! ## Following one request

Requests are not distinguished by their ids, which may be asked for more than once, but by their
position in the line.  The round that will consume a request is either one that is past its timer
swap, or one that has not begun: in the second case it will swap the timers before it gets to the
request, and the `Timer` is then in the batch at the latest. -/

/-- The loop thread is past the timer swap of a round and before its purge swap. -/
def LoopPC.betweenSwaps : LoopPC τ → Bool
  | .swapped (.timers _) => true
  | .working (.timers _) => true
  | .acquiring .purges => true
  | _ => false

/-- The round that will consume the `n`-th request of the line has swapped the timers already. -/
def LoopPC.covers (pc : LoopPC τ) (n : ℕ) : Prop :=
  pc.betweenSwaps = true ∨ n < pc.purgeBatch.length

/-- The request to purge `id` is the `n`-th of the line, and the round that will consume it does not
leave the `Timer` at `p` waiting. -/
structure Awaits (s : State τ) (p : Ptr) (id : UInt64) (n : ℕ) : Prop where
  line : s.purgeLine[n]? = some id
  taken : s.loop.covers n → p ∉ s.m_pendingTimers

theorem LoopPC.covers_next {b : Batch τ} {pc : LoopPC τ} {n : ℕ} (h : b.next = some pc)
    (hc : pc.covers n) : (LoopPC.working b).covers n := by
  unfold Batch.next at h
  split at h <;> cases h <;>
    simp_all [LoopPC.covers, LoopPC.betweenSwaps, LoopPC.purgeBatch]

/-- A round that is going to consume a request was going to before the step, or has just emptied
`m_pendingTimers`. -/
theorem Rule.covers_back {s s' : State τ} {l : Label τ} {n : ℕ} (h : Rule s l s')
    (hc : s'.loop.covers n) :
    s.loop.covers (n + l.purged.length) ∨ s'.m_pendingTimers = [] := by
  cases h with
  | call | push | unlock | loadStopped | storeStopped | notify | ret => exact .inl hc
  | @swap q hloop hfree =>
    cases q with
    | tasks => simp [LoopPC.covers, LoopPC.betweenSwaps, LoopPC.purgeBatch, swapQueue] at hc
    | timers => exact .inr rfl
    | purges => exact .inl (.inl (by rw [hloop]; rfl))
  | @release b hloop =>
    left
    rw [hloop]
    cases b <;> exact hc
  | register hloop hreg => exact .inl (.inl (by rw [hloop]; rfl))
  | @purge id rest hloop =>
    rcases hc with hc | hc
    · cases hc
    · left
      right
      rw [hloop]
      exact Nat.succ_lt_succ hc
  | endBlock hloop hnext =>
    left
    rw [hloop]
    exact LoopPC.covers_next hnext hc
  | wake | read | testStopped | runTask | endTask | fire | endFire | exit =>
    simp [LoopPC.covers, LoopPC.betweenSwaps, LoopPC.purgeBatch] at hc

/-- The request moves up in the line when another one is consumed. -/
theorem Awaits.step {s s' : State τ} {l : Label τ} {p : Ptr} {id : UInt64} {n : ℕ}
    (h : Awaits s p id (n + l.purged.length)) (hrule : Rule s l s') (hp : p < s.nextPtr) :
    Awaits s' p id n := by
  refine ⟨?_, fun hc hin ↦ ?_⟩
  · have hline := congrArg (fun q ↦ q[n + l.purged.length]?) hrule.purges
    have hlt : n + l.purged.length < s.purgeLine.length :=
      (List.getElem?_eq_some_iff.mp h.line).1
    rw [List.getElem?_append_right (Nat.le_add_left _ _), List.getElem?_append_left hlt,
      Nat.add_sub_cancel, h.line] at hline
    exact hline
  · rcases hrule.covers_back hc with hc | hempty
    · exact h.taken hc (hrule.pending_back hp hin)
    · rw [hempty] at hin
      cases hin

/-- **The request is consumed**: its `Timer` is in none of the three places afterwards. -/
theorem Awaits.purged {s s' : State τ} {p : Ptr} {id id' : UInt64} (h : Awaits s p id 0)
    (hrule : Rule s (.purge id') s') (hi : TimersOwned s.toWorker s.loop.timerBatch)
    (hn : s.Names p id) : ¬s'.Holds p := by
  cases hrule with
  | @purge _ rest hloop =>
    have hid : id' = id := by simpa [State.purgeLine, hloop, LoopPC.purgeBatch] using h.line
    subst hid
    have hpending : p ∉ s.m_pendingTimers := h.taken (.inr (by rw [hloop]; exact Nat.succ_pos _))
    rintro (hin | hin | ⟨id₁, hact⟩)
    · exact hpending ((purgeTimerInternal_same _ _).timers ▸ hin)
    · cases hin
    · obtain ⟨hne, hact⟩ := purgeTimerInternal_active.mp hact
      obtain ⟨t, ht, hid⟩ := hi.active id₁ p hact
      exact hne (hid.symm.trans (hn.2 t ht))

/-- What has become of the request to purge `id` that was pushed behind `n` others, when `c` have
been consumed since. -/
def Fate (s : State τ) (p : Ptr) (id : UInt64) (n c : ℕ) : Prop :=
  (∀ k, n = c + k → Awaits s p id k) ∧ (n < c → ¬s.Holds p)

theorem Fate.step {s s' : State τ} {l : Label τ} {p : Ptr} {id : UInt64} {n c : ℕ}
    (h : Fate s p id n c) (hrule : Rule s l s') (hi : TimersOwned s.toWorker s.loop.timerBatch)
    (hn : s.Names p id) : Fate s' p id n (c + l.purged.length) := by
  refine ⟨fun k hk ↦ ?_, fun hlt ↦ ?_⟩
  · have hbefore : Awaits s p id (k + l.purged.length) := h.1 _ (by omega)
    exact hbefore.step hrule hn.1
  · by_cases hlt' : n < c
    · exact fun hin ↦ h.2 hlt' (hrule.holds_back hi hn.1 hin)
    · -- this very step consumes the request
      have hone : l.purged.length ≤ 1 := by cases l <;> simp [Label.purged]
      have hnow : Awaits s p id 0 := h.1 0 (by omega)
      cases l with
      | purge id' => exact hnow.purged hrule hi hn
      | _ => simp only [Label.purged, List.length_nil] at hlt; omega

/-- The fate of a request when it is pushed. -/
theorem fate_of_push {s s' : State τ} {th : Thread} {p : Ptr} {id : UInt64}
    (hrule : Rule s (.push th (.purgeTimerTask id)) s')
    (hearly : s.loop.betweenSwaps = true → p ∉ s.m_pendingTimers) :
    Fate s' p id s.purgeLine.length 0 := by
  refine ⟨fun k hk ↦ ⟨?_, fun hc ↦ ?_⟩, nofun⟩
  · have hline : s'.purgeLine = s.purgeLine ++ [id] := hrule.purges
    rw [hline, ← Nat.zero_add k, ← hk]
    simp
  · obtain rfl : k = s.purgeLine.length := by omega
    cases hrule with
    | push hcalled hfree hpush =>
      simp only [pushSection, Option.some_inj, Prod.mk.injEq] at hpush
      obtain ⟨rfl, -⟩ := hpush
      rcases hc with hc | hc
      · exact hearly hc
      · have hle : s.loop.purgeBatch.length ≤ s.purgeLine.length := by simp [State.purgeLine]
        exact absurd hc (Nat.not_lt.mpr hle)

/-! ## All runs -/

variable [DecidableEq τ]

/-- The line of purges after any run. -/
theorem purges_line {tr : List (Label τ)} {s : State τ} (h : run step started tr = some s) :
    purgesDone tr ++ s.purgeLine = purgePushes tr := by
  refine run_induction (P := fun tr s ↦ purgesDone tr ++ s.purgeLine = purgePushes tr) rfl ?_ h
  intro tr s l s' _ ih hs
  simp only [purgesDone, purgePushes, List.flatMap_append, List.flatMap_singleton] at ih ⊢
  rw [List.append_assoc, (rule_of_step hs).purges, ← List.append_assoc, ih]

/-- The fate of a request at any later time. -/
theorem fate_of_run {tr x : List (Label τ)} {s₁ s : State τ} {p : Ptr} {id : UInt64} {n : ℕ}
    (h₁ : run step started tr = some s₁) (hn : s₁.Names p id) (hfate : Fate s₁ p id n 0)
    (h : run step s₁ x = some s) : Fate s p id n (purgesDone x).length := by
  refine (run_induction
    (P := fun x s ↦ s.Names p id ∧ Fate s p id n (purgesDone x).length) ⟨hn, hfate⟩ ?_ h).2
  rintro x s l s' hr ⟨hn, hfate⟩ hs
  have hi := timersOwned (run_append.mpr ⟨s₁, h₁, hr⟩)
  have hrule := rule_of_step hs
  refine ⟨(hrule.evolves hi).names hn, ?_⟩
  simpa [purgesDone] using hfate.step hrule hi hn

/-- **Purging a repeated timer is never lost** in the run `tr` to `s`: when `purgeTimerTask` is
called for an id that `addRepeatTask` has returned, and a purge phase of `onNotify` has consumed the
request, then the `Timer` is in none of the three places, and libevent cannot run its callback. -/
def PurgeNeverLost (tr : List (Label τ)) (s : State τ) : Prop :=
  ∀ u v x th th' id p,
    tr = u ++ .call th (.purgeTimerTask id) :: v ++ .push th (.purgeTimerTask id) :: x →
    .ret th' (.timerId p id) ∈ u →
    (purgePushes (u ++ .call th (.purgeTimerTask id) :: v)).length < (purgesDone tr).length →
    ¬s.Holds p ∧ ∀ ev, step s (.fire ev p) = none

/-- The step does not push, between the two swaps of a round, a purge for a `Timer` that waits in
`m_pendingTimers`. -/
def PurgeInTime (tr : List (Label τ)) (s : State τ) : Label τ → Prop
  | .push th (.purgeTimerTask id) =>
    ∀ u v th' p, tr = u ++ .call th (.purgeTimerTask id) :: v → .ret th' (.timerId p id) ∈ u →
      s.loop.betweenSwaps = true → p ∉ s.m_pendingTimers
  | _ => True

/-- The step does not push a purge between the two swaps of a round, whatever it is for. -/
def pushesOutside (s : State τ) : Label τ → Bool
  | .push _ (.purgeTimerTask _) => !s.loop.betweenSwaps
  | _ => true

omit [DecidableEq τ] in
theorem purgeInTime_of_outside {tr : List (Label τ)} {s : State τ} {l : Label τ}
    (h : pushesOutside s l = true) : PurgeInTime tr s l := by
  unfold PurgeInTime
  split
  · intro u v th' p _ _ hbetween
    simp [pushesOutside, hbetween] at h
  · trivial

/-- **A purge that is pushed in time takes effect.** -/
theorem purge_takes_effect {tr : List (Label τ)} {s : State τ} (h : run step started tr = some s)
    (hintime : Along step PurgeInTime started tr) : PurgeNeverLost tr s := by
  intro u v x th th' id p htr hret hdone
  -- cut the run before and after the push
  have hrun := h
  rw [htr] at hrun
  obtain ⟨s₀, h₀, hrun⟩ := run_append.mp hrun
  obtain ⟨s₁, hpush, hx⟩ := run_cons_eq_some.mp hrun
  have h₁ := run_concat.mpr ⟨s₀, h₀, hpush⟩
  have hret₀ : .ret th' (.timerId p id) ∈ u ++ .call th (.purgeTimerTask id) :: v :=
    List.mem_append_left _ hret
  have hearly : s₀.loop.betweenSwaps = true → p ∉ s₀.m_pendingTimers :=
    hintime _ _ x s₀ htr h₀ u v th' p rfl hret
  have hfate : Fate s p id s₀.purgeLine.length (purgesDone x).length :=
    fate_of_run h₁ ((named h₁).2 th' p id (List.mem_append_left _ hret₀))
      (fate_of_push (rule_of_step hpush) hearly) hx
  have hcount : s₀.purgeLine.length < (purgesDone x).length := by
    have hline := congrArg List.length (purges_line h₀)
    rw [List.length_append] at hline
    rw [htr, purgesDone_append, List.length_append, purgesDone_push] at hdone
    omega
  have hgone : ¬s.Holds p := hfate.2 hcount
  exact ⟨hgone, not_fire_of_not_holds (timersOwned h) hgone⟩

/-- A client's call of `addRepeatTask`, from its entry to its return; the new `Timer` is at `p` and
gets the id `id`. -/
def addRepeatTaskCall (th : Thread) (ms : UInt64) (t : τ) (p : Ptr) (id : UInt64) :
    List (Label τ) :=
  [.call th (.addRepeatTask ms t), .push th (.addRepeatTask ms t), .unlock th, .notify th true,
    .ret th (.timerId p id)]

/-- A client's call of `purgeTimerTask`, from its entry to its return. -/
def purgeTimerTaskCall (th : Thread) (id : UInt64) : List (Label τ) :=
  [.call th (.purgeTimerTask id), .push th (.purgeTimerTask id), .unlock th, .notify th true,
    .ret th .void]

/-- A timer is added and purged; the next round registers it and purges it. -/
def purgeInTime : List (Label ℕ) :=
  addRepeatTaskCall (.client 0) 50 1 3 0 ++ purgeTimerTaskCall (.client 0) 0 ++ roundStart false ++
    [.endBlock, .swap .timers, .release, .register 3, .endBlock, .swap .purges, .release, .purge 0]

theorem purge_takes_effect_inTime : ∃ s, run step started purgeInTime = some s ∧
    ¬s.Holds 3 ∧ ∀ ev, step s (.fire ev 3) = none := by
  have hrun : ((run step started purgeInTime).any fun _ ↦ true) = true := by decide
  obtain ⟨s, hs, -⟩ := exists_run_of_any hrun
  have hintime : Along step PurgeInTime started purgeInTime :=
    along_of_check (fun _ _ _ ↦ purgeInTime_of_outside) (by decide)
  exact ⟨s, hs, purge_takes_effect hs hintime (addRepeatTaskCall (.client 0) 50 1 3 0) [] _
    (.client 0) (.client 0) 0 3 rfl (by decide) (by decide)⟩

/-- A round of `onNotify` has swapped the timers and not yet the purges, when a client adds a
repeated task. -/
def addBetweenSwaps : List (Label ℕ) :=
  addTaskCall (.client 1) 2 ++ roundStart false ++
    [.runTask 2, .endTask 2, .endBlock, .swap .timers, .release, .endBlock] ++
    addRepeatTaskCall (.client 0) 50 1 3 0

/-- The client purges it at once, and the round swaps the purges and consumes the request. -/
def purgeBetweenSwaps : List (Label ℕ) :=
  addBetweenSwaps ++ purgeTimerTaskCall (.client 0) 0 ++ [.swap .purges, .release, .purge 0]

/-- **A purge between the two swaps of one round is lost**: it has been consumed, and its `Timer`
still waits in `m_pendingTimers`. -/
theorem purge_between_swaps_lost :
    ¬∀ tr s, run (step (τ := ℕ)) started tr = some s → PurgeNeverLost tr s := by
  have hrun : ((run step started purgeBetweenSwaps).any fun s ↦
      decide (3 ∈ s.m_pendingTimers)) = true := by decide
  obtain ⟨s, hs, hp⟩ := exists_run_of_any hrun
  intro hall
  have hgone : ¬s.Holds 3 := (hall purgeBetweenSwaps s hs addBetweenSwaps [] _ (.client 0)
    (.client 0) 0 3 rfl (by decide) (by decide)).1
  exact hgone (.inl (of_decide_eq_true hp))

end GeneralWorker
