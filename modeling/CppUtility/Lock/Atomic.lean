import CppUtility.Lock.Exclusive

/-!
# Successful batches are atomic to one another

To its clients a core should look like a machine that takes and frees whole batches in one step.
`Spec.step` is this machine: a map from keys to owners, where locking a batch requires all its keys
to be free and unlocking requires that the client owns them all.

The operations of a run are put in the order of their commit points (`commit`): a successful lock
call at its last insert, or at its return if the batch is empty; an unlock call at its first erase,
or at its return if there is nothing to erase.  That order is a run of the specification
(`batches_atomic`), as long as an unlock call counts from its first erase on.  An unlock call that
is still running has to be counted: the keys it has erased can be locked by others before it
returns, and the history of *completed* operations alone then shows a key being locked that nobody
has unlocked (`completed_history_illegal`).  When nobody is inside a call, the two histories are the
same (`history_eq_of_idle`).

Whether a step is a commit point is not known when it is taken.  The last insert of a `try_lock`
counts only if the call returns, and so what a step commits depends on the rest of the run: `commit`
gets it as an argument, and the run is cut by `outputs_append`.

* **Legal.**  `Settled` relates a state and what follows it to the owners of the specification: a
  client owns the keys that it holds and those of a call that has been committed.  Keys taken by a
  batch that is not complete are nobody's yet, and those of an unlock call are not any more.
  `Rule.settled` is the step of this simulation.
* **In real time.**  `Label.observe` is what one sees of a client from outside, the calls and the
  answers.  At every cut of the run the operations committed before it are those that the client has
  completed, and one more perhaps, of the call it is in (`commits_of_client`).  So an operation that
  has returned is placed before all that begin later.
-/

set_option autoImplicit false

namespace MemLock

open Transition Ownership

variable {ι K : Type*}

/-! ## The specification -/

/-- An operation as the specification sees it; `try_lock` and `unlock` are batches of one key. -/
inductive Op (ι K : Type*)
  | lock (c : ι) (keys : List K)
  | unlock (c : ι) (keys : List K)
  deriving DecidableEq

/-- Whose operation it is. -/
def Op.client : Op ι K → ι
  | .lock c _ => c
  | .unlock c _ => c

namespace Spec

/-- No key has an owner. -/
def free : K → Option ι := fun _ ↦ none

variable [DecidableEq ι] [DecidableEq K]

/-- One whole batch; `none` if it is not allowed. -/
def step (owner : K → Option ι) : Op ι K → Option (K → Option ι)
  | .lock c keys =>
    if ∀ k ∈ keys, owner k = none then some fun k ↦ if k ∈ keys then some c else owner k else none
  | .unlock c keys =>
    if ∀ k ∈ keys, owner k = some c then some fun k ↦ if k ∈ keys then none else owner k else none

theorem step_lock_nil (owner : K → Option ι) (c : ι) : step owner (.lock c []) = some owner := by
  simp [step]

theorem step_unlock_nil (owner : K → Option ι) (c : ι) :
    step owner (.unlock c []) = some owner := by
  simp [step]

end Spec

/-! ## Commit points

The choice is forced at both ends.  A lock call cannot count before its last insert, since until
then another client may take one of its keys; and it has to count before it returns.  An unlock call
has to count before its first erase is used by somebody else, that is, at the erase itself.  A call
of `lockBatch` that fails counts nowhere: it has changed nothing that lasts. -/

/-- The operation a call stands for. -/
def Call.op (c : ι) : Call K → Op ι K
  | .tryLock key => .lock c [key]
  | .unlock key => .unlock c [key]
  | .lockBatch keys => .lock c keys
  | .unlockBatch keys => .unlock c keys

/-- The call was successful. -/
def Ret.ok : Ret K → Bool
  | .bool b => b
  | .void => true
  | .batch _ ok => ok

section Commit

variable [DecidableEq ι]

/-- The client returns from a call in this part of the history. -/
def returns (c : ι) (tr : List (Label ι K)) : Bool :=
  tr.any fun l ↦ match l with
    | .ret d _ => d = c
    | _ => false

/-- The operation whose commit point a step is, when `tr` comes after the step.  A lock call counts
if it returns; an unlock call counts if it returns, and with `pending` also if it does not. -/
def commit (pending : Bool) (s : Clients ι K) : Label ι K → List (Label ι K) → List (Op ι K)
  | .insert c key true, tr =>
    match s.pc c with
    | .trying _ => if returns c tr then [.lock c [key]] else []
    | .locking taken [_] => if returns c tr then [.lock c (taken ++ [key])] else []
    | _ => []
  | .erase c key, tr =>
    match s.pc c with
    | .unlocking _ => if pending || returns c tr then [.unlock c [key]] else []
    | .unlockingBatch [] todo => if pending || returns c tr then [.unlock c todo] else []
    | _ => []
  | .ret c _, _ =>
    match s.pc c with
    | .locking [] [] => [.lock c []]
    | .unlockingBatch [] [] => [.unlock c []]
    | _ => []
  | _, _ => []

omit [DecidableEq ι] in
theorem returns_ret_self [DecidableEq ι] (c : ι) (r : Ret K) (tr : List (Label ι K)) :
    returns c (.ret c r :: tr) = true := by
  simp [returns]

/-- A step that does not return from a call of this client. -/
theorem returns_cons_ne {c : ι} {l : Label ι K} (h : ∀ r, l ≠ .ret c r) (tr : List (Label ι K)) :
    returns c (l :: tr) = returns c tr := by
  cases l with
  | ret d r =>
    have hd : d ≠ c := by rintro rfl; exact h r rfl
    simp [returns, hd]
  | call | insert | erase => rfl

variable [DecidableEq K]

/-- The operations committed in the run of `tr`, when `tr'` follows. -/
def commits (pending : Bool) (tr tr' : List (Label ι K)) : List (Op ι K) :=
  outputs Clients.step (commit pending) .init tr tr'

/-- The operations of a run in the order of their commit points. -/
def history (pending : Bool) (tr : List (Label ι K)) : List (Op ι K) := commits pending tr []

end Commit

/-! ## The commit order is a run of the specification

Each step moves one client, and for the specification there are three: nothing is committed
(`Settled.goto_quiet`), a lock is (`Settled.goto_lock`), or an unlock is (`Settled.goto_unlock`).
That a lock is allowed follows from the books: the keys of the batch are in the map because its own
client has put them there, so no other client can own one of them. -/

/-- The keys that a running call owns as far as the specification is concerned: those of a lock call
after its last insert, if it returns, and those of an unlock call before its first erase. -/
def Pc.settled (ret : Bool) : Pc K → List K
  | .tried key true => if ret then [key] else []
  | .locking taken [] => if ret then taken else []
  | .unlocking key => [key]
  | .unlockingBatch [] todo => todo
  | _ => []

theorem Pc.settled_subset {p : Pc K} {ret : Bool} {k : K} (h : k ∈ p.settled ret) : k ∈ p.keys := by
  cases p with
  | tried key inserted =>
    cases inserted <;> cases ret <;> simp_all [settled, keys, taking]
  | locking taken iter =>
    cases iter <;> cases ret <;> simp_all [settled]
  | unlockingBatch gone todo =>
    cases gone <;> simp_all [settled, keys, releasing]
  | unlocking key => exact h
  | idle | trying | unlocked | rollingBack => cases h

/-- A call about to return owns what it has locked. -/
theorem Pc.settled_result {p : Pc K} {r : Ret K} {keys : List K} (h : p.result = some (r, keys)) :
    p.settled true = keys := by
  unfold result at h
  split at h
  · next key inserted => cases inserted <;> cases h <;> rfl
  · cases h; rfl
  · cases h; rfl
  · cases h; rfl
  · next gone => cases gone <;> cases h <;> rfl
  · cases h

namespace Clients

variable [DecidableEq ι]

/-- What a client owns as far as the specification is concerned, when `tr` comes next. -/
def settled (s : Clients ι K) (c : ι) (tr : List (Label ι K)) : List K :=
  s.held c ++ (s.pc c).settled (returns c tr)

theorem settled_subset {s : Clients ι K} {c : ι} {tr : List (Label ι K)} {k : K}
    (h : k ∈ s.settled c tr) : k ∈ s.holdings c := by
  rcases List.mem_append.mp h with h | h
  · exact List.mem_append_left _ h
  · exact List.mem_append_right _ (Pc.settled_subset h)

/-- The owners of the specification are the clients that own the keys in this sense. -/
def Settled (s : Clients ι K) (tr : List (Label ι K)) (owner : K → Option ι) : Prop :=
  ∀ k c, owner k = some c ↔ k ∈ s.settled c tr

variable [DecidableEq K] {s s' : Clients ι K} {l : Label ι K} {tr : List (Label ι K)}
  {owner : K → Option ι}

omit [DecidableEq K] in
/-- A step that commits nothing. -/
theorem Settled.quiet {c : ι} (h : Settled s (l :: tr) owner)
    (hself : ∀ k, k ∈ s'.settled c tr ↔ k ∈ s.settled c (l :: tr))
    (hother : ∀ d, d ≠ c → s'.settled d tr = s.settled d (l :: tr)) : Settled s' tr owner := by
  intro k d
  rw [h k d]
  by_cases hd : d = c
  · rw [hd, hself]
  · rw [hother d hd]

/-- A step that commits a lock. -/
theorem Settled.lock {c : ι} {keys : List K} (h : Settled s (l :: tr) owner)
    (hfree : ∀ k ∈ keys, ∀ d, k ∉ s.settled d (l :: tr))
    (hgain : ∀ k, k ∈ s'.settled c tr ↔ k ∈ keys ∨ k ∈ s.settled c (l :: tr))
    (hother : ∀ d, d ≠ c → s'.settled d tr = s.settled d (l :: tr)) :
    ∃ owner', run Spec.step owner [.lock c keys] = some owner' ∧ Settled s' tr owner' := by
  have hnone : ∀ k ∈ keys, owner k = none := by
    intro k hk
    rw [Option.eq_none_iff_forall_ne_some]
    intro d hd
    exact hfree k hk d ((h k d).mp hd)
  refine ⟨fun k ↦ if k ∈ keys then some c else owner k, ?_, fun k d ↦ ?_⟩
  · rw [run, Spec.step, if_pos hnone]
    rfl
  · by_cases hd : d = c
    · subst hd
      rw [hgain]
      by_cases hk : k ∈ keys
      · simp [hk]
      · simp [hk, h k d]
    · rw [hother d hd]
      by_cases hk : k ∈ keys
      · simp [hk, hfree k hk d, Ne.symm hd]
      · simp [hk, h k d]

/-- A step that commits an unlock. -/
theorem Settled.unlock {c : ι} {keys : List K} (h : Settled s (l :: tr) owner)
    (hown : ∀ k ∈ keys, k ∈ s.settled c (l :: tr))
    (hlose : ∀ k, k ∈ s'.settled c tr ↔ k ∈ s.settled c (l :: tr) ∧ k ∉ keys)
    (hother : ∀ d, d ≠ c → s'.settled d tr = s.settled d (l :: tr)) :
    ∃ owner', run Spec.step owner [.unlock c keys] = some owner' ∧ Settled s' tr owner' := by
  have hsome : ∀ k ∈ keys, owner k = some c := fun k hk ↦ (h k c).mpr (hown k hk)
  refine ⟨fun k ↦ if k ∈ keys then none else owner k, ?_, fun k d ↦ ?_⟩
  · rw [run, Spec.step, if_pos hsome]
    rfl
  · by_cases hd : d = c
    · subst hd
      rw [hlose]
      by_cases hk : k ∈ keys
      · simp [hk]
      · simp [hk, h k d]
    · rw [hother d hd, ← h k d]
      by_cases hk : k ∈ keys
      · simp [hk, hsome k hk, Ne.symm hd]
      · simp [hk]

omit [DecidableEq K] in
/-- The other clients own what they owned. -/
theorem settled_goto_ne (s : Clients ι K) {c d : ι} (p : Pc K) (hd : d ≠ c)
    (hl : ∀ r, l ≠ .ret d r) : (s.goto c p).settled d tr = s.settled d (l :: tr) := by
  rw [settled, settled, goto_pc_ne s p hd, returns_cons_ne hl]
  rfl

omit [DecidableEq K] in
theorem settled_hold_ne (s : Clients ι K) {c d : ι} (keys : List K) (hd : d ≠ c) :
    (s.hold c keys).settled d tr = s.settled d tr := by
  simp [settled, hold, hd]

omit [DecidableEq ι] [DecidableEq K] in
theorem settled_start (f : Call K) (ret : Bool) : f.start.settled ret = f.released := by
  cases f with
  | lockBatch keys => cases keys <;> cases ret <;> rfl
  | tryLock | unlock | unlockBatch => rfl

/-- The keys of a batch that is being locked are nobody's yet, as far as the specification is
concerned. -/
theorem not_settled_of_taken {tr₀ : List (Label ι K)} (hbooks : Books tr₀ s) {c : ι}
    {taken iter : List K} (hpc : s.pc c = .locking taken iter) (hiter : iter ≠ []) {k : K}
    (hk : k ∈ taken) (d : ι) : k ∉ s.settled d tr := by
  intro hd
  have hkc : k ∈ (s.pc c).keys := by rw [hpc, Pc.keys_locking]; exact hk
  have hc : k ∈ s.holdings c := List.mem_append_right _ hkc
  obtain rfl := hbooks.owns.unique c d k hc (settled_subset hd)
  obtain ⟨key, rest, rfl⟩ := List.exists_cons_of_ne_nil hiter
  rw [settled, hpc] at hd
  change k ∈ s.held c ++ [] at hd
  rw [List.append_nil] at hd
  exact (List.nodup_append.mp (hbooks.owns.nodup c)).2.2 k hd k hkc rfl

section Goto

variable {c : ι} {p : Pc K}

omit [DecidableEq K] in
theorem settled_before (hl : ∀ d r, l ≠ .ret d r) :
    s.settled c (l :: tr) = s.held c ++ (s.pc c).settled (returns c tr) := by
  rw [settled, returns_cons_ne (hl c)]

omit [DecidableEq K] in
theorem settled_after (core : MemLockCore K) : Clients.settled { s.goto c p with core := core } c tr
    = s.held c ++ p.settled (returns c tr) := by
  rw [settled, goto_pc_self]
  rfl

/-- A client moves, and nothing is committed. -/
theorem Settled.goto_quiet (h : Settled s (l :: tr) owner) (core : MemLockCore K)
    (hl : ∀ d r, l ≠ .ret d r)
    (hcommit : commit true s l tr = [])
    (hsame : p.settled (returns c tr) = (s.pc c).settled (returns c tr)) :
    ∃ owner', run Spec.step owner (commit true s l tr) = some owner' ∧
      Settled { s.goto c p with core := core } tr owner' := by
  rw [hcommit]
  refine ⟨owner, rfl, h.quiet (c := c) (fun k ↦ ?_) fun d hd ↦ settled_goto_ne s p hd (hl d)⟩
  rw [settled_before hl, settled_after, hsame]

/-- A client makes the last insert of a lock call. -/
theorem Settled.goto_lock {keys : List K} (h : Settled s (l :: tr) owner)
    (core : MemLockCore K) (hl : ∀ d r, l ≠ .ret d r)
    (hcommit : commit true s l tr = if returns c tr then [.lock c keys] else [])
    (hbefore : (s.pc c).settled (returns c tr) = [])
    (hafter : p.settled (returns c tr) = if returns c tr then keys else [])
    (hfree : ∀ k ∈ keys, ∀ d, k ∉ s.settled d (l :: tr)) :
    ∃ owner', run Spec.step owner (commit true s l tr) = some owner' ∧
      Settled { s.goto c p with core := core } tr owner' := by
  by_cases hr : returns c tr = true
  · rw [if_pos hr] at hcommit hafter
    rw [hcommit]
    refine h.lock hfree (fun k ↦ ?_) fun d hd ↦ settled_goto_ne s p hd (hl d)
    rw [settled_before hl, settled_after, hbefore, hafter, List.append_nil, List.mem_append]
    exact or_comm
  · rw [if_neg hr] at hcommit hafter
    exact h.goto_quiet core hl hcommit (by rw [hafter, hbefore])

/-- A client makes the first erase of an unlock call. -/
theorem Settled.goto_unlock {keys : List K} (h : Settled s (l :: tr) owner)
    (core : MemLockCore K) (hl : ∀ d r, l ≠ .ret d r)
    (hnodup : (s.held c ++ keys).Nodup) (hcommit : commit true s l tr = [.unlock c keys])
    (hbefore : (s.pc c).settled (returns c tr) = keys)
    (hafter : p.settled (returns c tr) = []) :
    ∃ owner', run Spec.step owner (commit true s l tr) = some owner' ∧
      Settled { s.goto c p with core := core } tr owner' := by
  have hdisj := (List.nodup_append.mp hnodup).2.2
  rw [hcommit]
  refine h.unlock (fun k hk ↦ ?_) (fun k ↦ ?_) fun d hd ↦ settled_goto_ne s p hd (hl d)
  · rw [settled_before hl, hbefore]
    exact List.mem_append_right _ hk
  · rw [settled_before hl, settled_after, hbefore, hafter, List.append_nil, List.mem_append]
    constructor
    · exact fun hk ↦ ⟨.inl hk, fun hin ↦ hdisj k hk k hin rfl⟩
    · rintro ⟨hk | hk, hout⟩
      · exact hk
      · exact absurd hk hout

end Goto

/-- A return commits an empty batch, or nothing. -/
theorem run_commit_ret (owner : K → Option ι) (s : Clients ι K) (c : ι) (r : Ret K) :
    run Spec.step owner (commit true s (.ret c r) tr) = some owner := by
  rw [commit]
  split
  · rw [run, Spec.step_lock_nil]
    rfl
  · rw [run, Spec.step_unlock_nil]
    rfl
  · rfl

/-- **One step and the specification**: what it commits is allowed. -/
theorem Rule.settled {tr₀ : List (Label ι K)} (h : Rule s l s') (hbooks : Books tr₀ s)
    (hi : Settled s (l :: tr) owner) :
    ∃ owner', run Spec.step owner (commit true s l tr) = some owner' ∧ Settled s' tr owner' := by
  cases h with
  | @call c f hidle hnodup hheld =>
    refine ⟨owner, rfl, hi.quiet (c := c) (fun k ↦ ?_) fun d hd ↦ ?_⟩
    · have hbefore : s.settled c (.call c f :: tr) = s.held c := by
        rw [Clients.settled, hidle]
        exact List.append_nil _
      have hafter : ((s.goto c f.start).hold c ((s.held c).filter (· ∉ f.released))).settled c tr
          = (s.held c).filter (· ∉ f.released) ++ f.released := by
        simp [Clients.settled, hold, settled_start]
      have hnodup' : (s.held c).Nodup := (List.nodup_append.mp (hbooks.owns.nodup c)).1
      rw [hbefore, hafter]
      exact (perm_filter_append hnodup' hnodup hheld).mem_iff
    · rw [settled_hold_ne _ _ hd]
      exact settled_goto_ne s _ hd (by simp)
  | @inserted c key p hpc hnew =>
    have hkey : ∀ d, key ∉ s.settled d (.insert c key true :: tr) :=
      fun d hd ↦ hnew (hbooks.owns.mem (settled_subset hd))
    rcases Pc.afterInsert_eq_some.mp hpc with ⟨htry, rfl⟩ | ⟨taken, rest, hlock, rfl⟩
    · have hcommit : commit true s (.insert c key true) tr
          = if returns c tr then [.lock c [key]] else [] := by rw [commit, htry]
      refine hi.goto_lock _ (by simp) hcommit (by rw [htry]; rfl) rfl fun k hk ↦ ?_
      rw [List.mem_singleton.mp hk]
      exact hkey
    · have htaken : ∀ k ∈ taken, ∀ d, k ∉ s.settled d (.insert c key true :: tr) :=
        fun k hk ↦ not_settled_of_taken hbooks hlock (List.cons_ne_nil _ _) hk
      cases rest with
      | nil =>
        have hcommit : commit true s (.insert c key true) tr
            = if returns c tr then [.lock c (taken ++ [key])] else [] := by rw [commit, hlock]
        refine hi.goto_lock _ (by simp) hcommit (by rw [hlock]; rfl) rfl fun k hk ↦ ?_
        rcases List.mem_append.mp hk with hk | hk
        · exact htaken k hk
        · rw [List.mem_singleton.mp hk]
          exact hkey
      | cons a rest =>
        exact hi.goto_quiet _ (by simp) (by rw [commit, hlock]) (by rw [hlock]; rfl)
  | @refused c key p hpc hold =>
    rcases Pc.afterInsert_eq_some.mp hpc with ⟨htry, rfl⟩ | ⟨taken, rest, hlock, rfl⟩
    · exact hi.goto_quiet s.core (by simp) rfl (by rw [htry]; rfl)
    · exact hi.goto_quiet s.core (by simp) rfl (by rw [hlock]; rfl)
  | @erase c key p hpc =>
    have hnodup := hbooks.owns.nodup c
    rcases Pc.afterErase_eq_some.mp hpc with ⟨hun, rfl⟩ | ⟨todo, iter, hroll, rfl⟩ |
      ⟨gone, todo, hbatch, rfl⟩
    · rw [holdings, hun] at hnodup
      exact hi.goto_unlock _ (by simp) hnodup (by rw [commit, hun]; rfl) (by rw [hun]; rfl) rfl
    · exact hi.goto_quiet _ (by simp) (by rw [commit, hroll]) (by rw [hroll]; rfl)
    · cases gone with
      | nil =>
        rw [holdings, hbatch] at hnodup
        exact hi.goto_unlock _ (by simp) hnodup (by rw [commit, hbatch]; rfl) (by rw [hbatch]; rfl)
          rfl
      | cons a gone =>
        exact hi.goto_quiet _ (by simp) (by rw [commit, hbatch]) (by rw [hbatch]; rfl)
  | @ret c r keys hpc =>
    refine ⟨owner, run_commit_ret owner s c r, hi.quiet (c := c) (fun k ↦ ?_) fun d hd ↦ ?_⟩
    · have hbefore : s.settled c (.ret c r :: tr) = s.held c ++ keys := by
        rw [Clients.settled, returns_ret_self, Pc.settled_result hpc]
      have hafter : ((s.goto c .idle).hold c (s.held c ++ keys)).settled c tr
          = s.held c ++ keys := by
        simp [Clients.settled, hold, Pc.settled]
      rw [hbefore, hafter]
    · rw [settled_hold_ne _ _ hd]
      exact settled_goto_ne s _ hd fun r' hr ↦ hd (by cases hr; rfl)

/-- The commit order of every run is a run of the specification. -/
theorem run_history (h : run step init tr = some s) :
    ∃ owner, run Spec.step Spec.free (history true tr) = some owner := by
  obtain ⟨owner, howner, -⟩ : ∃ owner, run Spec.step Spec.free
      (outputs step (commit true) init tr []) = some owner ∧ Settled s [] owner :=
    run_simulation (R := fun _ s tr' owner ↦ Settled s tr' owner)
      (fun tr' k c ↦ iff_of_false (Option.some_ne_none c).symm List.not_mem_nil)
      (fun tr s l s' tr' a hr hR hs ↦ (rule_of_step hs).settled (books hr) hR) h []
  exact ⟨owner, howner⟩

end Clients

/-! ## The commit order and real time

A client is in one call at a time, so that its operations are ordered anyway, and all that is to be
shown is that they are committed in the order in which it makes them, each while its call is
running. -/

section Observe

variable [DecidableEq ι]

/-- What one sees of a client from outside: the call it is in, and the successful operations it has
completed, in order. -/
def Label.observe (c : ι) (seen : Option (Call K) × List (Op ι K)) :
    Label ι K → Option (Call K) × List (Op ι K)
  | .call d f => if d = c then (some f, seen.2) else seen
  | .ret d r =>
    if d = c then (none, seen.2 ++ if r.ok then (seen.1.map (Call.op c)).toList else []) else seen
  | _ => seen

/-- See `Label.observe`. -/
def observed (c : ι) (tr : List (Label ι K)) : Option (Call K) × List (Op ι K) :=
  tr.foldl (Label.observe c) (none, [])

/-- The operation of a running call that has been committed already; `ret` says whether the call
will return. -/
def Pc.placed (c : ι) (ret : Bool) : Pc K → List (Op ι K)
  | .tried key true => if ret then [.lock c [key]] else []
  | .locking taken [] => if ret && !taken.isEmpty then [.lock c taken] else []
  | .unlocked key => [.unlock c [key]]
  | .unlockingBatch gone todo => if gone.isEmpty then [] else [.unlock c (gone ++ todo)]
  | _ => []

end Observe

/-- The call a client at this position is in. -/
inductive Pc.Runs : Pc K → Option (Call K) → Prop
  | idle : Runs .idle none
  | trying (key : K) : Runs (.trying key) (some (.tryLock key))
  | tried (key : K) (inserted : Bool) : Runs (.tried key inserted) (some (.tryLock key))
  | unlocking (key : K) : Runs (.unlocking key) (some (.unlock key))
  | unlocked (key : K) : Runs (.unlocked key) (some (.unlock key))
  | locking (taken iter : List K) : Runs (.locking taken iter) (some (.lockBatch (taken ++ iter)))
  | rollingBack (todo iter keys : List K) : Runs (.rollingBack todo iter) (some (.lockBatch keys))
  | unlockingBatch (gone todo : List K) :
    Runs (.unlockingBatch gone todo) (some (.unlockBatch (gone ++ todo)))

theorem Pc.afterInsert_ne_idle [DecidableEq K] {p p' : Pc K} {key : K} {inserted : Bool}
    (h : p.afterInsert key inserted = some p') : p' ≠ .idle := by
  rcases afterInsert_eq_some.mp h with ⟨-, rfl⟩ | ⟨taken, rest, -, rfl⟩
  · nofun
  · cases inserted <;> nofun

theorem Pc.afterErase_ne_idle [DecidableEq K] {p p' : Pc K} {key : K}
    (h : p.afterErase key = some p') : p' ≠ .idle := by
  rcases afterErase_eq_some.mp h with ⟨-, rfl⟩ | ⟨todo, iter, -, rfl⟩ | ⟨gone, todo, -, rfl⟩
  · nofun
  · nofun
  · nofun

theorem Pc.runs_start (f : Call K) : f.start.Runs (some f) := by
  cases f with
  | tryLock key => exact .trying key
  | unlock key => exact .unlocking key
  | lockBatch keys => exact .locking [] keys
  | unlockBatch keys => exact .unlockingBatch [] keys

namespace Clients

variable [DecidableEq ι] [DecidableEq K] {s s' : Clients ι K} {l : Label ι K}
  {tr tr' : List (Label ι K)}

omit [DecidableEq K] in
/-- A step commits an operation of the client that moves. -/
theorem commit_client {pending : Bool} {op : Op ι K} (h : op ∈ commit pending s l tr) :
    op.client = l.client := by
  have hif : ∀ {b : Bool} {op' : Op ι K}, op ∈ (if b then [op'] else []) → op = op' := by
    intro b op' hin
    cases b
    · cases hin
    · exact List.mem_singleton.mp hin
  cases l with
  | call c f => cases h
  | insert c key inserted =>
    cases inserted with
    | false => cases h
    | true =>
      rw [commit] at h
      split at h
      · rw [hif h]; rfl
      · rw [hif h]; rfl
      · cases h
  | erase c key =>
    rw [commit] at h
    split at h
    · rw [hif h]; rfl
    · rw [hif h]; rfl
    · cases h
  | ret c r =>
    rw [commit] at h
    split at h
    · rw [List.mem_singleton.mp h]; rfl
    · rw [List.mem_singleton.mp h]; rfl
    · cases h

/-- A step of one client does not change what one sees of another. -/
theorem Rule.observe_ne (h : Rule s l s') {c : ι} (hc : c ≠ l.client)
    (seen : Option (Call K) × List (Op ι K)) (tr : List (Label ι K)) :
    l.observe c seen = seen ∧ s'.pc c = s.pc c ∧ returns c (l :: tr) = returns c tr ∧
      (commit true s l tr).filter (·.client = c) = [] := by
  refine ⟨?_, ?_, returns_cons_ne (fun r hl ↦ hc (by rw [hl]; rfl)) tr, ?_⟩
  · cases l with
    | call d f => exact if_neg (Ne.symm hc)
    | ret d r => exact if_neg (Ne.symm hc)
    | insert | erase => rfl
  · cases h <;> exact goto_pc_ne s _ hc
  · rw [List.filter_eq_nil_iff]
    intro op hop
    rw [decide_eq_true_eq, commit_client hop]
    exact Ne.symm hc

/-- A step of a client, seen from outside: it commits an operation, or completes one that has been
committed, or both. -/
theorem Rule.observe_self (h : Rule s l s') {seen : Option (Call K) × List (Op ι K)}
    (hruns : (s.pc l.client).Runs seen.1) (tr : List (Label ι K)) :
    (s'.pc l.client).Runs (l.observe l.client seen).1 ∧
      seen.2 ++ (s.pc l.client).placed l.client (returns l.client (l :: tr)) ++ commit true s l tr
        = (l.observe l.client seen).2 ++
          (s'.pc l.client).placed l.client (returns l.client tr) := by
  obtain ⟨f?, done⟩ := seen
  cases h with
  | @call c f hidle hnodup hheld =>
    simp only [Label.client, Label.observe, if_true, hold, goto_pc_self, hidle]
    refine ⟨Pc.runs_start f, ?_⟩
    cases f with
    | lockBatch keys => cases keys <;> simp [Call.start, Pc.placed, commit]
    | tryLock | unlock | unlockBatch => simp [Call.start, Pc.placed, commit]
  | @inserted c key p hpc hnew =>
    simp only [Label.client, goto_pc_self, Label.observe] at hruns ⊢
    have hret : returns c (.insert c key true :: tr) = returns c tr := rfl
    rw [hret]
    rcases Pc.afterInsert_eq_some.mp hpc with ⟨htry, rfl⟩ | ⟨taken, rest, hlock, rfl⟩
    · rw [htry] at hruns ⊢
      cases hruns
      exact ⟨.tried key true, by simp [Pc.placed, commit, htry]⟩
    · rw [hlock] at hruns ⊢
      cases hruns
      refine ⟨by simpa using Pc.Runs.locking (taken ++ [key]) rest, ?_⟩
      cases rest with
      | nil => simp [Pc.placed, commit, hlock]
      | cons a rest => simp [Pc.placed, commit, hlock]
  | @refused c key p hpc hold =>
    simp only [Label.client, goto_pc_self, Label.observe] at hruns ⊢
    have hret : returns c (.insert c key false :: tr) = returns c tr := rfl
    rw [hret]
    rcases Pc.afterInsert_eq_some.mp hpc with ⟨htry, rfl⟩ | ⟨taken, rest, hlock, rfl⟩
    · rw [htry] at hruns ⊢
      cases hruns
      exact ⟨.tried key false, by simp [Pc.placed, commit]⟩
    · rw [hlock] at hruns ⊢
      cases hruns
      exact ⟨.rollingBack taken (key :: rest) _, by simp [Pc.placed, commit]⟩
  | @erase c key p hpc =>
    simp only [Label.client, goto_pc_self, Label.observe] at hruns ⊢
    have hret : returns c (.erase c key :: tr) = returns c tr := rfl
    rw [hret]
    rcases Pc.afterErase_eq_some.mp hpc with ⟨hun, rfl⟩ | ⟨todo, iter, hroll, rfl⟩ |
      ⟨gone, todo, hbatch, rfl⟩
    · rw [hun] at hruns ⊢
      cases hruns
      exact ⟨.unlocked key, by simp [Pc.placed, commit, hun]⟩
    · rw [hroll] at hruns ⊢
      cases hruns
      exact ⟨.rollingBack todo iter _, by simp [Pc.placed, commit, hroll]⟩
    · rw [hbatch] at hruns ⊢
      cases hruns
      refine ⟨by simpa using Pc.Runs.unlockingBatch (gone ++ [key]) todo, ?_⟩
      cases gone with
      | nil => simp [Pc.placed, commit, hbatch]
      | cons a gone => simp [Pc.placed, commit, hbatch]
  | @ret c r keys hpc =>
    simp only [Label.client, Label.observe, if_true, hold, goto_pc_self] at hruns ⊢
    refine ⟨.idle, ?_⟩
    rw [returns_ret_self]
    generalize hp : s.pc c = p at hruns hpc
    cases hruns with
    | idle | trying | unlocking => cases hpc
    | tried key inserted =>
      cases hpc
      cases inserted <;> simp [Pc.placed, commit, hp, Ret.ok, Call.op]
    | unlocked key =>
      cases hpc
      simp [Pc.placed, commit, hp, Ret.ok, Call.op]
    | locking taken iter =>
      cases iter with
      | nil =>
        cases hpc
        cases keys <;> simp [Pc.placed, commit, hp, Ret.ok, Call.op]
      | cons a iter => cases hpc
    | rollingBack todo iter keys' =>
      cases todo with
      | nil =>
        cases hpc
        simp [Pc.placed, commit, hp, Ret.ok]
      | cons a todo => cases hpc
    | unlockingBatch gone todo =>
      cases todo with
      | nil =>
        cases hpc
        cases gone <;> simp [Pc.placed, commit, hp, Ret.ok, Call.op]
      | cons a todo => cases hpc

/-- Seen from one client: what has been committed at a point of a run is what it has completed
there, and the operation of its running call if that one has been committed. -/
theorem commits_of_client (h : run step init tr = some s) (c : ι) (tr' : List (Label ι K)) :
    (commits true tr tr').filter (·.client = c)
      = (observed c tr).2 ++ (s.pc c).placed c (returns c tr') := by
  have hboth : (s.pc c).Runs (observed c tr).1 ∧ ∀ tr', (commits true tr tr').filter (·.client = c)
      = (observed c tr).2 ++ (s.pc c).placed c (returns c tr') := by
    refine run_induction (P := fun tr s ↦ (s.pc c).Runs (observed c tr).1 ∧
      ∀ tr', (commits true tr tr').filter (·.client = c)
        = (observed c tr).2 ++ (s.pc c).placed c (returns c tr'))
      ⟨.idle, fun _ ↦ rfl⟩ ?_ h
    rintro tr s l s' hr ⟨hruns, hseen⟩ hs
    have hobserved : observed c (tr ++ [l]) = l.observe c (observed c tr) := by
      rw [observed, List.foldl_append]
      rfl
    have hcommits : ∀ tr', commits true (tr ++ [l]) tr'
        = commits true tr (l :: tr') ++ commit true s l tr' := fun tr' ↦ outputs_concat hr
    rw [hobserved]
    by_cases hc : c = l.client
    · subst hc
      refine ⟨((rule_of_step hs).observe_self hruns []).1, fun tr' ↦ ?_⟩
      have hall : (commit true s l tr').filter (·.client = l.client) = commit true s l tr' :=
        List.filter_eq_self.mpr fun op hop ↦ decide_eq_true (commit_client hop)
      rw [hcommits, List.filter_append, hseen, hall]
      exact ((rule_of_step hs).observe_self hruns tr').2
    · refine ⟨?_, fun tr' ↦ ?_⟩
      · obtain ⟨h1, h2, -, -⟩ := (rule_of_step hs).observe_ne hc (observed c tr) []
        rw [h1, h2]
        exact hruns
      · obtain ⟨h1, h2, h3, h4⟩ := (rule_of_step hs).observe_ne hc (observed c tr) tr'
        rw [hcommits, List.filter_append, hseen, h1, h2, h3, h4, List.append_nil]
  exact hboth.2 tr'

/-- A client inside a call leaves it only by returning. -/
theorem returns_of_idle {c : ι} (h : run step s tr = some s') (hin : s.pc c ≠ .idle)
    (hidle : s'.pc c = .idle) : returns c tr = true := by
  induction tr generalizing s with
  | nil =>
    rw [run_nil, Option.some_inj] at h
    exact absurd (h ▸ hidle) hin
  | cons l tr ih =>
    obtain ⟨s₁, h1, h2⟩ := run_cons_eq_some.mp h
    by_cases hl : ∃ r, l = .ret c r
    · obtain ⟨r, rfl⟩ := hl
      exact returns_ret_self c r tr
    · rw [not_exists] at hl
      rw [returns_cons_ne hl]
      refine ih h2 ?_
      by_cases hc : c = l.client
      · subst hc
        cases rule_of_step h1 with
        | call hidle' => exact absurd hidle' hin
        | @inserted c key p hpc | @refused c key p hpc =>
          show (s.goto c p).pc c ≠ .idle
          rw [goto_pc_self]
          exact Pc.afterInsert_ne_idle hpc
        | @erase c key p hpc =>
          show (s.goto c p).pc c ≠ .idle
          rw [goto_pc_self]
          exact Pc.afterErase_ne_idle hpc
        | @ret c r => exact absurd rfl (hl r)
      · rw [((rule_of_step h1).observe_ne hc (none, []) tr).2.1]
        exact hin

/-- When nobody is inside a call at the end, every unlock call has returned, and the two histories
are the same. -/
theorem history_eq_of_idle (h : run step init tr = some s) (hidle : ∀ c, s.pc c = .idle) :
    history false tr = history true tr := by
  have hcommit : ∀ (s₁ s₂ : Clients ι K) l tr, step s₁ l = some s₂ → run step s₂ tr = some s →
      commit false s₁ l tr = commit true s₁ l tr := by
    intro s₁ s₂ l tr h1 h2
    cases l with
    | erase c key =>
      have hin : s₂.pc c ≠ .idle := by
        cases rule_of_step h1 with
        | @erase _ _ p hpc =>
          show (s₁.goto c p).pc c ≠ .idle
          rw [goto_pc_self]
          exact Pc.afterErase_ne_idle hpc
      have hret : returns c tr = true := returns_of_idle h2 hin (hidle c)
      simp [commit, hret]
    | insert c key inserted => cases inserted <;> rfl
    | call | ret => rfl
  have houtputs : ∀ (tr : List (Label ι K)) s₁, run step s₁ tr = some s →
      outputs step (commit false) s₁ tr [] = outputs step (commit true) s₁ tr [] := by
    intro tr
    induction tr with
    | nil => exact fun _ _ ↦ rfl
    | cons l tr ih =>
      intro s₁ h1
      obtain ⟨s₂, h1, h2⟩ := run_cons_eq_some.mp h1
      rw [outputs, outputs, List.append_nil, hcommit s₁ s₂ l tr h1 h2, h1, Option.elim_some,
        Option.elim_some, ih s₂ h2]
  exact houtputs tr init h

/-- **Successful batch operations are atomic to one another.**  Take the successful lock calls that
have returned, each at its last insert (an empty batch at its return), and the unlock calls that
have made their first erase, each there (an empty batch at its return).

* In this order they are a run of the specification.
* The order is consistent with real time: cut the run anywhere, and the operations before the cut
  are, for each client, those it has completed there, in order, and then possibly the one of the
  call it is in.  So an operation that has returned comes before all that are not yet called.  At
  the end of the run these are all the operations there are. -/
theorem batches_atomic {tr : List (Label ι K)} (h : run step init tr = some s) :
    (∃ owner, run Spec.step Spec.free (history true tr) = some owner) ∧
      ∀ u v s₁, tr = u ++ v → run step init u = some s₁ →
        (∃ later, history true tr = commits true u v ++ later) ∧
        ∀ c, (commits true u v).filter (·.client = c)
          = (observed c u).2 ++ (s₁.pc c).placed c (returns c v) := by
  refine ⟨run_history h, fun u v s₁ htr hu ↦ ⟨?_, fun c ↦ commits_of_client hu c v⟩⟩
  refine ⟨outputs step (commit true) s₁ v [], ?_⟩
  rw [history, commits, htr, outputs_append hu, List.append_nil]
  rfl

/-- Two clients hand two keys over: the second takes one of them while the first is still unlocking
the other. -/
def handOver : List (Label ℕ ℕ) :=
  [.call 0 (.lockBatch [1, 2]), .insert 0 1 true, .insert 0 2 true, .ret 0 (.batch [] true),
    .call 0 (.unlockBatch [1, 2]), .erase 0 1, .call 1 (.tryLock 1), .insert 1 1 true,
    .ret 1 (.bool true)]

theorem batches_atomic_handOver :
    (∃ owner, run Spec.step Spec.free (history true handOver) = some owner) ∧
      history true handOver = [.lock 0 [1, 2], .unlock 0 [1, 2], .lock 1 [1]] := by
  have hrun : ((run step init handOver).any fun _ ↦ true) = true := by decide
  obtain ⟨s, hs, -⟩ := exists_run_of_any hrun
  exact ⟨(batches_atomic hs).1, by decide⟩

/-- **The completed operations alone need not be a run of the specification**: in `handOver` the
unlock call has not returned, and without it key 1 is locked twice. -/
theorem completed_history_illegal : ¬∀ (tr : List (Label ℕ ℕ)) s, run step init tr = some s →
    ∃ owner, run Spec.step Spec.free (history false tr) = some owner := by
  have hrun : ((run step init handOver).any fun _ ↦ true) = true := by decide
  obtain ⟨s, hs, -⟩ := exists_run_of_any hrun
  intro hall
  obtain ⟨owner, howner⟩ := hall handOver s hs
  have hnone : (run Spec.step Spec.free (history false handOver)).isNone = true := by decide
  rw [howner] at hnone
  cases hnone

end Clients

end MemLock
