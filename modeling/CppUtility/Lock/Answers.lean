import CppUtility.Lock.Exclusive

/-!
# What `lockBatch` answers

The iterator that a failed `lockBatch` returns points at a key that stood in its way.  By the time
the caller looks at it the key may be free again, and others may have taken keys that were free.  So
an answer says nothing about the moment in which it is read, and `lock_answers` says what was the
case at some moment of the call.

* For the key in the answer it is the moment of the one insert that failed.  Then somebody else had
  the key, or the batch had taken it already, or the client has held it since before the call.
* For the keys of a batch that has been locked these are the moments of the inserts, one for each
  key.  Then nobody had it.

The moments are different ones for different keys, and no state of the run need have all of the keys
free; a batch is not an atomic step.  `CppUtility.Lock.Atomic` says in what sense successful ones
are, nevertheless.

The proof carries the story of a call along: `Begun` finds the label with which the call began and
says that the client has done nothing else since, and `Progress` has for each key taken so far the
step that took it, as an `OccursAfter` of `CppUtility.Transition`.  A step of the client adds one
such fact, a step of another one leaves all of them as they are (`Begun.concat`), and when the call
returns they are the statement.
-/

set_option autoImplicit false

namespace MemLock

open Transition Ownership

variable {ι K : Type*}

/-- The client is in a `lockBatch`. -/
def Pc.inLockBatch : Pc K → Bool
  | .locking _ _ => true
  | .rollingBack _ _ => true
  | _ => false

/-- A step inside a call. -/
def Label.isInside : Label ι K → Bool
  | .insert _ _ _ => true
  | .erase _ _ => true
  | _ => false

namespace Clients

variable [DecidableEq ι] [DecidableEq K]

/-- What has happened to a `lockBatch` that began with the last label of `p`, in a state in which
its client held `held`. -/
inductive Progress (c : ι) (p tr : List (Label ι K)) (keys held : List K) : Pc K → Prop
  | locking {taken iter : List K} (hkeys : keys = taken ++ iter)
      (htaken : ∀ k ∈ taken, OccursAfter step init p tr (.insert c k true) fun s ↦
        ∀ d, k ∉ s.holdings d) : Progress c p tr keys held (.locking taken iter)
  | rollingBack {taken todo rest : List K} {k : K} (hkeys : keys = taken ++ k :: rest)
      (hrefused : OccursAfter step init p tr (.insert c k false) fun s ↦
        (∃ d ≠ c, k ∈ s.holdings d) ∨ k ∈ taken ∨ k ∈ held) :
      Progress c p tr keys held (.rollingBack todo (k :: rest))

/-- The `lockBatch` a client is in: when it began, that the client has done nothing else since, and
how far it has come. -/
def Begun (tr : List (Label ι K)) (s : Clients ι K) (c : ι) : Prop :=
  ∃ (u : List (Label ι K)) (keys : List K) (v : List (Label ι K)) (s₀ : Clients ι K),
    tr = u ++ .call c (.lockBatch keys) :: v ∧ (∀ l ∈ v, l.client = c → l.isInside = true) ∧
    run step init u = some s₀ ∧ s.held c = s₀.held c ∧
    Progress c (u ++ [.call c (.lockBatch keys)]) tr keys (s₀.held c) (s.pc c)

variable {tr : List (Label ι K)} {s s' : Clients ι K} {l : Label ι K} {c : ι}

theorem Progress.concat {p : List (Label ι K)} {keys held : List K} {pc : Pc K}
    (h : Progress c p tr keys held pc) (l : Label ι K) : Progress c p (tr ++ [l]) keys held pc := by
  cases h with
  | locking hkeys htaken => exact .locking hkeys fun k hk ↦ (htaken k hk).concat l
  | rollingBack hkeys hrefused => exact .rollingBack hkeys (hrefused.concat l)

/-- A step, which is not its return, of a client in a `lockBatch` or of another one. -/
theorem Begun.concat (h : Begun tr s c) (hl : l.client = c → l.isInside = true)
    (hheld : s'.held c = s.held c)
    (hprogress : ∀ p keys, p <+: tr → Progress c p tr keys (s.held c) (s.pc c) →
      Progress c p (tr ++ [l]) keys (s.held c) (s'.pc c)) : Begun (tr ++ [l]) s' c := by
  obtain ⟨u, keys, v, s₀, htr, hv, hu, hheld₀, hp⟩ := h
  have hprefix : u ++ [.call c (.lockBatch keys)] <+: tr := ⟨v, by simp [htr]⟩
  refine ⟨u, keys, v ++ [l], s₀, by simp [htr], fun m hm hc ↦ ?_, hu, hheld.trans hheld₀,
    hheld₀ ▸ hprogress _ keys hprefix (hheld₀ ▸ hp)⟩
  rcases List.mem_append.mp hm with hm | hm
  · exact hv m hm hc
  · obtain rfl := List.mem_singleton.mp hm
    exact hl hc

/-- A key that the client may insert is taken, in a state in which nobody has it. -/
theorem Begun.inserted (h : Begun tr s c) (hr : run step init tr = some s) {key : K}
    {taken rest : List K} (hpc : s.pc c = .locking taken (key :: rest))
    (hnew : key ∉ s.core.m_hashMap) (hpc' : s'.pc c = .locking (taken ++ [key]) rest)
    (hheld : s'.held c = s.held c) : Begun (tr ++ [.insert c key true]) s' c := by
  refine h.concat (fun _ ↦ rfl) hheld fun p keys hprefix hp ↦ ?_
  rw [hpc] at hp
  rw [hpc']
  cases hp with
  | locking hkeys htaken =>
    refine .locking (by simp [hkeys]) fun k hk ↦ ?_
    rcases List.mem_append.mp hk with hk | hk
    · exact (htaken k hk).concat _
    · obtain rfl := List.mem_singleton.mp hk
      refine occursAfter_concat_self hprefix hr fun d hd ↦ hnew ?_
      exact ((books hr).owns.mem_iff k).mpr ⟨d, hd⟩

/-- A key that it may not insert is somebody's, if only its own. -/
theorem Begun.refused (h : Begun tr s c) (hr : run step init tr = some s) {key : K}
    {taken rest : List K} (hpc : s.pc c = .locking taken (key :: rest))
    (hold : key ∈ s.core.m_hashMap) (hpc' : s'.pc c = .rollingBack taken (key :: rest))
    (hheld : s'.held c = s.held c) : Begun (tr ++ [.insert c key false]) s' c := by
  refine h.concat (fun _ ↦ rfl) hheld fun p keys hprefix hp ↦ ?_
  rw [hpc] at hp
  rw [hpc']
  cases hp with
  | locking hkeys htaken =>
    refine .rollingBack hkeys (occursAfter_concat_self hprefix hr ?_)
    obtain ⟨d, hd⟩ := ((books hr).owns.mem_iff key).mp hold
    by_cases hdc : d = c
    · subst hdc
      rw [holdings, hpc, Pc.keys_locking, List.mem_append] at hd
      exact .inr hd.symm
    · exact .inl ⟨d, hdc, hd⟩

/-- **One step.** -/
theorem Rule.begun (h : Rule s l s') (hr : run step init tr = some s)
    (hi : ∀ c, (s.pc c).inLockBatch = true → Begun tr s c) (c : ι)
    (hc : (s'.pc c).inLockBatch = true) : Begun (tr ++ [l]) s' c := by
  by_cases hl : c = l.client
  · subst hl
    cases h with
    | @call c f hidle hnodup hheld =>
      have hpc : ((s.goto c f.start).hold c ((s.held c).filter (· ∉ f.released))).pc c = f.start :=
        goto_pc_self ..
      dsimp only [Label.client] at hc ⊢
      rw [hpc] at hc
      cases f with
      | tryLock | unlock | unlockBatch => cases hc
      | lockBatch keys =>
        refine ⟨tr, keys, [], s, by simp, fun l hl ↦ (List.not_mem_nil hl).elim, hr, ?_, ?_⟩
        · simp [hold, Call.released]
        · rw [hpc]
          exact .locking rfl fun k hk ↦ (List.not_mem_nil hk).elim
    | @inserted c key p hafter hnew =>
      dsimp only [Label.client] at hc ⊢
      rw [goto_pc_self] at hc
      rcases Pc.afterInsert_eq_some.mp hafter with ⟨-, rfl⟩ | ⟨taken, rest, hpc, rfl⟩
      · cases hc
      · exact (hi c (by rw [hpc]; rfl)).inserted hr hpc hnew (goto_pc_self ..) rfl
    | @refused c key p hafter hold =>
      dsimp only [Label.client] at hc ⊢
      rw [goto_pc_self] at hc
      rcases Pc.afterInsert_eq_some.mp hafter with ⟨-, rfl⟩ | ⟨taken, rest, hpc, rfl⟩
      · cases hc
      · exact (hi c (by rw [hpc]; rfl)).refused hr hpc hold (goto_pc_self ..) rfl
    | @erase c key p hafter =>
      dsimp only [Label.client] at hc ⊢
      rw [goto_pc_self] at hc
      rcases Pc.afterErase_eq_some.mp hafter with ⟨-, rfl⟩ | ⟨todo, iter, hpc, rfl⟩ |
        ⟨gone, todo, -, rfl⟩
      · cases hc
      · refine (hi c (by rw [hpc]; rfl)).concat (fun _ ↦ rfl) rfl fun p keys _ hp ↦ ?_
        rw [hpc] at hp
        rw [goto_pc_self]
        cases hp with
        | rollingBack hkeys hrefused => exact .rollingBack hkeys (hrefused.concat _)
      · cases hc
    | @ret c r keys hresult =>
      have hpc : ((s.goto c .idle).hold c (s.held c ++ keys)).pc c = .idle := goto_pc_self ..
      dsimp only [Label.client] at hc
      rw [hpc] at hc
      cases hc
  · obtain ⟨hpc, hheld⟩ := h.other hl
    rw [hpc] at hc
    refine (hi c hc).concat (fun h' ↦ absurd h'.symm hl) hheld fun p keys _ hp ↦ ?_
    rw [hpc]
    exact hp.concat l

/-! ## All runs -/

theorem begun (h : run step init tr = some s) :
    ∀ c, (s.pc c).inLockBatch = true → Begun tr s c :=
  run_induction (P := fun tr s ↦ ∀ c, (s.pc c).inLockBatch = true → Begun tr s c)
    (fun _ hc ↦ by cases hc) (fun _ _ _ _ hr hi hs ↦ (rule_of_step hs).begun hr hi) h

omit [DecidableEq K] in
/-- The position from which a `lockBatch` returns. -/
theorem pc_of_batch {p : Pc K} {iter keys : List K} {ok : Bool}
    (h : p.result = some (.batch iter ok, keys)) :
    (p = .locking keys [] ∧ iter = [] ∧ ok = true) ∨
      (p = .rollingBack [] iter ∧ keys = [] ∧ ok = false) := by
  unfold Pc.result at h
  split at h
  · cases h
  · cases h
  · cases h
    exact .inl ⟨rfl, rfl, rfl⟩
  · cases h
    exact .inr ⟨rfl, rfl, rfl⟩
  · cases h
  · cases h

/-- **What the answer of a `lockBatch` says**, whatever the other clients do meanwhile.  The call it
belongs to is the last thing its client began.  When it succeeds, the client holds the keys besides
what it has held before, without a duplicate, and each of them has been inserted during the call
when nobody had it.  When it fails, the client holds what it has held before, and the iterator
points into the range, at a key whose insert failed during the call: at that moment another client
had it, or it was among the keys before it in the range, or this client has held it since before
the call. -/
theorem lock_answers {iter : List K} {ok : Bool}
    (h : run step init (tr ++ [.ret c (.batch iter ok)]) = some s) :
    ∃ (u : List (Label ι K)) (keys : List K) (v : List (Label ι K)) (s₀ : Clients ι K),
      tr = u ++ .call c (.lockBatch keys) :: v ∧ (∀ l ∈ v, l.client = c → l.isInside = true) ∧
      run step init u = some s₀ ∧
      (ok = true → iter = [] ∧ s.held c = s₀.held c ++ keys ∧ (s.held c).Nodup ∧
        ∀ k ∈ keys, OccursAfter step init (u ++ [.call c (.lockBatch keys)]) tr (.insert c k true)
          fun s ↦ ∀ d, k ∉ s.holdings d) ∧
      (ok = false → s.held c = s₀.held c ∧ ∃ taken k rest, keys = taken ++ k :: rest ∧
        iter = k :: rest ∧
        OccursAfter step init (u ++ [.call c (.lockBatch keys)]) tr (.insert c k false)
          fun s ↦ (∃ d ≠ c, k ∈ s.holdings d) ∨ k ∈ taken ∨ k ∈ s₀.held c) := by
  obtain ⟨s₁, hr, hs⟩ := run_concat.mp h
  obtain ⟨ks, hresult, hheld⟩ : ∃ ks, (s₁.pc c).result = some (.batch iter ok, ks) ∧
      s.held c = s₁.held c ++ ks := by
    cases rule_of_step hs with
    | ret hpc => exact ⟨_, hpc, by simp [hold]⟩
  have hnodup : (s.held c).Nodup :=
    (List.nodup_append.mp ((books h).owns.nodup c)).1
  rcases pc_of_batch hresult with ⟨hpc, rfl, rfl⟩ | ⟨hpc, rfl, rfl⟩
  · obtain ⟨u, keys, v, s₀, htr, hv, hu, hsame, hp⟩ := begun hr c (by rw [hpc]; rfl)
    refine ⟨u, keys, v, s₀, htr, hv, hu, fun _ ↦ ?_, fun hok ↦ by cases hok⟩
    rw [hpc] at hp
    cases hp with
    | locking hkeys htaken =>
      rw [List.append_nil] at hkeys
      subst hkeys
      exact ⟨rfl, by rw [hheld, hsame], hnodup, htaken⟩
  · obtain ⟨u, keys, v, s₀, htr, hv, hu, hsame, hp⟩ := begun hr c (by rw [hpc]; rfl)
    refine ⟨u, keys, v, s₀, htr, hv, hu, (fun hok ↦ by cases hok), fun _ ↦ ?_⟩
    rw [hpc] at hp
    cases hp with
    | rollingBack hkeys hrefused =>
      exact ⟨by rw [hheld, hsame, List.append_nil], _, _, _, hkeys, rfl, hrefused⟩

/-- A batch that meets a key of another client, which that one has given back when the answer
comes. -/
def tooLate : List (Label ℕ ℕ) :=
  [.call 1 (.tryLock 2), .insert 1 2 true, .ret 1 (.bool true), .call 0 (.lockBatch [1, 2, 3]),
    .insert 0 1 true, .insert 0 2 false, .call 1 (.unlock 2), .erase 1 2, .erase 0 1,
    .ret 1 .void]

theorem lock_answers_tooLate : ∃ s, run step init (tooLate ++ [.ret 0 (.batch [2, 3] false)])
      = some s ∧ s.core.m_hashMap = ∅ ∧
    ∃ (u : List (Label ℕ ℕ)) (s₀ : Clients ℕ ℕ) (keys taken : List ℕ) (k : ℕ) (rest : List ℕ),
      run step init u = some s₀ ∧ keys = taken ++ k :: rest ∧ [2, 3] = k :: rest ∧
      OccursAfter step init (u ++ [.call 0 (.lockBatch keys)]) tooLate (.insert 0 k false)
        fun s ↦ (∃ d ≠ 0, k ∈ s.holdings d) ∨ k ∈ taken ∨ k ∈ s₀.held 0 := by
  have hrun : ((run step init (tooLate ++ [.ret 0 (.batch [2, 3] false)])).any fun s ↦
      decide (s.core.m_hashMap = ∅)) = true := by decide
  obtain ⟨s, hs, hp⟩ := exists_run_of_any hrun
  obtain ⟨u, keys, v, s₀, -, -, hu, -, hfail⟩ := lock_answers hs
  obtain ⟨-, taken, k, rest, hkeys, hiter, hoccurs⟩ := hfail rfl
  exact ⟨s, hs, of_decide_eq_true hp, u, s₀, keys, taken, k, rest, hu, hkeys, hiter, hoccurs⟩

end Clients

end MemLock
