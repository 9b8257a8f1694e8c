import CppUtility.Lock.Clients

/-!
# Keyed locks are exclusive

Whatever a client has, held from completed calls, taken by a running call, or about to be released
by one, is `Clients.holdings`.  A lock that is any good gives no key to two clients, and that has to
include the keys of calls that are under way, since a batch that is going to be rolled back stands
in the way of others as much as one that is going to succeed.

One step does one of three things to the holdings (`Rule.change`):

* it only regroups what a client has, as when a call begins or returns;
* it adds the key of a successful insert, which was not in the map;
* it removes the key of an erase, which was in it.

These are the rules of `CppUtility.Ownership`, and so the map stays the disjoint union of the
holdings.

Being disjoint is not all.  A roll-back that erased the keys of somebody else would keep the union
disjoint too, if only the books were changed with it.  So the history is asked as well: `putBy` goes
through the labels and says who put a key into the map and has not, nor has anybody else, erased it
since.  `Books` has both, and what a client has turns out to be what it put in.  In particular a
roll-back erases only keys that its own client put in.
-/

set_option autoImplicit false

namespace MemLock

open Transition Ownership

variable {ι K : Type*}

/-! ## The keys of a running call -/

/-- What a running call has taken, and what it is there to release; one of the two is empty. -/
def Pc.keys (p : Pc K) : List K := p.taking ++ p.releasing

@[simp] theorem Pc.keys_locking (taken iter : List K) : (Pc.locking taken iter).keys = taken :=
  List.append_nil taken

@[simp] theorem Pc.keys_rollingBack (todo iter : List K) : (Pc.rollingBack todo iter).keys = todo :=
  List.append_nil todo

theorem Call.keys_start (f : Call K) : f.start.keys = f.released := by
  cases f <;> rfl

section Next

variable [DecidableEq K] {p p' : Pc K} {key : K}

theorem Pc.keys_afterInsert_true (h : p.afterInsert key true = some p') :
    p'.keys.Perm (key :: p.keys) := by
  rcases afterInsert_eq_some.mp h with ⟨rfl, rfl⟩ | ⟨taken, rest, rfl, rfl⟩
  · exact List.Perm.refl _
  · simp only [keys, taking, releasing, if_true, List.append_nil]
    exact List.perm_append_singleton key taken

theorem Pc.keys_afterInsert_false (h : p.afterInsert key false = some p') : p'.keys = p.keys := by
  rcases afterInsert_eq_some.mp h with ⟨rfl, rfl⟩ | ⟨taken, rest, rfl, rfl⟩
  · rfl
  · rfl

theorem Pc.keys_afterErase (h : p.afterErase key = some p') : p.keys = key :: p'.keys := by
  rcases afterErase_eq_some.mp h with ⟨rfl, rfl⟩ | ⟨todo, iter, rfl, rfl⟩ | ⟨gone, todo, rfl, rfl⟩
  · rfl
  · rfl
  · rfl

omit [DecidableEq K] in
theorem Pc.keys_result {r : Ret K} {keys : List K} (h : p.result = some (r, keys)) :
    p.keys = keys := by
  unfold result at h
  split at h
  · next key inserted => cases inserted <;> cases h <;> rfl
  · cases h; rfl
  · cases h; exact List.append_nil _
  · cases h; rfl
  · cases h; rfl
  · cases h

end Next

/-! ## What a client has

Holdings are read off the state, and `putBy` off the history.  That the two agree is the second half
of `Books`. -/

/-- All that a client has: held from calls that have returned, taken by a running call, or about to
be released by one. -/
def Clients.holdings (s : Clients ι K) (c : ι) : List K :=
  s.held c ++ (s.pc c).keys

/-- The client that put the key into the map and has not, nor has anybody else, erased it since. -/
def Label.putBy [DecidableEq K] (k : K) (owner : Option ι) : Label ι K → Option ι
  | .insert c key true => if k = key then some c else owner
  | .erase _ key => if k = key then none else owner
  | _ => owner

/-- Who put the key into the map, according to the history. -/
def putBy [DecidableEq K] (tr : List (Label ι K)) (k : K) : Option ι :=
  tr.foldl (Label.putBy k) none

namespace Clients

variable [DecidableEq ι] [DecidableEq K] {s s' : Clients ι K} {l : Label ι K}

omit [DecidableEq K] in
theorem holdings_goto_ne (s : Clients ι K) {c d : ι} (p : Pc K) (h : d ≠ c) :
    (s.goto c p).holdings d = s.holdings d := by
  rw [holdings, holdings, goto_pc_ne s p h]
  rfl

omit [DecidableEq K] in
/-- What a client has after a step that changes its position only. -/
theorem holdings_goto_self (s : Clients ι K) (c : ι) (p : Pc K) :
    (s.goto c p).holdings c = s.held c ++ p.keys := by
  rw [holdings, goto_pc_self]
  rfl

omit [DecidableEq K] in
theorem holdings_hold_self (s : Clients ι K) (c : ι) (keys : List K) :
    (s.hold c keys).holdings c = keys ++ (s.pc c).keys := by
  simp [holdings, hold]

omit [DecidableEq K] in
theorem holdings_hold_ne (s : Clients ι K) {c d : ι} (keys : List K) (h : d ≠ c) :
    (s.hold c keys).holdings d = s.holdings d := by
  simp [holdings, hold, h]

/-- A list without duplicates, cut in two: what is not in `ks`, and `ks`. -/
theorem perm_filter_append {l ks : List K} (hl : l.Nodup) (hks : ks.Nodup)
    (hsub : ∀ k ∈ ks, k ∈ l) : (l.filter (· ∉ ks) ++ ks).Perm l := by
  have hnodup : (l.filter (· ∉ ks) ++ ks).Nodup := by
    refine List.nodup_append.mpr ⟨hl.filter _, hks, fun a ha b hb hab ↦ ?_⟩
    have hnot := of_decide_eq_true (List.mem_filter.mp ha).2
    exact hnot (hab ▸ hb)
  rw [List.perm_ext_iff_of_nodup hnodup hl]
  intro k
  rw [List.mem_append, List.mem_filter, decide_eq_true_eq]
  constructor
  · rintro (⟨hk, -⟩ | hk)
    · exact hk
    · exact hsub k hk
  · intro hk
    by_cases hin : k ∈ ks
    · exact .inr hin
    · exact .inl ⟨hk, hin⟩

/-- **What one step does to the holdings**: nothing but regrouping, or one client gains the key it
has inserted, or it loses the key it has erased. -/
theorem Rule.change (h : Rule s l s') (hi : ∀ c, (s.holdings c).Nodup) :
    ((∀ k owner, l.putBy k owner = owner) ∧ s'.core = s.core ∧
      ∀ d, (s'.holdings d).Perm (s.holdings d)) ∨
    (∃ c key, l = .insert c key true ∧ key ∉ s.core.m_hashMap ∧
      s'.core.m_hashMap = s.core.m_hashMap ∪ [key].toFinset ∧
      (s'.holdings c).Perm ([key] ++ s.holdings c) ∧ ∀ d, d ≠ c → s'.holdings d = s.holdings d) ∨
    (∃ c key, l = .erase c key ∧ s'.core.m_hashMap = s.core.m_hashMap \ [key].toFinset ∧
      (s.holdings c).Perm ([key] ++ s'.holdings c) ∧
      ∀ d, d ≠ c → s'.holdings d = s.holdings d) := by
  cases h with
  | @call c f hidle hnodup hheld =>
    refine .inl ⟨fun _ _ ↦ rfl, rfl, fun d ↦ ?_⟩
    by_cases hd : d = c
    · -- the keys to be released leave `held` and become those of the call
      subst hd
      have hnodup' : (s.held d).Nodup := (List.nodup_append.mp (hi d)).1
      have hbefore : s.holdings d = s.held d := by
        simp [holdings, hidle, Pc.keys, Pc.taking, Pc.releasing]
      rw [holdings_hold_self, goto_pc_self, hbefore, Call.keys_start]
      exact perm_filter_append hnodup' hnodup hheld
    · rw [holdings_hold_ne _ _ hd, holdings_goto_ne s _ hd]
  | @inserted c key p hpc hnew =>
    refine .inr (.inl ⟨c, key, rfl, hnew, ?_, ?_, fun d hd ↦ holdings_goto_ne s p hd⟩)
    · ext k
      simp
    · show ((s.goto c p).holdings c).Perm ([key] ++ s.holdings c)
      rw [holdings_goto_self]
      exact ((Pc.keys_afterInsert_true hpc).append_left _).trans List.perm_middle
  | @refused c key p hpc hold =>
    refine .inl ⟨fun _ _ ↦ rfl, rfl, fun d ↦ ?_⟩
    by_cases hd : d = c
    · subst hd
      rw [holdings_goto_self, Pc.keys_afterInsert_false hpc]
      exact List.Perm.refl _
    · rw [holdings_goto_ne s p hd]
  | @erase c key p hpc =>
    refine .inr (.inr ⟨c, key, rfl, ?_, ?_, fun d hd ↦ holdings_goto_ne s p hd⟩)
    · ext k
      simp [and_comm]
    · show (s.holdings c).Perm ([key] ++ (s.goto c p).holdings c)
      rw [holdings_goto_self, holdings, Pc.keys_afterErase hpc]
      exact List.perm_middle
  | @ret c r keys hpc =>
    refine .inl ⟨fun _ _ ↦ rfl, rfl, fun d ↦ ?_⟩
    by_cases hd : d = c
    · -- the keys the call has taken become held
      subst hd
      rw [holdings_hold_self, goto_pc_self, holdings, Pc.keys_result hpc]
      exact List.Perm.of_eq (List.append_nil _)
    · rw [holdings_hold_ne _ _ hd, holdings_goto_ne s _ hd]

/-! ## All runs -/

/-- The books are right: the map is the disjoint union of the holdings, and each client has what it
put in. -/
structure Books (tr : List (Label ι K)) (s : Clients ι K) : Prop where
  owns : Owns s.core.m_hashMap s.holdings
  putBy : ∀ c k, k ∈ s.holdings c ↔ putBy tr k = some c

theorem Rule.books {tr : List (Label ι K)} (h : Rule s l s') (hi : Books tr s) :
    Books (tr ++ [l]) s' := by
  have hputBy : ∀ k, MemLock.putBy (tr ++ [l]) k = l.putBy k (MemLock.putBy tr k) := by
    intro k
    rw [MemLock.putBy, List.foldl_append]
    rfl
  rcases h.change hi.owns.nodup with ⟨hlabel, hcore, hperm⟩ |
    ⟨c, key, rfl, hnew, hcore, hgain, hother⟩ | ⟨c, key, rfl, hcore, hlose, hother⟩
  · refine ⟨hcore ▸ hi.owns.perm hperm, fun c k ↦ ?_⟩
    rw [(hperm c).mem_iff, hputBy, hlabel, hi.putBy]
  · have howns : Owns s'.core.m_hashMap s'.holdings := by
      rw [hcore]
      refine hi.owns.gain (List.nodup_singleton key) (fun k hk ↦ ?_) hgain hother
      rwa [List.mem_singleton.mp hk]
    refine ⟨howns, fun d k ↦ ?_⟩
    rw [hputBy, Label.putBy]
    by_cases hk : k = key
    · subst hk
      have hc : k ∈ s'.holdings c := hgain.mem_iff.mpr List.mem_cons_self
      rw [if_pos rfl, Option.some_inj]
      exact ⟨fun hd ↦ howns.unique c d k hc hd, fun hcd ↦ hcd ▸ hc⟩
    · rw [if_neg hk, ← hi.putBy]
      by_cases hd : d = c
      · subst hd
        rw [hgain.mem_iff, List.singleton_append, List.mem_cons]
        exact or_iff_right hk
      · rw [hother d hd]
  · have howns : Owns s'.core.m_hashMap s'.holdings := by
      rw [hcore]
      exact hi.owns.lose hlose hother
    refine ⟨howns, fun d k ↦ ?_⟩
    rw [hputBy, Label.putBy]
    by_cases hk : k = key
    · subst hk
      rw [if_pos rfl]
      have hgone : k ∉ s'.core.m_hashMap := by
        rw [hcore]
        simp
      exact iff_of_false (fun hd ↦ hgone (howns.mem hd)) nofun
    · rw [if_neg hk, ← hi.putBy]
      by_cases hd : d = c
      · subst hd
        rw [hlose.mem_iff, List.singleton_append, List.mem_cons]
        exact (or_iff_right hk).symm
      · rw [hother d hd]

theorem books {tr : List (Label ι K)} (h : run step init tr = some s) : Books tr s := by
  refine run_induction (P := Books) ⟨.empty fun _ ↦ rfl, fun c k ↦ ?_⟩
    (fun _ _ _ _ _ hi hs ↦ (rule_of_step hs).books hi) h
  exact iff_of_false List.not_mem_nil nofun

/-- **Keyed locks are exclusive under concurrency.**  In every reachable state

* the keys in the map are the disjoint union, over the clients, of what each of them holds from
  completed calls, what its running call has inserted and not rolled back, and what its running call
  is there to erase and has not;
* what a client has in these places is exactly what it put into the map and nobody has erased since;
* a key that is erased next — by an unlock, or by the roll-back of a failing `lockBatch` — was put
  in by the client that erases it. -/
theorem holdings_exclusive {tr : List (Label ι K)} (h : run step init tr = some s) :
    Owns s.core.m_hashMap (fun c ↦ s.held c ++ ((s.pc c).taking ++ (s.pc c).releasing)) ∧
      (∀ c k, k ∈ s.held c ++ ((s.pc c).taking ++ (s.pc c).releasing) ↔
        MemLock.putBy tr k = some c) ∧
      ∀ c key s', step s (.erase c key) = some s' → MemLock.putBy tr key = some c := by
  have hbooks := books h
  refine ⟨hbooks.owns, hbooks.putBy, fun c key s' hs ↦ ?_⟩
  rcases (rule_of_step hs).change hbooks.owns.nodup with
    ⟨hlabel, -⟩ | ⟨_, _, ⟨⟩, -⟩ | ⟨_, _, ⟨⟩, -, hlose, -⟩
  · -- an erase is not a step that leaves the books alone
    have hsome := hlabel key (some c)
    simp [Label.putBy] at hsome
  · exact (hbooks.putBy c key).mp (hlose.mem_iff.mpr List.mem_cons_self)

/-- Two clients whose batches overlap, one of which also repeats a key. -/
def overlapping : List (Label ℕ ℕ) :=
  [.call 0 (.lockBatch [1, 2, 2]), .insert 0 1 true, .call 1 (.lockBatch [3, 1]), .insert 0 2 true,
    .insert 1 3 true, .insert 1 1 false, .insert 0 2 false, .erase 0 1]

theorem holdings_exclusive_overlapping : ∃ s, run step init overlapping = some s ∧
    Owns s.core.m_hashMap (fun c ↦ s.held c ++ ((s.pc c).taking ++ (s.pc c).releasing)) ∧
    (s.pc 0).taking = [2] ∧ (s.pc 1).taking = [3] := by
  have hrun : ((run step init overlapping).any fun s ↦
      decide ((s.pc 0).taking = [2] ∧ (s.pc 1).taking = [3])) = true := by decide
  obtain ⟨s, hs, hp⟩ := exists_run_of_any hrun
  exact ⟨s, hs, (holdings_exclusive hs).1, of_decide_eq_true hp⟩

end Clients

end MemLock
