import Mathlib.Data.Finset.Max
import CppUtility.Lock.Exclusive
import CppUtility.Lock.Guard

/-!
# Sorted batches cannot all defeat one another

Batches in arbitrary order can: with `[a, b]` against `[b, a]` each client may take its first key,
be refused the second and roll back.  A guard with `dedup` locks its keys in increasing order, and
then somebody always gets through.

The argument looks at the keys at which a batch was refused.  Such a key was in the map because some
client had taken it (`Ladder.blamed_of_mem`), and there are three kinds of client that can have done
this:

* one that has got through, and then there is nothing left to show;
* one that was still taking keys at that time;
* one that was refused too, but then later in its own list, that is, at a larger key.

A client of the second kind goes on, and becomes one of the first or of the third.  When every
client has returned, the second kind is empty, and the largest key at which anybody was refused can
only be due to a client that got through.  The order is used in one place only: the keys that a
client has taken are smaller than the one it is refused.

`Ladder` is this as an invariant.  Blame is not fixed once and for all: it is put on the keys of a
client that is taking them, and must be passed on when that client is refused or returns
(`Blamed.step`).

What `std::unique` leaves behind the end of the sorted keys does not matter here, since the keys of
each client are distinct and nothing is left (`DedupCall.sorted`).
-/

set_option autoImplicit false

namespace MemLock

open Transition Ownership

variable {ι K : Type*} [DecidableEq ι] [LinearOrder K]

/-- The call a guard with `dedup` makes for a list of keys: `lockBatch` on its sorted vector,
whatever `std::unique` has left at the end of it. -/
def DedupCall (keys : List K) (f : Call K) : Prop :=
  ∃ leftover, (unique (sort keys)).length + leftover.length = keys.length ∧
    f = .lockBatch (unique (sort keys) ++ leftover)

/-- Without duplicates among the keys that vector is strictly increasing. -/
theorem DedupCall.sorted {keys : List K} {f : Call K} (h : DedupCall keys f) (hnodup : keys.Nodup) :
    ∃ vec : List K, f = .lockBatch vec ∧ vec.Pairwise (· < ·) := by
  obtain ⟨leftover, hlen, rfl⟩ := h
  have hempty : leftover = [] := by
    rw [← List.length_eq_zero_iff]
    have hunique := length_unique_sort.mpr hnodup
    omega
  refine ⟨_, rfl, ?_⟩
  rw [hempty, List.append_nil]
  exact pairwise_unique (pairwise_sort keys)

namespace Clients

/-- A `lockBatch` has returned with all its keys. -/
def Won (tr : List (Label ι K)) : Prop := ∃ c, .ret c (.batch [] true) ∈ tr

/-- Somebody was refused the key. -/
def Refused (tr : List (Label ι K)) (k : K) : Prop := ∃ c, .insert c k false ∈ tr

omit [DecidableEq ι] [LinearOrder K] in
theorem Won.mono {tr : List (Label ι K)} (h : Won tr) (l : Label ι K) : Won (tr ++ [l]) := by
  obtain ⟨c, hc⟩ := h
  exact ⟨c, List.mem_append_left _ hc⟩

omit [DecidableEq ι] [LinearOrder K] in
theorem Refused.mono {tr : List (Label ι K)} {k : K} (h : Refused tr k) (l : Label ι K) :
    Refused (tr ++ [l]) k := by
  obtain ⟨c, hc⟩ := h
  exact ⟨c, List.mem_append_left _ hc⟩

/-- Where a client can be while it only makes sorted batches. -/
inductive Climbing (tr : List (Label ι K)) : Pc K → Prop
  | idle : Climbing tr .idle
  | locking {taken iter : List K} (hsorted : (taken ++ iter).Pairwise (· < ·)) :
      Climbing tr (.locking taken iter)
  | rollingBack {todo rest : List K} {k : K} (hsorted : ∀ a ∈ todo, a < k) (href : Refused tr k) :
      Climbing tr (.rollingBack todo (k :: rest))

omit [DecidableEq ι] in
theorem Climbing.mono {tr : List (Label ι K)} {p : Pc K} (h : Climbing tr p) (l : Label ι K) :
    Climbing (tr ++ [l]) p := by
  cases h with
  | idle => exact .idle
  | locking hsorted => exact .locking hsorted
  | rollingBack hsorted href => exact .rollingBack hsorted (href.mono l)

/-- Why a key was in the map: a client has got through, or one is taking keys and has taken this
one, or one was refused at a larger key. -/
def Blamed (tr : List (Label ι K)) (s : Clients ι K) (k : K) : Prop :=
  Won tr ∨ (∃ d taken iter, s.pc d = .locking taken iter ∧ k ∈ taken) ∨ ∃ k', Refused tr k' ∧ k < k'

/-- What holds as long as everybody only makes sorted batches. -/
structure Ladder (tr : List (Label ι K)) (s : Clients ι K) : Prop where
  climbing : ∀ c, Climbing tr (s.pc c)
  /-- Only a client that has got through holds anything. -/
  held : ∀ c k, k ∈ s.held c → Won tr
  /-- A call that has returned got through, or was refused a key. -/
  ret : ∀ c r, .ret c r ∈ tr → Won tr ∨ ∃ k, Refused tr k
  blame : ∀ k, Refused tr k → Blamed tr s k

variable {tr : List (Label ι K)} {s s' : Clients ι K} {l : Label ι K}

omit [DecidableEq ι] [LinearOrder K] in
theorem refused_concat {k : K} (h : Refused (tr ++ [l]) k) :
    Refused tr k ∨ ∃ c, l = .insert c k false := by
  obtain ⟨c, hc⟩ := h
  rcases List.mem_append.mp hc with hc | hc
  · exact .inl ⟨c, hc⟩
  · exact .inr ⟨c, (List.mem_singleton.mp hc).symm⟩

/-- Blame lasts when a client moves: only if it was taking keys has the blame on it to be looked at
again. -/
theorem Blamed.step {c : ι} {p : Pc K} {k : K} (h : Blamed tr s k) (hs' : s'.pc = (s.goto c p).pc)
    (hself : ∀ taken iter, s.pc c = .locking taken iter → k ∈ taken → Blamed (tr ++ [l]) s' k) :
    Blamed (tr ++ [l]) s' k := by
  rcases h with hwon | ⟨d, taken, iter, hpc, hk⟩ | ⟨k', href, hlt⟩
  · exact .inl (hwon.mono l)
  · by_cases hd : d = c
    · subst hd
      exact hself taken iter hpc hk
    · exact .inr (.inl ⟨d, taken, iter, by rw [hs', goto_pc_ne s p hd, hpc], hk⟩)
  · exact .inr (.inr ⟨k', href.mono l, hlt⟩)

omit [DecidableEq ι] in
/-- Whatever is in the map can be blamed on somebody. -/
theorem Ladder.blamed_of_mem (h : Ladder tr s) (hbooks : Books tr s) {k : K}
    (hk : k ∈ s.core.m_hashMap) : Blamed tr s k := by
  obtain ⟨d, hd⟩ := (hbooks.owns.mem_iff k).mp hk
  rcases List.mem_append.mp hd with hheld | hkeys
  · exact .inl (h.held d k hheld)
  · have hclimb := h.climbing d
    generalize hpc : s.pc d = p at hclimb hkeys
    cases hclimb with
    | idle => cases hkeys
    | locking hsorted =>
      rw [Pc.keys_locking] at hkeys
      exact .inr (.inl ⟨d, _, _, hpc, hkeys⟩)
    | rollingBack hsorted href =>
      rw [Pc.keys_rollingBack] at hkeys
      exact .inr (.inr ⟨_, href, hsorted k hkeys⟩)

/-- A client moves, and stays a climber. -/
theorem Ladder.climbing_goto (h : Ladder tr s) {c : ι} {p : Pc K} (hp : Climbing (tr ++ [l]) p)
    (d : ι) : Climbing (tr ++ [l]) ((s.goto c p).pc d) := by
  by_cases hd : d = c
  · rw [hd, goto_pc_self]
    exact hp
  · rw [goto_pc_ne s p hd]
    exact (h.climbing d).mono l

omit [DecidableEq ι] in
/-- Nothing new has returned. -/
theorem Ladder.ret_mono (h : Ladder tr s) (hl : ∀ c r, l ≠ .ret c r) (c : ι) (r : Ret K)
    (hin : .ret c r ∈ tr ++ [l]) : Won (tr ++ [l]) ∨ ∃ k, Refused (tr ++ [l]) k := by
  rcases List.mem_append.mp hin with hin | hin
  · rcases h.ret c r hin with hwon | ⟨k, href⟩
    · exact .inl (hwon.mono l)
    · exact .inr ⟨k, href.mono l⟩
  · exact absurd (List.mem_singleton.mp hin).symm (hl c r)

/-- Nobody is refused a key in this step. -/
theorem Ladder.blame_mono (h : Ladder tr s) {c : ι} {p : Pc K} (hs' : s'.pc = (s.goto c p).pc)
    (hl : ∀ d k, l ≠ .insert d k false)
    (hself : ∀ k taken iter, s.pc c = .locking taken iter → k ∈ taken →
      Blamed (tr ++ [l]) s' k) (k : K) (href : Refused (tr ++ [l]) k) :
    Blamed (tr ++ [l]) s' k := by
  rcases refused_concat href with href | ⟨d, hd⟩
  · exact (h.blame k href).step hs' (hself k)
  · exact absurd hd (hl d k)

/-- A client that holds something after this step did so before. -/
theorem Ladder.held_mono (h : Ladder tr s) {c : ι} {p : Pc K} {keys : List K}
    (hkeys : ∀ k ∈ keys, k ∈ s.held c) (d : ι) (k : K)
    (hk : k ∈ ((s.goto c p).hold c keys).held d) : Won (tr ++ [l]) := by
  refine (h.held d k ?_).mono l
  by_cases hd : d = c
  · subst hd
    exact hkeys k (by simpa [hold] using hk)
  · simpa [hold, goto, hd] using hk

omit [DecidableEq ι] in
/-- A client that inserts is in the middle of a sorted batch. -/
theorem Ladder.locking (h : Ladder tr s) {c : ι} {key : K} {inserted : Bool} {p : Pc K}
    (hpc : (s.pc c).afterInsert key inserted = some p) :
    ∃ taken rest, s.pc c = .locking taken (key :: rest) ∧
      (taken ++ key :: rest).Pairwise (· < ·) ∧
      p = if inserted then .locking (taken ++ [key]) rest
        else .rollingBack taken (key :: rest) := by
  have hclimb := h.climbing c
  rcases Pc.afterInsert_eq_some.mp hpc with ⟨htry, -⟩ | ⟨taken, rest, hlock, rfl⟩
  · rw [htry] at hclimb
    cases hclimb
  · rw [hlock] at hclimb
    cases hclimb with
    | locking hsorted => exact ⟨taken, rest, hlock, hsorted, rfl⟩

/-- **One step of clients that only make sorted batches.** -/
theorem Rule.ladder (h : Rule s l s') (hi : Ladder tr s) (hbooks : Books tr s)
    (hcall : ∀ c f, l = .call c f → ∃ vec : List K, f = .lockBatch vec ∧ vec.Pairwise (· < ·)) :
    Ladder (tr ++ [l]) s' := by
  cases h with
  | @call c f hidle hnodup hheld =>
    obtain ⟨vec, rfl, hvec⟩ := hcall c f rfl
    refine ⟨hi.climbing_goto (.locking hvec),
      hi.held_mono fun k hk ↦ (List.mem_filter.mp hk).1, hi.ret_mono (by simp),
      hi.blame_mono rfl (by simp) fun k taken iter hpc ↦ ?_⟩
    rw [hidle] at hpc
    cases hpc
  | @inserted c key p hpc hnew =>
    obtain ⟨taken, rest, hlock, hsorted, rfl⟩ := hi.locking hpc
    refine ⟨hi.climbing_goto (.locking (by simpa using hsorted)),
      fun d k hk ↦ (hi.held d k hk).mono _, hi.ret_mono (by simp),
      hi.blame_mono rfl (by simp) fun k taken' iter hpc' hk ↦ ?_⟩
    rw [hlock] at hpc'
    cases hpc'
    exact .inr (.inl ⟨c, _, rest, goto_pc_self .., List.mem_append_left _ hk⟩)
  | @refused c key p hpc hold =>
    obtain ⟨taken, rest, hlock, hsorted, rfl⟩ := hi.locking hpc
    have hsmall : ∀ a ∈ taken, a < key := fun a ha ↦
      (List.pairwise_append.mp hsorted).2.2 a ha key List.mem_cons_self
    have href : Refused (tr ++ [.insert c key false]) key :=
      ⟨c, List.mem_append_right _ List.mem_cons_self⟩
    -- the keys of this client were smaller than the one it is refused now
    have hself : ∀ k taken' iter, s.pc c = .locking taken' iter → k ∈ taken' →
        Blamed (tr ++ [.insert c key false]) (s.goto c (.rollingBack taken (key :: rest))) k := by
      intro k taken' iter hpc' hk
      rw [hlock] at hpc'
      cases hpc'
      exact .inr (.inr ⟨key, href, hsmall k hk⟩)
    refine ⟨hi.climbing_goto (.rollingBack hsmall href),
      fun d k hk ↦ (hi.held d k hk).mono _, hi.ret_mono (by simp), fun k href' ↦ ?_⟩
    rcases refused_concat href' with href' | ⟨d, hd⟩
    · exact (hi.blame k href').step rfl (hself k)
    · cases hd
      exact (hi.blamed_of_mem hbooks hold).step rfl (hself _)
  | @erase c key p hpc =>
    have hclimb := hi.climbing c
    rcases Pc.afterErase_eq_some.mp hpc with ⟨hunlock, -⟩ | ⟨todo, iter, hroll, rfl⟩ |
      ⟨gone, todo, hbatch, -⟩
    · rw [hunlock] at hclimb
      cases hclimb
    · rw [hroll] at hclimb
      cases hclimb with
      | rollingBack hsorted href =>
        refine ⟨hi.climbing_goto (.rollingBack
            (fun a ha ↦ hsorted a (List.mem_cons_of_mem _ ha)) (href.mono _)),
          fun d k hk ↦ (hi.held d k hk).mono _, hi.ret_mono (by simp),
          hi.blame_mono rfl (by simp) fun k taken iter hpc' ↦ ?_⟩
        rw [hroll] at hpc'
        cases hpc'
    · rw [hbatch] at hclimb
      cases hclimb
  | @ret c r keys hpc =>
    have hclimb := hi.climbing c
    generalize hpc' : s.pc c = p at hclimb hpc
    cases hclimb with
    | idle => cases hpc
    | @locking taken iter hsorted =>
      cases iter with
      | nil =>
        cases hpc
        have hwon : Won (tr ++ [.ret c (.batch [] true)]) :=
          ⟨c, List.mem_append_right _ List.mem_cons_self⟩
        exact ⟨hi.climbing_goto .idle, fun _ _ _ ↦ hwon, fun _ _ _ ↦ .inl hwon,
          fun _ _ ↦ .inl hwon⟩
      | cons a iter => cases hpc
    | @rollingBack todo rest k₀ hsorted href =>
      cases todo with
      | nil =>
        cases hpc
        refine ⟨hi.climbing_goto .idle, hi.held_mono fun k hk ↦ by simpa using hk,
          fun _ _ _ ↦ .inr ⟨k₀, href.mono _⟩,
          hi.blame_mono rfl (by simp) fun k taken iter hlock ↦ ?_⟩
        rw [hpc'] at hlock
        cases hlock
      | cons a todo => cases hpc

/-! ## All runs -/

/-- Every call in the history is the one a guard with `dedup` makes for its client's keys. -/
def OnlyDedup (keys : ι → List K) (tr : List (Label ι K)) : Prop :=
  ∀ c f, .call c f ∈ tr → DedupCall (keys c) f

theorem ladder {keys : ι → List K} (hnodup : ∀ c, (keys c).Nodup)
    (h : run step init tr = some s) (hcalls : OnlyDedup keys tr) : Ladder tr s := by
  have hinit : Ladder ([] : List (Label ι K)) init :=
    ⟨fun _ ↦ .idle, fun _ _ hk ↦ absurd hk List.not_mem_nil,
      fun _ _ hr ↦ absurd hr List.not_mem_nil, fun _ ⟨_, hc⟩ ↦ absurd hc List.not_mem_nil⟩
  refine run_induction (P := fun tr s ↦ OnlyDedup keys tr → Ladder tr s) (fun _ ↦ hinit) ?_ h hcalls
  intro tr s l s' hr ih hs hcalls
  have hi := ih fun c f hin ↦ hcalls c f (List.mem_append_left _ hin)
  refine (rule_of_step hs).ladder hi (books hr) fun c f hl ↦ ?_
  subst hl
  exact (hcalls c f (List.mem_append_right _ List.mem_cons_self)).sorted (hnodup c)

/-- The keys somebody was refused, as a finite set. -/
def refusals (tr : List (Label ι K)) : Finset K :=
  (tr.filterMap fun l ↦ match l with
    | .insert _ key false => some key
    | _ => none).toFinset

omit [DecidableEq ι] in
theorem mem_refusals {k : K} : k ∈ refusals tr ↔ Refused tr k := by
  rw [refusals, List.mem_toFinset, List.mem_filterMap]
  constructor
  · rintro ⟨l, hl, hk⟩
    split at hk
    · next c key =>
      obtain rfl := Option.some_inj.mp hk
      exact ⟨c, hl⟩
    · cases hk
  · rintro ⟨c, hc⟩
    exact ⟨_, hc, rfl⟩

/-- **Sorted batches cannot all defeat one another.**  Clients — there is at least one — construct
guards with `dedup`, each for its own list of pairwise distinct keys, on a core that nobody else
uses. In every reachable state in which each of them has returned from its constructor, one of them
has locked its keys. -/
theorem sorted_one_wins [Nonempty ι] {keys : ι → List K} (hnodup : ∀ c, (keys c).Nodup)
    (h : run step init tr = some s) (hcalls : OnlyDedup keys tr)
    (hret : ∀ c, s.pc c = .idle ∧ ∃ r, .ret c r ∈ tr) : ∃ c, .ret c (.batch [] true) ∈ tr := by
  have hladder := ladder hnodup h hcalls
  by_contra hlost
  have hrefused : ∃ k, Refused tr k := by
    obtain ⟨c⟩ := ‹Nonempty ι›
    obtain ⟨-, r, hr⟩ := hret c
    exact (hladder.ret c r hr).resolve_left hlost
  obtain ⟨k, hk⟩ := hrefused
  -- the largest refused key cannot be blamed on anybody
  have hne : (refusals tr).Nonempty := ⟨k, mem_refusals.mpr hk⟩
  have hmax : Refused tr ((refusals tr).max' hne) := mem_refusals.mp ((refusals tr).max'_mem hne)
  rcases hladder.blame _ hmax with hwon | ⟨d, taken, iter, hpc, -⟩ | ⟨k', href, hlt⟩
  · exact hlost hwon
  · rw [(hret d).1] at hpc
    cases hpc
  · exact absurd hlt (not_lt.mpr ((refusals tr).le_max' k' (mem_refusals.mpr href)))

/-- The keys of three clients in a circle. -/
def circleKeys : Fin 3 → List ℕ
  | 0 => [2, 1]
  | 1 => [3, 2]
  | 2 => [3, 1]

/-- Two of them are refused a key, and the third gets through. -/
def circle : List (Label (Fin 3) ℕ) :=
  [.call 0 (.lockBatch [1, 2]), .call 1 (.lockBatch [2, 3]), .call 2 (.lockBatch [1, 3]),
    .insert 0 1 true, .insert 1 2 true, .insert 2 1 false, .ret 2 (.batch [1, 3] false),
    .insert 0 2 false, .erase 0 1, .insert 1 3 true, .ret 0 (.batch [2] false),
    .ret 1 (.batch [] true)]

theorem sorted_one_wins_circle : ∃ c, .ret c (.batch [] true) ∈ circle := by
  have hrun : ((run step init circle).any fun s ↦ decide (∀ c, s.pc c = .idle)) = true := by decide
  obtain ⟨s, hs, hp⟩ := exists_run_of_any hrun
  have hidle := of_decide_eq_true hp
  have hcalls : OnlyDedup circleKeys circle := by
    intro c f hin
    simp only [circle, List.mem_cons, Label.call.injEq, reduceCtorEq, List.not_mem_nil, or_false]
      at hin
    rcases hin with ⟨rfl, rfl⟩ | ⟨rfl, rfl⟩ | ⟨rfl, rfl⟩
    · exact ⟨[], by decide, by decide⟩
    · exact ⟨[], by decide, by decide⟩
    · exact ⟨[], by decide, by decide⟩
  have hret : ∀ c : Fin 3, ∃ r, .ret c r ∈ circle
    | 0 => ⟨.batch [2] false, by decide⟩
    | 1 => ⟨.batch [] true, by decide⟩
    | 2 => ⟨.batch [1, 3] false, by decide⟩
  exact sorted_one_wins (by decide) hs hcalls fun c ↦ ⟨hidle c, hret c⟩

end Clients

end MemLock
