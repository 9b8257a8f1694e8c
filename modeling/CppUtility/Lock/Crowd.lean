import CppUtility.Lock.Exclusive
import CppUtility.Lock.Scope

/-!
# The guards of many threads

Any number of threads construct, move and destroy guards on one `MemLockCore`.  A constructor takes
its keys one at a time and rolls back when it meets a conflict, a destructor gives them back one at
a time, and anything may happen in between.

The core sees the guards as its clients: a guard calls `lockBatch` when it is constructed and
`unlockBatch` when it is destroyed, and a move passes on what the source holds.  So `Crowd` is
`Clients` with one client for each guard, and with the members of the guards beside them; a step of
a guard that touches the map is a step of its client.

* **Rules that guards keep.**  `Clients` asks of a client that it unlocks only distinct keys that it
  holds.  Guards cannot do otherwise: `Kept.alive` says that what a guard is going to unlock is what
  its client holds, and `guards_exclusive` that its destructor may always be called.
* **What is overwritten.**  The keys that a move assignment overwrites are not in any vector any
  more, but they are still in the map.  They go to a client of its own, `none`, that never calls;
  `shared_iff` says when there is no such key.
* **Guards in the making.**  A guard whose constructor is running is not alive yet, and has a vector
  all the same, which decides what it will own.  `m_keys` keeps it.

Moves are single steps: they touch the two guards only, and a program that moves a guard while
another thread uses it has no meaning anyway.
-/

set_option autoImplicit false

namespace MemLock

open Transition Ownership

variable {G K : Type*}

/-- The clients of the core, one for each guard and `none`; the guards that are alive; and the
`m_keys` of a guard whose constructor is running. -/
structure Crowd (G K : Type*) where
  clients : Clients (Option G) K
  guards : G → Option (MemLockGuard K)
  m_keys : G → List K

/-- A step.  A constructor and a destructor begin, run through inserts and erases of the core, and
return; a move is one step. -/
inductive CrowdLabel (G K : Type*)
  | construct (g : G) (keys : List K) (dedup : Bool) (leftover : List K)
  | insert (g : G) (key : K) (inserted : Bool)
  | erase (g : G) (key : K)
  | constructed (g : G) (iter : List K) (ok : Bool)
  | moveConstruct (g lg : G)
  | moveAssign (g lg : G)
  | destroy (g : G)
  | destroyed (g : G)
  deriving DecidableEq

/-! ## Clients, one step -/

namespace Clients

variable {ι : Type*} [DecidableEq ι] [DecidableEq K] {s s' : Clients ι K} {l : Label ι K}

/-- A step keeps the books. -/
theorem Rule.owns (h : Rule s l s') (hi : Owns s.core.m_hashMap s.holdings) :
    Owns s'.core.m_hashMap s'.holdings := by
  rcases h.change hi.nodup with ⟨-, hcore, hperm⟩ | ⟨c, key, -, hnew, hcore, hgain, hother⟩ |
    ⟨c, key, -, hcore, hlose, hother⟩
  · exact hcore ▸ hi.perm hperm
  · rw [hcore]
    refine hi.gain (List.nodup_singleton key) (fun k hk ↦ ?_) hgain hother
    rwa [List.mem_singleton.mp hk]
  · rw [hcore]
    exact hi.lose hlose hother

/-- Inside a call nothing is held or given up. -/
theorem Rule.held_same (h : Rule s l s') (hcall : ∀ c f, l ≠ .call c f)
    (hret : ∀ c r, l ≠ .ret c r) : s'.held = s.held := by
  cases h with
  | call => exact absurd rfl (hcall _ _)
  | ret => exact absurd rfl (hret _ _)
  | inserted | refused | erase => rfl

end Clients

namespace Crowd

variable [LinearOrder K] [DecidableEq G]

/-- Nothing is locked and no guard is alive. -/
def init : Crowd G K := ⟨.init, fun _ ↦ none, fun _ ↦ []⟩

omit [LinearOrder K] in
/-- Give a name a guard, or take it away. -/
def set (s : Crowd G K) (g : G) (x : Option (MemLockGuard K)) : Crowd G K :=
  { s with guards := Function.update s.guards g x }

omit [LinearOrder K] in
/-- What the source of a move holds goes to the target. -/
def pass (s : Crowd G K) (g lg : G) : Crowd G K :=
  { s with clients := (s.clients.hold (some g) (s.clients.held (some lg))).hold (some lg) [] }

omit [LinearOrder K] in
/-- What a guard holds goes to nobody. -/
def lose (s : Crowd G K) (g : G) : Crowd G K :=
  let held := s.clients.held none ++ s.clients.held (some g)
  { s with clients := (s.clients.hold none held).hold (some g) [] }

/-- One step; `none` if it is not enabled.  The tail `std::unique` leaves is as long as what it
removed. -/
def step (s : Crowd G K) : CrowdLabel G K → Option (Crowd G K)
  | .construct g keys dedup leftover =>
    if s.guards g = none ∧
        (dedup = true → (unique (sort keys)).length + leftover.length = keys.length) then
      let m_keys := if dedup then unique (sort keys) ++ leftover else keys
      (s.clients.step (.call (some g) (.lockBatch m_keys))).map fun clients ↦
        { s with clients := clients, m_keys := Function.update s.m_keys g m_keys }
    else none
  | .insert g key inserted =>
    (s.clients.step (.insert (some g) key inserted)).map fun clients ↦
      { s with clients := clients }
  | .erase g key =>
    (s.clients.step (.erase (some g) key)).map fun clients ↦ { s with clients := clients }
  | .constructed g iter ok =>
    (s.clients.step (.ret (some g) (.batch iter ok))).map fun clients ↦
      { s with clients := clients }.set g (some ⟨s.m_keys g, some iter, ok⟩)
  | .moveConstruct g lg =>
    match s.guards g, s.guards lg with
    | none, some y =>
      if s.clients.pc (some g) = .idle then
        some (((s.pass g lg).set g (some y.moveConstruct.1)).set lg (some y.moveConstruct.2))
      else none
    | _, _ => none
  | .moveAssign g lg =>
    match s.guards g, s.guards lg with
    | some x, some y =>
      if g = lg then some s
      else some ((((s.lose g).pass g lg).set g (some (x.moveAssign y).1)).set lg
        (some (x.moveAssign y).2))
    | _, _ => none
  | .destroy g =>
    match s.guards g with
    | some x =>
      if x.m_locked then
        (s.clients.step (.call (some g) (.unlockBatch x.m_keys))).map fun clients ↦
          { s with clients := clients }.set g none
      else some (s.set g none)
    | none => none
  | .destroyed g =>
    (s.clients.step (.ret (some g) .void)).map fun clients ↦ { s with clients := clients }

/-! ## What is kept

`Kept` is the invariant.  Its first clause is that of `Clients`, and the others say where the guards
stand: one that is alive is in no call, and one that is not holds nothing.  While a constructor
runs, what it has taken and what it is going to take make up the vector of the guard, and when it
returns this is what the guard owns. -/

/-- What the guards have, and what nobody has, is what is in the map; a guard that is alive is in no
call, and holds what it will unlock; a name without a guard holds nothing. -/
structure Kept (s : Crowd G K) : Prop where
  owns : Owns s.clients.core.m_hashMap s.clients.holdings
  nobody : s.clients.pc none = .idle
  alive : ∀ g x, s.guards g = some x →
    s.clients.pc (some g) = .idle ∧ s.clients.held (some g) = x.owned
  dead : ∀ g, s.guards g = none → s.clients.held (some g) = []
  building : ∀ g taken iter, s.clients.pc (some g) = .locking taken iter →
    s.m_keys g = taken ++ iter

omit [LinearOrder K] [DecidableEq G] in
theorem Kept.guards_of_pc {s : Crowd G K} (hi : Kept s) {g : G}
    (hpc : s.clients.pc (some g) ≠ .idle) : s.guards g = none := by
  cases hg : s.guards g with
  | none => rfl
  | some x => exact absurd (hi.alive g x hg).1 hpc

omit [LinearOrder K] in
/-- A step inside a constructor or a destructor. -/
theorem Kept.inside [DecidableEq K] {s : Crowd G K} {clients : Clients (Option G) K}
    {l : Label (Option G) K} {g : G} (hi : Kept s) (h : s.clients.Rule l clients)
    (hg : l.client = some g)
    (hcall : ∀ c f, l ≠ .call c f) (hret : ∀ c r, l ≠ .ret c r)
    (hpc : s.clients.pc (some g) ≠ .idle)
    (hbuilding : ∀ taken iter, clients.pc (some g) = .locking taken iter →
      s.m_keys g = taken ++ iter) : Kept { s with clients := clients } := by
  have hdead := hi.guards_of_pc hpc
  have hheld := h.held_same hcall hret
  refine ⟨h.owns hi.owns, ?_, fun g' x hx ↦ ?_, fun g' hg' ↦ ?_, fun g' taken iter hpc' ↦ ?_⟩
  · rw [(h.other (by rw [hg]; simp)).1]
    exact hi.nobody
  · have hne : g' ≠ g := by
      rintro rfl
      cases hx.symm.trans hdead
    dsimp only
    rw [(h.other (by rw [hg]; simpa using hne)).1, hheld]
    exact hi.alive g' x hx
  · dsimp only
    rw [hheld]
    exact hi.dead g' hg'
  · by_cases hne : g' = g
    · exact hne ▸ hbuilding taken iter (hne ▸ hpc')
    · rw [(h.other (by rw [hg]; simpa using hne)).1] at hpc'
      exact hi.building g' taken iter hpc'

/-! ## One step -/

theorem Kept.insert {s : Crowd G K} {clients : Clients (Option G) K} {g : G} {key : K}
    {inserted : Bool} (hi : Kept s)
    (h : s.clients.Rule (.insert (some g) key inserted) clients) :
    Kept { s with clients := clients } := by
  have hstep : ∃ p, (s.clients.pc (some g)).afterInsert key inserted = some p ∧
      clients.pc (some g) = p := by
    cases h with
    | inserted hpc | refused hpc => exact ⟨_, hpc, Clients.goto_pc_self ..⟩
  obtain ⟨p, hafter, hp⟩ := hstep
  have hpc : s.clients.pc (some g) ≠ .idle := by
    intro hidle
    rw [hidle] at hafter
    cases hafter
  refine hi.inside h rfl (fun _ _ hl ↦ by cases hl) (fun _ _ hl ↦ by cases hl) hpc
    fun taken iter hlocking ↦ ?_
  rw [hp] at hlocking
  rcases Pc.afterInsert_eq_some.mp hafter with ⟨-, rfl⟩ | ⟨taken', rest, hpc', rfl⟩
  · cases hlocking
  · have hkeys := hi.building g _ _ hpc'
    cases inserted with
    | true =>
      cases hlocking
      rw [hkeys, List.append_assoc, List.singleton_append]
    | false => cases hlocking

theorem Kept.erase {s : Crowd G K} {clients : Clients (Option G) K} {g : G} {key : K}
    (hi : Kept s) (h : s.clients.Rule (.erase (some g) key) clients) :
    Kept { s with clients := clients } := by
  obtain ⟨p, hafter, hp⟩ : ∃ p, (s.clients.pc (some g)).afterErase key = some p ∧
      clients.pc (some g) = p := by
    cases h with
    | erase hpc => exact ⟨_, hpc, Clients.goto_pc_self ..⟩
  have hpc : s.clients.pc (some g) ≠ .idle := by
    intro hidle
    rw [hidle] at hafter
    cases hafter
  refine hi.inside h rfl (fun _ _ hl ↦ by cases hl) (fun _ _ hl ↦ by cases hl) hpc
    fun taken iter hlocking ↦ ?_
  rw [hp] at hlocking
  rcases Pc.afterErase_eq_some.mp hafter with ⟨-, rfl⟩ | ⟨_, _, -, rfl⟩ | ⟨_, _, -, rfl⟩ <;>
    cases hlocking

omit [LinearOrder K] in
/-- A constructor, or a destructor, begins or returns: what the guard holds, and what is known of
its keys, is up to the case. -/
theorem Kept.between [DecidableEq K] {s : Crowd G K} {clients : Clients (Option G) K}
    {l : Label (Option G) K} {g : G} {x : Option (MemLockGuard K)} {m_keys : G → List K}
    (hi : Kept s) (h : s.clients.Rule l clients) (hg : l.client = some g)
    (hkeys : ∀ g', g' ≠ g → m_keys g' = s.m_keys g')
    (halive : ∀ y, x = some y → clients.pc (some g) = .idle ∧ clients.held (some g) = y.owned)
    (hdead : x = none → clients.held (some g) = [])
    (hbuilding : ∀ taken iter, clients.pc (some g) = .locking taken iter →
      m_keys g = taken ++ iter) :
    Kept { clients := clients, guards := Function.update s.guards g x, m_keys := m_keys } := by
  have hother : ∀ g', g' ≠ g → clients.pc (some g') = s.clients.pc (some g') ∧
      clients.held (some g') = s.clients.held (some g') :=
    fun g' hne ↦ h.other (by rw [hg]; simpa using hne)
  refine ⟨h.owns hi.owns, ?_, fun g' y hy ↦ ?_, fun g' hg' ↦ ?_, fun g' taken iter hpc ↦ ?_⟩
  · rw [(h.other (by rw [hg]; simp)).1]
    exact hi.nobody
  · by_cases hne : g' = g
    · subst hne
      exact halive y (by simpa using hy)
    · rw [(hother g' hne).1, (hother g' hne).2]
      exact hi.alive g' y (by simpa [hne] using hy)
  · by_cases hne : g' = g
    · subst hne
      exact hdead (by simpa using hg')
    · rw [(hother g' hne).2]
      exact hi.dead g' (by simpa [hne] using hg')
  · by_cases hne : g' = g
    · subst hne
      exact hbuilding taken iter hpc
    · rw [(hother g' hne).1] at hpc
      exact (hkeys g' hne).trans (hi.building g' taken iter hpc)

theorem Kept.construct {s : Crowd G K} {clients : Clients (Option G) K} {g : G} {m_keys : List K}
    (hi : Kept s) (hg : s.guards g = none)
    (h : s.clients.Rule (.call (some g) (.lockBatch m_keys)) clients) :
    Kept { s with clients := clients, m_keys := Function.update s.m_keys g m_keys } := by
  have hheld : clients.held (some g) = [] := by
    cases h with
    | call => simp [Clients.hold, Clients.goto, hi.dead g hg]
  have hpc : clients.pc (some g) = .locking [] m_keys := by
    cases h with
    | call => simp [Clients.hold, Clients.goto, Call.start]
  have hsame : Function.update s.guards g none = s.guards := by rw [← hg, Function.update_eq_self]
  rw [← hsame]
  refine hi.between h rfl (fun g' hne ↦ Function.update_of_ne hne ..) (fun y hy ↦ by cases hy)
    (fun _ ↦ hheld) fun taken iter hlocking ↦ ?_
  cases hpc.symm.trans hlocking
  exact Function.update_self ..

theorem Kept.constructed {s : Crowd G K} {clients : Clients (Option G) K} {g : G} {iter : List K}
    {ok : Bool} (hi : Kept s) (h : s.clients.Rule (.ret (some g) (.batch iter ok)) clients) :
    Kept ({ s with clients := clients }.set g (some ⟨s.m_keys g, some iter, ok⟩)) := by
  obtain ⟨keys, hresult, hheld, hpc⟩ : ∃ keys, (s.clients.pc (some g)).result
      = some (.batch iter ok, keys) ∧ clients.held (some g) = s.clients.held (some g) ++ keys ∧
        clients.pc (some g) = .idle := by
    cases h with
    | ret hpc => exact ⟨_, hpc, by simp [Clients.hold, Clients.goto], by simp [Clients.hold]⟩
  have hdead := hi.dead g (hi.guards_of_pc fun hidle ↦ by rw [hidle] at hresult; cases hresult)
  rw [hdead, List.nil_append] at hheld
  refine hi.between h rfl (fun _ _ ↦ rfl) ?_ (fun hx ↦ by cases hx)
    fun taken iter hlocking ↦ by cases hpc.symm.trans hlocking
  rintro y ⟨⟩
  refine ⟨hpc, hheld.trans ?_⟩
  unfold Pc.result at hresult
  split at hresult
  · cases hresult
  · cases hresult
  · next taken hlocking =>
    cases hresult
    have hkeys := hi.building g _ _ hlocking
    rw [MemLockGuard.owned, if_pos rfl, hkeys, List.append_nil]
  · cases hresult
    rfl
  · cases hresult
  · cases hresult

theorem Kept.destroy {s : Crowd G K} {clients : Clients (Option G) K} {g : G} {x : MemLockGuard K}
    (hi : Kept s) (hg : s.guards g = some x) (hlocked : x.m_locked = true)
    (h : s.clients.Rule (.call (some g) (.unlockBatch x.m_keys)) clients) :
    Kept ({ s with clients := clients }.set g none) := by
  have hown := (hi.alive g x hg).2
  rw [MemLockGuard.owned, if_pos hlocked] at hown
  have hheld : clients.held (some g) = [] := by
    cases h with
    | call =>
      refine (Function.update_self ..).trans (List.filter_eq_nil_iff.mpr fun k hk ↦ ?_)
      exact fun hnot ↦ of_decide_eq_true hnot (hown ▸ hk)
  have hpc : clients.pc (some g) = .unlockingBatch [] x.m_keys := by
    cases h with
    | call => simp [Clients.hold, Clients.goto, Call.start]
  exact hi.between h rfl (fun _ _ ↦ rfl) (fun y hy ↦ by cases hy) (fun _ ↦ hheld)
    fun taken iter hlocking ↦ by cases hpc.symm.trans hlocking

omit [LinearOrder K] in
/-- The destructor of a guard that is not locked does nothing. -/
theorem Kept.destroyUnlocked {s : Crowd G K} {g : G} {x : MemLockGuard K} (hi : Kept s)
    (hg : s.guards g = some x) (hlocked : ¬x.m_locked = true) : Kept (s.set g none) := by
  refine ⟨hi.owns, hi.nobody, fun g' y hy ↦ ?_, fun g' hg' ↦ ?_, hi.building⟩
  · by_cases hne : g' = g
    · subst hne
      simp [set] at hy
    · exact hi.alive g' y (by simpa [set, hne] using hy)
  · by_cases hne : g' = g
    · subst hne
      exact (hi.alive g' x hg).2.trans (if_neg hlocked)
    · exact hi.dead g' (by simpa [set, hne] using hg')

theorem Kept.destroyed {s : Crowd G K} {clients : Clients (Option G) K} {g : G} (hi : Kept s)
    (h : s.clients.Rule (.ret (some g) .void) clients) : Kept { s with clients := clients } := by
  obtain ⟨keys, hresult, hheld, hpc⟩ : ∃ keys, (s.clients.pc (some g)).result = some (.void, keys) ∧
      clients.held (some g) = s.clients.held (some g) ++ keys ∧ clients.pc (some g) = .idle := by
    cases h with
    | ret hpc => exact ⟨_, hpc, by simp [Clients.hold, Clients.goto], by simp [Clients.hold]⟩
  have hkeys : keys = [] := by
    unfold Pc.result at hresult
    split at hresult <;> cases hresult <;> rfl
  have hg := hi.guards_of_pc fun hidle ↦ by rw [hidle] at hresult; cases hresult
  have hsame : Function.update s.guards g none = s.guards := by rw [← hg, Function.update_eq_self]
  rw [← hsame]
  refine hi.between h rfl (fun _ _ ↦ rfl) (fun y hy ↦ by cases hy) (fun _ ↦ ?_)
    fun taken iter hlocking ↦ by cases hpc.symm.trans hlocking
  rw [hheld, hkeys, hi.dead g hg, List.append_nil]

/-! ## Moves

A move does not touch the map.  It changes who holds what, and the rules for that are
`Owns.transfer` and, for the keys that are overwritten, `Owns.merge`. -/

section Moves

variable {s : Crowd G K} {g lg : G} {x x' y y' : MemLockGuard K}

omit [LinearOrder K] [DecidableEq G] in
/-- A guard that is alive has what it will unlock, and nothing else. -/
theorem Kept.holdings_alive (hi : Kept s) (hg : s.guards g = some x) :
    s.clients.holdings (some g) = x.owned := by
  obtain ⟨hpc, hheld⟩ := hi.alive g x hg
  rw [Clients.holdings, hpc, hheld]
  exact List.append_nil _

omit [LinearOrder K] in
/-- A target that has nothing gets what the source has. -/
theorem owns_pass {S : Finset K} (howns : Owns S s.clients.holdings) (hne : g ≠ lg)
    (hg : s.clients.holdings (some g) = []) (hpc : s.clients.pc (some lg) = .idle) :
    Owns S (s.pass g lg).clients.holdings := by
  have hpcg : (s.clients.pc (some g)).keys = [] := (List.append_eq_nil_iff.mp hg).2
  have hpclg : (s.clients.pc (some lg)).keys = [] := by
    rw [hpc]
    rfl
  have hdiff : some g ≠ some lg := by simpa using hne
  refine howns.transfer (i := some lg) (j := some g) hdiff.symm hg ?_ ?_ fun o hlo hgo ↦ ?_
  · simp [Clients.holdings, pass, Clients.hold, hpclg]
  · simp [Clients.holdings, pass, Clients.hold, hdiff, hpcg, hpclg]
  · simp [Clients.holdings, pass, Clients.hold, hlo, hgo]

omit [LinearOrder K] in
/-- What a guard has goes to nobody. -/
theorem owns_lose [DecidableEq K] {S : Finset K} (howns : Owns S s.clients.holdings)
    (hpc : s.clients.pc (some g) = .idle) (hnobody : s.clients.pc none = .idle) :
    Owns S (s.lose g).clients.holdings := by
  refine howns.merge (i := some g) (j := none) (by simp) ?_ ?_ fun o hg hnone ↦ ?_
  · simp [Clients.holdings, lose, Clients.hold, hpc, Pc.keys, Pc.taking, Pc.releasing]
  · simp [Clients.holdings, lose, Clients.hold, hpc, hnobody, Pc.keys, Pc.taking, Pc.releasing]
  · simp [Clients.holdings, lose, Clients.hold, hg, hnone]

omit [LinearOrder K] in
/-- After a move the source has nothing, and the target what the source had. -/
theorem Kept.moved (hi : Kept s) {held : Option G → List K} (hne : g ≠ lg)
    (hpc : s.clients.pc (some g) = .idle) (hlg : s.guards lg = some y)
    (howns : Owns s.clients.core.m_hashMap { s.clients with held := held }.holdings)
    (hto : held (some g) = s.clients.held (some lg)) (hfrom : held (some lg) = [])
    (hother : ∀ g', g' ≠ g → g' ≠ lg → held (some g') = s.clients.held (some g'))
    (hx : x'.owned = y.owned) (hy : y'.owned = []) :
    Kept { s with
      clients := { s.clients with held := held }
      guards := Function.update (Function.update s.guards g (some x')) lg (some y') } := by
  obtain ⟨hpclg, hheldlg⟩ := hi.alive lg y hlg
  refine ⟨howns, hi.nobody, fun g' z hz ↦ ?_, fun g' hg' ↦ ?_, hi.building⟩
  · by_cases hlg' : g' = lg
    · subst hlg'
      obtain rfl : y' = z := by simpa using hz
      exact ⟨hpclg, hfrom.trans hy.symm⟩
    · by_cases hgg' : g' = g
      · subst hgg'
        obtain rfl : x' = z := by simpa [hne] using hz
        exact ⟨hpc, (hto.trans hheldlg).trans hx.symm⟩
      · obtain ⟨hpc', hheld'⟩ := hi.alive g' z (by simpa [hlg', hgg'] using hz)
        exact ⟨hpc', (hother g' hgg' hlg').trans hheld'⟩
  · have hlg' : g' ≠ lg := by
      rintro rfl
      simp at hg'
    have hgg' : g' ≠ g := by
      rintro rfl
      simp [hne] at hg'
    exact (hother g' hgg' hlg').trans (hi.dead g' (by simpa [hlg', hgg'] using hg'))

omit [LinearOrder K] in
theorem Kept.moveConstruct (hi : Kept s) (hg : s.guards g = none) (hlg : s.guards lg = some y)
    (hpc : s.clients.pc (some g) = .idle) :
    Kept (((s.pass g lg).set g (some y.moveConstruct.1)).set lg (some y.moveConstruct.2)) := by
  have hne : g ≠ lg := by
    rintro rfl
    cases hg.symm.trans hlg
  have hnothing : s.clients.holdings (some g) = [] := by
    rw [Clients.holdings, hi.dead g hg, hpc]
    rfl
  refine hi.moved hne hpc hlg (owns_pass hi.owns hne hnothing (hi.alive lg y hlg).1) ?_ ?_ ?_ rfl
    y.owned_moved
  · simp [Clients.hold, hne]
  · simp [Clients.hold]
  · intro g' hgg' hlg'
    simp [Clients.hold, hgg', hlg']

omit [LinearOrder K] in
theorem Kept.moveAssign [DecidableEq K] (hi : Kept s) (hne : g ≠ lg) (hg : s.guards g = some x)
    (hlg : s.guards lg = some y) :
    Kept ((((s.lose g).pass g lg).set g (some (x.moveAssign y).1)).set lg
      (some (x.moveAssign y).2)) := by
  obtain ⟨hpcg, -⟩ := hi.alive g x hg
  obtain ⟨hpclg, -⟩ := hi.alive lg y hlg
  have hnothing : (s.lose g).clients.holdings (some g) = [] := by
    simp [Clients.holdings, lose, Clients.hold, hpcg, Pc.keys, Pc.taking, Pc.releasing]
  refine hi.moved hne hpcg hlg
    (owns_pass (owns_lose hi.owns hpcg hi.nobody) hne hnothing hpclg) ?_ ?_ ?_ rfl y.owned_moved
  · simp [Clients.hold, lose, hne, hne.symm]
  · simp [Clients.hold]
  · intro g' hgg' hlg'
    simp [Clients.hold, lose, hgg', hlg']

end Moves

/-! ## All runs -/

variable {s s' : Crowd G K} {l : CrowdLabel G K} {tr : List (CrowdLabel G K)}

theorem Kept.step (hi : Kept s) (hs : s.step l = some s') : Kept s' := by
  cases l with
  | construct g keys dedup leftover =>
    obtain ⟨⟨hg, -⟩, hs⟩ := Option.ite_none_right_eq_some.mp hs
    obtain ⟨clients, hcall, rfl⟩ := Option.map_eq_some_iff.mp hs
    exact hi.construct hg (Clients.rule_of_step hcall)
  | insert g key inserted =>
    obtain ⟨clients, hinsert, rfl⟩ := Option.map_eq_some_iff.mp hs
    exact hi.insert (Clients.rule_of_step hinsert)
  | erase g key =>
    obtain ⟨clients, herase, rfl⟩ := Option.map_eq_some_iff.mp hs
    exact hi.erase (Clients.rule_of_step herase)
  | constructed g iter ok =>
    obtain ⟨clients, hret, rfl⟩ := Option.map_eq_some_iff.mp hs
    exact hi.constructed (Clients.rule_of_step hret)
  | moveConstruct g lg =>
    rw [Crowd.step] at hs
    split at hs
    · next y hg hlg =>
      obtain ⟨hpc, rfl⟩ := Option.ite_none_right_eq_some.mp hs |>.imp_right Option.some_inj.mp
      exact hi.moveConstruct hg hlg hpc
    · cases hs
  | moveAssign g lg =>
    rw [Crowd.step] at hs
    split at hs
    · next x y hg hlg =>
      by_cases hself : g = lg
      · rw [if_pos hself, Option.some_inj] at hs
        exact hs ▸ hi
      · rw [if_neg hself, Option.some_inj] at hs
        exact hs ▸ hi.moveAssign hself hg hlg
    · cases hs
  | destroy g =>
    rw [Crowd.step] at hs
    split at hs
    · next x hg =>
      by_cases hlocked : x.m_locked = true
      · rw [if_pos hlocked] at hs
        obtain ⟨clients, hcall, rfl⟩ := Option.map_eq_some_iff.mp hs
        exact hi.destroy hg hlocked (Clients.rule_of_step hcall)
      · rw [if_neg hlocked, Option.some_inj] at hs
        exact hs ▸ hi.destroyUnlocked hg hlocked
    · cases hs
  | destroyed g =>
    obtain ⟨clients, hret, rfl⟩ := Option.map_eq_some_iff.mp hs
    exact hi.destroyed (Clients.rule_of_step hret)

theorem kept (h : run step init tr = some s) : Kept s := by
  refine run_invariant ⟨.empty fun _ ↦ rfl, rfl, ?_, fun _ _ ↦ rfl, ?_⟩
    (fun _ _ _ hi hs ↦ hi.step hs) h
  · rintro g x ⟨⟩
  · rintro g taken iter ⟨⟩

/-- The destructor of a guard that is alive may be called at any time. -/
theorem Kept.isSome_destroy (hi : Kept s) {g : G} {x : MemLockGuard K} (hg : s.guards g = some x) :
    (s.step (.destroy g)).isSome = true := by
  rw [Crowd.step, hg]
  dsimp only
  split
  · next hlocked =>
    obtain ⟨hpc, hheld⟩ := hi.alive g x hg
    rw [MemLockGuard.owned, if_pos hlocked] at hheld
    have hnodup : x.m_keys.Nodup := by
      have hall := hi.owns.nodup (some g)
      rwa [hi.holdings_alive hg, MemLockGuard.owned, if_pos hlocked] at hall
    rw [Clients.step, if_pos ⟨hpc, hnodup, fun k hk ↦ hheld ▸ hk⟩]
    rfl
  · rfl

omit [DecidableEq G] in
/-- What is left when no guard is alive or being made or destroyed is what nobody holds. -/
theorem Kept.map_of_dead (hi : Kept s)
    (hdead : ∀ g, s.guards g = none ∧ s.clients.pc (some g) = .idle) :
    s.clients.core.m_hashMap = (s.clients.held none).toFinset := by
  have hnone : s.clients.holdings none = s.clients.held none := by
    rw [Clients.holdings, hi.nobody]
    exact List.append_nil _
  have hsome : ∀ g, s.clients.holdings (some g) = [] := by
    intro g
    rw [Clients.holdings, hi.dead g (hdead g).1, (hdead g).2]
    rfl
  ext k
  rw [hi.owns.mem_iff, List.mem_toFinset, Option.exists, hnone]
  refine or_iff_left ?_
  rintro ⟨g, hk⟩
  rw [hsome g] at hk
  cases hk

/-- **Guards lock safely from many threads.**  Whatever the threads do with their guards, in every
reachable state

* no key is in two places: those in the map are the disjoint union of what each guard has, while it
  is being made, is alive, or is being destroyed, and of what move assignments have overwritten;
* a guard that is alive has the keys of its vector if it is locked and none otherwise, and its
  destructor may be called, that is, it unlocks distinct keys that are its own;
* once all guards are gone, only what was overwritten is left in the map. -/
theorem guards_exclusive (h : run step init tr = some s) :
    Owns s.clients.core.m_hashMap s.clients.holdings ∧
    (∀ g x, s.guards g = some x → s.clients.holdings (some g) = x.owned ∧
      (step s (.destroy g)).isSome = true) ∧
    ((∀ g, s.guards g = none ∧ s.clients.pc (some g) = .idle) →
      s.clients.core.m_hashMap = (s.clients.held none).toFinset) :=
  ⟨(kept h).owns, fun _ _ hg ↦ ⟨(kept h).holdings_alive hg, (kept h).isSome_destroy hg⟩,
    (kept h).map_of_dead⟩

/-- Two constructors run against each other; the loser rolls back, a guard is moved, and the loser
is made again when the winner's destructor is halfway. -/
def contend : List (CrowdLabel ℕ ℕ) :=
  [.construct 0 [2, 1] true [], .construct 1 [3, 2] false [], .insert 0 1 true, .insert 1 3 true,
    .insert 0 2 true, .insert 1 2 false, .constructed 0 [] true, .erase 1 3,
    .constructed 1 [2] false, .moveConstruct 2 0, .destroy 1, .destroy 2, .erase 2 1,
    .construct 1 [1] false [], .insert 1 1 true, .constructed 1 [] true]

theorem guards_exclusive_contend : ∃ s, run step init contend = some s ∧
    Owns s.clients.core.m_hashMap s.clients.holdings ∧ s.clients.holdings (some 1) = [1] ∧
    s.clients.holdings (some 2) = [2] ∧ (step s (.destroy 1)).isSome = true := by
  have hrun : ((run step init contend).any fun s ↦ decide (s.guards 1 = some ⟨[1], some [], true⟩ ∧
      s.clients.holdings (some 2) = [2])) = true := by decide
  obtain ⟨s, hs, hp⟩ := exists_run_of_any hrun
  obtain ⟨halive, hleft⟩ := of_decide_eq_true hp
  obtain ⟨howns, hguards, -⟩ := guards_exclusive hs
  obtain ⟨hheld, hdestroy⟩ := hguards 1 _ halive
  exact ⟨s, hs, howns, hheld, hleft, hdestroy⟩

/-! ## What is overwritten

The client `none` gains keys in one kind of step only, and never loses one.  So the question whether
it has any is a question about single steps again, as it is for one thread. -/

/-- The step is not a move assignment that overwrites keys a guard owns. -/
def KeepsTarget (_ : List (CrowdLabel G K)) (s : Crowd G K) : CrowdLabel G K → Prop
  | .moveAssign g lg => g = lg ∨ s.clients.held (some g) = []
  | _ => True

omit [LinearOrder K] in
/-- No other step touches what nobody holds. -/
theorem held_nobody [DecidableEq K] {clients : Clients (Option G) K} {m : Label (Option G) K}
    {g : G} (h : s.clients.step m = some clients) (hm : m.client = some g) :
    clients.held none = s.clients.held none :=
  ((Clients.rule_of_step h).other (by rw [hm]; simp)).2

/-- **One step overwrites a key exactly when it is a move assignment onto a guard that holds
one.** -/
theorem held_nobody_step (hnone : s.clients.held none = []) (hs : s.step l = some s') :
    s'.clients.held none = [] ↔ KeepsTarget tr s l := by
  cases l with
  | construct g keys dedup leftover =>
    obtain ⟨-, hs⟩ := Option.ite_none_right_eq_some.mp hs
    obtain ⟨clients, hcall, rfl⟩ := Option.map_eq_some_iff.mp hs
    exact iff_of_true ((held_nobody hcall rfl).trans hnone) trivial
  | insert g key inserted =>
    obtain ⟨clients, hinsert, rfl⟩ := Option.map_eq_some_iff.mp hs
    exact iff_of_true ((held_nobody hinsert rfl).trans hnone) trivial
  | erase g key =>
    obtain ⟨clients, herase, rfl⟩ := Option.map_eq_some_iff.mp hs
    exact iff_of_true ((held_nobody herase rfl).trans hnone) trivial
  | constructed g iter ok =>
    obtain ⟨clients, hret, rfl⟩ := Option.map_eq_some_iff.mp hs
    exact iff_of_true ((held_nobody hret rfl).trans hnone) trivial
  | moveConstruct g lg =>
    rw [Crowd.step] at hs
    split at hs
    · obtain ⟨-, rfl⟩ := Option.ite_none_right_eq_some.mp hs |>.imp_right Option.some_inj.mp
      exact iff_of_true hnone trivial
    · cases hs
  | moveAssign g lg =>
    rw [Crowd.step] at hs
    split at hs
    · by_cases hself : g = lg
      · rw [if_pos hself, Option.some_inj] at hs
        exact iff_of_true (hs ▸ hnone) (.inl hself)
      · rw [if_neg hself, Option.some_inj] at hs
        have hheld : s'.clients.held none = s.clients.held (some g) := by
          rw [← hs]
          simp [set, pass, lose, Clients.hold, hnone]
        rw [hheld]
        exact (or_iff_right hself).symm
    · cases hs
  | destroy g =>
    rw [Crowd.step] at hs
    split at hs
    · split at hs
      · obtain ⟨clients, hcall, rfl⟩ := Option.map_eq_some_iff.mp hs
        exact iff_of_true ((held_nobody hcall rfl).trans hnone) trivial
      · obtain rfl := Option.some_inj.mp hs
        exact iff_of_true hnone trivial
    · cases hs
  | destroyed g =>
    obtain ⟨clients, hret, rfl⟩ := Option.map_eq_some_iff.mp hs
    exact iff_of_true ((held_nobody hret rfl).trans hnone) trivial

/-- **The map is the guards', unless a move assignment overwrites keys.**  In a run of any number of
threads the keys in the map are at all times the disjoint union of what the guards have, exactly
when each move assignment is one onto itself or onto a guard that holds nothing. -/
theorem shared_iff (h : run step init tr = some s) :
    (∀ tr₁ s₁, tr₁ <+: tr → run step init tr₁ = some s₁ →
      Owns s₁.clients.core.m_hashMap (fun g : G ↦ s₁.clients.holdings (some g))) ↔
      Along step KeepsTarget init tr := by
  have hiff : ∀ {tr₁ : List (CrowdLabel G K)} {s₁}, run step init tr₁ = some s₁ →
      (Owns s₁.clients.core.m_hashMap (fun g : G ↦ s₁.clients.holdings (some g)) ↔
        s₁.clients.held none = []) := by
    intro tr₁ s₁ h₁
    have hnone : s₁.clients.holdings none = s₁.clients.held none := by
      rw [Clients.holdings, (kept h₁).nobody]
      exact List.append_nil _
    rw [(kept h₁).owns.comp_some_iff, hnone]
  rw [← forall_prefix_iff_along (Q := fun s ↦ s.clients.held none = []) rfl
    (fun _ _ _ _ _ hQ hs ↦ held_nobody_step hQ hs) h]
  exact forall₄_congr fun _ _ _ h₁ ↦ hiff h₁

/-- A guard that failed to lock takes over the keys of one that did, and gives them back. -/
def handOver : List (CrowdLabel ℕ ℕ) :=
  [.construct 0 [1] false [], .construct 1 [1] false [], .insert 0 1 true, .insert 1 1 false,
    .constructed 0 [] true, .constructed 1 [1] false, .moveAssign 1 0, .destroy 0, .destroy 1,
    .destroyed 0, .erase 1 1]

theorem shared_iff_handOver : ∃ s, run step init handOver = some s ∧
    ((∀ tr₁ s₁, tr₁ <+: handOver → run step init tr₁ = some s₁ →
      Owns s₁.clients.core.m_hashMap (fun g : ℕ ↦ s₁.clients.holdings (some g))) ↔
      Along step KeepsTarget init handOver) := by
  have hrun : ((run step init handOver).any fun _ ↦ true) = true := by decide
  obtain ⟨s, hs, -⟩ := exists_run_of_any hrun
  exact ⟨s, hs, shared_iff hs⟩

end Crowd

end MemLock
