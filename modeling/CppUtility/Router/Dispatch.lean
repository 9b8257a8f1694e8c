import CppUtility.Router.Pattern
import CppUtility.Router.Router

/-!
# Dispatch selects the earliest registered route that matches

`Chained` is the invariant of registration: the links from `m_head` go through the registered
routes, in the order of their registration, and `m_tail` points to the last of them.

* **One call.**  `append` writes the link of the route that `m_tail` points to, if there is one, and
  otherwise `m_head`.  Both need that the tail is the last route of the list, and that the address
  of the new route is not in use: a route that occurred twice would make the list a loop.  Setting a
  generator changes a route, but neither its link nor what it matches.
* **All calls.**  `exists_chained` is the run lemma, for any sequence of registrations and
  generators, with or without a prefix.
* **Dispatch.**  On a list like this the loop of `dispatch` is `List.find?` (`dispatchFrom_eq`), and
  it ends after as many iterations as there are routes.

Linked lists as such are the subject of `CppUtility.LinkedList`, which knows nothing of routes:
`Links` is its predicate, and appending at the end and changing an entry are its lemmas.

`dispatch_first` is about which route is asked for the handler, whatever the routes match and
whatever the handlers are.  A route that matches may still fail to make one: its generator may not
be set, and `generateHandler` searches another string than `matches` does
(`CppUtility.Router.Agree`).
-/

set_option autoImplicit false

open LinkedList

/-! ## New routes -/

namespace Route

variable {H : Type} {method : HTTPMethod} {path : List Char} {r : Route H}

/-- A new route is not linked. -/
theorem new_next (h : new method path = .ok r) : r.m_next = none := by
  have hset : setPath ⟨none, method, [], none, none, []⟩ path = .ok r := by
    rw [new] at h
    cases hcheck : checkPath path with
    | error e => rw [hcheck] at h; cases h
    | ok u => rw [hcheck] at h; exact h
  rw [setPath] at hset
  split at hset
  · rw [createPattenRegex_eq rfl] at hset
    split at hset
    · split at hset
      · cases hset
      · rw [← Except.ok.inj hset]
    · cases hset
  · split at hset
    · rw [← Except.ok.inj hset]
    · rw [← Except.ok.inj hset]

end Route

namespace Router

variable {H : Type} {rt rt' : Router H} {c : Call H}

theorem newRoute_next {pre : List Char} {method : HTTPMethod} {path : List Char} {r : Route H}
    (h : newRoute pre method path = .ok r) : r.m_next = none := by
  rw [newRoute] at h
  split at h
  · exact Route.new_next h
  · exact Route.new_next h

/-! ## What a call does -/

theorem step_cases (h : rt.step c = some rt') :
    (∃ a method path r, c.registration = some (a, method, path) ∧ rt.heap a = none ∧
      newRoute rt.m_prefix method path = .ok r ∧
      rt' = append { rt with heap := Function.update rt.heap a (some r) } a) ∨
    (∃ a generator, c = .handler a generator ∧
      rt' = { rt with heap := modify rt.heap a (·.handler generator) }) := by
  have hroute : ∀ a method path, rt.heap a = none → (rt.route a method path).toOption = some rt' →
      ∃ r, newRoute rt.m_prefix method path = .ok r ∧
        rt' = append { rt with heap := Function.update rt.heap a (some r) } a := by
    intro a method path ha hr
    rw [route] at hr
    split at hr
    · cases hr
    · cases hnew : newRoute rt.m_prefix method path with
      | error e => rw [hnew] at hr; cases hr
      | ok r =>
        rw [hnew] at hr
        exact ⟨r, rfl, (Option.some.inj hr).symm⟩
  rw [step] at h
  split at h
  · rename_i hfree
    cases c with
    | handler a generator => exact Or.inr ⟨a, generator, rfl, (Option.some.inj h).symm⟩
    | get a path | post a path | put a path | del a path =>
      obtain ⟨r, hr⟩ := hroute a _ path (hfree _ rfl) h
      exact Or.inl ⟨a, _, path, r, rfl, hfree _ rfl, hr⟩
    | route a method path =>
      obtain ⟨r, hr⟩ := hroute a method path (hfree _ rfl) h
      exact Or.inl ⟨a, method, path, r, rfl, hfree _ rfl, hr⟩
  · cases h

/-! ## The invariant

The list of routes is the witness of the invariant, and not part of the state.  Its addresses are
those of the registrations, so that a history tells in which order the routes come; the routes
themselves are as they were constructed, up to link and generator. -/

/-- The route `x` is the one that was constructed for a registration; its link and its generator
may have been set since. -/
def Constructed (pre : List Char) (g : ℕ × HTTPMethod × List Char) (x : Route H) : Prop :=
  ∃ r : Route H, newRoute pre g.2.1 g.2.2 = .ok r ∧
    x = { r with m_next := x.m_next, m_generator := x.m_generator }

theorem Constructed.setNext {pre : List Char} {g : ℕ × HTTPMethod × List Char} {x : Route H}
    (h : Constructed pre g x) (a : Option ℕ) : Constructed pre g (x.setNext a) := by
  obtain ⟨r, hr, hx⟩ := h
  exact ⟨r, hr, by rw [Route.setNext, hx]⟩

theorem Constructed.handler {pre : List Char} {g : ℕ × HTTPMethod × List Char} {x : Route H}
    (h : Constructed pre g x) (generator : PathParams → H) :
    Constructed pre g (x.handler generator) := by
  obtain ⟨r, hr, hx⟩ := h
  exact ⟨r, hr, by rw [Route.handler, hx]⟩

/-- The list from `m_head` to `m_tail` consists of the routes of the registrations `gs`, in
order. -/
structure Chained (pre : List Char) (gs : List (ℕ × HTTPMethod × List Char)) (rt : Router H)
    (routes : List (ℕ × Route H)) : Prop where
  pre_eq : rt.m_prefix = pre
  links : Links Route.next rt.heap rt.m_head routes none
  tail : rt.m_tail = (routes.map Prod.fst).getLast?
  addresses : routes.map Prod.fst = gs.map Prod.fst
  nodup : (routes.map Prod.fst).Nodup
  constructed : ∀ g ∈ gs, ∃ x, rt.heap g.1 = some x ∧ Constructed pre g x

namespace Chained

variable {pre : List Char} {gs : List (ℕ × HTTPMethod × List Char)} {routes : List (ℕ × Route H)}

/-- The first route is head and tail. -/
theorem append_first (h : Chained pre gs rt []) {g : ℕ × HTTPMethod × List Char} {r : Route H}
    (hr : newRoute pre g.2.1 g.2.2 = .ok r) :
    Chained pre (gs ++ [g])
      (append { rt with heap := Function.update rt.heap g.1 (some r) } g.1) [(g.1, r)] := by
  have hgs : gs = [] := List.map_eq_nil_iff.mp h.addresses.symm
  have htail : rt.m_tail = none := h.tail
  subst hgs
  simp only [append, htail]
  exact
    { pre_eq := h.pre_eq
      links := ⟨rfl, Function.update_self .., newRoute_next hr⟩
      tail := rfl
      addresses := rfl
      nodup := List.nodup_singleton _
      constructed := by
        intro g' hg'
        obtain rfl := List.mem_singleton.mp hg'
        exact ⟨r, Function.update_self .., r, hr, rfl⟩ }

/-- Every other route comes after the tail. -/
theorem append_next {e : ℕ × Route H} (h : Chained pre gs rt (routes ++ [e]))
    {g : ℕ × HTTPMethod × List Char} {r : Route H} (hg : rt.heap g.1 = none)
    (hr : newRoute pre g.2.1 g.2.2 = .ok r) :
    Chained pre (gs ++ [g])
      (append { rt with heap := Function.update rt.heap g.1 (some r) } g.1)
      (routes ++ [(e.1, e.2.setNext (some g.1))] ++ [(g.1, r)]) := by
  have htail : rt.m_tail = some e.1 := by simpa using h.tail
  have he := h.links.heap_eq e (List.mem_append_right _ (List.mem_singleton_self e))
  have hea := h.links.ne_of_free hg e (List.mem_append_right _ (List.mem_singleton_self e))
  have hheap : modify (Function.update rt.heap g.1 (some r)) e.1 (·.setNext (some g.1))
      = Function.update (Function.update rt.heap g.1 (some r)) e.1
          (some (e.2.setNext (some g.1))) := by
    rw [modify, Function.update_of_ne hea, he, Option.map_some]
  simp only [append, htail, hheap]
  exact
    { pre_eq := h.pre_eq
      links := h.links.push h.nodup hg rfl (newRoute_next hr)
      tail := by simp
      addresses := by
        have haddresses := h.addresses
        simp only [List.map_append, List.map_cons, List.map_nil] at haddresses ⊢
        rw [haddresses]
      nodup := h.links.nodup_push h.nodup hg
      constructed := by
        intro g' hg'
        simp only [push_apply]
        rcases List.mem_append.mp hg' with hg' | hg'
        · obtain ⟨x, hx, hc⟩ := h.constructed g' hg'
          by_cases hge : g'.1 = e.1
          · rw [hge, he] at hx
            obtain rfl := Option.some.inj hx
            exact ⟨_, if_pos hge, hc.setNext _⟩
          · have hga : g'.1 ≠ g.1 := fun heq ↦ by simp [heq, hg] at hx
            exact ⟨x, by rw [if_neg hge, if_neg hga, hx], hc⟩
        · obtain rfl := List.mem_singleton.mp hg'
          exact ⟨r, by rw [if_neg hea.symm, if_pos rfl], r, hr, rfl⟩ }

/-- Setting a generator. -/
theorem handler (h : Chained pre gs rt routes) (a : ℕ) (generator : PathParams → H) :
    Chained pre gs { rt with heap := modify rt.heap a (·.handler generator) }
      (routes.map fun e ↦ (e.1, if e.1 = a then e.2.handler generator else e.2)) := by
  have hheap : ∀ b, modify rt.heap a (·.handler generator) b
      = (rt.heap b).map fun x ↦ if b = a then x.handler generator else x := by
    intro b
    by_cases hb : b = a
    · subst hb
      simp [modify]
    · simp [modify, hb]
  have hmap : (routes.map fun e ↦ (e.1, if e.1 = a then e.2.handler generator else e.2)).map
      Prod.fst = routes.map Prod.fst := by
    rw [List.map_map]
    rfl
  refine
    { pre_eq := h.pre_eq
      links := h.links.modify (f := fun b x ↦ if b = a then x.handler generator else x) ?_
        fun e _ ↦ hheap e.1
      tail := by rw [hmap]; exact h.tail
      addresses := by rw [hmap]; exact h.addresses
      nodup := by rw [hmap]; exact h.nodup
      constructed := ?_ }
  · intro b x
    split <;> rfl
  · intro g hg
    obtain ⟨x, hx, hc⟩ := h.constructed g hg
    refine ⟨if g.1 = a then x.handler generator else x,
      (hheap g.1).trans (by rw [hx, Option.map_some]), ?_⟩
    split
    · exact hc.handler generator
    · exact hc

/-- What one call preserves. -/
theorem step (h : Chained pre gs rt routes) (hs : rt.step c = some rt') :
    ∃ routes', Chained pre (gs ++ c.registration.toList) rt' routes' := by
  rcases step_cases hs with ⟨a, method, path, r, hc, ha, hr, rfl⟩ | ⟨a, generator, rfl, rfl⟩
  · rw [h.pre_eq] at hr
    rw [hc, Option.toList_some]
    rcases List.eq_nil_or_concat routes with rfl | ⟨es, e, rfl⟩
    · exact ⟨_, h.append_first (g := (a, method, path)) hr⟩
    · rw [List.concat_eq_append] at h
      exact ⟨_, h.append_next (g := (a, method, path)) ha hr⟩
  · exact ⟨_, by simpa [Call.registration] using h.handler a generator⟩

end Chained

/-- The registrations among the calls, in order. -/
def registrations (calls : List (Call H)) : List (ℕ × HTTPMethod × List Char) :=
  calls.filterMap Call.registration

/-- **Every sequence of registrations keeps the list.** -/
theorem exists_chained {pre : List Char} {webSvc : Option WebService} {calls : List (Call H)}
    (h : Transition.run step (init pre webSvc) calls = some rt) :
    ∃ routes, Chained pre (registrations calls) rt routes := by
  refine Transition.run_induction (P := fun calls rt ↦
    ∃ routes, Chained pre (registrations calls) rt routes) ?_ ?_ h
  · exact ⟨[], rfl, rfl, rfl, rfl, List.nodup_nil, List.forall_mem_nil _⟩
  · rintro calls s c s' - ⟨routes, hchained⟩ hstep
    obtain ⟨routes', hchained'⟩ := hchained.step hstep
    refine ⟨routes', ?_⟩
    rw [registrations, List.filterMap_append, List.filterMap_cons, List.filterMap_nil]
    cases hc : c.registration <;> simpa [hc, registrations] using hchained'

/-! ## Dispatch

The bound of the loop is the number of routes.  A message without a method is the case that the main
statement leaves out, with a lemma of its own. -/

/-- What `dispatch` returns when its loop ends at a route, or at the end of the list. -/
def answer (path : List Char) : Option (ℕ × Route H) → Dispatched H
  | some e => .generated e.1 (e.2.generateHandler path)
  | none => .notFoundHandler

/-- **The loop of `dispatch` finds the first route of the list that matches.** -/
theorem dispatchFrom_eq {heap : ℕ → Option (Route H)} {p : Option ℕ} {routes : List (ℕ × Route H)}
    (h : Links Route.next heap p routes none) {n : ℕ} (hn : routes.length ≤ n) {msg : HTTPMessage}
    {method : HTTPMethod} (hmethod : msg.getMethod = some method) :
    dispatchFrom heap msg n p =
      some (answer msg.getPath (routes.find? fun e ↦ e.2.doesMatch method msg.getPath)) := by
  induction routes generalizing p n with
  | nil =>
    obtain rfl : p = none := h
    rw [dispatchFrom]
    rfl
  | cons e routes ih =>
    obtain ⟨rfl, he, hlinks⟩ := h
    obtain ⟨n, rfl⟩ := Nat.exists_eq_add_of_le' (Nat.lt_of_lt_of_le (Nat.succ_pos _) hn)
    rw [dispatchFrom, he, Option.bind_some, hmethod]
    by_cases hm : e.2.doesMatch method msg.getPath = true
    · simp [hm, answer]
    · simp only [hm, Bool.false_eq_true, if_false, not_false_eq_true, List.find?_cons_of_neg]
      exact ih hlinks (Nat.le_of_succ_le_succ hn)

/-- A message without a method makes `value()` throw as soon as there is a route. -/
theorem dispatchFrom_noMethod {heap : ℕ → Option (Route H)} {p : Option ℕ} {e : ℕ × Route H}
    {routes : List (ℕ × Route H)} (h : Links Route.next heap p (e :: routes) none) {n : ℕ}
    {msg : HTTPMessage} (hmethod : msg.getMethod = none) :
    dispatchFrom heap msg (n + 1) p = some .noMethod := by
  obtain ⟨rfl, he, -⟩ := h
  rw [dispatchFrom, he, Option.bind_some, hmethod]

/-- **Dispatch selects the earliest registered route that matches.**  After any calls that
register routes or set their generators, the links from `m_head` visit the registered routes once
each and in the order of registration, `m_tail` is the last one, and `dispatch` calls
`generateHandler` on the first one that matches; the answer is a `NotFoundHandler` exactly if none
does. -/
theorem dispatch_first {pre : List Char} {webSvc : Option WebService} {calls : List (Call H)}
    (h : Transition.run step (init pre webSvc) calls = some rt) :
    ∃ routes : List (ℕ × Route H),
      Links Route.next rt.heap rt.m_head routes none ∧
      rt.m_tail = (routes.map Prod.fst).getLast? ∧
      routes.map Prod.fst = (registrations calls).map Prod.fst ∧
      (routes.map Prod.fst).Nodup ∧
      (∀ g ∈ registrations calls, ∃ x, (g.1, x) ∈ routes ∧ Constructed pre g x) ∧
      ∀ n ≥ routes.length, ∀ msg method, msg.getMethod = some method →
        rt.dispatch n msg =
          some (answer msg.getPath (routes.find? fun e ↦ e.2.doesMatch method msg.getPath)) := by
  obtain ⟨routes, hchained⟩ := exists_chained h
  refine ⟨routes, hchained.links, hchained.tail, hchained.addresses, hchained.nodup, ?_,
    fun n hn msg method hmethod ↦ dispatchFrom_eq hchained.links hn hmethod⟩
  intro g hg
  obtain ⟨x, hx, hc⟩ := hchained.constructed g hg
  have hmem : g.1 ∈ routes.map Prod.fst := by
    rw [hchained.addresses]
    exact List.mem_map_of_mem hg
  obtain ⟨e, he, heq⟩ := List.mem_map.mp hmem
  have hheap := hchained.links.heap_eq e he
  rw [heq, hx] at hheap
  obtain rfl := Option.some.inj hheap
  exact ⟨e.2, by rw [← heq]; exact he, hc⟩

/-- Three registrations, the last one of a path that the first one has already, and a request that
only the second one matches. -/
theorem dispatch_first_three : ∃ (rt : Router Unit) (routes : List (ℕ × Route Unit)),
    Transition.run step (init [] none)
      [.get 7 "/a".toList, .put 4 "/a/:x".toList, .get 9 "/a/".toList] = some rt ∧
    Links Route.next rt.heap rt.m_head routes none ∧ rt.m_tail = some 9 ∧
    routes.map Prod.fst = [7, 4, 9] ∧
    rt.dispatch 3 ⟨some .PUT, "/a/b".toList⟩ =
      some (answer "/a/b".toList (routes.find? fun e ↦ e.2.doesMatch .PUT "/a/b".toList)) := by
  have hrun : (Transition.run step (init [] none : Router Unit)
      [.get 7 "/a".toList, .put 4 "/a/:x".toList, .get 9 "/a/".toList]).isSome = true := by
    decide
  obtain ⟨rt, hrt⟩ := Option.isSome_iff_exists.mp hrun
  obtain ⟨routes, hlinks, htail, haddresses, -, -, hdispatch⟩ := dispatch_first hrt
  have hlen : routes.length = 3 := by
    rw [← List.length_map (f := Prod.fst), haddresses]
    rfl
  exact ⟨rt, routes, hrt, hlinks, by rw [htail, haddresses]; rfl, haddresses,
    hdispatch 3 (Nat.le_of_eq hlen) ⟨some .PUT, "/a/b".toList⟩ .PUT rfl⟩

end Router
