import CppUtility.Router.Trailing
import CppUtility.Router.Dispatch
import CppUtility.WebService.Handlers
import CppUtility.WebService.Server

/-!
# The web service and its requests

The whole of the web service: calls of `start` and the callbacks of the server, other code that
registers routes of its own through `router()`, requests, and the callbacks of their handlers, in
any order (`Site.step`).  The parts are known by now, and this file is about what they make of each
other.

* **Registration.**  Other code cannot register before `start` has been called, and `start`
  registers at once; so the two routes of `start` are the first two of the list, and stay so.
  Whoever has a route can set its generator, but the two of `start` are given to nobody.  This is
  `InForce`, and `InForce.step` says that no call of other code can change it.
* **Dispatch.**  Since the list is searched from the front, no other route can take a request from
  those two, and what they do not take goes to the others in the order of their registration
  (`routes_in_force`).
* **Handlers.**  A request that gets a handler of this repository is followed to its end; one that
  gets a handler of other code is put on record, with the handler, and left to it (`elsewhere`).
  `answered` says which requests are which, and what the former come to.

A generator of other code may make a `StatusHandler` or a `NotFoundHandler` too.  The request is
then answered as that handler does, and `answered` covers it.
-/

set_option autoImplicit false

open LinkedList Transition

/-! ## Routers and their routes -/

namespace Router

variable {H : Type} {rt rt' : Router H}

/-- A route made from this method and this path, by a router with this prefix, matches the
request. -/
def Takes (H : Type) (pre : List Char) (method : HTTPMethod) (path : List Char)
    (msg : HTTPMessage) : Prop :=
  ∃ (r : Route H) (m : HTTPMethod), newRoute pre method path = .ok r ∧ msg.getMethod = some m ∧
    r.doesMatch m msg.getPath = true

/-- Whether a registered route matches does not depend on its link or its generator. -/
theorem Constructed.doesMatch_iff {pre : List Char} {g : ℕ × HTTPMethod × List Char} {x : Route H}
    (h : Constructed pre g x) {msg : HTTPMessage} {m : HTTPMethod} (hm : msg.getMethod = some m) :
    x.doesMatch m msg.getPath = true ↔ Takes H pre g.2.1 g.2.2 msg := by
  obtain ⟨r, hr, hx⟩ := h
  have hsame : x.doesMatch m msg.getPath = r.doesMatch m msg.getPath := by
    rw [hx]
    rfl
  rw [hsame]
  constructor
  · exact fun hmatch ↦ ⟨r, m, hr, hm, hmatch⟩
  · rintro ⟨r', m', hr', hm', hmatch⟩
    obtain rfl := Except.ok.inj (hr.symm.trans hr')
    obtain rfl := Option.some_inj.mp (hm.symm.trans hm')
    exact hmatch

/-- The path that a route is made from. -/
def fullPath (pre path : List Char) : List Char :=
  if pre ≠ [] then ['/'] ++ pre ++ if path = [] then ['/'] else path
  else if path = [] then ['/'] else path

theorem newRoute_eq (pre : List Char) (method : HTTPMethod) (path : List Char) :
    (newRoute pre method path : Except Fault (Route H)) = Route.new method (fullPath pre path) := by
  rw [newRoute, fullPath]
  split
  · rfl
  · rfl

theorem newRoute_method {pre path : List Char} {method : HTTPMethod} {r : Route H}
    (h : newRoute pre method path = .ok r) : r.m_method = method := by
  rw [newRoute_eq] at h
  by_cases hcolon : ':' ∈ fullPath pre path
  · obtain ⟨-, pattern, -, rfl⟩ := Route.new_colon_ok h hcolon
    rfl
  · rw [Route.new_exact (Route.head?_of_new_ok h) hcolon] at h
    rw [← Except.ok.inj h]

/-- A route takes requests with its own method only. -/
theorem Takes.method {pre path : List Char} {method : HTTPMethod} {msg : HTTPMessage}
    (h : Takes H pre method path msg) : msg.getMethod = some method := by
  obtain ⟨r, m, hr, hm, hmatch⟩ := h
  rw [Route.doesMatch, newRoute_method hr] at hmatch
  by_cases hne : method ≠ m
  · rw [if_pos hne] at hmatch
    exact absurd hmatch Bool.false_ne_true
  · rw [hm, not_not.mp hne]

/-- Without a `:` a route takes the requests for its path, up to a `/` at the end. -/
theorem takes_exact {pre path : List Char} {method : HTTPMethod} {msg : HTTPMessage}
    (hhead : (fullPath pre path).head? = some '/') (hcolon : ':' ∉ fullPath pre path) :
    Takes H pre method path msg ↔ msg.getMethod = some method ∧
      Route.searched (fullPath pre path) = Route.searched msg.getPath := by
  have hnew : (newRoute pre method path : Except Fault (Route H))
      = .ok ⟨none, method, Route.searched (fullPath pre path), none, none, []⟩ := by
    rw [newRoute_eq, Route.new_exact hhead hcolon]
  constructor
  · intro h
    refine ⟨h.method, ?_⟩
    obtain ⟨r, m, hr, hm, hmatch⟩ := h
    obtain rfl := Except.ok.inj (hnew.symm.trans hr)
    rw [Route.doesMatch] at hmatch
    split at hmatch
    · exact absurd hmatch Bool.false_ne_true
    · exact of_decide_eq_true hmatch
  · rintro ⟨hm, hpath⟩
    refine ⟨_, method, hnew, hm, ?_⟩
    rw [Route.doesMatch, if_neg (not_not.mpr rfl)]
    exact decide_eq_true hpath

/-- A registered route whose path has no `:` of its own makes its handler, unless the prefix has
one. -/
theorem Constructed.generateHandler {pre : List Char} {g : ℕ × HTTPMethod × List Char} {x : Route H}
    (h : Constructed pre g x) (hcolon : ':' ∉ g.2.2) {made : H}
    (hgenerator : x.m_generator = some fun _ ↦ made) (q : List Char) :
    x.generateHandler q = .ok made ∨ ':' ∈ pre ∧ x.generateHandler q = .error .abort := by
  rw [Route.generateHandler]
  cases hpattern : x.m_pattern with
  | none => exact .inl (by simp only [Route.generate, hgenerator])
  | some pattern =>
    have hpre : ':' ∈ pre := by
      by_contra hpre
      obtain ⟨r, hr, hx⟩ := h
      have hfull : ':' ∉ fullPath pre g.2.2 := by
        rw [fullPath]
        split <;> split <;> simp [hpre, hcolon]
      rw [newRoute_eq] at hr
      rw [Route.new_exact (Route.head?_of_new_ok hr) hfull] at hr
      rw [hx, ← Except.ok.inj hr] at hpattern
      cases hpattern
    dsimp only
    split
    · exact .inr ⟨hpre, rfl⟩
    · split
      · exact .inr ⟨hpre, rfl⟩
      · exact .inl (by simp only [Route.generate, hgenerator])

theorem modify_apply (heap : ℕ → Option (Route H)) (a : ℕ) (f : Route H → Route H) (b : ℕ) :
    modify heap a f b = (heap b).map (if b = a then f else id) := by
  rw [modify, Function.update_apply]
  split
  · next hba => rw [hba]
  · rw [Option.map_id, id]

/-- A call that is not for the route at an address may set the link of this route, and that is
all. -/
theorem step_heap {c : Call H} (h : step rt c = some rt') {b : ℕ}
    (hregistration : ∀ g ∈ c.registration, g.1 ≠ b)
    (hhandler : ∀ generator, c ≠ .handler b generator) :
    ∃ f : Route H → Route H, (∀ x, (f x).m_generator = x.m_generator) ∧
      rt'.heap b = (rt.heap b).map f := by
  rcases step_cases h with ⟨a, method, path, r, hreg, -, -, rfl⟩ | ⟨a, generator, rfl, rfl⟩
  · have hne : b ≠ a := (hregistration _ hreg).symm
    have hold : Function.update rt.heap a (some r) b = rt.heap b := Function.update_of_ne hne ..
    rw [append]
    split
    · refine ⟨_, fun x ↦ ?_, (modify_apply ..).trans (congrArg _ hold)⟩
      split
      · rfl
      · rfl
    · exact ⟨id, fun _ ↦ rfl, by rw [Option.map_id, id]; exact hold⟩
  · have hne : b ≠ a := by
      rintro rfl
      exact hhandler generator rfl
    exact ⟨id, fun _ ↦ rfl, (modify_apply ..).trans (by rw [if_neg hne])⟩

/-- The router needs its pointer to the service for `route` only. -/
theorem Chained.withService {pre : List Char} {gs : List (ℕ × HTTPMethod × List Char)}
    {routes : List (ℕ × Route H)} (h : Chained pre gs rt routes) (webSvc : Option WebService) :
    Chained pre gs { rt with m_webService := webSvc } routes :=
  ⟨h.pre_eq, h.links, h.tail, h.addresses, h.nodup, h.constructed⟩

/-- Nothing can be registered at the router of a service that has not been started. -/
theorem started_of_step {c : Call H} {webSvc : WebService} (hs : rt.m_webService = some webSvc)
    (h : step rt c = some rt') (hc : c.registration ≠ none) : webSvc.m_started = true := by
  have hroute : ∀ a method path, (rt.route a method path).toOption = some rt' →
      webSvc.m_started = true := by
    intro a method path hr
    by_contra hnot
    rw [route, hs, Option.any_some, Bool.eq_false_iff.mpr hnot, Bool.not_false, if_pos rfl] at hr
    cases hr
  rw [step] at h
  split at h
  · cases c with
    | get a path | post a path | put a path | del a path => exact hroute a _ path h
    | route a method path => exact hroute a method path h
    | handler => exact absurd rfl hc
  · cases h

end Router

namespace WebService

variable {K : Type}

/-- The service, the addresses of the routes that other code has been given, the requests that have
got a handler of this repository, and those that have got one of other code, with the handler. -/
structure Site (K : Type) where
  service : Service (Kind K)
  theirs : List ℕ
  exchanges : List Exchange
  elsewhere : List (Router.HTTPMessage × K)

namespace Site

/-- The site before anything has happened. -/
def init (name : List Char) (flags : Flags) : Site K := ⟨Service.init name flags, [], [], []⟩

/-- A step: of a call of `start`, a call of other code at the router or at a route that it has been
given, a request, or a callback for one of the requests that are served here. -/
inductive Event (K : Type)
  | service (l : Service.Label)
  | call (c : Router.Call (Kind K))
  | request (msg : Router.HTTPMessage)
  | callback (i : ℕ) (c : Callback)

/-- Other code may make this call: it sets the generator of none but its own routes. -/
def Allowed (theirs : List ℕ) : Router.Call (Kind K) → Prop
  | .handler a _ => a ∈ theirs
  | _ => True

instance (theirs : List ℕ) : (c : Router.Call (Kind K)) → Decidable (Allowed theirs c)
  | .handler a _ => inferInstanceAs (Decidable (a ∈ theirs))
  | .get _ _ | .post _ _ | .put _ _ | .del _ _ | .route _ _ _ => isTrue trivial

/-- `dispatch`; the list has two routes of `start` at most, and those of other code. -/
def dispatch (s : Site K) (msg : Router.HTTPMessage) : Option (Router.Dispatched (Kind K)) :=
  s.service.m_router.dispatch (s.theirs.length + 2) msg

/-- The class of the handler that `dispatch` makes; `none` if it does not return. -/
def handlerMade : Router.Dispatched (Kind K) → Option (Kind K)
  | .generated _ (.ok kind) => some kind
  | .generated _ (.error _) => none
  | .notFoundHandler => some .notFoundHandler
  | .noMethod => none

/-- `WebServiceHandlerFactory::onRequest`, read as `return m_router->dispatch(msg);`.  As the source
has it, the function ends without a `return`, and there is a `.` on the pointer. -/
def onRequest (s : Site K) (msg : Router.HTTPMessage) : Option (Kind K) :=
  (s.dispatch msg).bind handlerMade

/-- A request has got its handler. -/
def handedOver (s : Site K) (msg : Router.HTTPMessage) : Kind K → Site K
  | .statusHandler => { s with exchanges := s.exchanges ++ [.init msg .statusHandler] }
  | .notFoundHandler => { s with exchanges := s.exchanges ++ [.init msg .notFoundHandler] }
  | .other k => { s with elsewhere := s.elsewhere ++ [(msg, k)] }

/-- This is all that a handler changes. -/
theorem handedOver_front (s : Site K) (msg : Router.HTTPMessage) (kind : Kind K) :
    (s.handedOver msg kind).service = s.service ∧ (s.handedOver msg kind).theirs = s.theirs := by
  cases kind <;> exact ⟨rfl, rfl⟩

/-- One step; `none` if it is not enabled, or ends the process. -/
def step (s : Site K) : Event K → Option (Site K)
  | .service l => (s.service.step .statusHandler l).map fun service ↦ { s with service := service }
  | .call c =>
    if Allowed s.theirs c then (Router.step s.service.router c).map fun rt ↦
      { s with
        service := { s.service with m_router := rt }
        theirs := s.theirs ++ (c.registration.map Prod.fst).toList }
    else none
  | .request msg =>
    if s.service.m_server.isNone then none
    else (s.onRequest msg).map (s.handedOver msg)
  | .callback i c =>
    (s.exchanges[i]?.bind fun e ↦ e.step c).map fun e ↦
      { s with exchanges := s.exchanges.set i e }

end Site

/-! ## The routes in force

`InForce` begins when both registrations of `start` have returned.  A call of other code has to keep
it, whichever route it is made at: one that has been returned to it, or a new one. -/

/-- The two registrations of `start` came first, the others are `gs`, and the first two generators
make a `StatusHandler`. -/
def InForce (name : List Char) (gs : List (ℕ × HTTPMethod × List Char)) (rt : Router (Kind K)) :
    Prop :=
  ∃ a b routes, Router.Chained name ((a, .GET, "/status".toList) :: (b, .GET, "/".toList) :: gs) rt
      routes ∧
    ∀ c ∈ [a, b], ∃ x, rt.heap c = some x ∧ x.m_generator = some fun _ ↦ .statusHandler

section Register

variable {H : Type} {statusHandler : H} {rt rt' : Router H} {a b : ℕ} {path : List Char}

/-- A registration of `start` is two calls at the router. -/
theorem register_steps (h : Service.register statusHandler rt a path = .ok rt')
    (ha : rt.heap a = none) : ∃ rt₁, rt.step (.get a path) = some rt₁ ∧
      rt₁.step (.handler a fun _ ↦ statusHandler) = some rt' := by
  rw [Service.register] at h
  cases hget : rt.get a path with
  | error fault => rw [hget] at h; cases h
  | ok rt₁ =>
    rw [hget] at h
    obtain rfl := Except.ok.inj h
    refine ⟨rt₁, ?_, rfl⟩
    have hfree : ∀ g ∈ (Router.Call.get a path : Router.Call H).registration,
        rt.heap g.1 = none := by
      rintro g ⟨⟩
      exact ha
    rw [Router.step, if_pos hfree, Router.perform, hget]
    rfl

/-- The links and the generators after a registration of `start`. -/
theorem register_chained {name : List Char} {gs : List (ℕ × HTTPMethod × List Char)}
    {routes : List (ℕ × Route H)} (hchained : Router.Chained name gs rt routes)
    (h : Service.register statusHandler rt a path = .ok rt') (ha : rt.heap a = none) :
    (∃ routes', Router.Chained name (gs ++ [(a, .GET, path)]) rt' routes') ∧
      (∃ x, rt'.heap a = some x ∧ x.m_generator = some fun _ ↦ statusHandler) ∧
      ∀ b, b ≠ a → ∃ f : Route H → Route H, (∀ x, (f x).m_generator = x.m_generator) ∧
        rt'.heap b = (rt.heap b).map f := by
  obtain ⟨rt₁, hget, hhandler⟩ := register_steps h ha
  obtain ⟨routes₁, hchained₁⟩ := hchained.step hget
  obtain ⟨routes', hchained'⟩ := hchained₁.step hhandler
  refine ⟨⟨routes', by simpa [Router.Call.registration] using hchained'⟩, ?_, fun b hb ↦ ?_⟩
  · obtain ⟨x, hx, -⟩ := hchained₁.constructed (a, .GET, path) (by simp [Router.Call.registration])
    obtain rfl := Option.some_inj.mp hhandler
    refine ⟨x.handler fun _ ↦ statusHandler, ?_, rfl⟩
    exact (Router.modify_apply ..).trans (by rw [hx, if_pos rfl]; rfl)
  · obtain ⟨f, hf, hheap⟩ := Router.step_heap hget (b := b) (by rintro g ⟨⟩; exact hb.symm)
      (by simp)
    obtain ⟨f', hf', hheap'⟩ := Router.step_heap hhandler (b := b) (by rintro g ⟨⟩)
      (by rintro generator ⟨⟩; exact hb rfl)
    exact ⟨f' ∘ f, fun x ↦ (hf' _).trans (hf x), by rw [hheap', hheap, Option.map_map]⟩

end Register

/-- Both registrations of `start` bring the two routes into force. -/
theorem inForce_registerBoth {name : List Char} {rt rt' : Router (Kind K)} {a b : ℕ}
    (hchained : Router.Chained name [] rt [])
    (hfree : rt.heap a = none ∧ rt.heap b = none ∧ a ≠ b)
    (h : Service.registerBoth .statusHandler rt a b = (rt', none)) : InForce name [] rt' := by
  obtain ⟨ha, hb, hab⟩ := hfree
  rw [Service.registerBoth] at h
  split at h
  · cases h
  · next rt₁ hfirst =>
    split at h
    · cases h
    · next rt₂ hsecond =>
      obtain rfl := congrArg Prod.fst h
      obtain ⟨⟨routes₁, hchained₁⟩, hgenerator₁, hheap₁⟩ := register_chained hchained hfirst ha
      obtain ⟨f, -, hb₁⟩ := hheap₁ b hab.symm
      rw [hb, Option.map_none] at hb₁
      obtain ⟨⟨routes₂, hchained₂⟩, hgenerator₂, hheap₂⟩ :=
        register_chained hchained₁ hsecond hb₁
      refine ⟨a, b, routes₂, hchained₂, fun c hc ↦ ?_⟩
      rcases List.mem_pair.mp hc with rfl | rfl
      · obtain ⟨x, hx, hgenerator⟩ := hgenerator₁
        obtain ⟨f, hf, hheap⟩ := hheap₂ c hab
        exact ⟨f x, by rw [hheap, hx]; rfl, (hf x).trans hgenerator⟩
      · exact hgenerator₂

/-- One of the two routes of `start` matches the request. -/
def BuiltIn (K : Type) (name : List Char) (msg : Router.HTTPMessage) : Prop :=
  Router.Takes (Kind K) name .GET "/status".toList msg ∨
    Router.Takes (Kind K) name .GET "/".toList msg

/-- Without a `:` in the prefix: a GET request for one of the two paths, up to a `/` at its end. -/
theorem builtIn_iff {name : List Char} (hname : ':' ∉ name) {msg : Router.HTTPMessage} :
    BuiltIn K name msg ↔ msg.getMethod = some .GET ∧
      (Route.searched (Router.fullPath name "/status".toList) = Route.searched msg.getPath ∨
        Route.searched (Router.fullPath name "/".toList) = Route.searched msg.getPath) := by
  have hcolon : ∀ path, ':' ∉ path → ':' ∉ Router.fullPath name path := by
    intro path hpath
    rw [Router.fullPath]
    split <;> split <;> simp [hname, hpath]
  have hhead : ∀ path : List Char, path.head? = some '/' →
      (Router.fullPath name path).head? = some '/' := by
    intro path hpath
    rw [Router.fullPath]
    split
    · rfl
    · split
      · rfl
      · exact hpath
  rw [BuiltIn, Router.takes_exact (hhead _ rfl) (hcolon _ (by decide)),
    Router.takes_exact (hhead _ rfl) (hcolon _ (by decide)), and_or_left]

section InForce

variable {name : List Char} {gs : List (ℕ × HTTPMethod × List Char)} {rt rt' : Router (Kind K)}

theorem InForce.withService (h : InForce name gs rt) (webSvc : Option WebService) :
    InForce name gs { rt with m_webService := webSvc } := by
  obtain ⟨a, b, routes, hchained, hgenerators⟩ := h
  exact ⟨a, b, routes, hchained.withService webSvc, hgenerators⟩

/-- **Other code cannot touch them.** -/
theorem InForce.step (h : InForce name gs rt) {c : Router.Call (Kind K)}
    (hc : Site.Allowed (gs.map Prod.fst) c) (hs : rt.step c = some rt') :
    InForce name (gs ++ c.registration.toList) rt' := by
  obtain ⟨a, b, routes, hchained, hgenerators⟩ := h
  obtain ⟨routes', hchained'⟩ := hchained.step hs
  refine ⟨a, b, routes', hchained', fun d hd ↦ ?_⟩
  obtain ⟨x, hx, hgenerator⟩ := hgenerators d hd
  have hnodup := hchained.nodup
  rw [hchained.addresses, List.map_cons, List.map_cons] at hnodup
  have hnew : ∀ g ∈ c.registration, g.1 ≠ d := by
    rintro g hg rfl
    rcases Router.step_cases hs with ⟨e, method, path, r, hreg, he, -⟩ | ⟨e, generator, rfl, -⟩
    · obtain rfl := Option.some_inj.mp (hreg.symm.trans hg)
      cases hx.symm.trans he
    · cases hg
  have hother : ∀ generator, c ≠ .handler d generator := by
    rintro generator rfl
    have hd' : d ∈ gs.map Prod.fst := hc
    obtain ⟨ha, hrest⟩ := List.nodup_cons.mp hnodup
    rcases List.mem_pair.mp hd with rfl | rfl
    · exact ha (List.mem_cons_of_mem _ hd')
    · exact (List.nodup_cons.mp hrest).1 hd'
  obtain ⟨f, hf, hheap⟩ := Router.step_heap hs hnew hother
  exact ⟨f x, by rw [hheap, hx]; rfl, (hf x).trans hgenerator⟩

/-- The list of the routes in force: the two of `start`, and the others. -/
theorem InForce.routes (h : InForce name gs rt) : ∃ (a b : ℕ) (x y : Route (Kind K))
    (others : List (ℕ × Route (Kind K))),
    Links Route.next rt.heap rt.m_head ((a, x) :: (b, y) :: others) none ∧
    (Router.Constructed name (a, .GET, "/status".toList) x ∧
      x.m_generator = some fun _ ↦ .statusHandler) ∧
    (Router.Constructed name (b, .GET, "/".toList) y ∧
      y.m_generator = some fun _ ↦ .statusHandler) ∧
    others.map Prod.fst = gs.map Prod.fst ∧ a ∉ gs.map Prod.fst ∧ b ∉ gs.map Prod.fst ∧
    ∀ e ∈ others, ∃ g ∈ gs, g.1 = e.1 ∧ Router.Constructed name g e.2 := by
  obtain ⟨a, b, routes, hchained, hgenerators⟩ := h
  have haddresses := hchained.addresses
  obtain ⟨⟨a', x⟩, routes, rfl, ha, hrest⟩ := List.map_eq_cons_iff.mp haddresses
  obtain ⟨⟨b', y⟩, others, rfl, hb, hothers⟩ := List.map_eq_cons_iff.mp hrest
  obtain rfl : a' = a := ha
  obtain rfl : b' = b := hb
  have hnodup := hchained.nodup
  rw [haddresses, List.map_cons, List.map_cons] at hnodup
  obtain ⟨ha, hrest⟩ := List.nodup_cons.mp hnodup
  have hroute : ∀ e ∈ (a', x) :: (b', y) :: others, ∀ g ∈ (a', .GET, "/status".toList) ::
      (b', .GET, "/".toList) :: gs, g.1 = e.1 → Router.Constructed name g e.2 := by
    intro e he g hg hge
    obtain ⟨z, hz, hc⟩ := hchained.constructed g hg
    rw [hge, hchained.links.heap_eq e he] at hz
    exact Option.some_inj.mp hz ▸ hc
  have hgenerator : ∀ e ∈ (a', x) :: (b', y) :: others, e.1 ∈ [a', b'] →
      e.2.m_generator = some fun _ ↦ .statusHandler := by
    intro e he hmem
    obtain ⟨z, hz, hg⟩ := hgenerators e.1 hmem
    rw [hchained.links.heap_eq e he] at hz
    exact Option.some_inj.mp hz ▸ hg
  refine ⟨a', b', x, y, others, hchained.links, ⟨?_, ?_⟩, ⟨?_, ?_⟩, hothers,
    fun h ↦ ha (List.mem_cons_of_mem _ h), (List.nodup_cons.mp hrest).1, fun e he ↦ ?_⟩
  · exact hroute (a', x) List.mem_cons_self _ List.mem_cons_self rfl
  · exact hgenerator (a', x) List.mem_cons_self (List.mem_pair.mpr (.inl rfl))
  · exact hroute (b', y) (by simp) (b', .GET, "/".toList) (by simp) rfl
  · exact hgenerator (b', y) (by simp) (List.mem_pair.mpr (.inr rfl))
  · have hmem : e.1 ∈ gs.map Prod.fst := hothers ▸ List.mem_map_of_mem he
    obtain ⟨g, hg, hge⟩ := List.mem_map.mp hmem
    exact ⟨g, hg, hge, hroute e (by simp [he]) g (by simp [hg]) hge⟩

/-- How a request is dispatched: one without a method makes `value()` throw, one that a route of
`start` matches gets a `StatusHandler`, and any other one goes to the first of the other routes that
matches. -/
theorem InForce.dispatch (h : InForce name gs rt) {n : ℕ} (hn : gs.length + 2 ≤ n)
    (msg : Router.HTTPMessage) :
    (msg.getMethod = none → rt.dispatch n msg = some .noMethod) ∧
    (BuiltIn K name msg → ∃ a ∉ gs.map Prod.fst, ∃ result,
      rt.dispatch n msg = some (.generated a result) ∧
        (result = .ok .statusHandler ∨ ':' ∈ name ∧ result = .error .abort)) ∧
    ∀ method, msg.getMethod = some method → ¬ BuiltIn K name msg →
      ∃ others : List (ℕ × Route (Kind K)), others.map Prod.fst = gs.map Prod.fst ∧
        (∀ e ∈ others, ∃ g ∈ gs, g.1 = e.1 ∧ Router.Constructed name g e.2) ∧
        rt.dispatch n msg = some
          (Router.answer msg.getPath (others.find? fun e ↦ e.2.doesMatch method msg.getPath)) := by
  obtain ⟨a, b, x, y, others, hlinks, ⟨hx, hxg⟩, ⟨hy, hyg⟩, hothers, ha, hb, hconstructed⟩ :=
    h.routes
  have hlength : ((a, x) :: (b, y) :: others).length ≤ n := by
    have := congrArg List.length hothers
    rw [List.length_map, List.length_map] at this
    rw [List.length_cons, List.length_cons]
    omega
  have hstatus : ':' ∉ "/status".toList := by decide
  have hroot : ':' ∉ "/".toList := by decide
  refine ⟨fun hnone ↦ ?_, fun hbuiltIn ↦ ?_, fun method hmethod hbuiltIn ↦ ?_⟩
  · obtain ⟨n, rfl⟩ := Nat.exists_eq_add_of_le' hn
    exact Router.dispatchFrom_noMethod hlinks hnone
  · have hmethod : msg.getMethod = some .GET := hbuiltIn.elim (·.method) (·.method)
    rw [Router.dispatch, Router.dispatchFrom_eq hlinks hlength hmethod, List.find?_cons]
    by_cases hmatch : x.doesMatch .GET msg.getPath = true
    · rw [hmatch]
      exact ⟨a, ha, _, rfl, hx.generateHandler hstatus hxg _⟩
    · have hyes : y.doesMatch .GET msg.getPath = true := (hy.doesMatch_iff hmethod).mpr
        (hbuiltIn.resolve_left fun ht ↦ hmatch ((hx.doesMatch_iff hmethod).mpr ht))
      rw [Bool.eq_false_iff.mpr hmatch, List.find?_cons, hyes]
      exact ⟨b, hb, _, rfl, hy.generateHandler hroot hyg _⟩
  · obtain ⟨hnotx, hnoty⟩ := not_or.mp hbuiltIn
    rw [← hx.doesMatch_iff hmethod, Bool.not_eq_true] at hnotx
    rw [← hy.doesMatch_iff hmethod, Bool.not_eq_true] at hnoty
    refine ⟨others, hothers, hconstructed, ?_⟩
    rw [Router.dispatch, Router.dispatchFrom_eq hlinks hlength hmethod, List.find?_cons, hnotx,
      List.find?_cons, hnoty]

end InForce

namespace Site

/-! ## Runs

`Routed` says what a request can get, in terms of the routes that have been registered when it is
dispatched.  It stays true when there are more (`Routed.append`), because it asks for a
`NotFoundHandler` only if none of them takes the request. -/

/-- The calls of other code at the router and its routes. -/
def calls (tr : List (Event K)) : List (Router.Call (Kind K)) :=
  tr.filterMap fun
    | .call c => some c
    | _ => none

/-- The routes that other code has registered. -/
def registered (tr : List (Event K)) : List (ℕ × HTTPMethod × List Char) :=
  Router.registrations (calls tr)

theorem registered_concat (tr : List (Event K)) (l : Event K) : registered (tr ++ [l]) =
    registered tr ++ match l with
      | .call c => c.registration.toList
      | _ => [] := by
  rw [registered, calls, List.filterMap_append, Router.registrations, List.filterMap_append]
  cases l with
  | call c => cases hc : c.registration <;> simp [registered, calls, Router.registrations, hc]
  | service | request | callback => rfl

/-- The requests that have been dispatched. -/
def requests (tr : List (Event K)) : List Router.HTTPMessage :=
  tr.filterMap fun
    | .request msg => some msg
    | _ => none

/-- The kind of the handlers of a class. -/
def kindOf : HandlerClass → Kind K
  | .statusHandler => .statusHandler
  | .notFoundHandler => .notFoundHandler

/-- What a request can get, when other code has registered `gs`. -/
structure Routed (name : List Char) (gs : List (ℕ × HTTPMethod × List Char))
    (msg : Router.HTTPMessage) (kind : Kind K) (method : HTTPMethod) : Prop where
  method_eq : msg.getMethod = some method
  builtIn : BuiltIn K name msg → kind = .statusHandler ∧ method = .GET
  notFound : ¬ BuiltIn K name msg →
    (∀ g ∈ gs, ¬ Router.Takes (Kind K) name g.2.1 g.2.2 msg) → kind = .notFoundHandler

/-- What is known of the requests `msgs` that have been dispatched: each of them has got a handler,
of this repository or of other code, that it can get. -/
structure Handed (name : List Char) (gs : List (ℕ × HTTPMethod × List Char))
    (msgs : List Router.HTTPMessage) (exchanges : List Exchange)
    (elsewhere : List (Router.HTTPMessage × K)) : Prop where
  served : ∀ e ∈ exchanges, ∃ c method, Exchange.Serves c method e ∧
    Routed (K := K) name gs e.msg (kindOf c) method
  passed : ∀ e ∈ elsewhere, ∃ method, Routed name gs e.1 (.other e.2) method
  perm : (exchanges.map Exchange.msg ++ elsewhere.map Prod.fst).Perm msgs

/-- What is known after a history. -/
structure Kept (name : List Char) (tr : List (Event K)) (s : Site K) : Prop where
  fresh : s.service.m_started = false → registered tr = [] ∧ s.service.m_server = none ∧
    Router.Chained name [] s.service.m_router []
  inForce : s.service.m_server.isSome = true → InForce name (registered tr) s.service.m_router
  theirs : s.theirs = (registered tr).map Prod.fst
  handed : Handed name (registered tr) (requests tr) s.exchanges s.elsewhere

variable {name : List Char} {flags : Flags} {tr : List (Event K)} {s s' : Site K}

theorem Routed.append {gs : List (ℕ × HTTPMethod × List Char)} {msg : Router.HTTPMessage}
    {kind : Kind K} {method : HTTPMethod} (h : Routed name gs msg kind method)
    (gs' : List (ℕ × HTTPMethod × List Char)) : Routed name (gs ++ gs') msg kind method :=
  ⟨h.method_eq, h.builtIn,
    fun hb hgs ↦ h.notFound hb fun g hg ↦ hgs g (List.mem_append_left _ hg)⟩

/-- A request that goes to a handler of other code is one that a registered route takes. -/
theorem Routed.takes {gs : List (ℕ × HTTPMethod × List Char)} {msg : Router.HTTPMessage} {k : K}
    {method : HTTPMethod} (h : Routed name gs msg (.other k) method) :
    ¬ BuiltIn K name msg ∧ ∃ g ∈ gs, Router.Takes (Kind K) name g.2.1 g.2.2 msg := by
  have hbuiltIn : ¬ BuiltIn K name msg := fun hb ↦ by cases (h.builtIn hb).1
  refine ⟨hbuiltIn, ?_⟩
  by_contra hno
  cases h.notFound hbuiltIn fun g hg htakes ↦ hno ⟨g, hg, htakes⟩

namespace Handed

variable {gs : List (ℕ × HTTPMethod × List Char)} {msgs : List Router.HTTPMessage}
  {exchanges : List Exchange} {elsewhere : List (Router.HTTPMessage × K)}

/-- A route that is added takes no request away. -/
theorem append (h : Handed name gs msgs exchanges elsewhere)
    (gs' : List (ℕ × HTTPMethod × List Char)) :
    Handed name (gs ++ gs') msgs exchanges elsewhere := by
  refine ⟨fun e he ↦ ?_, fun e he ↦ ?_, h.perm⟩
  · obtain ⟨c, method, hserves, hrouted⟩ := h.served e he
    exact ⟨c, method, hserves, hrouted.append gs'⟩
  · obtain ⟨method, hrouted⟩ := h.passed e he
    exact ⟨method, hrouted.append gs'⟩

/-- A request is given to a handler of this repository. -/
theorem serve (h : Handed name gs msgs exchanges elsewhere) {msg : Router.HTTPMessage}
    {c : HandlerClass} {method : HTTPMethod}
    (hrouted : Routed (K := K) name gs msg (kindOf c) method) :
    Handed name gs (msgs ++ [msg]) (exchanges ++ [.init msg c]) elsewhere := by
  refine ⟨fun e he ↦ ?_, h.passed, ?_⟩
  · rcases List.mem_append.mp he with he | he
    · exact h.served e he
    · obtain rfl := List.mem_singleton.mp he
      exact ⟨c, method, Exchange.serves_init hrouted.method_eq c, hrouted⟩
  · rw [List.map_append, List.append_assoc]
    refine (List.Perm.append_left _ List.perm_append_comm).trans ?_
    rw [← List.append_assoc]
    exact h.perm.append_right _

/-- A request is given to a handler of other code. -/
theorem pass (h : Handed name gs msgs exchanges elsewhere) {msg : Router.HTTPMessage} {k : K}
    {method : HTTPMethod} (hrouted : Routed name gs msg (.other k) method) :
    Handed name gs (msgs ++ [msg]) exchanges (elsewhere ++ [(msg, k)]) := by
  refine ⟨h.served, fun e he ↦ ?_, ?_⟩
  · rcases List.mem_append.mp he with he | he
    · exact h.passed e he
    · obtain rfl := List.mem_singleton.mp he
      exact ⟨method, hrouted⟩
  · rw [List.map_append, ← List.append_assoc]
    exact h.perm.append_right _

/-- A callback changes what its exchange has come to, and not the request. -/
theorem callback (h : Handed name gs msgs exchanges elsewhere) {i : ℕ} {e e' : Exchange}
    {cb : Callback} (he : exchanges[i]? = some e) (hs : e.step cb = some e') :
    Handed name gs msgs (exchanges.set i e') elsewhere := by
  obtain ⟨c, method, hserves, hrouted⟩ := h.served e (List.mem_of_getElem? he)
  obtain ⟨hserves', hmsg⟩ := hserves.step hs
  refine ⟨fun f hf ↦ ?_, h.passed, ?_⟩
  · rcases List.mem_or_eq_of_mem_set hf with hf | rfl
    · exact h.served f hf
    · exact ⟨c, method, hserves', hmsg ▸ hrouted⟩
  · have hsame : (exchanges.set i e').map Exchange.msg = exchanges.map Exchange.msg := by
      obtain ⟨hi, rfl⟩ := List.getElem?_eq_some_iff.mp he
      have hself := List.set_getElem_self (List.length_map Exchange.msg ▸ hi)
      rwa [List.getElem_map, ← hmsg, ← List.map_set] at hself
    rw [hsame]
    exact h.perm

end Handed

theorem kept_init : Kept name [] (init name flags : Site K) where
  fresh _ := ⟨rfl, rfl, rfl, rfl, rfl, rfl, List.nodup_nil, List.forall_mem_nil _⟩
  inForce h := absurd h Bool.false_ne_true
  theirs := rfl
  handed := ⟨List.forall_mem_nil _, List.forall_mem_nil _, .nil⟩

/-- A step of a call of `start`. -/
theorem Kept.service {l : Service.Label} {service : Service (Kind K)} (hi : Kept name tr s)
    (h : s.service.step .statusHandler l = some service) :
    Kept name (tr ++ [.service l]) { s with service := service } := by
  have hregistered : registered (tr ++ [.service l]) = registered tr := by
    rw [registered_concat, List.append_nil]
  have hrequests : requests (tr ++ [.service l]) = requests tr :=
    List.filterMap_append.trans (List.append_nil _)
  have hhanded : Handed name (registered (tr ++ [.service l])) (requests (tr ++ [.service l]))
      s.exchanges s.elsewhere := by
    rw [hregistered, hrequests]
    exact hi.handed
  have hsame (hmembers : service.toMembers = s.service.toMembers) :
      Kept name (tr ++ [.service l]) { s with service := service } := by
    refine ⟨?_, ?_, ?_, hhanded⟩ <;> rw [hregistered]
    · rw [hmembers]
      exact hi.fresh
    · rw [hmembers]
      exact hi.inForce
    · exact hi.theirs
  cases l with
  | start a b resolves =>
    rcases Service.firstStart h with ⟨-, rfl⟩ | hfirst
    · exact hsame rfl
    · obtain ⟨hnone, hserver, hchained⟩ := hi.fresh hfirst.unset
      refine ⟨fun hs ↦ ?_, fun hup ↦ ?_, ?_, hhanded⟩
      · exact absurd (hs.symm.trans hfirst.started) Bool.false_ne_true
      · rw [hregistered, hnone]
        rcases hfirst.ending with ⟨hok, -⟩ | ⟨-, -, hsame, -⟩
        · have hboth : (Service.registerBoth .statusHandler
              { s.service.m_router with m_webService := some ⟨true⟩ } a b).2 = none :=
            (hok.resolve_left (Bool.eq_false_iff.mp hfirst.unset)).2
          exact inForce_registerBoth (hchained.withService (some ⟨true⟩)) hfirst.free
            (Prod.ext hfirst.router.symm hboth)
        · rw [hsame, hserver] at hup
          cases hup
      · rw [hregistered]
        exact hi.theirs
  | success | error | ret =>
    exact hsame (Service.step_later h fun _ _ _ ↦ by simp).1

/-- A call of other code. -/
theorem Kept.call {c : Router.Call (Kind K)} {rt : Router (Kind K)} (hi : Kept name tr s)
    (hallowed : Allowed s.theirs c) (h : s.service.router.step c = some rt) :
    Kept name (tr ++ [.call c])
      { s with
        service := { s.service with m_router := rt }
        theirs := s.theirs ++ (c.registration.map Prod.fst).toList } := by
  have hregistered : registered (tr ++ [.call c]) = registered tr ++ c.registration.toList :=
    registered_concat ..
  have hstarted : s.service.m_started = true := by
    by_contra hunset
    obtain ⟨hnone, -⟩ := hi.fresh (Bool.eq_false_iff.mpr hunset)
    refine hunset (Router.started_of_step rfl h fun hc ↦ ?_)
    have htheirs : s.theirs = [] := by rw [hi.theirs, hnone, List.map_nil]
    cases c with
    | handler a generator =>
      rw [htheirs] at hallowed
      exact List.not_mem_nil hallowed
    | get | post | put | del | route => cases hc
  have hrequests : requests (tr ++ [.call c]) = requests tr :=
    List.filterMap_append.trans (List.append_nil _)
  refine ⟨fun hs ↦ ?_, fun hup ↦ ?_, ?_, ?_⟩
  · exact absurd (hs.symm.trans hstarted) Bool.false_ne_true
  · rw [hregistered]
    rw [hi.theirs] at hallowed
    exact ((hi.inForce hup).withService _).step hallowed h
  · rw [hregistered, List.map_append, hi.theirs]
    cases c.registration <;> rfl
  · rw [hregistered, hrequests]
    exact hi.handed.append _

/-- What `onRequest` makes for a request is what the request can get. -/
theorem Kept.routed {msg : Router.HTTPMessage} {kind : Kind K} (hi : Kept name tr s)
    (hup : s.service.m_server.isSome = true) (h : s.onRequest msg = some kind) :
    ∃ method, Routed name (registered tr) msg kind method := by
  obtain ⟨d, hd, hkind⟩ := Option.bind_eq_some_iff.mp h
  have hn : (registered tr).length + 2 ≤ s.theirs.length + 2 := by
    rw [hi.theirs, List.length_map]
  obtain ⟨hnone, hbuiltIn, hother⟩ := (hi.inForce hup).dispatch hn msg
  cases hmethod : msg.getMethod with
  | none =>
    obtain rfl := Option.some_inj.mp (hd.symm.trans (hnone hmethod))
    cases hkind
  | some method =>
    refine ⟨method, hmethod, fun hb ↦ ?_, fun hb hgs ↦ ?_⟩
    · obtain ⟨a, -, result, hresult, rfl | ⟨-, rfl⟩⟩ := hbuiltIn hb
      · obtain rfl := Option.some_inj.mp (hd.symm.trans hresult)
        have hget : msg.getMethod = some .GET := hb.elim (·.method) (·.method)
        exact ⟨(Option.some_inj.mp hkind).symm, Option.some_inj.mp (hmethod.symm.trans hget)⟩
      · obtain rfl := Option.some_inj.mp (hd.symm.trans hresult)
        cases hkind
    · obtain ⟨others, -, hconstructed, hresult⟩ := hother method hmethod hb
      have hno : others.find? (fun e ↦ e.2.doesMatch method msg.getPath) = none := by
        refine List.find?_eq_none.mpr fun e he hmatch ↦ ?_
        obtain ⟨g, hg, -, hc⟩ := hconstructed e he
        exact hgs g hg ((hc.doesMatch_iff hmethod).mp hmatch)
      rw [hno] at hresult
      obtain rfl := Option.some_inj.mp (hd.symm.trans hresult)
      exact (Option.some_inj.mp hkind).symm

theorem Kept.step {l : Event K} (hi : Kept name tr s) (h : s.step l = some s') :
    Kept name (tr ++ [l]) s' := by
  cases l with
  | service l =>
    obtain ⟨service, hs, rfl⟩ := Option.map_eq_some_iff.mp h
    exact hi.service hs
  | call c =>
    obtain ⟨hallowed, h⟩ := Option.ite_none_right_eq_some.mp h
    obtain ⟨rt, hs, rfl⟩ := Option.map_eq_some_iff.mp h
    exact hi.call hallowed hs
  | request msg =>
    obtain ⟨hup, h⟩ := Option.ite_none_left_eq_some.mp h
    obtain ⟨kind, hkind, rfl⟩ := Option.map_eq_some_iff.mp h
    have hup : s.service.m_server.isSome = true := by simpa [Option.isSome_iff_ne_none] using hup
    obtain ⟨method, hrouted⟩ := hi.routed hup hkind
    have hregistered : registered (tr ++ [.request msg]) = registered tr := by
      rw [registered_concat, List.append_nil]
    have hrequests : requests (tr ++ [.request msg]) = requests tr ++ [msg] :=
      List.filterMap_append
    obtain ⟨hservice, htheirs⟩ := handedOver_front s msg kind
    refine ⟨?_, ?_, ?_, ?_⟩ <;> rw [hregistered]
    · rw [hservice]
      exact hi.fresh
    · rw [hservice]
      exact hi.inForce
    · rw [htheirs]
      exact hi.theirs
    · rw [hrequests]
      cases kind with
      | statusHandler => exact hi.handed.serve (c := .statusHandler) hrouted
      | notFoundHandler => exact hi.handed.serve (c := .notFoundHandler) hrouted
      | other k => exact hi.handed.pass hrouted
  | callback i c =>
    obtain ⟨e', he', rfl⟩ := Option.map_eq_some_iff.mp h
    obtain ⟨e, he, hs⟩ := Option.bind_eq_some_iff.mp he'
    have hregistered : registered (tr ++ [.callback i c]) = registered tr := by
      rw [registered_concat, List.append_nil]
    have hrequests : requests (tr ++ [.callback i c]) = requests tr :=
      List.filterMap_append.trans (List.append_nil _)
    refine ⟨?_, ?_, ?_, ?_⟩ <;> rw [hregistered]
    · exact hi.fresh
    · exact hi.inForce
    · exact hi.theirs
    · rw [hrequests]
      exact hi.handed.callback he hs

theorem kept (h : run step (init name flags) tr = some s) : Kept name tr s :=
  run_induction (P := Kept name) kept_init (fun _ _ _ _ _ hi hs ↦ hi.step hs) h

/-- **The routes of `start` come first.**  Whatever has happened before, while there is a server a
request whose method is unknown makes `dispatch` throw; one that a route of `start` matches gets a
`StatusHandler` from a route that no other code has been given, unless the `:` of a prefix makes
`generateHandler` abort; and any other one goes to the first route that matches among those that
other code has registered, in the order of their registration. -/
theorem routes_in_force (h : run step (init name flags) tr = some s)
    (hup : s.service.m_server.isSome = true) (msg : Router.HTTPMessage) :
    (msg.getMethod = none → s.dispatch msg = some .noMethod) ∧
    (BuiltIn K name msg → ∃ a ∉ s.theirs, ∃ result, s.dispatch msg = some (.generated a result) ∧
      (result = .ok .statusHandler ∨ ':' ∈ name ∧ result = .error .abort)) ∧
    ∀ method, msg.getMethod = some method → ¬ BuiltIn K name msg →
      ∃ others : List (ℕ × Route (Kind K)),
        others.map Prod.fst = (registered tr).map Prod.fst ∧
        (∀ e ∈ others, ∃ g ∈ registered tr, g.1 = e.1 ∧ Router.Constructed name g e.2) ∧
        s.dispatch msg = some
          (Router.answer msg.getPath (others.find? fun e ↦ e.2.doesMatch method msg.getPath)) := by
  have hi := kept h
  have hn : (registered tr).length + 2 ≤ s.theirs.length + 2 := by
    rw [hi.theirs, List.length_map]
  rw [hi.theirs]
  exact (hi.inForce hup).dispatch (hi.theirs ▸ hn) msg

/-- **What a request comes to.**  In any run, every request that has been dispatched has got one
handler.  If it is one of this repository, then the request has a known method, and its handler has
sent nothing before the end of the request and its one reply afterwards, and has been deleted once
when the exchange is over; the reply is `200` with the status if a route of `start` matches the
request, and `404` if no registered route does.  If it is one of other code, then no route of
`start` matches the request, and one that other code has registered does. -/
theorem answered (h : run step (init name flags) tr = some s) :
    (s.exchanges.map Exchange.msg ++ s.elsewhere.map Prod.fst).Perm (requests tr) ∧
    (∀ e ∈ s.exchanges, ∃ c method, Exchange.Serves c method e ∧
      (BuiltIn K name e.msg →
        Exchange.reply c method = .of .OK (some StatusHandler.getStatus)) ∧
      (¬ BuiltIn K name e.msg →
        (∀ g ∈ registered tr, ¬ Router.Takes (Kind K) name g.2.1 g.2.2 e.msg) →
        Exchange.reply c method = .of .NOT_FOUND none)) ∧
    ∀ e ∈ s.elsewhere, ¬ BuiltIn K name e.1 ∧
      ∃ g ∈ registered tr, Router.Takes (Kind K) name g.2.1 g.2.2 e.1 := by
  obtain ⟨hexchanges, helsewhere, hperm⟩ := (kept h).handed
  refine ⟨hperm, fun e he ↦ ?_, fun e he ↦ ?_⟩
  · obtain ⟨c, method, hserves, -, hbuiltIn, hnotFound⟩ := hexchanges e he
    refine ⟨c, method, hserves, fun hb ↦ ?_, fun hb hgs ↦ ?_⟩
    · obtain ⟨hkind, rfl⟩ := hbuiltIn hb
      cases c with
      | statusHandler => rfl
      | notFoundHandler => cases hkind
    · have hkind := hnotFound hb hgs
      cases c with
      | statusHandler => cases hkind
      | notFoundHandler => rfl
  · obtain ⟨method, hrouted⟩ := helsewhere e he
    exact hrouted.takes

section Examples

/-- The server comes up; other code routes PUT requests for `/status`, and
there are a GET and a DELETE request for `/status`. -/
def twoRequests : List (Event Unit) :=
  [.service (.start 1 2 true), .service (.success 40001 40002), .service .ret,
    .call (.put 3 "/status".toList), .call (.handler 3 fun _ ↦ .other ()),
    .request ⟨some .GET, "/status/".toList⟩, .request ⟨some .DELETE, "/status".toList⟩,
    .callback 1 .onRequest, .callback 0 .onRequest, .callback 0 .onBody, .callback 0 .onEOM,
    .callback 1 .onEOM, .callback 0 .requestComplete, .callback 1 .onError]

theorem run_twoRequests : ∃ s : Site Unit,
    run step (init [] Service.defaultFlags) twoRequests = some s ∧
    s.service.m_server.isSome = true ∧ s.theirs = [3] ∧
    s.exchanges.map (fun e ↦ e.sent.map Response.status) = [[200], [404]] := by
  have hrun : ((run step (init [] Service.defaultFlags) twoRequests).any fun s : Site Unit ↦
      s.service.m_server.isSome && s.theirs == [3] &&
        s.exchanges.map (fun e ↦ e.sent.map Response.status) == [[200], [404]]) = true := by
    decide
  obtain ⟨s, hs, hp⟩ := exists_run_of_any hrun
  simp only [Bool.and_eq_true, beq_iff_eq] at hp
  exact ⟨s, hs, hp.1.1, hp.1.2, hp.2⟩

theorem routes_in_force_twoRequests : ∃ s : Site Unit,
    run step (init [] Service.defaultFlags) twoRequests = some s ∧
    s.dispatch ⟨none, "/status".toList⟩ = some .noMethod ∧
    ∃ a ≠ 3, ∃ result, s.dispatch ⟨some .GET, []⟩ = some (.generated a result) ∧
      (result = .ok .statusHandler ∨ ':' ∈ ([] : List Char) ∧ result = .error .abort) := by
  obtain ⟨s, hs, hup, htheirs, -⟩ := run_twoRequests
  have hbuiltIn : BuiltIn Unit [] ⟨some .GET, []⟩ :=
    (builtIn_iff List.not_mem_nil).mpr ⟨rfl, .inr (by decide)⟩
  obtain ⟨a, ha, result, hresult⟩ := (routes_in_force hs hup ⟨some .GET, []⟩).2.1 hbuiltIn
  rw [htheirs] at ha
  exact ⟨s, hs, (routes_in_force hs hup ⟨none, "/status".toList⟩).1 rfl, a,
    fun h ↦ ha (List.mem_singleton.mpr h), result, hresult⟩

/-- The same, and a PUT request for `/status`. -/
def threeRequests : List (Event Unit) := twoRequests ++ [.request ⟨some .PUT, "/status".toList⟩]

theorem answered_threeRequests : ∃ s : Site Unit,
    run step (init [] Service.defaultFlags) threeRequests = some s ∧
    s.exchanges.length = 2 ∧ s.elsewhere.length = 1 ∧
    (∀ e ∈ s.exchanges, ∃ c method, Exchange.Serves c method e ∧
      (BuiltIn Unit [] e.msg →
        Exchange.reply c method = .of .OK (some StatusHandler.getStatus)) ∧
      (¬ BuiltIn Unit [] e.msg →
        (∀ g ∈ registered threeRequests, ¬ Router.Takes (Kind Unit) [] g.2.1 g.2.2 e.msg) →
        Exchange.reply c method = .of .NOT_FOUND none)) ∧
    ∀ e ∈ s.elsewhere, ¬ BuiltIn Unit [] e.1 ∧
      ∃ g ∈ registered threeRequests, Router.Takes (Kind Unit) [] g.2.1 g.2.2 e.1 := by
  have hrun : ((run step (init [] Service.defaultFlags) threeRequests).any fun s : Site Unit ↦
      s.exchanges.length == 2 && s.elsewhere.length == 1) = true := by
    decide
  obtain ⟨s, hs, hp⟩ := exists_run_of_any hrun
  simp only [Bool.and_eq_true, beq_iff_eq] at hp
  obtain ⟨-, hexchanges, helsewhere⟩ := answered hs
  exact ⟨s, hs, hp.1, hp.2, hexchanges, helsewhere⟩

end Examples

end Site

end WebService
