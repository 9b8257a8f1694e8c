import CppUtility.LinkedList
import CppUtility.Router.Route
import CppUtility.Transition

/-!
# `Router`: the registered routes

A router keeps its routes in a list linked through `m_next`, with pointers to the first and the last
one.  `route` makes a new route and appends it; `get`, `post`, `put` and `del` call it with a
method.  `dispatch` goes through the list and has the first route that matches make the handler.

* **The heap.**  The routes are at addresses, and the links are addresses too.  Nothing in the types
  says that the list is finite or that its tail is the last route, so the loop of `dispatch` takes a
  bound; that there always is one is proved in `CppUtility.Router.Dispatch`.
* **Steps.**  A label of `step` is a call at the router, or at a route that it has returned: callers
  hold references to routes, and set their generators later, or again.  The address of a new route
  is part of the label: it is any address that is not in use.
* **A call that fails** is not a step.  An `abort` ends the process, and a constructor that throws
  has left the list as it was.

With a prefix, a path is registered behind `/` and the prefix.  The prefix is not checked, and a `:`
in it makes a parameter like one in the path.

The pointer to the web service is the one thing that a router knows of it: as long as it has not
been started, registering aborts.
-/

set_option autoImplicit false

/-- What the router asks the web service. -/
structure WebService where
  m_started : Bool

/-- The members of a `Router`, and the routes on the heap. -/
structure Router (H : Type) where
  m_prefix : List Char
  m_head : Option ℕ
  m_tail : Option ℕ
  m_webService : Option WebService
  heap : ℕ → Option (Route H)

namespace Router

variable {H : Type}

/-! ## Registration -/

/-- The constructors. -/
def init (pre : List Char) (webSvc : Option WebService) : Router H :=
  ⟨pre, none, none, webSvc, fun _ ↦ none⟩

/-- `new Route(…)` in `route`. -/
def newRoute (pre : List Char) (method : HTTPMethod) (path : List Char) :
    Except Fault (Route H) :=
  if pre ≠ [] then Route.new method (['/'] ++ pre ++ if path = [] then ['/'] else path)
  else Route.new method (if path = [] then ['/'] else path)

/-- Writes to the route at an address. -/
def modify (heap : ℕ → Option (Route H)) (a : ℕ) (f : Route H → Route H) : ℕ → Option (Route H) :=
  Function.update heap a ((heap a).map f)

/-- `append`. -/
def append (rt : Router H) (route : ℕ) : Router H :=
  match rt.m_tail with
  | some tail =>
    { rt with heap := modify rt.heap tail (·.setNext (some route)), m_tail := some route }
  | none => { rt with m_head := some route, m_tail := some route }

/-- `route`, where `a` is the address of the new route. -/
def route (rt : Router H) (a : ℕ) (method : HTTPMethod) (path : List Char) :
    Except Fault (Router H) :=
  if rt.m_webService.any (!·.m_started) then .error .abort
  else (newRoute rt.m_prefix method path).map fun next ↦
    append { rt with heap := Function.update rt.heap a (some next) } a

/-- `get`. -/
def get (rt : Router H) (a : ℕ) (path : List Char) : Except Fault (Router H) :=
  rt.route a .GET path

/-- `post`. -/
def post (rt : Router H) (a : ℕ) (path : List Char) : Except Fault (Router H) :=
  rt.route a .POST path

/-- `put`. -/
def put (rt : Router H) (a : ℕ) (path : List Char) : Except Fault (Router H) :=
  rt.route a .PUT path

/-- `del`. -/
def del (rt : Router H) (a : ℕ) (path : List Char) : Except Fault (Router H) :=
  rt.route a .DELETE path

/-! ## Dispatch

`getMethod` of a message is an optional, which `dispatch` reads at every route.  Hence a message
without a method is an exception as soon as there is a route, and a `NotFoundHandler` otherwise. -/

/-- What the router reads from a `proxygen::HTTPMessage`; a message whose method is not in the
enumeration has none. -/
structure HTTPMessage where
  getMethod : Option HTTPMethod
  getPath : List Char

/-- How `dispatch` ends: with what `generateHandler` of a route gives, with a `NotFoundHandler`, or
with the exception that `value()` throws. -/
inductive Dispatched (H : Type)
  | generated (route : ℕ) (result : Except Fault H)
  | notFoundHandler
  | noMethod

/-- The loop of `dispatch`, from a pointer on, for at most `n` iterations. -/
def dispatchFrom (heap : ℕ → Option (Route H)) (msg : HTTPMessage) :
    ℕ → Option ℕ → Option (Dispatched H)
  | _, none => some .notFoundHandler
  | 0, some _ => none
  | n + 1, some a => (heap a).bind fun r ↦
    match msg.getMethod with
    | none => some .noMethod
    | some method =>
      if r.doesMatch method msg.getPath then
        some (.generated a (r.generateHandler msg.getPath))
      else dispatchFrom heap msg n r.next

/-- `dispatch`, with a bound on the iterations. -/
def dispatch (rt : Router H) (n : ℕ) (msg : HTTPMessage) : Option (Dispatched H) :=
  dispatchFrom rt.heap msg n rt.m_head

/-! ## Runs -/

/-- The calls at a router and at its routes. -/
inductive Call (H : Type)
  | get (a : ℕ) (path : List Char)
  | post (a : ℕ) (path : List Char)
  | put (a : ℕ) (path : List Char)
  | del (a : ℕ) (path : List Char)
  | route (a : ℕ) (method : HTTPMethod) (path : List Char)
  | handler (a : ℕ) (generator : PathParams → H)

/-- The route that a call registers: its address, its method and its path. -/
def Call.registration : Call H → Option (ℕ × HTTPMethod × List Char)
  | .get a path => some (a, .GET, path)
  | .post a path => some (a, .POST, path)
  | .put a path => some (a, .PUT, path)
  | .del a path => some (a, .DELETE, path)
  | .route a method path => some (a, method, path)
  | .handler _ _ => none

/-- One call. -/
def perform (rt : Router H) : Call H → Except Fault (Router H)
  | .get a path => rt.get a path
  | .post a path => rt.post a path
  | .put a path => rt.put a path
  | .del a path => rt.del a path
  | .route a method path => rt.route a method path
  | .handler a generator => .ok { rt with heap := modify rt.heap a (·.handler generator) }

/-- One call that returns; a new route gets an address that is not in use. -/
def step (rt : Router H) (c : Call H) : Option (Router H) :=
  if ∀ g ∈ c.registration, rt.heap g.1 = none then (rt.perform c).toOption else none

end Router
