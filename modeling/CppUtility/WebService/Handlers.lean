import CppUtility.Router.Router

/-!
# The handlers of a request

What `proxygen` does with a handler, from the request to `requestComplete` or `onError`, and what
the two handlers of the web service send on the way.

* `StatusHandler` keeps in `m_err` whether the method was one that it supports.  The request has to
  be heard to its end before anything is sent, so the decision is made in `onRequest` and the
  answer in `onEOM`.
* `NotFoundHandler` has no state and looks at nothing.

Both delete themselves in the last callback, whichever of the two it is.  What a handler of other
code does is that code's affair, and nothing is said about it here: a `Kind` tells of a handler
whether it is one of the two, and `Exchange` is about those that are.

`Exchange` follows one request.  The order of its callbacks is the one that `proxygen` documents:
`onRequest` comes first, `onEOM` at most once, `requestComplete` after it, `onError` at any time
after `onRequest`, and nothing after either of these two.  `Exchange.Serves` says what is known of
a request at each of its stages, and `Exchange.Serves.step` that every callback keeps it.
-/

set_option autoImplicit false

namespace WebService

/-! ## `common.h` -/

/-- `HttpCode`. -/
inductive HttpCode
  | SUCCEEDED | E_UNSUPPORTED_METHOD | E_UNPROCESSABLE | E_ILLEGAL_ARGUMENT
  deriving DecidableEq, Repr

/-- `HttpStatusCode`. -/
inductive HttpStatusCode
  | OK | BAD_REQUEST | FORBIDDEN | NOT_FOUND | METHOD_NOT_ALLOWED
  deriving DecidableEq, Repr

/-- `statusStringMap`. -/
def statusStringMap : List (HttpStatusCode × List Char) :=
  [(.OK, "OK".toList),
    (.BAD_REQUEST, "Bad Request".toList),
    (.FORBIDDEN, "Forbidden".toList),
    (.NOT_FOUND, "Not Found".toList),
    (.METHOD_NOT_ALLOWED, "Method Not Allowed".toList)]

namespace WebServiceUtils

/-- `to`. -/
def toInt32 : HttpStatusCode → Int32
  | .OK => 200
  | .BAD_REQUEST => 400
  | .FORBIDDEN => 403
  | .NOT_FOUND => 404
  | .METHOD_NOT_ALLOWED => 405

/-- `toString`; for a code that is not in the map, `[]` would put the empty string there. -/
def toString (code : HttpStatusCode) : List Char := (statusStringMap.lookup code).getD []

end WebServiceUtils

/-! ## The handlers -/

/-- What a `ResponseBuilder` sends: the status, its text, and the object whose JSON is the body. -/
structure Response where
  status : Int32
  message : List Char
  body : Option (List (List Char × List Char))
  deriving DecidableEq, Repr

/-- `.status(to(code), toString(code))`, and a body. -/
def Response.of (code : HttpStatusCode) (body : Option (List (List Char × List Char))) : Response :=
  ⟨WebServiceUtils.toInt32 code, WebServiceUtils.toString code, body⟩

/-- The member of a `StatusHandler`. -/
structure StatusHandler where
  m_err : HttpCode
  deriving DecidableEq, Repr

namespace StatusHandler

/-- The constructor. -/
def init : StatusHandler := ⟨.SUCCEEDED⟩

/-- `onRequest`; `none` if `value()` throws, which nothing catches. -/
def onRequest (h : StatusHandler) (getMethod : Option HTTPMethod) : Option StatusHandler :=
  getMethod.map fun method ↦ if method ≠ .GET then { h with m_err := .E_UNSUPPORTED_METHOD } else h

/-- `getStatus`. -/
def getStatus : List (List Char × List Char) := [("status".toList, "running".toList)]

/-- `onEOM`. -/
def onEOM (h : StatusHandler) : Response :=
  match h.m_err with
  | .E_UNSUPPORTED_METHOD => .of .METHOD_NOT_ALLOWED none
  | _ => .of .OK (some getStatus)

end StatusHandler

/-- `NotFoundHandler::onEOM`. -/
def NotFoundHandler.onEOM : Response := .of .NOT_FOUND none

/-- What a generator makes: a `StatusHandler`, a `NotFoundHandler`, or a handler of other code. -/
inductive Kind (K : Type)
  | statusHandler | notFoundHandler
  | other (k : K)
  deriving DecidableEq, Repr

/-- The classes of handlers that this repository has. -/
inductive HandlerClass
  | statusHandler | notFoundHandler
  deriving DecidableEq, Repr

/-- An object of one of them. -/
inductive Handler
  | statusHandler (h : StatusHandler)
  | notFoundHandler

namespace Handler

/-- `new`. -/
def new : HandlerClass → Handler
  | .statusHandler => .statusHandler .init
  | .notFoundHandler => .notFoundHandler

/-- `onRequest`. -/
def onRequest (getMethod : Option HTTPMethod) : Handler → Option Handler
  | .statusHandler h => (h.onRequest getMethod).map .statusHandler
  | .notFoundHandler => some .notFoundHandler

/-- `onEOM`. -/
def onEOM : Handler → Response
  | .statusHandler h => h.onEOM
  | .notFoundHandler => NotFoundHandler.onEOM

end Handler

/-! ## One request -/

/-- How far the callbacks have got. -/
inductive Stage
  | fresh | reading | answered | complete | failed
  deriving DecidableEq, Repr

/-- A request that has been given to a handler of this repository: what the handler has sent, and
how often it has been deleted. -/
structure Exchange where
  msg : Router.HTTPMessage
  handler : Handler
  stage : Stage
  sent : List Response
  deleted : ℕ

/-- The callbacks. -/
inductive Callback
  | onRequest | onBody | onUpgrade | onEOM | requestComplete | onError
  deriving DecidableEq, Repr

namespace Exchange

/-- A request for which a handler has been made. -/
def init (msg : Router.HTTPMessage) (c : HandlerClass) : Exchange := ⟨msg, .new c, .fresh, [], 0⟩

/-- One callback; `none` if it is not its turn, or ends the process.  `requestComplete` and
`onError` are `delete this`. -/
def step (e : Exchange) : Callback → Option Exchange
  | .onRequest =>
    if e.stage = .fresh then (e.handler.onRequest e.msg.getMethod).map fun handler ↦
      { e with handler := handler, stage := .reading }
    else none
  | .onBody | .onUpgrade => if e.stage = .reading then some e else none
  | .onEOM =>
    if e.stage = .reading then some
      { e with stage := .answered, sent := e.sent ++ [e.handler.onEOM] }
    else none
  | .requestComplete =>
    if e.stage = .answered then some { e with stage := .complete, deleted := e.deleted + 1 }
    else none
  | .onError =>
    if e.stage = .reading ∨ e.stage = .answered then some
      { e with stage := .failed, deleted := e.deleted + 1 }
    else none

/-! ## What an exchange comes to

The handler at a stage, what has been sent by then and how often it has been deleted are functions
of its class, of the method and of the stage.  An exchange that began with a method agrees with all
three, and this is what a callback keeps. -/

/-- What a handler of a class sends to a request with a method. -/
def reply : HandlerClass → HTTPMethod → Response
  | .statusHandler, .GET => .of .OK (some StatusHandler.getStatus)
  | .statusHandler, _ => .of .METHOD_NOT_ALLOWED none
  | .notFoundHandler, _ => .of .NOT_FOUND none

/-- The handler of a class after `onRequest`. -/
def heard (method : HTTPMethod) : HandlerClass → Handler
  | .statusHandler => .statusHandler
      (if method ≠ .GET then ⟨.E_UNSUPPORTED_METHOD⟩ else .init)
  | .notFoundHandler => .notFoundHandler

theorem onRequest_new (method : HTTPMethod) (c : HandlerClass) :
    (Handler.new c).onRequest (some method) = some (heard method c) := by
  cases c with
  | statusHandler | notFoundHandler => rfl

theorem onEOM_heard (method : HTTPMethod) (c : HandlerClass) :
    (heard method c).onEOM = reply c method := by
  cases c with
  | statusHandler => cases method <;> rfl
  | notFoundHandler => rfl

/-- What has been sent at a stage, when there is this to be replied: nothing before the request has
come to its end, and then the reply, once. -/
def Sent (reply : Response) (sent : List Response) : Stage → Prop
  | .fresh | .reading => sent = []
  | .answered | .complete => sent = [reply]
  | .failed => sent = [] ∨ sent = [reply]

/-- How often a handler has been deleted at a stage: in the last callback. -/
def deletedAt : Stage → ℕ
  | .fresh | .reading | .answered => 0
  | .complete | .failed => 1

/-- The handler at a stage. -/
def handlerAt (c : HandlerClass) (method : HTTPMethod) : Stage → Handler
  | .fresh => .new c
  | .reading | .answered | .complete | .failed => heard method c

/-- A request with a method is served by a handler of a class. -/
structure Serves (c : HandlerClass) (method : HTTPMethod) (e : Exchange) : Prop where
  method_eq : e.msg.getMethod = some method
  handler : e.handler = handlerAt c method e.stage
  sent : Sent (reply c method) e.sent e.stage
  deleted : e.deleted = deletedAt e.stage

theorem serves_init {msg : Router.HTTPMessage} {method : HTTPMethod}
    (h : msg.getMethod = some method) (c : HandlerClass) : Serves c method (init msg c) :=
  ⟨h, rfl, rfl, rfl⟩

theorem Serves.step {c : HandlerClass} {method : HTTPMethod} {e e' : Exchange} {cb : Callback}
    (hi : Serves c method e) (h : e.step cb = some e') :
    Serves c method e' ∧ e'.msg = e.msg := by
  obtain ⟨msg, handler, stage, sent, deleted⟩ := e
  obtain ⟨hmethod, hhandler, hsent, hdeleted⟩ := hi
  dsimp only at hmethod hhandler hsent hdeleted
  cases cb with
  | onRequest =>
    obtain ⟨rfl, h⟩ := Option.ite_none_right_eq_some.mp h
    rw [hhandler, hmethod, handlerAt, onRequest_new] at h
    obtain rfl := Option.some_inj.mp h
    exact ⟨⟨hmethod, rfl, hsent, hdeleted⟩, rfl⟩
  | onBody | onUpgrade =>
    obtain ⟨rfl, h⟩ := Option.ite_none_right_eq_some.mp h
    obtain rfl := Option.some_inj.mp h
    exact ⟨⟨hmethod, hhandler, hsent, hdeleted⟩, rfl⟩
  | onEOM =>
    obtain ⟨rfl, h⟩ := Option.ite_none_right_eq_some.mp h
    obtain rfl := Option.some_inj.mp h
    have hreply : sent ++ [handler.onEOM] = [reply c method] := by
      rw [show sent = [] from hsent, hhandler, handlerAt, onEOM_heard, List.nil_append]
    exact ⟨⟨hmethod, hhandler, hreply, hdeleted⟩, rfl⟩
  | requestComplete =>
    obtain ⟨rfl, h⟩ := Option.ite_none_right_eq_some.mp h
    obtain rfl := Option.some_inj.mp h
    exact ⟨⟨hmethod, hhandler, hsent, congrArg Nat.succ hdeleted⟩, rfl⟩
  | onError =>
    obtain ⟨hstage, h⟩ := Option.ite_none_right_eq_some.mp h
    obtain rfl := Option.some_inj.mp h
    -- Whether the reply has been sent is the only difference between the two stages.
    rcases hstage with rfl | rfl
    · exact ⟨⟨hmethod, hhandler, .inl hsent, congrArg Nat.succ hdeleted⟩, rfl⟩
    · exact ⟨⟨hmethod, hhandler, .inr hsent, congrArg Nat.succ hdeleted⟩, rfl⟩

end Exchange

end WebService
