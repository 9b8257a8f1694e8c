import Mathlib.Data.Nat.Notation
import Mathlib.Logic.Function.Basic

/-!
# `GeneralWorker`: its members, and what each member function does to them

The object behind `thread/GeneralWorker.h` is an event loop with three queues in front of it:
general tasks, timers to be registered, and timer ids to be purged.  This file has the members and
the sequential meaning of the member functions; which thread runs them, and when, is
`CppUtility.Worker.Step`.

* **Heaps.**  A `Timer` is owned by exactly one `unique_ptr`, which travels from `m_pendingTimers`
  through a local vector of `onNotify` into `m_activeTimers`, while libevent keeps a raw pointer to
  it as the callback argument of its event.  So the objects live in a heap (`timers`), the
  containers hold addresses, and the events of the base are a second heap (`events`).  Addresses are
  never reused: an address stands for one allocation.  A pointer that outlives its object is then an
  address with nothing behind it, and following it is not possible.
* **libevent.**  An event is kept with what it was made with and whether it is registered.  When it
  becomes active, a persistent event is put back before its callback runs, but only if its timeout
  is not zero (`Event.fired`).  What is left out is time: at which moment an event is due is a label
  of the runs.
* **The eventfd** is the counter behind the descriptor.  A write adds one, and a read gives the
  counter back and clears it, so that any number of writes make one wake-up.

The functions that take no lock and those that take one are alike here.  A function that does its
work in more than one section is cut where the lock is released, and the pieces are put together by
the steps.
-/

set_option autoImplicit false

namespace GeneralWorker

/-- An address: of a worker, a `Timer`, an event or an event base. -/
abbrev Ptr := ℕ

/-! ## libevent

Of the library only what these functions ask of it is modelled: `event_new`, which allocates;
`event_add` and `event_del`, which set and clear a flag; `event_free`; and what a timeout does to an
event when it becomes active. -/

/-- The two callbacks `event_new` is given, with their argument: the lambda of `start` (its
argument is the worker itself) and the lambda of `onNotify`. -/
inductive EventCb
  | notifier
  | timer (arg : Ptr)
  deriving DecidableEq

/-- What libevent knows of an event.  `timeout` is the `timeval` (seconds, microseconds) of the
last `event_add`; `registered` says that the event waits for its condition or is already active. -/
structure Event where
  base : Option Ptr
  cb : EventCb
  persist : Bool
  timeout : Option (UInt64 × UInt64)
  registered : Bool
  deriving DecidableEq

/-- The allocated events, by address. -/
abbrev Events := Ptr → Option Event

/-- `event_add`, `evtimer_add`. -/
def Events.add (es : Events) (ev : Ptr) (tv : Option (UInt64 × UInt64)) : Events :=
  Function.update es ev ((es ev).map fun e ↦ { e with timeout := tv, registered := true })

/-- `event_del`, `evtimer_del`. -/
def Events.del (es : Events) (ev : Ptr) : Events :=
  Function.update es ev ((es ev).map fun e ↦ { e with registered := false })

/-- `event_free`: an `event_del` and the deallocation. -/
def Events.free (es : Events) (ev : Ptr) : Events := Function.update (es.del ev) ev none

/-- A timeout leaves the heap of timeouts when it becomes active; libevent puts a persistent event
back, before it runs the callback, if its timeout is not zero. -/
def Event.fired (e : Event) : Event :=
  { e with registered := e.persist && e.timeout.any fun tv ↦ tv.1 ≠ 0 || tv.2 ≠ 0 }

/-! ## The members -/

/-- `GeneralWorker::Timer`. -/
structure Timer (τ : Type*) where
  m_id : UInt64
  m_delayMSec : UInt64
  m_intervalMSec : UInt64
  m_callback : τ
  m_ev : Option Ptr
  m_owner : Option Ptr

/-- The members of a `GeneralWorker` at address `self`, with the heaps they point into.  `τ` is the
type of the callables it is given.  `m_evfd` is the counter behind the descriptor (`none` for -1),
`loopexit` whether `event_base_loopexit` was called on the base, `nextPtr` the next address of the
allocator. -/
structure Worker (τ : Type*) where
  self : Ptr
  m_stopped : Bool
  m_nextTimerId : UInt64
  m_evbase : Option Ptr
  m_evfd : Option ℕ
  m_notifier : Option Ptr
  m_pendingTasks : List τ
  m_pendingTimers : List Ptr
  m_purgingingTimers : List UInt64
  m_activeTimers : UInt64 → Option Ptr
  timers : Ptr → Option (Timer τ)
  events : Events
  loopexit : Bool
  nextPtr : Ptr

/-- `TIMER_ID_BITS`. -/
def TIMER_ID_BITS : UInt64 := 6 * 8

/-- `TIMER_ID_MASK`. -/
def TIMER_ID_MASK : UInt64 := (~~~0x0) >>> (64 - TIMER_ID_BITS)

namespace Worker

variable {τ : Type*}

/-- The default constructor. -/
def init : Worker τ where
  self := 0
  m_stopped := true
  m_nextTimerId := 0
  m_evbase := none
  m_evfd := none
  m_notifier := none
  m_pendingTasks := []
  m_pendingTimers := []
  m_purgingingTimers := []
  m_activeTimers := fun _ ↦ none
  timers := fun _ ↦ none
  events := fun _ ↦ none
  loopexit := false
  nextPtr := 1

/-! ## `start` -/

/-- `GeneralWorker::start`; `fd` says whether `eventfd` gave a descriptor.  The result says whether
the loop thread was launched. -/
def start (w : Worker τ) (fd : Bool) : Worker τ × Bool :=
  if ¬w.m_stopped then (w, false)
  else
    let w := { w with m_evbase := some w.nextPtr, nextPtr := w.nextPtr + 1, loopexit := false }
    if ¬fd then ({ w with m_evfd := none }, false)
    else
      let ev := w.nextPtr
      ({ w with
          m_evfd := some 0
          m_notifier := some ev
          events := Events.add
            (Function.update w.events ev (some ⟨w.m_evbase, .notifier, true, none, false⟩)) ev none
          nextPtr := ev + 1
          m_stopped := false }, true)

/-! ## What the interface functions do -/

/-- `notify`: one `write` to the eventfd, if there is a notifier.  The kernel adds one to the
counter (`ok`), or refuses because the counter is at its maximum. -/
def notify (w : Worker τ) (ok : Bool) : Option (Worker τ) :=
  match w.m_notifier, w.m_evfd with
  | none, _ => some w
  | some _, none => some w
  | some _, some n =>
    if ok then some { w with m_evfd := some (n + 1) } else if n ≠ 0 then some w else none

/-- The section of `addTask` under `m_lock`. -/
def pushTask (w : Worker τ) (task : τ) : Worker τ :=
  { w with m_pendingTasks := w.m_pendingTasks ++ [task] }

/-- The id `nextTimerId` returns; it leaves the counter one higher. -/
def nextTimerId (w : Worker τ) : UInt64 := w.m_nextTimerId &&& TIMER_ID_MASK

/-- `addTimerTask` up to the end of its section under `m_lock`: the `Timer` is allocated at
`nextPtr`, gets its id from `nextTimerId` and is moved into `m_pendingTimers`. -/
def addTimerTask (w : Worker τ) (delay interval : UInt64) (f : τ) : Worker τ :=
  { w with
    timers := Function.update w.timers w.nextPtr
      (some ⟨w.nextTimerId, delay, interval, f, none, some w.self⟩)
    nextPtr := w.nextPtr + 1
    m_nextTimerId := w.m_nextTimerId + 1
    m_pendingTimers := w.m_pendingTimers ++ [w.nextPtr] }

/-- The section of `purgeTimerTask` under `m_lock`. -/
def pushPurge (w : Worker τ) (id : UInt64) : Worker τ :=
  { w with m_purgingingTimers := w.m_purgingingTimers ++ [id] }

/-! ## What the loop thread does -/

/-- `Timer::~Timer`, with the deallocation. -/
def destroyTimer (w : Worker τ) (p : Ptr) : Worker τ :=
  { w with
    events := ((w.timers p).bind Timer.m_ev).elim w.events w.events.free
    timers := Function.update w.timers p none }

/-- `purgeTimerInternal`. -/
def purgeTimerInternal (w : Worker τ) (id : UInt64) : Worker τ :=
  match w.m_activeTimers id with
  | none => w
  | some p =>
    let w := { w with events := ((w.timers p).bind Timer.m_ev).elim w.events w.events.del }
    { w.destroyTimer p with m_activeTimers := Function.update w.m_activeTimers id none }

/-- The `timeval` of a delay in milliseconds. -/
def timeval (delay : UInt64) : UInt64 × UInt64 := (delay / 1000, delay % 1000 * 1000)

/-- The body of the loop of `onNotify` over the new timers: `event_new` at `nextPtr`, `evtimer_add`
and the move into `m_activeTimers`, whose previous owner of that id, if any, is destroyed.  `none`
if there is no `Timer` at `p` to dereference. -/
def registerTimer (w : Worker τ) (p : Ptr) : Option (Worker τ) :=
  match w.timers p with
  | none => none
  | some t =>
    let ev := w.nextPtr
    let old := w.m_activeTimers t.m_id
    let w := { w with
      timers := Function.update w.timers p (some { t with m_ev := some ev })
      events := Events.add
        (Function.update w.events ev (some ⟨w.m_evbase, .timer p, true, none, false⟩))
        ev (some (timeval t.m_delayMSec))
      nextPtr := ev + 1
      m_activeTimers := Function.update w.m_activeTimers t.m_id (some p) }
    some (old.elim w w.destroyTimer)

/-- libevent finds the timer event `ev` due: it goes through `Event.fired`, and its callback
argument is handed to the lambda of `onNotify`, which needs a live `Timer` there. -/
def fireTimer (w : Worker τ) (ev p : Ptr) : Option (Worker τ) :=
  match w.events ev with
  | some e =>
    if e.registered ∧ e.cb = .timer p ∧ (w.timers p).isSome then
      some { w with events := Function.update w.events ev (some e.fired) }
    else none
  | none => none

/-- The rest of that lambda, after `m_callback` has returned: a one-shot timer purges itself. -/
def afterCallback (w : Worker τ) (p : Ptr) : Option (Worker τ) :=
  (w.timers p).map fun t ↦ if t.m_intervalMSec = 0 then w.purgeTimerInternal t.m_id else w

end Worker

end GeneralWorker
