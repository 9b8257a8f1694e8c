import CppUtility.Router.Router
import CppUtility.Status.Layout

/-!
# `WebService::start`

`start` sets `m_started`, registers two handlers, makes a server and a thread that runs it, and
waits until the server calls back, either way; what it returns is OK, or what the error callback has
made of it.  A call that finds `m_started` set returns OK at once.  Nothing ever resets the flag, so
there are runs in which `start` returns OK and no server has come up: `reports_iff` says which they
are not.

* **What is outside.**  Whether `ws_ip` can be looked up, whether the server comes up, on which
  ports, and with which exception it does not, is in the labels of the run.  The server is a record
  of what it was made from.
* **What happened.**  `succeeded` is not a member of the class.  It remembers that an attempt to
  bring up a server has had success, which is what a caller of `start` wants to know.
* **The two sides.**  `Reports` is what one expects of `start`: that an OK stands for a server, and
  that a call which finds none tries to make one.  `NoFailure` is the condition, on the steps of the
  run: no attempt ends with an exception before it has a server, and none with the error callback.
* **Calls** come one after the other.  A second thread that called meanwhile would be told OK at
  once.

The error callback assigns its error to a `Status` that is OK by a move assignment, and so the error
arrives; the defect of the copy assignment does not show here.  Its message is cut at 255 bytes.
-/

set_option autoImplicit false

open Transition

/-- `format("%s", what)`: `what` ends at a NUL, and the buffer has room for 255 bytes and a NUL. -/
def Status.format (what : List UInt8) : List UInt8 := (what.takeWhile (· ≠ 0)).take 255

namespace WebService

/-! ## The members -/

/-- `proxygen::HTTPServer::Protocol`. -/
inductive Protocol
  | HTTP | HTTP2
  deriving DecidableEq, Repr

/-- A `proxygen::HTTPServer`: what it is bound to, and the number of its threads. -/
structure HTTPServer where
  ips : List (List Char × UInt16 × Protocol)
  threads : Int32
  deriving DecidableEq, Repr

/-- The flags of the web service. -/
structure Flags where
  ws_http_port : Int32
  ws_http2_port : Int32
  ws_ip : List Char
  ws_threads : Int32
  deriving DecidableEq, Repr

/-- The members of a `WebService`; the thread is there or not. -/
structure Members (H : Type) extends WebService where
  m_server : Option HTTPServer
  m_thread : Bool
  m_router : Router H

/-- The variables of a call of `start` that waits for the server. -/
structure Waiting where
  status : Status
  serverStartedDone : Bool

/-- A web service with the flags, the call of `start` that waits if there is one, and whether an
attempt to bring up a server has ever succeeded. -/
structure Service (H : Type) extends Members H where
  flags : Flags
  waiting : Option Waiting
  succeeded : Bool

variable {H : Type}

/-- `router()`, which looks at `m_started` through its pointer. -/
def Members.router (s : Members H) : Router H := { s.m_router with m_webService := s.toWebService }

namespace Service

/-- The constructor. -/
def init (name : List Char) (flags : Flags) : Service H where
  m_started := false
  m_server := none
  m_thread := false
  m_router := Router.init name (some ⟨false⟩)
  flags := flags
  waiting := none
  succeeded := false

/-! ## A call of `start`

The steps are the points at which somebody else can act: the call up to where it waits, the callback
of the server, and the return.  If an exception leaves the call on the way, what it has done up to
then stays done, and this includes the flag. -/

/-- `router().get(path).handler(…)`, where the generator makes a `StatusHandler`. -/
def register (statusHandler : H) (rt : Router H) (a : ℕ) (path : List Char) :
    Except Fault (Router H) :=
  (rt.get a path).map fun rt ↦
    { rt with heap := Router.modify rt.heap a (·.handler fun _ ↦ statusHandler) }

/-- The two registrations: the router after them, and what has ended them. -/
def registerBoth (statusHandler : H) (rt : Router H) (a b : ℕ) : Router H × Option Fault :=
  match register statusHandler rt a "/status".toList with
  | .error fault => (rt, some fault)
  | .ok rt => match register statusHandler rt b "/".toList with
    | .error fault => (rt, some fault)
    | .ok rt => (rt, none)

/-- The server that `start` makes. -/
def newServer (flags : Flags) : HTTPServer where
  ips := [(flags.ws_ip, flags.ws_http_port.toInt16.toUInt16, .HTTP),
    (flags.ws_ip, flags.ws_http2_port.toInt16.toUInt16, .HTTP2)]
  threads := flags.ws_threads

/-- A port that has been assigned to a flag that was 0. -/
def assigned (flag : Int32) (port : UInt16) : Int32 :=
  if flag = 0 then port.toUInt32.toInt32 else flag

/-- A step: somebody calls `start`, with the addresses of the two routes and whether `ws_ip` can be
looked up; the server calls back that it has started, with its two ports, or that there was an
exception, where `addr` is the address of the buffer of the `Status`; the call returns. -/
inductive Label
  | start (a b : ℕ) (resolves : Bool)
  | success (port port2 : UInt16)
  | error (addr : ℕ) (what : List UInt8)
  | ret
  deriving DecidableEq

/-- One step; `none` if it is not enabled, or ends the process.  An exception that leaves `start`
leaves everything behind as it is then. -/
def step (statusHandler : H) (s : Service H) : Label → Option (Service H)
  | .start a b resolves =>
    if s.waiting.isSome then none
    else if s.m_started then some s
    else if s.m_router.heap a ≠ none ∨ s.m_router.heap b ≠ none ∨ a = b then none
    else
      let s := { s with m_started := true }
      let r := registerBoth statusHandler s.router a b
      let s := { s with m_router := r.1 }
      match r.2 with
      | none =>
        if resolves then some { s with
          m_server := some (newServer s.flags)
          m_thread := true
          waiting := some ⟨.OK, false⟩ }
        else some s
      | some .regexError => some s
      | some _ => none
  | .success port port2 => match s.waiting with
    | some ⟨status, false⟩ => some { s with
        flags := { s.flags with
          ws_http_port := assigned s.flags.ws_http_port port
          ws_http2_port := assigned s.flags.ws_http2_port port2 }
        waiting := some ⟨status, true⟩
        succeeded := true }
    | _ => none
  | .error addr what => match s.waiting with
    | some ⟨status, false⟩ => some { s with
        waiting := some ⟨(status.moveAssign (.generate addr .Error (Status.format what))).1, true⟩ }
    | _ => none
  | .ret => match s.waiting with
    | some ⟨_, true⟩ => some { s with waiting := none }
    | _ => none

/-- The `Status` that a step returns to the caller of `start`. -/
def returned (s : Service H) : Label → Option Status
  | .start _ _ _ => if s.m_started then some .OK else none
  | .ret => s.waiting.map Waiting.status
  | _ => none

/-! ## What the steps keep -/

/-- What is known of a service in a run: an attempt has been made when one has succeeded or somebody
waits for one; while the server has not called back the status is OK and no attempt has succeeded;
and afterwards the status says whether it has. -/
structure Kept (s : Service H) : Prop where
  started : s.succeeded = true ∨ s.waiting.isSome = true → s.m_started = true
  before : ∀ status, s.waiting = some ⟨status, false⟩ → status = .OK ∧ s.succeeded = false
  after : ∀ status, s.waiting = some ⟨status, true⟩ → status.ok = s.succeeded

/-- The step has not ended a call by an exception, nor does it return after the error callback: it
is part of no attempt that fails. -/
def NoFailure (statusHandler : H) (tr : List Label) (s : Service H) : Label → Prop
  | .start a b resolves => s.m_started = true ∨ resolves = true ∧
      (registerBoth statusHandler { s.m_router with m_webService := some ⟨true⟩ } a b).2 = none
  | .ret => ∀ addr what, tr.getLast? ≠ some (.error addr what)
  | _ => True

section Step

variable {statusHandler : H} {s s' : Service H} {a b : ℕ} {resolves : Bool}

/-- A call of `start` returns at once if the flag is set; otherwise it sets the flag, and waits,
unless an exception has ended it. -/
theorem step_start (h : s.step statusHandler (.start a b resolves) = some s') :
    s.waiting = none ∧ s'.succeeded = s.succeeded ∧ s'.m_started = true ∧
      (s.m_started = true ∧ s' = s ∨ s.m_started = false ∧
        (NoFailure statusHandler [] s (.start a b resolves) ∧ s'.waiting = some ⟨.OK, false⟩ ∨
          ¬ NoFailure statusHandler [] s (.start a b resolves) ∧ s'.waiting = none)) := by
  obtain ⟨hidle, h⟩ := Option.ite_none_left_eq_some.mp h
  have hwaiting : s.waiting = none := by simpa using hidle
  split at h
  · next hstarted =>
    obtain rfl := Option.some_inj.mp h
    exact ⟨hwaiting, rfl, hstarted, .inl ⟨hstarted, rfl⟩⟩
  · next hstarted =>
    obtain ⟨-, h⟩ := Option.ite_none_left_eq_some.mp h
    have hunset : s.m_started = false := Bool.eq_false_iff.mpr hstarted
    dsimp only [Members.router] at h
    have hfail : ¬ (resolves = true ∧
        (registerBoth statusHandler { s.m_router with m_webService := some ⟨true⟩ } a b).2 = none) →
        ¬ NoFailure statusHandler [] s (.start a b resolves) :=
      fun hn hf ↦ hn (hf.resolve_left hstarted)
    split at h
    · next hnone =>
      split at h
      · next hresolves =>
        obtain rfl := Option.some_inj.mp h
        exact ⟨hwaiting, rfl, rfl, .inr ⟨hunset, .inl ⟨.inr ⟨hresolves, hnone⟩, rfl⟩⟩⟩
      · next hresolves =>
        obtain rfl := Option.some_inj.mp h
        exact ⟨hwaiting, rfl, rfl, .inr ⟨hunset, .inr ⟨hfail fun hf ↦ hresolves hf.1, hwaiting⟩⟩⟩
    · next hthrown =>
      obtain rfl := Option.some_inj.mp h
      have hended := hfail fun hf ↦ Option.some_ne_none _ (hthrown.symm.trans hf.2)
      exact ⟨hwaiting, rfl, rfl, .inr ⟨hunset, .inr ⟨hended, hwaiting⟩⟩⟩
    · cases h

theorem step_success {port port2 : UInt16}
    (h : s.step statusHandler (.success port port2) = some s') :
    ∃ status, s.waiting = some ⟨status, false⟩ ∧ s'.waiting = some ⟨status, true⟩ ∧
      s'.succeeded = true ∧ s'.m_started = s.m_started := by
  rw [step] at h
  split at h
  · next status hwaiting =>
    obtain rfl := Option.some_inj.mp h
    exact ⟨status, hwaiting, rfl, rfl, rfl⟩
  · cases h

theorem step_error {addr : ℕ} {what : List UInt8}
    (h : s.step statusHandler (.error addr what) = some s') :
    ∃ status, s.waiting = some ⟨status, false⟩ ∧
      s'.waiting = some ⟨(status.moveAssign (Status.generate addr .Error (Status.format what))).1,
        true⟩ ∧
      s'.succeeded = s.succeeded ∧ s'.m_started = s.m_started := by
  rw [step] at h
  split at h
  · next status hwaiting =>
    obtain rfl := Option.some_inj.mp h
    exact ⟨status, hwaiting, rfl, rfl, rfl⟩
  · cases h

theorem step_ret (h : s.step statusHandler .ret = some s') :
    ∃ status, s.waiting = some ⟨status, true⟩ ∧ s'.waiting = none ∧
      s'.succeeded = s.succeeded ∧ s'.m_started = s.m_started := by
  rw [step] at h
  split at h
  · next status hwaiting =>
    obtain rfl := Option.some_inj.mp h
    exact ⟨status, hwaiting, rfl, rfl, rfl⟩
  · cases h

/-- The status that the error callback leaves is not OK. -/
theorem ok_error (addr : ℕ) (what : List UInt8) :
    (Status.OK.moveAssign (Status.generate addr .Error what)).1.ok = false := rfl

theorem Kept.step {l : Label} (hi : Kept s) (h : s.step statusHandler l = some s') : Kept s' := by
  cases l with
  | start a b resolves =>
    obtain ⟨hwaiting, hsucceeded, hstarted, hcases⟩ := step_start h
    have hkept : ∀ w, s'.waiting = some w → w = ⟨.OK, false⟩ ∧ s'.succeeded = false := by
      intro w hw
      rcases hcases with ⟨-, rfl⟩ | ⟨hunset, ⟨-, hw'⟩ | ⟨-, hw'⟩⟩
      · cases hwaiting.symm.trans hw
      · refine ⟨Option.some_inj.mp (hw.symm.trans hw'), ?_⟩
        rw [hsucceeded, Bool.eq_false_iff]
        exact fun hs ↦ Bool.false_ne_true (hunset.symm.trans (hi.started (.inl hs)))
      · cases hw'.symm.trans hw
    refine ⟨fun _ ↦ hstarted, fun status hw ↦ ?_, fun status hw ↦ ?_⟩
    · obtain ⟨heq, hs⟩ := hkept _ hw
      exact ⟨congrArg Waiting.status heq, hs⟩
    · cases (hkept _ hw).1
  | success port port2 =>
    obtain ⟨status, hw, hw', hsucceeded, hstarted⟩ := step_success h
    obtain ⟨rfl, -⟩ := hi.before status hw
    refine ⟨fun _ ↦ hstarted.trans (hi.started (.inr (by rw [hw]; rfl))), ?_, ?_⟩
    · intro status hs
      cases hw'.symm.trans hs
    · intro status hs
      cases hw'.symm.trans hs
      exact hsucceeded.symm
  | error addr what =>
    obtain ⟨status, hw, hw', hsucceeded, hstarted⟩ := step_error h
    obtain ⟨rfl, hbefore⟩ := hi.before status hw
    refine ⟨fun _ ↦ hstarted.trans (hi.started (.inr (by rw [hw]; rfl))), ?_, ?_⟩
    · intro status hs
      cases hw'.symm.trans hs
    · intro status hs
      cases hw'.symm.trans hs
      rw [ok_error, hsucceeded, hbefore]
  | ret =>
    obtain ⟨status, hw, hw', hsucceeded, hstarted⟩ := step_ret h
    refine ⟨fun _ ↦ hstarted.trans (hi.started (.inr (by rw [hw]; rfl))), ?_, ?_⟩
    · intro status hs
      cases hw'.symm.trans hs
    · intro status hs
      cases hw'.symm.trans hs

end Step

/-! ## Runs

A run keeps `TriesAgain` exactly as long as its steps are `NoFailure`, and it is `TriesAgain` that
keeps an OK from being returned for nothing. -/

section Run

variable {statusHandler : H} {name : List Char} {flags : Flags} {tr : List Label} {s : Service H}

theorem kept (h : run (step statusHandler) (init name flags) tr = some s) : Kept s := by
  refine run_invariant ⟨fun hs ↦ ?_, fun status hw ↦ ?_, fun status hw ↦ ?_⟩
    (fun _ _ _ hi hs ↦ hi.step hs) h
  · rcases hs with hs | hs <;> cases hs
  · cases hw
  · cases hw

/-- When the server has called back, the last thing that has happened is the callback. -/
theorem succeeded_iff (h : run (step statusHandler) (init name flags) tr = some s)
    {status : Status} (hw : s.waiting = some ⟨status, true⟩) :
    s.succeeded = true ↔ ∀ addr what, tr.getLast? ≠ some (.error addr what) := by
  rcases List.eq_nil_or_concat tr with rfl | ⟨tr, l, rfl⟩
  · obtain rfl := Option.some_inj.mp h
    cases hw
  · rw [List.concat_eq_append] at h ⊢
    obtain ⟨s₁, h₁, hs⟩ := run_concat.mp h
    rw [List.getLast?_concat]
    cases l with
    | start a b resolves =>
      obtain ⟨hwaiting, -, -, ⟨-, rfl⟩ | ⟨-, ⟨-, hw'⟩ | ⟨-, hw'⟩⟩⟩ := step_start hs
      · cases hwaiting.symm.trans hw
      · cases hw'.symm.trans hw
      · cases hw'.symm.trans hw
    | success port port2 =>
      obtain ⟨-, -, -, hsucceeded, -⟩ := step_success hs
      exact iff_of_true hsucceeded fun addr what hl ↦ by cases hl
    | error addr what =>
      obtain ⟨status, hw₁, -, hsucceeded, -⟩ := step_error hs
      have hfalse : s.succeeded = false := hsucceeded.trans ((kept h₁).before status hw₁).2
      exact iff_of_false (Bool.eq_false_iff.mp hfalse) fun hl ↦ hl addr what rfl
    | ret =>
      obtain ⟨-, -, hw', -⟩ := step_ret hs
      cases hw'.symm.trans hw

/-- When nobody waits, the next `start` returns OK without an attempt only if one has succeeded. -/
def TriesAgain (s : Service H) : Prop :=
  s.waiting = none → s.succeeded = false → s.m_started = false

/-- In the run of `tr`, whenever `start` returns a status with `ok()` true, an attempt has
succeeded, and as long as none has, the next `start` makes one. -/
def Reports (statusHandler : H) (name : List Char) (flags : Flags) (tr : List Label) : Prop :=
  Along (step statusHandler) (fun _ s l ↦ ∀ status s', returned s l = some status →
    status.ok = true → step statusHandler s l = some s' → s'.succeeded = true)
    (init name flags) tr ∧
  ∀ tr₁ s₁, tr₁ <+: tr → run (step statusHandler) (init name flags) tr₁ = some s₁ → TriesAgain s₁

/-- A step keeps it that the next call tries again exactly when it is part of no failure. -/
theorem triesAgain_step {s' : Service H} {l : Label}
    (h : run (step statusHandler) (init name flags) tr = some s) (hs : TriesAgain s)
    (hstep : s.step statusHandler l = some s') :
    TriesAgain s' ↔ NoFailure statusHandler tr s l := by
  cases l with
  | start a b resolves =>
    obtain ⟨hwaiting, hsucceeded, hstarted, ⟨hset, rfl⟩ | ⟨hunset, hcases⟩⟩ := step_start hstep
    · exact iff_of_true hs (.inl hset)
    · rcases hcases with ⟨hok, hw⟩ | ⟨hfail, hw⟩
      · exact iff_of_true (fun hnone ↦ by cases hnone.symm.trans hw) hok
      · refine iff_of_false (fun htries ↦ ?_) hfail
        have hfalse : s.succeeded = false := Bool.eq_false_iff.mpr fun hs ↦
          Bool.false_ne_true (hunset.symm.trans ((kept h).started (.inl hs)))
        exact Bool.false_ne_true ((htries hw (hsucceeded.trans hfalse)).symm.trans hstarted)
  | success port port2 =>
    obtain ⟨status, -, hw, -⟩ := step_success hstep
    exact iff_of_true (fun hnone ↦ by cases hnone.symm.trans hw) trivial
  | error addr what =>
    obtain ⟨status, -, hw, -⟩ := step_error hstep
    exact iff_of_true (fun hnone ↦ by cases hnone.symm.trans hw) trivial
  | ret =>
    obtain ⟨status, hw, hw', hsucceeded, hstarted⟩ := step_ret hstep
    have hset : s'.m_started = true := hstarted.trans ((kept h).started (.inr (by rw [hw]; rfl)))
    refine Iff.trans ⟨fun htries ↦ ?_, fun hs _ hfalse ↦ ?_⟩ (succeeded_iff h hw)
    · by_contra hfalse
      rw [← hsucceeded, Bool.not_eq_true] at hfalse
      exact Bool.false_ne_true ((htries hw' hfalse).symm.trans hset)
    · exact absurd (hfalse.symm.trans (hsucceeded.trans hs)) Bool.false_ne_true

/-- **When `start` can be trusted.**  In a run of calls of `start` and callbacks, every OK that is
returned is returned when an attempt has succeeded, and every call that finds no success tries, if
and only if no attempt of the run fails. -/
theorem reports_iff (h : run (step statusHandler) (init name flags) tr = some s) :
    Reports statusHandler name flags tr ↔
      Along (step statusHandler) (NoFailure statusHandler) (init name flags) tr := by
  have hinit : TriesAgain (init name flags : Service H) := fun _ _ ↦ rfl
  have hprefixes := forall_prefix_iff_along hinit
    (fun tr s l s' hr hs hstep ↦ triesAgain_step hr hs hstep) h
  refine Iff.trans ⟨fun hreports ↦ hreports.2, fun htries ↦ ⟨?_, htries⟩⟩ hprefixes
  intro tr₁ l tr₂ s₁ htr h₁ status s' hret hok hstep
  have hs₁ := htries tr₁ s₁ ⟨l :: tr₂, htr.symm⟩ h₁
  cases l with
  | start a b resolves =>
    obtain ⟨hwaiting, hsucceeded, -⟩ := step_start hstep
    obtain ⟨hset, -⟩ := Option.ite_none_right_eq_some.mp hret
    rw [hsucceeded]
    by_contra hfalse
    exact Bool.false_ne_true ((hs₁ hwaiting (Bool.not_eq_true _ ▸ hfalse)).symm.trans hset)
  | success | error => cases hret
  | ret =>
    obtain ⟨status', hw, -, hsucceeded, -⟩ := step_ret hstep
    rw [returned, hw] at hret
    obtain rfl := Option.some_inj.mp hret
    rw [hsucceeded, ← (kept h₁).after _ hw]
    exact hok

end Run

section Examples

/-- The flags as they are defined. -/
def defaultFlags : Flags := ⟨11000, 11002, "0.0.0.0".toList, 4⟩

/-- The first attempt fails, and somebody calls again. -/
def portInUse : List Label :=
  [.start 1 2 true, .error 7 (Status.literal "Address already in use"), .ret, .start 3 4 true]

/-- The second call returns OK, without a server. -/
theorem run_portInUse : ∃ s s' : Service Unit,
    run (step ()) (init [] defaultFlags) (portInUse.take 3) = some s ∧
    returned s (.start 3 4 true) = some .OK ∧ step () s (.start 3 4 true) = some s' ∧
    s'.succeeded = false := by
  have hrun : ((run (step ()) (init [] defaultFlags) (portInUse.take 3)).any fun s : Service Unit ↦
    s.m_started && s.waiting.isNone && !s.succeeded) = true := by decide
  obtain ⟨s, hs, hp⟩ := exists_run_of_any hrun
  obtain ⟨⟨hset, hnone⟩, hfalse⟩ : (s.m_started = true ∧ s.waiting.isNone = true) ∧
      s.succeeded = false := by simpa [Bool.and_eq_true] using hp
  have hidle : ¬ s.waiting.isSome = true := by
    rw [Option.isNone_iff_eq_none.mp hnone]
    exact Bool.false_ne_true
  refine ⟨s, s, hs, if_pos hset, ?_, hfalse⟩
  rw [step, if_neg hidle, if_pos hset]

theorem not_reports : ¬ ∀ (name : List Char) (flags : Flags) (tr : List Label) (s : Service Unit),
    run (step ()) (init name flags) tr = some s → Reports () name flags tr := by
  intro h
  obtain ⟨s, s', hs, hret, hstep, hfalse⟩ := run_portInUse
  have hrun : run (step ()) (init [] defaultFlags) (portInUse.take 3 ++ [.start 3 4 true])
      = some s' := run_concat.mpr ⟨s, hs, hstep⟩
  have hreports := (h _ _ _ _ hrun).1 (portInUse.take 3) (.start 3 4 true) [] s rfl hs .OK s' hret
    rfl hstep
  exact Bool.false_ne_true (hfalse.symm.trans hreports)

/-- The first attempt succeeds, with ports that the system has chosen. -/
def ephemeral : List Label := [.start 1 2 true, .success 40001 40002, .ret, .start 3 4 true]

/-- The test of a call of `start` for `NoFailure`. -/
def begins (s : Service Unit) : Label → Bool
  | .start a b resolves => s.m_started || resolves &&
      (registerBoth () { s.m_router with m_webService := some ⟨true⟩ } a b).2.isNone
  | _ => true

theorem reports_ephemeral :
    Reports () [] { defaultFlags with ws_http_port := 0, ws_http2_port := 0 } ephemeral := by
  have hrun : ((run (step ()) (init [] { defaultFlags with ws_http_port := 0, ws_http2_port := 0 })
    ephemeral).any fun s : Service Unit ↦ s.succeeded) = true := by decide
  obtain ⟨s, hs, -⟩ := exists_run_of_any hrun
  refine (reports_iff hs).mpr fun tr₁ l tr₂ s₁ htr h₁ ↦ ?_
  have hcheck : checkAlong (step ()) begins
      (init [] { defaultFlags with ws_http_port := 0, ws_http2_port := 0 }) ephemeral = true := by
    decide
  have hbegins := along_of_check (C := fun _ s l ↦ begins s l = true) (fun _ _ _ hc ↦ hc) hcheck
    tr₁ l tr₂ s₁ htr h₁
  cases l with
  | start a b resolves => simpa [begins, NoFailure] using hbegins
  | success | error => trivial
  | ret =>
    intro addr what hlast
    have hmem : .error addr what ∈ ephemeral := by
      rw [htr]
      exact List.mem_append_left _ (List.mem_of_getLast? hlast)
    simp [ephemeral] at hmem

end Examples

end Service

end WebService
