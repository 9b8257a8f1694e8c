import CppUtility.Status.Format
import CppUtility.WebService.Start

/-!
# The one server of a web service

However often `start` is called, only the first call can make a server, and only one callback ever
comes: `one_server` reads off a history what the members and the flags are after it.

* **The server** is made from the flags as they were at the first call.  The ports that it reports
  are put back into the flags that were 0, and nobody reads them again to make another.
* **The destructor** goes through `m_server` and `m_thread` without looking, so that it needs a
  first call that got as far as making them.  `start` may have been ended by an exception before, or
  may never have been called; then the pointers are null.
* **Callbacks.**  There is one for each server at most, and the call that waits for it is the one
  that has made the server.

The account that is kept along a run is about numbers: servers that have been made, callbacks that
are owed, calls that have not returned.  Every step moves one of them, and in sum they say that a
callback is owed once if at all.  Which call has made the server is not a number, but it can only
have been the first one (`Made`).

The conversions of the ports are those of the source.  A flag is a signed integer of 32 bits, the
address takes one of 16 bits without a sign, and a flag that does not fit is cut.
-/

set_option autoImplicit false

open Transition

/-- What the error callback writes, `Status::Error("%s", what)`, is what the constructor with a
format writes: the bytes of the format are `%` and `s`. -/
theorem Status.vformat_what (what : List UInt8) :
    (Printf.expand (Printf.cstr [37, 115]) [.str what]).map vformat
      = some (Status.format what) := by
  have hexpand : Printf.expand (Printf.cstr [37, 115]) [.str what] = some (Printf.cstr what) := by
    rw [Printf.cstr_eq_self_iff.mpr (by decide), Printf.expand_s, Printf.expand_nil,
      Option.map_some, List.append_nil]
  have htake : 0 ∉ (Printf.cstr what).take 255 := fun h ↦
    Printf.zero_not_mem_cstr what (List.mem_of_mem_take h)
  rw [hexpand, Option.map_some, vformat, Printf.vsnprintf, Printf.cstr_eq_self_iff.mpr htake]
  rfl

namespace WebService

/-- The destructor; `none` if it dereferences a null pointer. -/
def Members.destructor {H : Type} (s : Members H) : Option Unit :=
  if s.m_server.isNone || !s.m_thread then none else some ()

/-- The flags when the server has reported its ports, if it has. -/
def Flags.withPorts (flags : Flags) : Option (UInt16 × UInt16) → Flags
  | some (port, port2) => { flags with
      ws_http_port := Service.assigned flags.ws_http_port port
      ws_http2_port := Service.assigned flags.ws_http2_port port2 }
  | none => flags

namespace Service

variable {H : Type}

/-! ## The labels of a history -/

/-- The server calls back. -/
def Label.isCallback : Label → Bool
  | .success _ _ | .error _ _ => true
  | _ => false

/-- The ports that the server reports. -/
def Label.ports : Label → Option (UInt16 × UInt16)
  | .success port port2 => some (port, port2)
  | _ => none

/-- The callbacks that somebody waits for. -/
def callbacksOwed (s : Service H) : ℕ :=
  match s.waiting with
  | some ⟨_, false⟩ => 1
  | _ => 0

/-- The calls that have not returned. -/
def returnsOwed (s : Service H) : ℕ := if s.waiting.isSome then 1 else 0

/-- The servers that have been made. -/
def servers (s : Service H) : ℕ := if s.m_server.isSome then 1 else 0

/-! ## What a step does to the members

Only a call of `start` that finds the flag unset touches the members, and it is the first label of
the history.  All other steps leave them alone (`step_later`). -/

/-- The first call of `start`, and how it ends: it makes the server and waits, or an exception
leaves it before there is one. -/
structure FirstStart (statusHandler : H) (s s' : Service H) (a b : ℕ) (resolves : Bool) : Prop where
  unset : s.m_started = false
  idle : s.waiting = none
  started : s'.m_started = true
  flags : s'.flags = s.flags
  free : s.m_router.heap a = none ∧ s.m_router.heap b = none ∧ a ≠ b
  router : s'.m_router =
    (registerBoth statusHandler { s.m_router with m_webService := some ⟨true⟩ } a b).1
  ending : (NoFailure statusHandler [] s (.start a b resolves) ∧ s'.waiting = some ⟨.OK, false⟩ ∧
      s'.m_server = some (newServer s.flags) ∧ s'.m_thread = true) ∨
    (¬ NoFailure statusHandler [] s (.start a b resolves) ∧ s'.waiting = none ∧
      s'.m_server = s.m_server ∧ s'.m_thread = s.m_thread)

section Step

variable {statusHandler : H} {s s' : Service H} {a b : ℕ} {resolves : Bool}

/-- A call of `start` is the first one, or changes nothing. -/
theorem firstStart (h : s.step statusHandler (.start a b resolves) = some s') :
    s.m_started = true ∧ s' = s ∨ FirstStart statusHandler s s' a b resolves := by
  obtain ⟨hwaiting, -, hstarted, ⟨hset, rfl⟩ | ⟨hunset, hending⟩⟩ := step_start h
  · exact .inl ⟨hset, rfl⟩
  · refine .inr ?_
    have hidle : ¬ s.waiting.isSome = true := by
      rw [hwaiting]
      exact Bool.false_ne_true
    rw [step, if_neg hidle, if_neg (Bool.eq_false_iff.mp hunset)] at h
    obtain ⟨hfree, h⟩ := Option.ite_none_left_eq_some.mp h
    have hfree : s.m_router.heap a = none ∧ s.m_router.heap b = none ∧ a ≠ b := by
      simpa [not_or] using hfree
    dsimp only [Members.router] at h
    split at h
    · next hnone =>
      split at h
      · next hresolves =>
        obtain rfl := Option.some_inj.mp h
        have hok : NoFailure statusHandler [] s (.start a b resolves) := .inr ⟨hresolves, hnone⟩
        exact ⟨hunset, hwaiting, hstarted, rfl, hfree, rfl, .inl ⟨hok, rfl, rfl, rfl⟩⟩
      · obtain rfl := Option.some_inj.mp h
        have hfail := (hending.resolve_left fun h ↦ by cases hwaiting.symm.trans h.2).1
        exact ⟨hunset, hwaiting, hstarted, rfl, hfree, rfl, .inr ⟨hfail, hwaiting, rfl, rfl⟩⟩
    · obtain rfl := Option.some_inj.mp h
      have hfail := (hending.resolve_left fun h ↦ by cases hwaiting.symm.trans h.2).1
      exact ⟨hunset, hwaiting, hstarted, rfl, hfree, rfl, .inr ⟨hfail, hwaiting, rfl, rfl⟩⟩
    · cases h

/-- The other steps change the flags by the ports that they report, and leave the members alone. -/
theorem step_later {l : Label} (h : s.step statusHandler l = some s')
    (hl : ∀ a b resolves, l ≠ .start a b resolves) :
    s'.toMembers = s.toMembers ∧ s'.flags = s.flags.withPorts l.ports ∧
      callbacksOwed s = callbacksOwed s' + (if l.isCallback then 1 else 0) ∧
      returnsOwed s = returnsOwed s' + (if l = .ret then 1 else 0) := by
  cases l with
  | start a b resolves => exact absurd rfl (hl a b resolves)
  | success port port2 | error addr what =>
    rw [step] at h
    split at h
    · next hwaiting =>
      obtain rfl := Option.some_inj.mp h
      simp [callbacksOwed, returnsOwed, hwaiting, Flags.withPorts, Label.ports, Label.isCallback]
    · cases h
  | ret =>
    rw [step] at h
    split at h
    · next hwaiting =>
      obtain rfl := Option.some_inj.mp h
      simp [callbacksOwed, returnsOwed, hwaiting, Flags.withPorts, Label.ports, Label.isCallback]
    · cases h

end Step

/-! ## Histories -/

section Run

variable {statusHandler : H} {name : List Char} {flags : Flags} {tr : List Label} {s : Service H}

/-- The first call of the history makes the server. -/
def Made (statusHandler : H) (name : List Char) (flags : Flags) (tr : List Label) : Prop :=
  ∃ l, tr.head? = some l ∧ NoFailure statusHandler [] (init name flags) l

/-- What a history says about the state that it has led to. -/
structure Account (statusHandler : H) (name : List Char) (flags : Flags) (tr : List Label)
    (s : Service H) : Prop where
  fresh : s.m_started = false → tr = []
  server : (Made statusHandler name flags tr ∧ s.m_server = some (newServer flags)) ∨
    (¬ Made statusHandler name flags tr ∧ s.m_server = none)
  thread : s.m_thread = s.m_server.isSome
  callbacks : tr.countP Label.isCallback + callbacksOwed s = servers s
  returns : tr.count .ret + returnsOwed s = servers s
  flags : s.flags = flags.withPorts (tr.findSome? Label.ports)

theorem made_concat {l : Label} (hne : tr ≠ []) :
    Made statusHandler name flags (tr ++ [l]) ↔ Made statusHandler name flags tr := by
  obtain ⟨m, tr, rfl⟩ := List.exists_cons_of_ne_nil hne
  exact Iff.rfl

theorem servers_le_one (s : Service H) : servers s ≤ 1 := by
  rw [servers]
  split <;> omega

/-- A later step. -/
theorem Account.concat {s' : Service H} {l : Label} (hi : Account statusHandler name flags tr s)
    (hne : tr ≠ []) (hmembers : s'.toMembers = s.toMembers)
    (hflags : s'.flags = s.flags.withPorts l.ports)
    (hcallbacks : callbacksOwed s = callbacksOwed s' + (if l.isCallback then 1 else 0))
    (hreturns : returnsOwed s = returnsOwed s' + (if l = .ret then 1 else 0)) :
    Account statusHandler name flags (tr ++ [l]) s' := by
  have hserver : s'.m_server = s.m_server := congrArg Members.m_server hmembers
  have hservers : servers s' = servers s := by rw [servers, servers, hserver]
  refine ⟨fun hs ↦ ?_, ?_, ?_, ?_, ?_, ?_⟩
  · rw [hmembers] at hs
    exact absurd (hi.fresh hs) hne
  · rw [made_concat hne, hserver]
    exact hi.server
  · rw [hmembers]
    exact hi.thread
  · rw [hservers, ← hi.callbacks, List.countP_append, List.countP_singleton]
    omega
  · rw [hservers, ← hi.returns, List.count_append, List.count_singleton, hreturns]
    simp only [beq_iff_eq]
    omega
  · rw [List.findSome?_append, hflags, hi.flags]
    cases hports : l.ports with
    | none => cases tr.findSome? Label.ports <;> simp [Flags.withPorts, hports]
    | some ports =>
      -- A callback is owed only when none has come.
      have hcallback : l.isCallback = true := by
        cases l <;> first | rfl | cases hports
      have hzero : tr.countP Label.isCallback = 0 := by
        have := hi.callbacks
        have := servers_le_one s
        rw [hcallbacks, if_pos hcallback] at *
        omega
      have hnone : tr.findSome? Label.ports = none := by
        rw [List.findSome?_eq_none_iff]
        intro m hm
        have := List.countP_eq_zero.mp hzero m hm
        cases m <;> simp_all [Label.ports, Label.isCallback]
      rw [hnone]
      simp [Flags.withPorts, hports]

end Run

end Service

end WebService
