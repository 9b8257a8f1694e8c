import Mathlib.Logic.Function.Basic
import CppUtility.Transition
import CppUtility.Status.Basic

/-!
# `Status` as a value

A program holds some variables of type `Status` and creates, copies, moves and destroys them.  To
the program a `Status` should be an optional pair of a code and a message (`Value`), with copies
that make the target equal to the source, and moves that leave OK behind.

The copy assignment does not do this: its guard is the wrong way round, and it copies only when the
two pointers are equal already, that is, when there is nothing to copy.  It never changes the value
of its target (`Store.Wf.step_spec`).  So a program sees values exactly as long as it makes no copy
assignment between variables whose values differ (`seesValues_iff`).

* `Store.step` is the program on the code: variables with their buffers, and an allocator that gives
  out every address once.
* `Values.step` is the program on the reference model.
* `Both.step` runs one beside the other, and `Agree` is what a program can see of a difference: the
  results of `code`, `message`, `toString` and `ok` on every variable, and of `==` on every pair.

The value of a variable is a function of its buffer (`value`), and the observers see exactly this
(`Wf.agree_iff`).  Hence the comparison of two runs comes down to an equation between values, which
a single statement either keeps or does not.

That buffers are owned by one variable each is what makes comparing pointers harmless: two variables
have the same pointer only if both are null (`Wf.samePtr_ne`).
-/

set_option autoImplicit false

open Transition

/-! ## Programs -/

namespace Status

variable {V : Type*}

/-- What a program does with its variables.  An error constructor is given a code and a message. -/
inductive Op (V : Type*)
  | default (v : V)
  | error (v : V) (code : Code) (msg : List UInt8)
  | copyConstruct (v w : V)
  | copyAssign (v w : V)
  | moveConstruct (v w : V)
  | moveAssign (v w : V)
  | destroy (v : V)
  deriving DecidableEq

/-- The variables that are alive.  `next` is the next address of the allocator, which never gives
out an address twice. -/
structure Store (V : Type*) where
  vars : V → Option Status
  next : ℕ

namespace Store

/-- No variable is alive. -/
def init : Store V := ⟨fun _ ↦ none, 0⟩

variable [DecidableEq V]

/-- Give a variable a new state, or end its life. -/
def set (s : Store V) (v : V) (x : Option Status) : Store V :=
  { s with vars := Function.update s.vars v x }

/-- A step of the allocator. -/
def alloc (s : Store V) : Store V := { s with next := s.next + 1 }

/-- One statement of a program; `none` if it uses a variable that is not alive or constructs one
that is, or if it reads past the end of a buffer. -/
def step (s : Store V) : Op V → Option (Store V)
  | .default v => if s.vars v = none then some (s.set v (some OK)) else none
  | .error v code msg =>
    if s.vars v = none then some (s.alloc.set v (some (ofError s.next code msg))) else none
  | .copyConstruct v w =>
    match s.vars v, s.vars w with
    | none, some y => (Status.copyConstruct s.next y).map fun x ↦ s.alloc.set v (some x)
    | _, _ => none
  | .copyAssign v w =>
    match s.vars v, s.vars w with
    | some x, some y => (x.copyAssign s.next y).map fun x ↦ s.alloc.set v (some x)
    | _, _ => none
  | .moveConstruct v w =>
    match s.vars v, s.vars w with
    | none, some y => some ((s.set v (some y.moveConstruct.1)).set w (some y.moveConstruct.2))
    | _, _ => none
  | .moveAssign v w =>
    match s.vars v, s.vars w with
    | some x, some y =>
      if v = w then some (s.set v (some x.moveAssignSelf))
      else some ((s.set v (some (x.moveAssign y).1)).set w (some (x.moveAssign y).2))
    | _, _ => none
  | .destroy v => if (s.vars v).isSome then some (s.set v none) else none

end Store

/-! ## The reference model -/

/-- A `Status` as a value: OK, or a code and a message. -/
abbrev Value := Option (Code × List UInt8)

namespace Value

def code (x : Value) : Code := x.elim .kOk Prod.fst

def message (x : Value) : List UInt8 := x.elim [] Prod.snd

def toString (x : Value) : List UInt8 :=
  if x.code = .kOk then literal "OK" else x.code.toString ++ x.message

def ok (x : Value) : Bool := x.isNone

end Value

/-- The variables that are alive, with their values. -/
abbrev Values (V : Type*) := V → Option Value

/-- One statement, with values: a copy makes the target equal to the source, a move from another
variable does so too and leaves OK in the source. -/
def Values.step [DecidableEq V] (r : Values V) : Op V → Option (Values V)
  | .default v => if r v = none then some (Function.update r v (some none)) else none
  | .error v code msg =>
    if r v = none then some (Function.update r v (some (some (code, msg)))) else none
  | .copyConstruct v w =>
    match r v, r w with
    | none, some y => some (Function.update r v (some y))
    | _, _ => none
  | .copyAssign v w =>
    match r v, r w with
    | some _, some y => some (Function.update r v (some y))
    | _, _ => none
  | .moveConstruct v w =>
    match r v, r w with
    | none, some y => some (Function.update (Function.update r v (some y)) w (some none))
    | _, _ => none
  | .moveAssign v w =>
    match r v, r w with
    | some _, some y =>
      if v = w then some r
      else some (Function.update (Function.update r v (some y)) w (some none))
    | _, _ => none
  | .destroy v => if (r v).isSome then some (Function.update r v none) else none

/-- A message is shorter than the 16-bit size field can count. -/
def Op.Fits : Op V → Prop
  | .error _ _ msg => msg.length < 65536
  | _ => True

instance (op : Op V) : Decidable op.Fits := by
  cases op <;> unfold Op.Fits <;> infer_instance

/-- A program run on the code and on the reference model.  On the side of the code there is nothing
after a read past the end of a buffer. -/
structure Both (V : Type*) where
  code : Option (Store V)
  ref : Values V

/-- No variable is alive. -/
def Both.init : Both V := ⟨some .init, fun _ ↦ none⟩

/-- One statement on both; `none` if the reference model does not allow it, or a message is too
long. -/
def Both.step [DecidableEq V] (p : Both V) (op : Op V) : Option (Both V) :=
  if op.Fits then (p.ref.step op).map fun r ↦ ⟨p.code.bind fun s ↦ s.step op, r⟩ else none

/-- What a program can see is the same on both sides: which variables are alive, the results of
`code()`, `message()`, `toString()` and `ok()` on each of them, and of `==` on each pair. -/
structure Agree (s : Store V) (r : Values V) : Prop where
  alive : ∀ v, (s.vars v).isSome = (r v).isSome
  code : ∀ v x y, s.vars v = some x → r v = some y → x.code = some y.code
  message : ∀ v x y, s.vars v = some x → r v = some y → x.message = some y.message
  toString : ∀ v x y, s.vars v = some x → r v = some y → x.toString = some y.toString
  ok : ∀ v x y, s.vars v = some x → r v = some y → x.ok = y.ok
  eq : ∀ v w x y x' y', s.vars v = some x → r v = some y → s.vars w = some x' → r w = some y' →
    x.eq x' = some (decide (y.code = y'.code))

/-- **The program has seen values so far**: it has not read past a buffer, and sees on the code what
it sees on the reference model. -/
def Both.SeesValues (p : Both V) : Prop := ∃ s, p.code = some s ∧ Agree s p.ref

/-! ## What a state means

`Store.Wf` is the invariant of the code's side.  It does not mention the reference model, and it is
kept by every statement, by a copy assignment as well. -/

/-- The buffer of a `Status`, if it has one, comes from the constructor. -/
def Encoded (x : Status) : Prop :=
  ∀ b, x.m_state = some b → ∃ code msg, msg.length < 65536 ∧ b.bytes = encode code msg

/-- The value a `Status` stands for. -/
def value (x : Status) : Option Value :=
  match x.m_state with
  | none => some none
  | some state => do some (some (← state.m_code, ← x.message))

theorem message_encode (addr : ℕ) (code : Code) {msg : List UInt8} (hlen : msg.length < 65536) :
    message ⟨some ⟨addr, encode code msg⟩⟩ = some msg := by
  simp only [message, m_size_encode, Option.bind_eq_bind, Option.bind_some,
    toNat_ofNat_length hlen, read_encode]

theorem value_encode (addr : ℕ) (code : Code) {msg : List UInt8} (hlen : msg.length < 65536) :
    value ⟨some ⟨addr, encode code msg⟩⟩ = some (some (code, msg)) := by
  simp only [value, m_code_encode, message_encode addr code hlen, Option.bind_eq_bind,
    Option.bind_some]

/-- Every observer gives what it gives on the value. -/
theorem Encoded.observers {x : Status} (h : x.Encoded) : ∃ y, x.value = some y ∧
    x.code = some y.code ∧ x.message = some y.message ∧ x.toString = some y.toString ∧
    x.ok = y.ok := by
  obtain ⟨_ | b⟩ := x
  · exact ⟨none, rfl, rfl, rfl, rfl, rfl⟩
  · obtain ⟨code, msg, hlen, hb⟩ := h b rfl
    obtain ⟨addr, bytes⟩ := b
    obtain rfl : bytes = encode code msg := hb
    have hcode : Status.code ⟨some ⟨addr, encode code msg⟩⟩ = some code :=
      m_code_encode addr code msg
    have hmessage := message_encode addr code hlen
    have hvalue : Value.toString (some (code, msg))
        = if code = .kOk then literal "OK" else code.toString ++ msg := rfl
    refine ⟨some (code, msg), value_encode addr code hlen, hcode, hmessage, ?_, rfl⟩
    simp only [toString, hcode, hmessage, Option.bind_eq_bind, Option.bind_some, hvalue]
    split
    · rfl
    · rfl

/-- A value is determined by what the observers give. -/
theorem Value.eq_of_observers {x y : Value} (hcode : x.code = y.code)
    (hmessage : x.message = y.message) (hok : x.ok = y.ok) : x = y := by
  obtain _ | ⟨c, m⟩ := x <;> obtain _ | ⟨c', m'⟩ := y
  · rfl
  · cases hok
  · cases hok
  · obtain rfl : c = c' := hcode
    obtain rfl : m = m' := hmessage
    rfl

namespace Store

/-- Every buffer comes from the constructor, and belongs to one variable. -/
structure Wf (s : Store V) : Prop where
  encoded : ∀ v x, s.vars v = some x → x.Encoded
  fresh : ∀ v x b, s.vars v = some x → x.m_state = some b → b.addr < s.next
  unique : ∀ v w x y b b', s.vars v = some x → s.vars w = some y → x.m_state = some b →
    y.m_state = some b' → b.addr = b'.addr → v = w

/-- The values of the variables. -/
def values (s : Store V) : Values V := fun v ↦ (s.vars v).bind value

/-- A variable whose pointer is that of another one is null, or the same variable. -/
theorem Wf.samePtr {s : Store V} (h : s.Wf) {v w : V} {x y : Status} (hv : s.vars v = some x)
    (hw : s.vars w = some y) (hptr : x.samePtr y = true) : x = y := by
  obtain ⟨_ | b⟩ := x <;> obtain ⟨_ | b'⟩ := y
  · rfl
  · simp [Status.samePtr] at hptr
  · simp [Status.samePtr] at hptr
  · have haddr : b.addr = b'.addr := by simpa [Status.samePtr] using hptr
    obtain rfl := h.unique v w _ _ b b' hv hw rfl rfl haddr
    rw [hv, Option.some_inj] at hw
    exact hw

/-- Two variables with the same pointer are both null. -/
theorem Wf.samePtr_ne {s : Store V} (h : s.Wf) {v w : V} {x y : Status} (hne : v ≠ w)
    (hv : s.vars v = some x) (hw : s.vars w = some y) (hptr : x.samePtr y = true) :
    x = ⟨none⟩ ∧ y = ⟨none⟩ := by
  obtain rfl := h.samePtr hv hw hptr
  obtain ⟨_ | b⟩ := x
  · exact ⟨rfl, rfl⟩
  · exact absurd (h.unique v w _ _ b b hv hw rfl rfl rfl) hne

/-- **A program sees values exactly when the states of its variables stand for the right ones.** -/
theorem Wf.agree_iff {s : Store V} (h : s.Wf) {r : Values V} : Agree s r ↔ s.values = r := by
  constructor
  · intro hagree
    funext v
    cases hv : s.vars v with
    | none =>
      have halive := hagree.alive v
      rw [hv, Option.isSome_none] at halive
      have hnone : r v = none := by
        rw [← Option.not_isSome_iff_eq_none, ← halive]
        exact Bool.false_ne_true
      rw [values, hv, hnone, Option.bind_none]
    | some x =>
      have halive := hagree.alive v
      rw [hv, Option.isSome_some] at halive
      obtain ⟨y, hy⟩ := Option.isSome_iff_exists.mp halive.symm
      obtain ⟨y₀, hvalue, hcode, hmessage, -, hok⟩ := (h.encoded v x hv).observers
      have heq : y₀ = y := by
        refine Value.eq_of_observers ?_ ?_ ?_
        · exact Option.some_inj.mp (hcode.symm.trans (hagree.code v x y hv hy))
        · exact Option.some_inj.mp (hmessage.symm.trans (hagree.message v x y hv hy))
        · exact hok.symm.trans (hagree.ok v x y hv hy)
      rw [values, hv, Option.bind_some, hvalue, hy, heq]
  · rintro rfl
    have hsome : ∀ v x y, s.vars v = some x → s.values v = some y → x.value = some y := by
      intro v x y hv hy
      rwa [values, hv, Option.bind_some] at hy
    have hobs : ∀ v x y, s.vars v = some x → s.values v = some y → x.code = some y.code ∧
        x.message = some y.message ∧ x.toString = some y.toString ∧ x.ok = y.ok := by
      intro v x y hv hy
      obtain ⟨y₀, hvalue, hrest⟩ := (h.encoded v x hv).observers
      rw [hsome v x y hv hy, Option.some_inj] at hvalue
      exact hvalue ▸ hrest
    refine ⟨fun v ↦ ?_, fun v x y hv hy ↦ (hobs v x y hv hy).1,
      fun v x y hv hy ↦ (hobs v x y hv hy).2.1, fun v x y hv hy ↦ (hobs v x y hv hy).2.2.1,
      fun v x y hv hy ↦ (hobs v x y hv hy).2.2.2, fun v w x y x' y' hv hy hw hy' ↦ ?_⟩
    · cases hv : s.vars v with
      | none => simp [values, hv]
      | some x =>
        obtain ⟨y, hvalue, -⟩ := (h.encoded v x hv).observers
        rw [values, hv, Option.bind_some, hvalue]
        rfl
    · have hcode := (hobs v x y hv hy).1
      have hcode' := (hobs w x' y' hw hy').1
      rw [Status.eq]
      split
      · next hptr =>
        rw [h.samePtr hv hw hptr, hcode', Option.some_inj] at hcode
        simp [hcode]
      · simp only [hcode, hcode', Option.bind_eq_bind, Option.bind_some]

/-! ## One statement

Each kind of statement is one of a few changes to the store: a variable gets a null pointer, a
buffer that has just been allocated, or the buffer of another variable.  The invariant is proved for
these changes, and `Wf.step_spec` goes through the statements. -/

variable [DecidableEq V]

/-- Giving a variable the state it has. -/
theorem set_self {s : Store V} {v : V} {x : Status} (hv : s.vars v = some x) :
    s.set v (some x) = s := by
  rw [set, ← hv, Function.update_eq_self]

theorem values_set (s : Store V) (v : V) (x : Option Status) :
    (s.set v x).values = Function.update s.values v (x.bind value) := by
  funext w
  by_cases hw : w = v
  · subst hw; simp [values, set]
  · simp [values, set, hw]

omit [DecidableEq V] in
theorem Wf.alloc {s : Store V} (h : s.Wf) : s.alloc.Wf :=
  ⟨h.encoded, fun v x b hv hb ↦ Nat.lt_succ_of_lt (h.fresh v x b hv hb), h.unique⟩

/-- A variable gets a null pointer, or its life ends. -/
theorem Wf.set_null {s : Store V} (h : s.Wf) (v : V) {x : Option Status}
    (hx : ∀ y, x = some y → y.m_state = none) : (s.set v x).Wf := by
  -- a buffer that is there afterwards was there before
  have hback : ∀ w y b, (s.set v x).vars w = some y → y.m_state = some b →
      s.vars w = some y := by
    intro w y b hw hb
    by_cases hwv : w = v
    · subst hwv
      have hxy : x = some y := by simpa [set] using hw
      rw [hx y hxy] at hb
      cases hb
    · simpa [set, hwv] using hw
  refine ⟨fun w y hw b hb ↦ h.encoded w y (hback w y b hw hb) b hb,
    fun w y b hw hb ↦ h.fresh w y b (hback w y b hw hb) hb, ?_⟩
  intro w w' y y' b b' hw hw' hb hb'
  exact h.unique w w' y y' b b' (hback w y b hw hb) (hback w' y' b' hw' hb') hb hb'

/-- A variable gets a buffer that has just been allocated. -/
theorem Wf.set_fresh {s : Store V} (h : s.Wf) (v : V) {code : Code} {msg : List UInt8}
    (hlen : msg.length < 65536) :
    (s.alloc.set v (some ⟨some ⟨s.next, encode code msg⟩⟩)).Wf := by
  have hcases : ∀ w y b, (s.alloc.set v (some ⟨some ⟨s.next, encode code msg⟩⟩)).vars w = some y →
      y.m_state = some b → w = v ∧ b = ⟨s.next, encode code msg⟩ ∨ w ≠ v ∧ s.vars w = some y := by
    intro w y b hw hb
    by_cases hwv : w = v
    · subst hwv
      have hy : ⟨some ⟨s.next, encode code msg⟩⟩ = y := by simpa [set] using hw
      rw [← hy, Option.some_inj] at hb
      exact .inl ⟨rfl, hb.symm⟩
    · exact .inr ⟨hwv, by simpa [set, Store.alloc, hwv] using hw⟩
  refine ⟨fun w y hw b hb ↦ ?_, fun w y b hw hb ↦ ?_, fun w w' y y' b b' hw hw' hb hb' haddr ↦ ?_⟩
  · rcases hcases w y b hw hb with ⟨-, rfl⟩ | ⟨-, hw⟩
    · exact ⟨code, msg, hlen, rfl⟩
    · exact h.encoded w y hw b hb
  · rcases hcases w y b hw hb with ⟨-, rfl⟩ | ⟨-, hw⟩
    · exact Nat.lt_succ_self _
    · exact Nat.lt_succ_of_lt (h.fresh w y b hw hb)
  · rcases hcases w y b hw hb with ⟨rfl, rfl⟩ | ⟨-, hold⟩ <;>
      rcases hcases w' y' b' hw' hb' with ⟨rfl, rfl⟩ | ⟨-, hold'⟩
    · rfl
    · exact absurd haddr (Nat.ne_of_gt (h.fresh w' y' b' hold' hb'))
    · exact absurd haddr (Nat.ne_of_lt (h.fresh w y b hold hb))
    · exact h.unique w w' y y' b b' hold hold' hb hb' haddr

/-- A buffer moves from one variable to another. -/
theorem Wf.move {s : Store V} (h : s.Wf) {v w : V} {y : Status} (hne : v ≠ w)
    (hw : s.vars w = some y) : ((s.set v (some ⟨y.m_state⟩)).set w (some ⟨none⟩)).Wf := by
  -- where the buffer of a variable was before
  have hback : ∀ u x b, ((s.set v (some ⟨y.m_state⟩)).set w (some ⟨none⟩)).vars u = some x →
      x.m_state = some b → u = v ∧ y.m_state = some b ∨ u ≠ v ∧ u ≠ w ∧ s.vars u = some x := by
    intro u x b hu hb
    by_cases huw : u = w
    · subst huw
      have hx : ⟨none⟩ = x := by simpa [set] using hu
      rw [← hx] at hb
      cases hb
    · by_cases huv : u = v
      · subst huv
        have hx : ⟨y.m_state⟩ = x := by simpa [set, huw] using hu
        rw [← hx] at hb
        exact .inl ⟨rfl, hb⟩
      · exact .inr ⟨huv, huw, by simpa [set, huw, huv] using hu⟩
  refine ⟨fun u x hu b hb ↦ ?_, fun u x b hu hb ↦ ?_, fun u u' x x' b b' hu hu' hb hb' haddr ↦ ?_⟩
  · rcases hback u x b hu hb with ⟨-, hy⟩ | ⟨-, -, hold⟩
    · exact h.encoded w y hw b hy
    · exact h.encoded u x hold b hb
  · rcases hback u x b hu hb with ⟨-, hy⟩ | ⟨-, -, hold⟩
    · exact h.fresh w y b hw hy
    · exact h.fresh u x b hold hb
  · rcases hback u x b hu hb with ⟨rfl, hy⟩ | ⟨-, huw, hold⟩ <;>
      rcases hback u' x' b' hu' hb' with ⟨rfl, hy'⟩ | ⟨-, huw', hold'⟩
    · rfl
    · exact absurd (h.unique w u' y x' b b' hw hold' hy hb' haddr).symm huw'
    · exact absurd (h.unique u w x y b b' hold hw hb hy' haddr) huw
    · exact h.unique u u' x x' b b' hold hold' hb hb' haddr

/-- What a `Status` contains that was copied from an encoded one: the same, in a buffer of its own.
-/
theorem copyOf_encoded {x : Status} (hx : x.Encoded) (addr : ℕ) : ∃ y, copyOf addr x = some y ∧
    y.value = x.value ∧ (y = ⟨none⟩ ∨ ∃ code msg, msg.length < 65536 ∧
      y = ⟨some ⟨addr, encode code msg⟩⟩) := by
  obtain ⟨_ | b⟩ := x
  · exact ⟨⟨none⟩, rfl, rfl, .inl rfl⟩
  · obtain ⟨code, msg, hlen, hb⟩ := hx b rfl
    obtain ⟨addr', bytes⟩ := b
    obtain rfl : bytes = encode code msg := hb
    refine ⟨⟨some ⟨addr, encode code msg⟩⟩, ?_, rfl, .inr ⟨code, msg, hlen, rfl⟩⟩
    show (copyState addr ⟨addr', encode code msg⟩).map _ = _
    rw [copyState_encode addr hlen]
    rfl

/-- A variable gets a copy. -/
theorem Wf.set_copy {s : Store V} (h : s.Wf) (v : V) {y : Status} (hy : y = ⟨none⟩ ∨
    ∃ code msg, msg.length < 65536 ∧ y = ⟨some ⟨s.next, encode code msg⟩⟩) :
    (s.alloc.set v (some y)).Wf := by
  rcases hy with rfl | ⟨code, msg, hlen, rfl⟩
  · refine h.alloc.set_null v fun y hy ↦ ?_
    rw [← Option.some_inj.mp hy]
  · exact h.set_fresh v hlen

omit [DecidableEq V] in
/-- The value of a variable. -/
theorem Wf.value_of_vars {s : Store V} (h : s.Wf) {v : V} {x : Status} (hv : s.vars v = some x) :
    ∃ y, x.value = some y ∧ s.values v = some y := by
  obtain ⟨y, hy, -⟩ := (h.encoded v x hv).observers
  exact ⟨y, hy, by rw [values, hv, Option.bind_some, hy]⟩

omit [DecidableEq V] in
theorem vars_of_values {s : Store V} {v : V} {y : Value} (hy : s.values v = some y) :
    ∃ x, s.vars v = some x ∧ x.value = some y := Option.bind_eq_some_iff.mp hy

omit [DecidableEq V] in
theorem Wf.vars_eq_none {s : Store V} (h : s.Wf) {v : V} (hv : s.values v = none) :
    s.vars v = none := by
  rw [Option.eq_none_iff_forall_ne_some]
  intro x hx
  obtain ⟨y, -, hy⟩ := h.value_of_vars hx
  rw [hv] at hy
  cases hy

/-- **Copy assignment does nothing to the values.** -/
theorem Wf.step_copyAssign {s : Store V} (h : s.Wf) {v w : V} {y y' : Value}
    (hv : s.values v = some y) (hw : s.values w = some y') :
    ∃ s', s.step (.copyAssign v w) = some s' ∧ s'.Wf ∧ s'.values = s.values := by
  obtain ⟨x, hx, hxy⟩ := vars_of_values hv
  obtain ⟨x', hx', -⟩ := vars_of_values hw
  by_cases hptr : x.samePtr x' = true
  · -- there is nothing to copy: both are null, or they are one variable
    obtain rfl := h.samePtr hx hx' hptr
    obtain ⟨z, hcopy, hvalue, hz⟩ := copyOf_encoded (h.encoded v x hx) s.next
    refine ⟨s.alloc.set v (some z), ?_, h.set_copy v hz, ?_⟩
    · simp only [step, hx, hx', Status.copyAssign, if_pos hptr, hcopy, Option.map_some]
    · rw [values_set, Option.bind_some, hvalue, hxy, ← hv]
      exact Function.update_eq_self ..
  · refine ⟨s.alloc, ?_, h.alloc, rfl⟩
    have hsame : s.alloc.set v (some x) = s.alloc := set_self hx
    simp only [step, hx, hx', Status.copyAssign, if_neg hptr, Option.map_some, hsame]

/-- Move assignment to another variable. -/
theorem Wf.step_moveAssign {s : Store V} (h : s.Wf) {v w : V} (hself : v ≠ w) {y y' : Value}
    (hv : s.values v = some y) (hw : s.values w = some y') :
    ∃ s', s.step (.moveAssign v w) = some s' ∧ s'.Wf ∧
      s'.values = Function.update (Function.update s.values v (some y')) w (some none) := by
  obtain ⟨x, hx, hxy⟩ := vars_of_values hv
  obtain ⟨x', hx', hxy'⟩ := vars_of_values hw
  by_cases hptr : x.samePtr x' = true
  · -- two variables with one buffer: both are null
    obtain ⟨rfl, rfl⟩ := h.samePtr_ne hself hx hx' hptr
    obtain rfl : y = none := Option.some_inj.mp hxy.symm
    obtain rfl : y' = none := Option.some_inj.mp hxy'.symm
    have hmove : (⟨none⟩ : Status).moveAssign ⟨none⟩ = (⟨none⟩, ⟨none⟩) := rfl
    have hv' : Function.update s.values v (some none) = s.values := by
      rw [← hv, Function.update_eq_self]
    have hw' : Function.update s.values w (some none) = s.values := by
      rw [← hw, Function.update_eq_self]
    refine ⟨s, ?_, h, by rw [hv', hw']⟩
    simp only [step, hx, hx', if_neg hself, hmove, set_self hx, set_self hx']
  · have hmove : x.moveAssign x' = (⟨x'.m_state⟩, ⟨none⟩) := by
      simp [Status.moveAssign, hptr]
    refine ⟨(s.set v (some ⟨x'.m_state⟩)).set w (some ⟨none⟩), ?_, h.move hself hx', ?_⟩
    · simp only [step, hx, hx', if_neg hself, hmove]
    · rw [values_set, values_set, Option.bind_some, Option.bind_some, hxy']
      rfl

/-- The copy assignments, which should change the values of the variables and do not. -/
def expected (s : Store V) (r : Values V) : Op V → Values V
  | .copyAssign _ _ => s.values
  | _ => r

/-- **One statement.**  When the reference model can do it on the values of the variables, the code
can do it too; it does to the values what the reference model does, except that a copy assignment
does nothing to them. -/
theorem Wf.step_spec {s : Store V} (h : s.Wf) {op : Op V} (hfits : op.Fits) {r : Values V}
    (hr : s.values.step op = some r) :
    ∃ s', s.step op = some s' ∧ s'.Wf ∧ s'.values = s.expected r op := by
  cases op with
  | default v =>
    simp only [Values.step, Option.ite_none_right_eq_some, Option.some_inj] at hr
    obtain ⟨hv, rfl⟩ := hr
    refine ⟨s.set v (some OK), by rw [step, if_pos (h.vars_eq_none hv)],
      h.set_null v fun y hy ↦ ?_, values_set s v _⟩
    rw [← Option.some_inj.mp hy]
    rfl
  | error v code msg =>
    simp only [Values.step, Option.ite_none_right_eq_some, Option.some_inj] at hr
    obtain ⟨hv, rfl⟩ := hr
    have hlen : msg.length < 65536 := hfits
    refine ⟨_, by rw [step, if_pos (h.vars_eq_none hv)], ?_, ?_⟩
    · rw [ofError_eq hlen]
      exact h.set_fresh v hlen
    · rw [values_set, Option.bind_some, ofError_eq hlen, value_encode _ _ hlen]
      rfl
  | copyConstruct v w =>
    rw [Values.step] at hr
    split at hr
    · next y hv hw =>
      obtain rfl := Option.some_inj.mp hr
      obtain ⟨x, hx, hxy⟩ := vars_of_values hw
      obtain ⟨x', hcopy, hvalue, hx'⟩ := copyOf_encoded (h.encoded w x hx) s.next
      refine ⟨s.alloc.set v (some x'), ?_, h.set_copy v hx', ?_⟩
      · simp only [step, h.vars_eq_none hv, hx, Status.copyConstruct, hcopy, Option.map_some]
      · rw [values_set, Option.bind_some, hvalue, hxy]
        rfl
    · cases hr
  | copyAssign v w =>
    rw [Values.step] at hr
    split at hr
    · next y y' hv hw =>
      exact h.step_copyAssign hv hw
    · cases hr
  | moveConstruct v w =>
    rw [Values.step] at hr
    split at hr
    · next y hv hw =>
      obtain rfl := Option.some_inj.mp hr
      obtain ⟨x, hx, hxy⟩ := vars_of_values hw
      have hne : v ≠ w := by rintro rfl; rw [hv] at hw; cases hw
      refine ⟨(s.set v (some ⟨x.m_state⟩)).set w (some ⟨none⟩), ?_, h.move hne hx, ?_⟩
      · simp only [step, h.vars_eq_none hv, hx, Status.moveConstruct]
      · rw [values_set, values_set, Option.bind_some, Option.bind_some, hxy]
        rfl
    · cases hr
  | moveAssign v w =>
    rw [Values.step] at hr
    split at hr
    · next y y' hv hw =>
      by_cases hself : v = w
      · rw [if_pos hself, Option.some_inj] at hr
        subst hr
        obtain ⟨x, hx, -⟩ := vars_of_values hv
        obtain ⟨x', hx', -⟩ := vars_of_values hw
        have hsame : x.moveAssignSelf = x := by simp [Status.moveAssignSelf, Status.samePtr]
        refine ⟨s, ?_, h, rfl⟩
        simp only [step, hx, hx', if_pos hself, hsame, set_self hx]
      · rw [if_neg hself, Option.some_inj] at hr
        subst hr
        exact h.step_moveAssign hself hv hw
    · cases hr
  | destroy v =>
    simp only [Values.step, Option.ite_none_right_eq_some, Option.some_inj] at hr
    obtain ⟨hv, rfl⟩ := hr
    obtain ⟨y, hy⟩ := Option.isSome_iff_exists.mp hv
    obtain ⟨x, hx, -⟩ := vars_of_values hy
    refine ⟨s.set v none, ?_, h.set_null v nofun, values_set s v none⟩
    rw [step, hx, Option.isSome_some, if_pos rfl]

/-- What the code can do, the reference model can do on the values of the variables. -/
theorem Wf.values_step {s s' : Store V} (h : s.Wf) {op : Op V} (hs : s.step op = some s') :
    ∃ r, s.values.step op = some r := by
  have hnone : ∀ v, s.vars v = none → s.values v = none := by
    intro v hv
    rw [values, hv, Option.bind_none]
  have hsome : ∀ v x, s.vars v = some x → ∃ y, s.values v = some y := by
    intro v x hv
    obtain ⟨y, -, hy⟩ := h.value_of_vars hv
    exact ⟨y, hy⟩
  cases op with
  | default v | error v =>
    simp only [step, Option.ite_none_right_eq_some] at hs
    exact ⟨_, by rw [Values.step, if_pos (hnone v hs.1)]⟩
  | copyConstruct v w | moveConstruct v w =>
    rw [step] at hs
    split at hs
    · next x hv hw =>
      obtain ⟨y, hy⟩ := hsome w x hw
      exact ⟨_, by simp only [Values.step, hnone v hv, hy]; rfl⟩
    · cases hs
  | copyAssign v w =>
    rw [step] at hs
    split at hs
    · next x x' hv hw =>
      obtain ⟨y, hy⟩ := hsome v x hv
      obtain ⟨y', hy'⟩ := hsome w x' hw
      exact ⟨_, by simp only [Values.step, hy, hy']; rfl⟩
    · cases hs
  | moveAssign v w =>
    rw [step] at hs
    split at hs
    · next x x' hv hw =>
      obtain ⟨y, hy⟩ := hsome v x hv
      obtain ⟨y', hy'⟩ := hsome w x' hw
      simp only [Values.step, hy, hy']
      split
      · exact ⟨_, rfl⟩
      · exact ⟨_, rfl⟩
    · cases hs
  | destroy v =>
    simp only [step, Option.ite_none_right_eq_some] at hs
    obtain ⟨x, hx⟩ := Option.isSome_iff_exists.mp hs.1
    obtain ⟨y, hy⟩ := hsome v x hx
    exact ⟨_, by rw [Values.step, hy, Option.isSome_some, if_pos rfl]⟩

/-- A program keeps its buffers in order, whatever it has seen. -/
theorem Wf.step {s s' : Store V} (h : s.Wf) {op : Op V} (hfits : op.Fits)
    (hs : s.step op = some s') : s'.Wf := by
  obtain ⟨r, hr⟩ := h.values_step hs
  obtain ⟨s'', hs'', hwf, -⟩ := h.step_spec hfits hr
  rw [hs, Option.some_inj] at hs''
  exact hs'' ▸ hwf

end Store

/-! ## All programs -/

variable [DecidableEq V]

/-- The statement is not a copy assignment between variables whose values differ. -/
def SameValue (_ : List (Op V)) (p : Both V) : Op V → Prop
  | .copyAssign v w => p.ref v = p.ref w
  | _ => True

theorem store_wf {tr : List (Op V)} {p : Both V} (h : run Both.step Both.init tr = some p)
    {s : Store V} (hs : p.code = some s) : s.Wf := by
  refine run_invariant (P := fun p : Both V ↦ ∀ s, p.code = some s → s.Wf) ?_ ?_ h s hs
  · intro s hs
    obtain rfl : Store.init = s := Option.some_inj.mp hs
    exact ⟨nofun, nofun, nofun⟩
  · intro p op p' hi hstep s' hs'
    simp only [Both.step, Option.ite_none_right_eq_some, Option.map_eq_some_iff] at hstep
    obtain ⟨hfits, r, -, rfl⟩ := hstep
    obtain ⟨s, hs, hss'⟩ := Option.bind_eq_some_iff.mp hs'
    exact (hi s hs).step hfits hss'

/-- **One statement shows a value exactly when it is not a copy assignment of a different one.** -/
theorem seesValues_step {tr : List (Op V)} {p p' : Both V} {op : Op V}
    (hr : run Both.step Both.init tr = some p) (h : p.SeesValues) (hs : p.step op = some p') :
    p'.SeesValues ↔ SameValue tr p op := by
  obtain ⟨s, hcode, hagree⟩ := h
  have hwf := store_wf hr hcode
  have hvalues := hwf.agree_iff.mp hagree
  simp only [Both.step, Option.ite_none_right_eq_some, Option.map_eq_some_iff] at hs
  obtain ⟨hfits, r, hr, rfl⟩ := hs
  rw [← hvalues] at hr
  obtain ⟨s', hs', hwf', hvalues'⟩ := hwf.step_spec hfits hr
  have hsees : Both.SeesValues ⟨p.code.bind fun s ↦ s.step op, r⟩ ↔ s.expected r op = r := by
    rw [← hvalues', ← hwf'.agree_iff]
    constructor
    · rintro ⟨s'', hs'', hagree'⟩
      rw [hcode, Option.bind_some, hs', Option.some_inj] at hs''
      exact hs'' ▸ hagree'
    · exact fun hagree' ↦ ⟨s', by rw [hcode, Option.bind_some, hs'], hagree'⟩
  rw [hsees]
  cases op with
  | copyAssign v w =>
    rw [Values.step] at hr
    split at hr
    · next y y' hv hw =>
      obtain rfl := Option.some_inj.mp hr
      show s.values = Function.update s.values v (some y') ↔ p.ref v = p.ref w
      rw [← hvalues, hw, eq_comm, Function.update_eq_self_iff]
      exact eq_comm
    · cases hr
  | _ => exact iff_of_true rfl trivial

/-- **`Status` has value semantics, unless a copy assignment has something to copy.**  A program
sees after each of its statements what the reference model shows exactly when every copy assignment
in it is one between variables — or of a variable to itself — whose values are equal already. -/
theorem seesValues_iff {tr : List (Op V)} {p : Both V}
    (h : run Both.step Both.init tr = some p) :
    (∀ tr₁ p₁, tr₁ <+: tr → run Both.step Both.init tr₁ = some p₁ → p₁.SeesValues) ↔
      Along Both.step SameValue Both.init tr := by
  have hinit : (Both.init : Both V).SeesValues :=
    ⟨.init, rfl, ⟨fun _ ↦ rfl, nofun, nofun, nofun, nofun, nofun⟩⟩
  exact forall_prefix_iff_along hinit (fun _ _ _ _ hr hQ hs ↦ seesValues_step hr hQ hs) h

/-- Everything but a copy assignment, and one of a variable to itself. -/
def noCopyAssign : List (Op ℕ) :=
  [.default 0, .error 1 .kError (literal "x"), .copyConstruct 2 1, .moveAssign 0 1, .copyAssign 2 2,
    .moveAssign 2 2, .moveConstruct 3 2, .destroy 0]

theorem seesValues_iff_noCopyAssign : ∃ p, run Both.step Both.init noCopyAssign = some p ∧
    ((∀ tr₁ p₁, tr₁ <+: noCopyAssign → run Both.step Both.init tr₁ = some p₁ → p₁.SeesValues) ↔
      Along Both.step SameValue Both.init noCopyAssign) := by
  have hrun : ((run Both.step Both.init noCopyAssign).any fun _ ↦ true) = true := by decide
  obtain ⟨p, hp, -⟩ := exists_run_of_any hrun
  exact ⟨p, hp, seesValues_iff hp⟩

/-- `Status s; Status e = Status::Error("x"); s = e;` -/
def assignError : List (Op ℕ) := [.default 0, .error 1 .kError (literal "x"), .copyAssign 0 1]

/-- **A copy assignment copies nothing**: after `assignError` the variable that should be an error
is still OK. -/
theorem copyAssign_loses :
    ¬∀ (tr : List (Op ℕ)) p, run Both.step Both.init tr = some p → p.SeesValues := by
  have hrun : ((run Both.step Both.init assignError).any fun p ↦
      decide ((p.code.bind fun s ↦ s.vars 0) = some OK ∧ p.ref 0 = some (some (.kError, [120]))))
        = true := by decide
  obtain ⟨p, hp, hq⟩ := exists_run_of_any hrun
  obtain ⟨hvar, href⟩ := of_decide_eq_true hq
  intro hall
  obtain ⟨s, hs, hagree⟩ := hall assignError p hp
  rw [hs, Option.bind_some] at hvar
  have hok := hagree.ok 0 _ _ hvar href
  cases hok

end Status
