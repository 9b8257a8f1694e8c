import CppUtility.Status.Value

/-!
# The buffer of a `Status`

The size of the message is stored in 16 bits, and this is the number of bytes that the constructor
copies.  Two things follow from that, for messages of any length.

* A buffer is in order whatever the message was: it is as long as its size field says, its code is
  that of an error, copies are made byte for byte, and no member reads past its end
  (`wellFormed_of_run`, for every program that uses the public functions).
* It gives the message back exactly when the message is shorter than 2¹⁶ bytes (`givesBack_iff`).
  Of a longer one, the first `length % 65536` bytes are left, and neither the error nor its text
  says that anything is missing.

Both rest on the remark that the constructor makes the same buffer for a long message as for the
part of it that it copies (`ofError_eq_encode`).  What is proved for messages that fit can then be
used for all of them, with `stored msg` in the place of `msg`.

The comment of `status.h` on the layout says that the first field is the size less `headerSize`.  It
is the length of the message itself, as the code reads and writes it.
-/

set_option autoImplicit false

open Transition

namespace Status

/-! ## The kinds of errors -/

/-- The arguments of `STATUS_GENERATOR`. -/
inductive Kind
  | Error | NoSuchFile | NotSupported
  deriving DecidableEq, Repr

namespace Kind

/-- The code of the kind. -/
def code : Kind → Code
  | Error => .kError
  | NoSuchFile => .kNoSuchFile
  | NotSupported => .kNotSupported

/-- What `toString()` puts before the message. -/
def label : Kind → String
  | Error => "GeneralError: "
  | NoSuchFile => "NoSuchFile: "
  | NotSupported => "NotSupported: "

theorem toString_code (kind : Kind) : kind.code.toString = literal kind.label := by
  cases kind <;> rfl

theorem code_ne_kOk (kind : Kind) : kind.code ≠ .kOk := by
  cases kind <;> decide

end Kind

/-- `Error(msg)`, `NoSuchFile(msg)` or `NotSupported(msg)`, for a `std::string`, with the buffer at
`addr`. -/
def generate (addr : ℕ) (kind : Kind) (msg : List UInt8) : Status := ofError addr kind.code msg

/-! ## Long messages -/

/-- The bytes of the message that are copied. -/
def stored (msg : List UInt8) : List UInt8 := msg.take (msg.length % 65536)

theorem length_stored (msg : List UInt8) : (stored msg).length = msg.length % 65536 := by
  rw [stored, List.length_take]
  exact Nat.min_eq_left (Nat.mod_le _ _)

theorem length_stored_lt (msg : List UInt8) : (stored msg).length < 65536 := by
  rw [length_stored]
  exact Nat.mod_lt _ (by decide)

/-- The constructor makes the same buffer for a message as for the bytes of it that are copied. -/
theorem ofError_eq_encode (addr : ℕ) (code : Code) (msg : List UInt8) :
    ofError addr code msg = ⟨some ⟨addr, encode code (stored msg)⟩⟩ := by
  have hsize : UInt16.ofNat msg.length = UInt16.ofNat (stored msg).length := by
    apply UInt16.toNat_inj.mp
    rw [toNat_ofNat_length (length_stored_lt msg), length_stored, UInt16.toNat_ofNat']
  have htake : msg.take (UInt16.ofNat msg.length).toNat = stored msg := by
    rw [hsize, toNat_ofNat_length (length_stored_lt msg), length_stored, stored]
  rw [ofError, htake, hsize, encode]

/-- A message that is read is shorter than the size field can count. -/
theorem length_message_lt {x : Status} {msg : List UInt8} (h : x.message = some msg) :
    msg.length < 65536 := by
  obtain ⟨_ | b⟩ := x
  · obtain rfl : [] = msg := Option.some_inj.mp h
    decide
  · obtain ⟨size, -, hread⟩ := Option.bind_eq_some_iff.mp h
    simp only [Block.read, Option.ite_none_right_eq_some, Option.some_inj] at hread
    obtain ⟨-, rfl⟩ := hread
    exact Nat.lt_of_le_of_lt (List.length_take_le _ _) size.toNat_lt

/-! ## What a message is given back from

Copies and moves of an error are expected to give back the same message.  `Obtained` has the special
members that hand on a state; the copy assignment is not among them, since it does not
(`CppUtility.Status.Value`). -/

/-- The objects that are obtained from `x` by copy construction, move construction and move
assignment to another object, any number of times. -/
inductive Obtained (x : Status) : Status → Prop
  | self : Obtained x x
  | copyConstruct {y z : Status} {addr : ℕ} (h : Obtained x y)
      (hcopy : Status.copyConstruct addr y = some z) : Obtained x z
  | moveConstruct {y : Status} (h : Obtained x y) : Obtained x y.moveConstruct.1
  /-- Two objects do not own the same buffer. -/
  | moveAssign {y this : Status} (h : Obtained x y) (hptr : this.samePtr y = false) :
      Obtained x (this.moveAssign y).1

/-- The object has the code of the kind, and gives back the message. -/
def GivesBack (kind : Kind) (msg : List UInt8) (x : Status) : Prop :=
  x.code = some kind.code ∧ x.message = some msg ∧
    x.toString = some (literal kind.label ++ msg)

/-- Whatever is obtained from an object has the same bytes. -/
theorem Obtained.bytes {x y : Status} {addr : ℕ} {code : Code} {msg : List UInt8}
    (h : Obtained x y) (hlen : msg.length < 65536) (hx : x = ⟨some ⟨addr, encode code msg⟩⟩) :
    ∃ addr', y = ⟨some ⟨addr', encode code msg⟩⟩ := by
  induction h with
  | self => exact ⟨addr, hx⟩
  | @copyConstruct y z addr'' h hcopy ih =>
    obtain ⟨addr', rfl⟩ := ih
    have hz : (copyState addr'' ⟨addr', encode code msg⟩).map (fun b ↦ (⟨some b⟩ : Status))
      = some z := hcopy
    rw [copyState_encode addr'' hlen] at hz
    exact ⟨addr'', (Option.some_inj.mp hz).symm⟩
  | moveConstruct h ih =>
    obtain ⟨addr', rfl⟩ := ih
    exact ⟨addr', rfl⟩
  | moveAssign h hptr ih =>
    obtain ⟨addr', rfl⟩ := ih
    exact ⟨addr', by rw [Status.moveAssign, hptr]; rfl⟩

/-- A message that the size field can count is given back. -/
theorem givesBack_of_fits (addr : ℕ) (kind : Kind) {msg : List UInt8} (hlen : msg.length < 65536)
    {x : Status} (hx : Obtained (generate addr kind msg) x) : GivesBack kind msg x := by
  obtain ⟨addr', rfl⟩ := hx.bytes hlen (ofError_eq hlen)
  have hcode : Status.code ⟨some ⟨addr', encode kind.code msg⟩⟩ = some kind.code :=
    m_code_encode addr' kind.code msg
  have hmessage := message_encode addr' kind.code hlen
  refine ⟨hcode, hmessage, ?_⟩
  simp only [toString, hcode, hmessage, Option.bind_eq_bind, Option.bind_some,
    if_neg kind.code_ne_kOk, kind.toString_code]

/-- **An error gives back its message exactly when the size field can count it**, and so does
everything that is copied or moved from it. -/
theorem givesBack_iff (addr : ℕ) (kind : Kind) (msg : List UInt8) :
    (∀ x, Obtained (generate addr kind msg) x → GivesBack kind msg x) ↔ msg.length < 65536 := by
  constructor
  · intro h
    exact length_message_lt (h _ .self).2.1
  · intro hlen x hx
    exact givesBack_of_fits addr kind hlen hx

/-- A message of 2¹⁶ bytes is not given back. -/
theorem generate_loses : ¬∀ (addr : ℕ) (kind : Kind) (msg : List UInt8) (x : Status),
    Obtained (generate addr kind msg) x → GivesBack kind msg x := by
  intro h
  have hmessage := (h 0 .Error (List.replicate 65536 97) _ .self).2.1
  have hlen := length_message_lt hmessage
  rw [List.length_replicate] at hlen
  exact absurd hlen (Nat.lt_irrefl _)

/-! ## Buffers in order

`WellFormed` is what one wants of a buffer, and `Written` what is kept: where the bytes come from.
The first follows from the second, and only the second is a statement that a copy can be followed
through. -/

/-- The codes that a buffer can have. -/
def errorCodes : List Code := [.kError, .kNoSuchFile, .kNotSupported]

/-- A null pointer, or a buffer that is as long as its size field says, with an error code. -/
def WellFormed (x : Status) : Prop :=
  ∀ b, x.m_state = some b → ∃ size code, b.m_size = some size ∧ b.m_code = some code ∧
    b.bytes.length = headerSize + size.toNat ∧ code ∈ errorCodes

/-- The buffer, if there is one, has been written by the constructor. -/
def Written (x : Status) : Prop :=
  ∀ b, x.m_state = some b → ∃ code ∈ errorCodes, ∃ msg : List UInt8, msg.length < 65536 ∧
    b.bytes = encode code msg

theorem written_null : Written ⟨none⟩ := nofun

theorem written_ofError (addr : ℕ) {code : Code} (hcode : code ∈ errorCodes) (msg : List UInt8) :
    (ofError addr code msg).Written := by
  rw [ofError_eq_encode]
  intro b hb
  obtain rfl := Option.some_inj.mp hb
  exact ⟨code, hcode, stored msg, length_stored_lt msg, rfl⟩

namespace Written

variable {x y : Status}

/-- **A buffer is copied byte for byte.** -/
theorem copyState (h : x.Written) (addr : ℕ) {b : Block} (hb : x.m_state = some b) :
    Status.copyState addr b = some ⟨addr, b.bytes⟩ := by
  obtain ⟨code, -, msg, hlen, hbytes⟩ := h b hb
  obtain ⟨addr', bytes⟩ := b
  obtain rfl : bytes = encode code msg := hbytes
  exact copyState_encode addr hlen

theorem copyOf (h : x.Written) {addr : ℕ} (hcopy : Status.copyOf addr x = some y) : y.Written := by
  obtain ⟨_ | b⟩ := x
  · obtain rfl : ⟨none⟩ = y := Option.some_inj.mp hcopy
    exact written_null
  · have hy : (Status.copyState addr b).map (fun b ↦ (⟨some b⟩ : Status)) = some y := hcopy
    rw [h.copyState addr rfl] at hy
    obtain rfl := Option.some_inj.mp hy
    intro b' hb'
    obtain rfl := Option.some_inj.mp hb'
    exact h b rfl

theorem copyAssign (h : x.Written) (h' : y.Written) {z : Status} {addr : ℕ}
    (hassign : x.copyAssign addr y = some z) : z.Written := by
  rw [Status.copyAssign] at hassign
  split at hassign
  · exact h'.copyOf hassign
  · exact Option.some_inj.mp hassign ▸ h

theorem moveAssign (h : x.Written) (h' : y.Written) :
    (x.moveAssign y).1.Written ∧ (x.moveAssign y).2.Written := by
  rw [Status.moveAssign]
  split
  · exact ⟨h', written_null⟩
  · exact ⟨h, h'⟩

theorem moveAssignSelf (h : x.Written) : x.moveAssignSelf.Written := by
  rw [Status.moveAssignSelf]
  split
  · exact written_null
  · exact h

theorem wellFormed (h : x.Written) : x.WellFormed := by
  intro b hb
  obtain ⟨code, hcode, msg, hlen, hbytes⟩ := h b hb
  obtain ⟨addr, bytes⟩ := b
  obtain rfl : bytes = encode code msg := hbytes
  refine ⟨.ofNat msg.length, code, m_size_encode, m_code_encode addr code msg, ?_, hcode⟩
  rw [length_encode, toNat_ofNat_length hlen]

theorem encoded (h : x.Written) : x.Encoded := fun b hb ↦
  let ⟨code, _, msg, hlen, hbytes⟩ := h b hb
  ⟨code, msg, hlen, hbytes⟩

/-- A status is OK when its code says so. -/
theorem ok_iff (h : x.Written) : x.ok = true ↔ x.code = some .kOk := by
  obtain ⟨_ | b⟩ := x
  · exact iff_of_true rfl rfl
  · obtain ⟨size, code, -, hb, -, hcode⟩ := h.wellFormed b rfl
    refine iff_of_false Bool.false_ne_true fun hok ↦ ?_
    obtain rfl : code = .kOk := Option.some_inj.mp (hb.symm.trans hok)
    exact absurd hcode (by decide)

end Written

/-! ## All programs -/

variable {V : Type*} [DecidableEq V]

omit [DecidableEq V] in
/-- The statement calls public functions only: the code of an error is that of a kind. -/
def Op.Public : Op V → Prop
  | .error _ code _ => code ∈ errorCodes
  | _ => True

instance : (op : Op V) → Decidable op.Public
  | .error _ code _ =>
    decidable_of_iff (code = .kError ∨ code = .kNoSuchFile ∨ code = .kNotSupported)
      (by simp [Op.Public, errorCodes])
  | .default _ | .copyConstruct _ _ | .copyAssign _ _ | .moveConstruct _ _ | .moveAssign _ _
  | .destroy _ => .isTrue trivial

/-- Every variable that is alive has a buffer that the constructor has written, or none. -/
def Store.Written (s : Store V) : Prop := ∀ v x, s.vars v = some x → x.Written

theorem Store.Written.set {s : Store V} (h : s.Written) (v : V) {x : Option Status}
    (hx : ∀ y, x = some y → y.Written) : (s.set v x).Written := by
  intro w y hw
  by_cases hwv : w = v
  · subst hwv
    exact hx y (by simpa [Store.set] using hw)
  · exact h w y (by simpa [Store.set, hwv] using hw)

/-- **One statement keeps the buffers in order.** -/
theorem Store.Written.step {s s' : Store V} (h : s.Written) {op : Op V} (hpublic : op.Public)
    (hs : s.step op = some s') : s'.Written := by
  have hsome : ∀ {x : Status}, x.Written → ∀ y, some x = some y → y.Written :=
    fun hx _ hy ↦ Option.some_inj.mp hy ▸ hx
  have halloc : s.alloc.Written := h
  cases op with
  | default v =>
    simp only [Store.step, Option.ite_none_right_eq_some, Option.some_inj] at hs
    obtain ⟨-, rfl⟩ := hs
    exact h.set v (hsome written_null)
  | error v code msg =>
    simp only [Store.step, Option.ite_none_right_eq_some, Option.some_inj] at hs
    obtain ⟨-, rfl⟩ := hs
    exact halloc.set v (hsome (written_ofError s.next hpublic msg))
  | copyConstruct v w =>
    rw [Store.step] at hs
    split at hs
    · next y hv hw =>
      obtain ⟨x, hcopy, rfl⟩ := Option.map_eq_some_iff.mp hs
      exact halloc.set v (hsome ((h w y hw).copyOf hcopy))
    · cases hs
  | copyAssign v w =>
    rw [Store.step] at hs
    split at hs
    · next x y hv hw =>
      obtain ⟨z, hassign, rfl⟩ := Option.map_eq_some_iff.mp hs
      exact halloc.set v (hsome ((h v x hv).copyAssign (h w y hw) hassign))
    · cases hs
  | moveConstruct v w =>
    rw [Store.step] at hs
    split at hs
    · next y hv hw =>
      obtain rfl := Option.some_inj.mp hs
      exact (h.set v (hsome (h w y hw))).set w (hsome written_null)
    · cases hs
  | moveAssign v w =>
    rw [Store.step] at hs
    split at hs
    · next x y hv hw =>
      split at hs
      · obtain rfl := Option.some_inj.mp hs
        exact h.set v (hsome (h v x hv).moveAssignSelf)
      · obtain rfl := Option.some_inj.mp hs
        obtain ⟨h1, h2⟩ := (h v x hv).moveAssign (h w y hw)
        exact (h.set v (hsome h1)).set w (hsome h2)
    · cases hs
  | destroy v =>
    simp only [Store.step, Option.ite_none_right_eq_some, Option.some_inj] at hs
    obtain ⟨-, rfl⟩ := hs
    exact h.set v fun y hy ↦ by cases hy

/-- **Every buffer is in order**, in every program that uses the public functions, with messages of
any length.  So copies are made byte for byte, nothing is read past the end of a buffer, and a
status is OK exactly when its code says so. -/
theorem wellFormed_of_run {tr : List (Op V)} {s : Store V} (hpublic : ∀ op ∈ tr, op.Public)
    (h : run Store.step Store.init tr = some s) {v : V} {x : Status} (hx : s.vars v = some x) :
    x.WellFormed ∧
      (∀ addr b, x.m_state = some b → copyState addr b = some ⟨addr, b.bytes⟩) ∧
      (∃ msg, x.message = some msg) ∧ (∃ text, x.toString = some text) ∧
      (x.ok = true ↔ x.code = some .kOk) := by
  have hwritten : (∀ op ∈ tr, op.Public) → s.Written := by
    refine run_induction (P := fun (tr : List (Op V)) (s : Store V) ↦
      (∀ op ∈ tr, op.Public) → s.Written) (fun _ _ _ hx ↦ by cases hx) ?_ h
    intro tr s op s' _ ih hs hall
    refine (ih fun o ho ↦ hall o (List.mem_append_left _ ho)).step ?_ hs
    exact hall op (List.mem_append_right _ (List.mem_singleton_self op))
  have hw : x.Written := hwritten hpublic v x hx
  obtain ⟨y, -, -, hmessage, htoString, -⟩ := hw.encoded.observers
  exact ⟨hw.wellFormed, fun addr b hb ↦ hw.copyState addr hb, ⟨_, hmessage⟩, ⟨_, htoString⟩,
    hw.ok_iff⟩

/-- `Status e = Status::NotSupported("xy"), f(e), g; g = std::move(f);` -/
def moveCopy : List (Op ℕ) :=
  [.error 0 .kNotSupported (literal "xy"), .copyConstruct 1 0, .default 2, .moveAssign 2 1]

theorem wellFormed_of_run_moveCopy : ∃ s, run Store.step Store.init moveCopy = some s ∧
    ∃ x, s.vars 2 = some x ∧ x.WellFormed ∧ ∃ msg, x.message = some msg := by
  have hrun : ((run Store.step Store.init moveCopy).any fun s ↦ (s.vars 2).isSome) = true := by
    decide
  obtain ⟨s, hs, hsome⟩ := exists_run_of_any hrun
  obtain ⟨x, hx⟩ := Option.isSome_iff_exists.mp hsome
  obtain ⟨hwf, -, hmessage, -⟩ := wellFormed_of_run (by decide) hs hx
  exact ⟨s, hs, x, hx, hwf, hmessage⟩

end Status
