import Mathlib.Data.Nat.Notation
import Mathlib.Logic.Basic

/-!
# `Status`: a null pointer, or a buffer with a code and a message

A `Status` is one `unique_ptr` to a buffer of bytes: nothing for OK, else a header of two 16-bit
fields, the size of the message and the code, and after it the message.

* **Addresses.**  The special members guard their work by comparing the two pointers, so a buffer is
  modelled with its address, and a member that allocates is given the address of the new buffer as
  an argument.  Which address that is, is up to the program that calls it
  (`CppUtility.Status.Value`).
* **Bounds.**  The size of a buffer is nowhere kept but in the buffer itself, and every reader
  trusts it.  Reading gives `none` when it would go past the end, so that a member which reads is an
  `Option`, and that it is never `none` is something to be proved.
* **Bytes.**  Messages are bytes, not characters: they may contain a zero, and the size counts them.
* **Truncation.**  The constructor stores the size in 16 bits and copies as many bytes as it has
  stored.

Moves give the new object and the old one.  The move assignment of an object to itself is a
definition of its own, since there `rhs.m_state` is the member that is written.

The header is laid out as on the little-endian machines this code is built for; nothing below
depends on the order of the two bytes of a field.
-/

set_option autoImplicit false

/-! ## Codes and buffers -/

namespace Status

/-- `Status::Code`, an enumeration with the fixed underlying type `uint16_t`, all of whose values an
object of the type can have. -/
structure Code where
  val : UInt16
  deriving DecidableEq

def Code.kOk : Code := ⟨0⟩
def Code.kError : Code := ⟨101⟩
def Code.kNoSuchFile : Code := ⟨102⟩
def Code.kNotSupported : Code := ⟨103⟩

/-- The two bytes of a `uint16_t`. -/
def toBytes (n : UInt16) : List UInt8 := [.ofNat (n.toNat % 256), .ofNat (n.toNat / 256)]

/-- The `uint16_t` of two bytes. -/
def ofBytes (b₀ b₁ : UInt8) : UInt16 := .ofNat (b₀.toNat + 256 * b₁.toNat)

/-- `headerSize`. -/
def headerSize : ℕ := 4

/-- An allocated buffer. -/
structure Block where
  addr : ℕ
  bytes : List UInt8
  deriving DecidableEq

/-- `m_size` of the header at the start of the buffer. -/
def Block.m_size (b : Block) : Option UInt16 :=
  match b.bytes with
  | b₀ :: b₁ :: _ => some (ofBytes b₀ b₁)
  | _ => none

/-- `m_code` of that header. -/
def Block.m_code (b : Block) : Option Code :=
  match b.bytes with
  | _ :: _ :: b₂ :: b₃ :: _ => some ⟨ofBytes b₂ b₃⟩
  | _ => none

/-- The `n` bytes of the buffer from `start` on. -/
def Block.read (b : Block) (start n : ℕ) : Option (List UInt8) :=
  if start + n ≤ b.bytes.length then some ((b.bytes.drop start).take n) else none

/-- A string literal, as bytes. -/
def literal (s : String) : List UInt8 := s.toList.map fun c ↦ .ofNat c.toNat

/-- The static `toString`. -/
def Code.toString (code : Code) : List UInt8 :=
  if code = .kOk then literal "OK"
  else if code = .kError then literal "GeneralError: "
  else if code = .kNoSuchFile then literal "NoSuchFile: "
  else if code = .kNotSupported then literal "NotSupported: "
  else []

end Status

/-! ## The members

The bodies follow `status.h` and `status.cpp` one to one, the two comparisons of `operator=`
included: that of the copy assignment is `==`, and that of the move assignment is `!=`. -/

/-- `Status`. -/
structure Status where
  m_state : Option Status.Block
  deriving DecidableEq

namespace Status

/-- The default constructor; `OK()` returns it. -/
def OK : Status := ⟨none⟩

/-- The private constructor, with the buffer at `addr`.  The size of the message is stored in 16
bits, and so many bytes are copied. -/
def ofError (addr : ℕ) (code : Code) (msg : List UInt8) : Status :=
  let size : UInt16 := .ofNat msg.length
  ⟨some ⟨addr, toBytes size ++ toBytes code.val ++ msg.take size.toNat⟩⟩

/-- `copyState`, into a buffer at `addr`. -/
def copyState (addr : ℕ) (state : Block) : Option Block := do
  let size ← state.m_size
  let bytes ← state.read 0 (size.toNat + headerSize)
  some ⟨addr, bytes⟩

/-- `m_state == rhs.m_state`: the pointers are compared. -/
def samePtr (this rhs : Status) : Bool := this.m_state.map Block.addr = rhs.m_state.map Block.addr

/-- `m_state` after `rhs.m_state == nullptr ? nullptr : copyState(rhs.m_state.get())`. -/
def copyOf (addr : ℕ) (rhs : Status) : Option Status :=
  match rhs.m_state with
  | none => some ⟨none⟩
  | some state => (copyState addr state).map fun b ↦ ⟨some b⟩

/-- The copy constructor. -/
def copyConstruct (addr : ℕ) (rhs : Status) : Option Status := copyOf addr rhs

/-- The copy assignment; `rhs` may be the same object. -/
def copyAssign (addr : ℕ) (this rhs : Status) : Option Status :=
  if this.samePtr rhs then copyOf addr rhs else some this

/-- The move constructor: the new object, and `rhs` afterwards. -/
def moveConstruct (rhs : Status) : Status × Status := (⟨rhs.m_state⟩, ⟨none⟩)

/-- The move assignment from another object: `this` and `rhs` afterwards. -/
def moveAssign (this rhs : Status) : Status × Status :=
  if !this.samePtr rhs then (⟨rhs.m_state⟩, ⟨none⟩) else (this, rhs)

/-- The move assignment of an object to itself: `rhs.m_state` is `m_state`. -/
def moveAssignSelf (this : Status) : Status :=
  if !this.samePtr this then ⟨none⟩ else this

/-- `code`. -/
def code (s : Status) : Option Code :=
  match s.m_state with
  | none => some .kOk
  | some state => state.m_code

/-- `message`. -/
def message (s : Status) : Option (List UInt8) :=
  match s.m_state with
  | none => some []
  | some state => do state.read headerSize (← state.m_size).toNat

/-- `toString`. -/
def toString (s : Status) : Option (List UInt8) := do
  let code ← s.code
  if code = .kOk then some (literal "OK")
  else some (code.toString ++ (← s.message))

/-- `ok`. -/
def ok (s : Status) : Bool := s.m_state.isNone

/-- `operator==`. -/
def eq (s rhs : Status) : Option Bool :=
  if s.samePtr rhs then some true else do some ((← s.code) = (← rhs.code))

/-! ## Buffers that come from the constructor

`encode` is what such a buffer holds.  Everything that reads a buffer is given its value on
`encode`, and no proof outside this section looks at single bytes. -/

/-- The bytes that the private constructor writes for a message that fits. -/
def encode (code : Code) (msg : List UInt8) : List UInt8 :=
  toBytes (.ofNat msg.length) ++ toBytes code.val ++ msg

theorem ofBytes_toBytes (n : UInt16) :
    ofBytes (.ofNat (n.toNat % 256)) (.ofNat (n.toNat / 256)) = n := by
  have hlt : n.toNat < 65536 := n.toNat_lt
  apply UInt16.toNat_inj.mp
  simp only [ofBytes, UInt16.toNat_ofNat', UInt8.toNat_ofNat']
  omega

section Encode

variable {addr : ℕ} {code : Code} {msg : List UInt8}

theorem length_encode : (encode code msg).length = headerSize + msg.length := by
  simp only [encode, toBytes, headerSize, List.length_append, List.length_cons, List.length_nil]

theorem toNat_ofNat_length (h : msg.length < 65536) :
    (UInt16.ofNat msg.length).toNat = msg.length := by
  rw [UInt16.toNat_ofNat']
  exact Nat.mod_eq_of_lt h

theorem ofError_eq (h : msg.length < 65536) :
    ofError addr code msg = ⟨some ⟨addr, encode code msg⟩⟩ := by
  rw [ofError, toNat_ofNat_length h, List.take_length, encode]

@[simp] theorem m_size_encode :
    (Block.mk addr (encode code msg)).m_size = some (.ofNat msg.length) := by
  show some (ofBytes _ _) = _
  rw [ofBytes_toBytes]

@[simp] theorem m_code_encode (addr : ℕ) (code : Code) (msg : List UInt8) :
    (Block.mk addr (encode code msg)).m_code = some code := by
  show some (Code.mk (ofBytes _ _)) = _
  rw [ofBytes_toBytes]

/-- The message is read back. -/
theorem read_encode : (Block.mk addr (encode code msg)).read headerSize msg.length = some msg := by
  rw [Block.read, if_pos (Nat.le_of_eq length_encode.symm)]
  show some (msg.take msg.length) = some msg
  rw [List.take_length]

/-- The copy has the same bytes. -/
theorem copyState_encode (addr' : ℕ) (h : msg.length < 65536) :
    copyState addr' ⟨addr, encode code msg⟩ = some ⟨addr', encode code msg⟩ := by
  have hsize : (UInt16.ofNat msg.length).toNat + headerSize = (encode code msg).length := by
    rw [toNat_ofNat_length h, length_encode, Nat.add_comm]
  have hread : (Block.mk addr (encode code msg)).read 0 (encode code msg).length
      = some (encode code msg) := by
    rw [Block.read, if_pos (Nat.le_of_eq (Nat.zero_add _)), List.drop_zero, List.take_length]
  simp only [copyState, m_size_encode, Option.bind_eq_bind, Option.bind_some, hsize, hread]

end Encode

end Status
