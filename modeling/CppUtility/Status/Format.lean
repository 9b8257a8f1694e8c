import CppUtility.Printf
import CppUtility.Status.Layout

/-!
# `Status` with a format

Each kind of error has a second constructor, which takes a format and arguments as `printf` does.
The static `format` prints them into a buffer of 256 bytes with `vsnprintf`, and makes a string of
the buffer, which ends at the first NUL.  A message can lose something in two places, then: behind
the first 255 bytes, and behind a NUL that is printed with `%c`.

The string then goes to the constructor of `CppUtility.Status.Layout`.  It is shorter than 256 bytes
(`length_vformat_lt`), so that nothing more is lost there.

The printed text is a parameter here (`generatePrinted`), so that `formatted_iff` is about every
format: the message is what `printf` would print, cut in these two places, and it is all of it
exactly when the text is shorter than 256 bytes and has no NUL.  `vsnprintf` is taken to succeed;
when it reports an encoding error instead, the contents of the buffer are not specified.

For the formats that this repository has, `Printf.expand` says what is printed, and `generateFormat`
is the constructor with a format and its arguments.
-/

set_option autoImplicit false

namespace Status

open Printf

/-- The static `format`, where `printed` is what `printf` would print: a string is made of the
buffer. -/
def vformat (printed : List UInt8) : List UInt8 := cstr (vsnprintf 256 printed)

/-- `Error(fmt, …)`, `NoSuchFile(fmt, …)` or `NotSupported(fmt, …)`, where `printf` would print
`printed`, with the buffer at `addr`. -/
def generatePrinted (addr : ℕ) (kind : Kind) (printed : List UInt8) : Status :=
  generate addr kind (vformat printed)

/-- The same for a format and arguments of which `Printf.expand` says what is printed. -/
def generateFormat (addr : ℕ) (kind : Kind) (fmt : List UInt8) (args : List Arg) : Option Status :=
  (expand (cstr fmt) args).map (generatePrinted addr kind)

theorem length_vformat_lt (printed : List UInt8) : (vformat printed).length < 256 :=
  Nat.lt_of_le_of_lt (List.takeWhile_prefix _).length_le
    (Nat.lt_succ_of_le (List.length_take_le ..))

/-- The string is the whole text exactly when the buffer has room for it and no NUL is printed. -/
theorem vformat_eq_iff {printed : List UInt8} :
    vformat printed = printed ↔ printed.length < 256 ∧ 0 ∉ printed := by
  constructor
  · intro h
    rw [← h]
    exact ⟨length_vformat_lt printed, zero_not_mem_cstr _⟩
  · rintro ⟨hlen, hzero⟩
    rw [vformat, vsnprintf, List.take_of_length_le (Nat.le_of_lt_succ hlen),
      cstr_eq_self_iff.mpr hzero]

/-- **A formatted error gives back what `printf` would print**, cut after 255 bytes and before the
first NUL, and so does everything that is copied or moved from it; it gives back all of it exactly
when it is shorter than 256 bytes and has no NUL. -/
theorem formatted_iff (addr : ℕ) (kind : Kind) (printed : List UInt8) :
    (∀ x, Obtained (generatePrinted addr kind printed) x →
      GivesBack kind (cstr (printed.take 255)) x) ∧
    ((∀ x, Obtained (generatePrinted addr kind printed) x → GivesBack kind printed x) ↔
      printed.length < 256 ∧ 0 ∉ printed) := by
  have hlen : (vformat printed).length < 65536 :=
    Nat.lt_trans (length_vformat_lt printed) (by decide)
  have hgives : ∀ x, Obtained (generatePrinted addr kind printed) x →
      GivesBack kind (vformat printed) x := fun x hx ↦ givesBack_of_fits addr kind hlen hx
  refine ⟨hgives, ?_⟩
  rw [← vformat_eq_iff]
  constructor
  · intro hwhole
    -- one object does not give back two messages
    have hcut := (hgives _ .self).2.1
    exact Option.some_inj.mp (hcut.symm.trans (hwhole _ .self).2.1)
  · intro heq x hx
    have hx' := hgives x hx
    rwa [heq] at hx'

/-- The text of an error that names a file. -/
example :
    (expand (cstr (literal "not found file %s")) [.str (literal "helloworld.txt")]).map vformat
      = some (literal "not found file helloworld.txt") := by
  decide

end Status
