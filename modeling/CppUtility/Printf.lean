import Mathlib.Data.List.TakeWhile
import Mathlib.Data.Nat.Notation
import Mathlib.Logic.Basic

/-!
# `printf`

Two things are to be said about a formatted message, and they do not need the same knowledge of
`printf`.

* **Where the text goes.**  `vsnprintf` puts what `printf` would print into a buffer, as far as
  there is room before the NUL.  For this the text itself is enough, whatever the conversions were
  that it comes from.
* **What the text is.**  `expand` makes the text of a format and its arguments, for the conversions
  `%d`, `%s` and `%%`.  It is `none` where this file does not say what is printed: for all other
  conversions, for flags, widths and precisions, and for arguments that do not fit the format.

An expansion is computed piece by piece, from `expand_text`, `expand_d` and `expand_s`: a format is
text, a conversion and the rest, and each of the three lemmas takes one piece off its front.

A message is there to be read, and what can be read back from it is what it says.  A number can be
read back if the character behind it is neither a digit nor a `-`: it is then the longest piece at
the front of the text that has only such characters (`decimal_append_inj`).
-/

set_option autoImplicit false

namespace Printf

/-- An argument: an `int`, or a `const char*` to these bytes. -/
inductive Arg
  | int (n : Int32)
  | str (s : List UInt8)
  deriving DecidableEq

/-- What a format is made of. -/
inductive Directive
  | char (c : UInt8)
  | d
  | s
  deriving DecidableEq

/-- The string that a pointer to these bytes stands for. -/
def cstr (bytes : List UInt8) : List UInt8 := bytes.takeWhile (· ≠ 0)

/-- A digit, as a byte. -/
def digit (c : Char) : UInt8 := .ofNat c.toNat

/-- A number in decimal. -/
def decimal : Int → List UInt8
  | .ofNat n => (Nat.toDigits 10 n).map digit
  | .negSucc n => 45 :: (Nat.toDigits 10 (n + 1)).map digit

/-- The directive that `%` begins, by the character behind it. -/
def conversion (c : UInt8) : Option Directive :=
  if c = 37 then some (.char 37)
  else if c = 100 then some .d
  else if c = 115 then some .s
  else none

/-- A format, read from left to right. -/
def parse : List UInt8 → Option (List Directive)
  | [] => some []
  | [c] => if c = 37 then none else some [.char c]
  | c :: k :: fmt =>
    if c = 37 then (conversion k).bind fun directive ↦ (parse fmt).map (directive :: ·)
    else (parse (k :: fmt)).map (.char c :: ·)

/-- The text for a format and its arguments. -/
def render : List Directive → List Arg → Option (List UInt8)
  | [], _ => some []
  | .char c :: ds, args => (render ds args).map (c :: ·)
  | .d :: ds, .int n :: args => (render ds args).map (decimal n.toInt ++ ·)
  | .s :: ds, .str s :: args => (render ds args).map (cstr s ++ ·)
  | _ :: _, _ => none

/-- What `printf` prints for a format of text, `%d`, `%s` and `%%`, and arguments that fit. -/
def expand (fmt : List UInt8) (args : List Arg) : Option (List UInt8) :=
  (parse fmt).bind fun ds ↦ render ds args

/-- What `vsnprintf` leaves in a buffer of `size` bytes before its NUL, when `printed` is what
`printf` would print. -/
def vsnprintf (size : ℕ) (printed : List UInt8) : List UInt8 := printed.take (size - 1)

/-! ## Piece by piece -/

theorem cstr_eq_self_iff {s : List UInt8} : cstr s = s ↔ 0 ∉ s := by
  rw [cstr, List.takeWhile_eq_self_iff]
  constructor
  · intro h hzero
    exact absurd (h 0 hzero) (by decide)
  · intro h c hc
    exact decide_eq_true fun hzero ↦ h (hzero ▸ hc)

/-- A string has no NUL in it. -/
theorem zero_not_mem_cstr (bytes : List UInt8) : 0 ∉ cstr bytes :=
  cstr_eq_self_iff.mp (List.takeWhile_idem ..)

theorem expand_nil (args : List Arg) : expand [] args = some [] := rfl

theorem parse_char {c : UInt8} (fmt : List UInt8) (h : c ≠ 37) :
    parse (c :: fmt) = (parse fmt).map (.char c :: ·) := by
  cases fmt with
  | nil => exact if_neg h
  | cons k fmt => exact if_neg h

/-- Text without `%` is copied. -/
theorem expand_text {text : List UInt8} (fmt : List UInt8) (args : List Arg) (h : 37 ∉ text) :
    expand (text ++ fmt) args = (expand fmt args).map (text ++ ·) := by
  induction text with
  | nil => exact Option.map_id'.symm
  | cons c text ih =>
    obtain ⟨hc, htext⟩ := not_or.mp (mt List.mem_cons.mpr h)
    have hcons : ∀ fmt, expand (c :: fmt) args = (expand fmt args).map (c :: ·) := by
      intro fmt
      rw [expand, parse_char fmt (Ne.symm hc), Option.bind_map, expand, Option.map_bind]
      rfl
    rw [List.cons_append, hcons, ih htext, Option.map_map]
    rfl

/-- Text without `%` is a format by itself. -/
theorem expand_plain {text : List UInt8} (args : List Arg) (h : 37 ∉ text) :
    expand text args = some text := by
  have htext := expand_text [] args h
  rwa [List.append_nil, expand_nil, Option.map_some, List.append_nil] at htext

theorem expand_d (fmt : List UInt8) (n : Int32) (args : List Arg) :
    expand (37 :: 100 :: fmt) (.int n :: args) = (expand fmt args).map (decimal n.toInt ++ ·) := by
  have hparse : parse (37 :: 100 :: fmt) = (parse fmt).map (.d :: ·) := rfl
  rw [expand, hparse, Option.bind_map, expand, Option.map_bind]
  rfl

theorem expand_s (fmt s : List UInt8) (args : List Arg) :
    expand (37 :: 115 :: fmt) (.str s :: args) = (expand fmt args).map (cstr s ++ ·) := by
  have hparse : parse (37 :: 115 :: fmt) = (parse fmt).map (.s :: ·) := rfl
  rw [expand, hparse, Option.bind_map, expand, Option.map_bind]
  rfl

/-! ## Numbers -/

/-- The bytes of a numeral: `-` and the digits. -/
def numeral (b : UInt8) : Bool := b = 45 || (48 ≤ b.toNat && b.toNat < 58)

/-- The number that some digits stand for, after the one that the digits before them do. -/
def value (init : ℕ) (digits : List UInt8) : ℕ :=
  digits.foldl (fun n b ↦ 10 * n + (b.toNat - 48)) init

theorem toNat_digit {c : Char} (h : c.isDigit = true) :
    (digit c).toNat = c.toNat ∧ 48 ≤ c.toNat ∧ c.toNat < 58 := by
  obtain ⟨hle, hlt⟩ : 48 ≤ c.toNat ∧ c.toNat ≤ 57 := Char.isDigit_iff_toNat.mp h
  refine ⟨?_, hle, Nat.lt_succ_of_le hlt⟩
  rw [digit, UInt8.toNat_ofNat']
  omega

theorem isDigit_toDigits {n : ℕ} : ∀ c ∈ Nat.toDigits 10 n, c.isDigit = true :=
  fun _ hc ↦ Nat.isDigit_of_mem_toDigits (by decide) (by decide) hc

theorem value_map_digit {l : List Char} (init : ℕ) (h : ∀ c ∈ l, c.isDigit = true) :
    value init (l.map digit) = Nat.ofDigitChars 10 l init := by
  induction l generalizing init with
  | nil => rw [Nat.ofDigitChars_nil]; rfl
  | cons c l ih =>
    obtain ⟨hc, hl⟩ := List.forall_mem_cons.mp h
    rw [Nat.ofDigitChars_cons, ← ih _ hl, ← (toNat_digit hc).1]
    rfl

/-- A number can be read back from its digits. -/
theorem value_toDigits (n : ℕ) : value 0 ((Nat.toDigits 10 n).map digit) = n := by
  rw [value_map_digit 0 isDigit_toDigits, Nat.ofDigitChars_ten_toDigits]

theorem digit_ne_minus {c : Char} (h : c.isDigit = true) : digit c ≠ 45 := by
  intro heq
  have htoNat := toNat_digit h
  rw [heq] at htoNat
  have hfortyfive : (45 : UInt8).toNat = 45 := rfl
  omega

theorem minus_not_mem (n : ℕ) : 45 ∉ (Nat.toDigits 10 n).map digit := by
  intro hin
  obtain ⟨c, hc, hdigit⟩ := List.mem_map.mp hin
  exact digit_ne_minus (isDigit_toDigits c hc) hdigit

theorem decimal_inj {n m : Int} (h : decimal n = decimal m) : n = m := by
  have hinj : ∀ a b : ℕ, (Nat.toDigits 10 a).map digit = (Nat.toDigits 10 b).map digit → a = b :=
    fun a b hab ↦ by rw [← value_toDigits a, hab, value_toDigits]
  -- only a negative number begins with a minus sign
  have hminus : ∀ a b : ℕ, decimal (.ofNat a) ≠ decimal (.negSucc b) := by
    intro a b hab
    have hin : 45 ∈ decimal (.negSucc b) := List.mem_cons_self
    rw [← hab] at hin
    exact minus_not_mem a hin
  cases n with
  | ofNat n =>
    cases m with
    | ofNat m => rw [hinj n m h]
    | negSucc m => exact absurd h (hminus n m)
  | negSucc n =>
    cases m with
    | ofNat m => exact absurd h.symm (hminus m n)
    | negSucc m => rw [Nat.succ_inj.mp (hinj _ _ (List.cons.inj h).2)]

theorem numeral_of_mem_decimal {n : Int} {b : UInt8} (h : b ∈ decimal n) : numeral b = true := by
  have hdigit : ∀ m : ℕ, b ∈ (Nat.toDigits 10 m).map digit → numeral b = true := by
    intro m hin
    obtain ⟨c, hc, rfl⟩ := List.mem_map.mp hin
    obtain ⟨htoNat, hlo, hhi⟩ := toNat_digit (isDigit_toDigits c hc)
    simp [numeral, htoNat, hlo, hhi]
  cases n with
  | ofNat n => exact hdigit n h
  | negSucc n =>
    rcases List.mem_cons.mp h with rfl | h
    · rfl
    · exact hdigit _ h

/-- **A number can be read back from a text**, if what is behind it cannot belong to it. -/
theorem decimal_append_inj {n m : Int} {b c : UInt8} {t u : List UInt8} (hb : numeral b = false)
    (hc : numeral c = false) (h : decimal n ++ b :: t = decimal m ++ c :: u) :
    n = m ∧ b :: t = c :: u := by
  have hread : ∀ (k : Int) (d : UInt8) (v : List UInt8), numeral d = false →
      (decimal k ++ d :: v).takeWhile numeral = decimal k := by
    intro k d v hd
    rw [List.takeWhile_append_of_pos fun _ ↦ numeral_of_mem_decimal, List.takeWhile_cons_of_neg,
      List.append_nil]
    simp [hd]
  have hnm : decimal n = decimal m := by rw [← hread n b t hb, h, hread m c u hc]
  refine ⟨decimal_inj hnm, ?_⟩
  rw [hnm] at h
  exact List.append_cancel_left h

/-- An `int` has at most ten digits and a sign. -/
theorem length_decimal_le (n : Int32) : (decimal n.toInt).length ≤ 11 := by
  have hdigits : ∀ m : ℕ, m < 10 ^ 10 → ((Nat.toDigits 10 m).map digit).length ≤ 10 := by
    intro m hm
    rw [List.length_map]
    exact (Nat.length_toDigits_le_iff (by decide) (by decide)).mpr hm
  have hlt : n.toInt < 2 ^ 31 := n.toInt_lt
  have hle : -2 ^ 31 ≤ n.toInt := n.le_toInt
  cases hn : n.toInt with
  | ofNat m =>
    rw [hn, Int.ofNat_eq_natCast] at hlt
    exact Nat.le_trans (hdigits m (by omega)) (by decide)
  | negSucc m => exact Nat.succ_le_succ (hdigits (m + 1) (by omega))

end Printf
