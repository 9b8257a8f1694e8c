import CppUtility.Status.Format

/-!
# `ProcessUtils`

`isPidAvailable` asks the kernel about a process by sending it the signal 0, and puts what it hears
into a `Status`.  The answer is in the text of that `Status` only, all its errors having one code.
That is enough: `isPidAvailable_tells` says that two answers read the same only if the same was
found, the id of the process included.

* The kernel and the texts of `strerror` are arguments (`System`).  Nothing is assumed about them,
  and the two calls that are compared may be made on different systems.
* The texts are made by `Status::Error` with a format, that is, by `vsnprintf` into a buffer of 256
  bytes.  The numbers always fit; a long text of `strerror` is cut, and then only the part that is
  shown is told.
* The three messages are told apart by their first letter and by what comes after the quote behind
  the number.  A number is read back as far as it goes: the quote is not a digit (`pid_inj`).

The process itself counts as available, whatever `kill` would say about it.  The comment of the
header speaks of a process that has the same pid, and is not followed in this case.
-/

set_option autoImplicit false

namespace ProcessUtils

open Printf Status

/-- What `isPidAvailable` depends on: its argument, the id of this process, the result of `kill`
with the signal 0 (`none` for success, else `errno`), and the texts of the system. -/
structure System where
  pid : Int32
  getpid : Int32
  kill : Int32 → Option Int32
  strerror : Int32 → List UInt8

def EPERM : Int32 := 1
def ESRCH : Int32 := 3

/-- `isPidAvailable`, where the buffer of the `Status` is at `addr`. -/
def isPidAvailable (addr : ℕ) (sys : System) : Option Status :=
  if sys.pid = sys.getpid then some .OK
  else match sys.kill sys.pid with
    | none => generateFormat addr .Error (literal "Process `%d' already existed") [.int sys.pid]
    | some errno =>
      if errno = EPERM then
        generateFormat addr .Error (literal "Process `%d' already existed but denied to access")
          [.int sys.pid]
      else if errno ≠ ESRCH then
        generateFormat addr .Error (literal "Uknown error: `%s'") [.str (sys.strerror errno)]
      else some .OK

/-! ## What is found

`Found` is what the caller would like to know, and `Found.text` is how it is told.  The text is a
function of what is found (`isPidAvailable_text`), and one to one (`text_inj`). -/

/-- What there is to be found out about an id: it is free, or this process has it; another process
has it, to which signals may be sent or not; or `kill` has failed otherwise, with a text. -/
inductive Found
  | available
  | existed (pid : Int32)
  | denied (pid : Int32)
  | unknown (text : List UInt8)
  deriving DecidableEq

/-- What is found.  A long text of the system counts as far as it is shown. -/
def System.found (sys : System) : Found :=
  if sys.pid = sys.getpid then .available
  else match sys.kill sys.pid with
    | none => .existed sys.pid
    | some errno =>
      if errno = EPERM then .denied sys.pid
      else if errno ≠ ESRCH then .unknown ((cstr (sys.strerror errno) ++ literal "'").take 240)
      else .available

/-- The message about it. -/
def Found.message : Found → List UInt8
  | .available => []
  | .existed pid => literal "Process `" ++ (decimal pid.toInt ++ literal "' already existed")
  | .denied pid =>
    literal "Process `" ++ (decimal pid.toInt ++ literal "' already existed but denied to access")
  | .unknown text => literal "Uknown error: `" ++ text

/-- The text of the `Status`. -/
def Found.text : Found → List UInt8
  | .available => literal "OK"
  | found => literal "GeneralError: " ++ found.message

/-! ## The three messages -/

/-- What is printed for a number in a text. -/
theorem expand_int (before after : List UInt8) (n : Int32) (hbefore : 37 ∉ before ∧ 0 ∉ before)
    (hafter : 37 ∉ after ∧ 0 ∉ after) : expand (cstr (before ++ (37 :: 100 :: after))) [.int n]
      = some (before ++ (decimal n.toInt ++ after)) := by
  have hcstr : cstr (before ++ (37 :: 100 :: after)) = before ++ (37 :: 100 :: after) := by
    refine cstr_eq_self_iff.mpr ?_
    simp [hbefore.2, hafter.2]
  rw [hcstr, expand_text _ _ hbefore.1, expand_d, expand_plain [] hafter.1, Option.map_some,
    Option.map_some]

/-- What is printed for a string in a text. -/
theorem expand_str (before after s : List UInt8) (hbefore : 37 ∉ before ∧ 0 ∉ before)
    (hafter : 37 ∉ after ∧ 0 ∉ after) : expand (cstr (before ++ (37 :: 115 :: after))) [.str s]
      = some (before ++ (cstr s ++ after)) := by
  have hcstr : cstr (before ++ (37 :: 115 :: after)) = before ++ (37 :: 115 :: after) := by
    refine cstr_eq_self_iff.mpr ?_
    simp [hbefore.2, hafter.2]
  rw [hcstr, expand_text _ _ hbefore.1, expand_s, expand_plain [] hafter.1, Option.map_some,
    Option.map_some]

/-- There is room for a number and a text that is not too long. -/
theorem vformat_int {before after : List UInt8} {n : Int32} (hbefore : 0 ∉ before)
    (hafter : 0 ∉ after) (hlen : before.length + after.length ≤ 240) :
    vformat (before ++ (decimal n.toInt ++ after)) = before ++ (decimal n.toInt ++ after) := by
  refine vformat_eq_iff.mpr ⟨?_, ?_⟩
  · have hdecimal := length_decimal_le n
    rw [List.length_append, List.length_append]
    omega
  · have hdecimal : 0 ∉ decimal n.toInt := fun h ↦ absurd (numeral_of_mem_decimal h) (by decide)
    simp only [List.mem_append, not_or]
    exact ⟨hbefore, hdecimal, hafter⟩

/-- A string is cut where the buffer is full. -/
theorem vformat_str {before after s : List UInt8} (hbefore : 0 ∉ before) (hafter : 0 ∉ after)
    {n : ℕ} (hlen : before.length + n = 255) :
    vformat (before ++ (cstr s ++ after)) = before ++ (cstr s ++ after).take n := by
  have htake : (before ++ (cstr s ++ after)).take 255 = before ++ (cstr s ++ after).take n := by
    rw [← hlen, List.take_length_add_append]
  rw [vformat, vsnprintf, htake, cstr_eq_self_iff, List.mem_append, not_or]
  refine ⟨hbefore, fun h ↦ ?_⟩
  rcases List.mem_append.mp (List.mem_of_mem_take h) with h | h
  · exact zero_not_mem_cstr s h
  · exact hafter h

/-- An error that is made with a format. -/
theorem exists_error (addr : ℕ) {fmt printed : List UInt8} {args : List Arg}
    (h : expand (cstr fmt) args = some printed) :
    ∃ y, generateFormat addr .Error fmt args = some y ∧
      y.toString = some (literal "GeneralError: " ++ vformat printed) ∧ y.ok = false := by
  have hlen : (vformat printed).length < 65536 :=
    Nat.lt_trans (length_vformat_lt printed) (by decide)
  have hgives := givesBack_of_fits addr .Error hlen .self
  refine ⟨generatePrinted addr .Error printed, by rw [generateFormat, h, Option.map_some],
    hgives.2.2, ?_⟩
  rw [generatePrinted, generate, ofError_eq hlen]
  rfl

/-- **The `Status` says what was found.** -/
theorem isPidAvailable_text (addr : ℕ) (sys : System) : ∃ y, isPidAvailable addr sys = some y ∧
    y.toString = some sys.found.text ∧ (y.ok = true ↔ sys.found = .available) := by
  unfold isPidAvailable System.found
  split
  · exact ⟨.OK, rfl, rfl, iff_of_true rfl rfl⟩
  · split
    · obtain ⟨y, hy, htext, hok⟩ := exists_error addr (expand_int (literal "Process `")
        (literal "' already existed") sys.pid (by decide) (by decide))
      rw [vformat_int (by decide) (by decide) (by decide)] at htext
      exact ⟨y, hy, htext, by simp [hok]⟩
    · next errno _ =>
      split
      · obtain ⟨y, hy, htext, hok⟩ := exists_error addr (expand_int (literal "Process `")
          (literal "' already existed but denied to access") sys.pid (by decide) (by decide))
        rw [vformat_int (by decide) (by decide) (by decide)] at htext
        exact ⟨y, hy, htext, by simp [hok]⟩
      · split
        · obtain ⟨y, hy, htext, hok⟩ := exists_error addr (expand_str (literal "Uknown error: `")
            (literal "'") (sys.strerror errno) (by decide) (by decide))
          rw [vformat_str (by decide) (by decide) (n := 240) (by decide)] at htext
          exact ⟨y, hy, htext, by simp [hok]⟩
        · exact ⟨.OK, rfl, rfl, iff_of_true rfl rfl⟩

/-! ## Reading the text -/

/-- A number and what is behind the quote are read back. -/
theorem pid_inj {n m : Int32} {t u : List UInt8}
    (h : literal "Process `" ++ (decimal n.toInt ++ (literal "'" ++ t))
      = literal "Process `" ++ (decimal m.toInt ++ (literal "'" ++ u))) : n = m ∧ t = u := by
  obtain ⟨hnm, htext⟩ := decimal_append_inj (by decide) (by decide) (List.append_cancel_left h)
  exact ⟨Int32.toInt_inj.mp hnm, (List.cons.inj htext).2⟩

theorem message_existed (pid : Int32) : (Found.existed pid).message
    = literal "Process `" ++
      (decimal pid.toInt ++ (literal "'" ++ literal " already existed")) := by
  rw [Found.message, show literal "' already existed" = literal "'" ++ literal " already existed"
    by decide]

theorem message_denied (pid : Int32) : (Found.denied pid).message = literal "Process `" ++
    (decimal pid.toInt ++ (literal "'" ++ literal " already existed but denied to access")) := by
  rw [Found.message, show literal "' already existed but denied to access"
    = literal "'" ++ literal " already existed but denied to access" by decide]

/-- The letter that a message begins with. -/
def Found.initial : Found → Option UInt8
  | .available => none
  | .existed _ | .denied _ => some 80
  | .unknown _ => some 85

theorem head_message (found : Found) : found.message.head? = found.initial := by
  have hprocess : literal "Process `" = 80 :: literal "rocess `" := by decide
  have huknown : literal "Uknown error: `" = 85 :: literal "known error: `" := by decide
  cases found with
  | available => rfl
  | existed | denied => rw [Found.message, hprocess]; rfl
  | unknown => rw [Found.message, huknown]; rfl

/-- The message tells what was found. -/
theorem message_inj {found found' : Found} (h : found.message = found'.message) :
    found = found' := by
  have hdiffer : literal " already existed" ≠ literal " already existed but denied to access" := by
    decide
  have hhead : found.message.head? = found'.message.head? := congrArg List.head? h
  rw [head_message, head_message] at hhead
  cases found with
  | available => cases found' <;> first | rfl | cases hhead
  | existed n =>
    cases found' with
    | existed m =>
      rw [message_existed, message_existed] at h
      rw [(pid_inj h).1]
    | denied m =>
      rw [message_existed, message_denied] at h
      exact absurd (pid_inj h).2 hdiffer
    | available | unknown => cases hhead
  | denied n =>
    cases found' with
    | existed m =>
      rw [message_existed, message_denied] at h
      exact absurd (pid_inj h).2 hdiffer.symm
    | denied m =>
      rw [message_denied, message_denied] at h
      rw [(pid_inj h).1]
    | available | unknown => cases hhead
  | unknown t =>
    cases found' with
    | unknown u => rw [List.append_cancel_left h]
    | available | existed | denied => cases hhead

/-- So does the text. -/
theorem text_inj {found found' : Found} (h : found.text = found'.text) : found = found' := by
  have hstart : ∀ msg, literal "OK" ≠ literal "GeneralError: " ++ msg := by
    intro msg hmsg
    have hok : literal "OK" = [79, 75] := by decide
    have herror : literal "GeneralError: " = 71 :: literal "eneralError: " := by decide
    rw [hok, herror] at hmsg
    exact absurd (List.cons.inj hmsg).1 (by decide)
  have htext : ∀ found, found ≠ .available →
      Found.text found = literal "GeneralError: " ++ found.message := by
    intro found hne
    cases found with
    | available => exact absurd rfl hne
    | existed | denied | unknown => rfl
  by_cases hf : found = .available
  · by_cases hf' : found' = .available
    · rw [hf, hf']
    · rw [hf, htext found' hf'] at h
      exact absurd h (hstart _)
  · by_cases hf' : found' = .available
    · rw [hf', htext found hf] at h
      exact absurd h.symm (hstart _)
    · rw [htext found hf, htext found' hf'] at h
      exact message_inj (List.append_cancel_left h)

/-- **The text of the answer tells what was found**: whether the id is free, is taken, is taken by a
process that must not be sent signals, or could not be asked for, and which id it is.  The answer is
OK exactly when the id is free or that of this process. -/
theorem isPidAvailable_tells (addr addr' : ℕ) (sys sys' : System) :
    ∃ y y', isPidAvailable addr sys = some y ∧ isPidAvailable addr' sys' = some y' ∧
      (y.toString = y'.toString ↔ sys.found = sys'.found) ∧
      (y.ok = true ↔ sys.pid = sys.getpid ∨ sys.kill sys.pid = some ESRCH) := by
  obtain ⟨y, hy, htext, hok⟩ := isPidAvailable_text addr sys
  obtain ⟨y', hy', htext', -⟩ := isPidAvailable_text addr' sys'
  refine ⟨y, y', hy, hy', ?_, hok.trans ?_⟩
  · rw [htext, htext', Option.some_inj]
    exact ⟨text_inj, congrArg Found.text⟩
  · unfold System.found
    split
    · next hself => exact iff_of_true rfl (.inl hself)
    · next hself =>
      rw [or_iff_right hself]
      split
      · next hkill => simp [hkill]
      · next errno hkill =>
        rw [hkill, Option.some_inj]
        split
        · next hperm => simp [hperm, EPERM, ESRCH]
        · split
          · next hne => simp [hne]
          · next he => simp [not_not.mp he]

end ProcessUtils
