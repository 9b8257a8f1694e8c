import Mathlib.Data.Nat.Notation
import Mathlib.Logic.Function.Basic

/-!
# `IstreamLineReader`: the lines of a stream in a range-for loop

An iterator of an `IstreamLineReader` holds a pointer to the stream and one line that it has read
ahead; it becomes the end iterator when `getline` fails.  All that is remembered about how far the
stream has been read is in the stream itself: the characters that are left and two flags.

A loop may be broken off in the body of any line, and another one begun on the same stream.
`consume_lines` says that however a text is read in this way, its lines are seen once each and in
order, and that every loop ends.

* `getline` is that of the standard: the characters up to the next newline, which is extracted and
  not stored; at the end of the stream `eofbit` is set, and `failbit` when there was no character
  left to extract.  So a last line without a newline is read with `eofbit` alone, and it is the next
  call that fails.
* A loop is written out as the language defines it, with `begin`, `end`, `!=`, `*` and `++`.  How
  many rounds it has is bounded by a number, and `none` means that they were not enough.
* The body of a loop is reduced to what the loop depends on: whether it breaks off.

What a loop has ahead of it is `IStream.linesLeft`, and `getline_eq` is the one fact about `getline`
that the proof needs: it reads the first line that is left, or fails.  `lines` itself is defined on
the text, by splitting it, and knows nothing of streams.
-/

set_option autoImplicit false

namespace IstreamLineReader

/-- The text of a line, without its newline character. -/
abbrev Line := List Char

/-! ## The standard library -/

/-- A `std::istream`: the characters that have not been extracted, and the flags.  (`badbit` is not
set by anything here.) -/
structure IStream where
  buf : List Char
  eofbit : Bool
  failbit : Bool
  deriving DecidableEq, Repr

namespace IStream

/-- A stream from which nothing has been read. -/
def ofContent (content : List Char) : IStream := ⟨content, false, false⟩

/-- `good()`. -/
def good (is : IStream) : Bool := !is.eofbit && !is.failbit

/-- `fail()`. -/
def fail (is : IStream) : Bool := is.failbit

end IStream

/-- `std::getline(is, str)`: the stream afterwards, and `str`. -/
def getline (is : IStream) (str : Line) : IStream × Line :=
  if !is.good then ({ is with failbit := true }, str)
  else
    let line := is.buf.takeWhile (· ≠ '\n')
    match is.buf.dropWhile (· ≠ '\n') with
    | _ :: rest => ({ is with buf := rest }, line)
    | [] => (⟨[], true, line.isEmpty⟩, line)

/-- What ends a function other than by returning: a failed `assert`, or an exception. -/
inductive Fault
  | assertion
  | logic_error (what_arg : String)
  | runtime_error (what_arg : String)
  deriving DecidableEq, Repr

/-! ## The iterator

The iterators of a stream share it, and a function that reads is given all streams and gives them
back.  An `assert` that fails is an error here, as it is in a build that has assertions. -/

/-- The streams of a program, by their addresses. -/
abbrev Streams (S : Type) := S → IStream

/-- `IstreamLineReader::iterator`. -/
structure Iterator (S : Type) where
  m_stream : Option S
  m_line : Line
  deriving DecidableEq

variable {S : Type} [DecidableEq S]

namespace Iterator

omit [DecidableEq S] in
/-- `operator*`. -/
def deref (it : Iterator S) : Except Fault Line :=
  if it.m_stream.isSome then .ok it.m_line else .error .assertion

/-- The prefix `operator++`. -/
def incr (it : Iterator S) (ss : Streams S) : Except Fault (Streams S × Iterator S) :=
  match it.m_stream with
  | none => .error .assertion
  | some p =>
    let r := getline (ss p) it.m_line
    .ok (Function.update ss p r.1, ⟨if r.1.fail then none else some p, r.2⟩)

/-- The postfix `operator++`; the last component is its result. -/
def postIncr (it : Iterator S) (ss : Streams S) :
    Except Fault (Streams S × Iterator S × Iterator S) := do
  let tmp := it
  let (ss, it) ← it.incr ss
  return (ss, it, tmp)

/-- `operator==`. -/
def eq (it rhs : Iterator S) : Bool := it.m_stream = rhs.m_stream

omit [DecidableEq S] in
/-- The default constructor. -/
def null : Iterator S := ⟨none, []⟩

/-- The constructor from a stream. -/
def new (p : S) (ss : Streams S) : Except Fault (Streams S × Iterator S) := incr ⟨some p, []⟩ ss

end Iterator

end IstreamLineReader

/-! ## The reader, and loops over it -/

/-- `IstreamLineReader`. -/
structure IstreamLineReader (S : Type) where
  m_stream : Option S
  deriving DecidableEq

namespace IstreamLineReader

variable {S : Type} [DecidableEq S]

/-- `begin`. -/
def begin (r : IstreamLineReader S) (ss : Streams S) : Except Fault (Streams S × Iterator S) :=
  match r.m_stream with
  | none => .error (.logic_error "input stream is null")
  | some p =>
    if (ss p).fail then .error (.runtime_error "input stream is null") else Iterator.new p ss

omit [DecidableEq S] in
/-- `end`. -/
def end_ (_ : IstreamLineReader S) : Iterator S := .null

/-- The body of a loop, as far as the loop depends on it: whether it breaks the loop off, after the
lines that the loop has seen, the current one included. -/
abbrev Body := List Line → Bool

/-- What a loop has done: the streams afterwards, the lines it has seen, and whether it was broken
off. -/
structure Outcome (S : Type) where
  streams : Streams S
  seen : List Line
  broken : Bool

/-- `for (; begin != end; ++begin) { auto& line = *begin; … }`, in at most `n` rounds (`none` if
these are not enough), when the loop has seen some lines already. -/
def loop (stop : Iterator S) (body : Body) :
    ℕ → Streams S → Iterator S → List Line → Except Fault (Option (Outcome S))
  | 0, _, _, _ => .ok none
  | n + 1, ss, it, seen =>
    if it.eq stop then .ok (some ⟨ss, seen, false⟩)
    else do
      let line ← it.deref
      if body (seen ++ [line]) then return some ⟨ss, seen ++ [line], true⟩
      else
        let (ss, it) ← it.incr ss
        loop stop body n ss it (seen ++ [line])

/-- The range-for loop over a reader. -/
def rangeFor (r : IstreamLineReader S) (body : Body) (n : ℕ) (ss : Streams S) :
    Except Fault (Option (Outcome S)) := do
  let (ss, it) ← r.begin ss
  loop r.end_ body n ss it []

/-- `while (it != end) { use(*it++); }`, in at most `n` rounds, when some lines have been used. -/
def postLoop (stop : Iterator S) :
    ℕ → Streams S → Iterator S → List Line → Except Fault (Option (List Line))
  | 0, _, _, _ => .ok none
  | n + 1, ss, it, seen =>
    if it.eq stop then .ok (some seen)
    else do
      let (ss, it, tmp) ← it.postIncr ss
      let line ← tmp.deref
      postLoop stop n ss it (seen ++ [line])

/-- A traversal of a reader with `*it++`. -/
def traverse (r : IstreamLineReader S) (n : ℕ) (ss : Streams S) :
    Except Fault (Option (List Line)) := do
  let (ss, it) ← r.begin ss
  postLoop r.end_ n ss it []

/-- Consecutive loops over readers of the stream at `p`, each of at most `n` rounds.  After a loop
that was broken off comes the next one; after the last body comes a loop that is not broken off. -/
def consume (p : S) (n : ℕ) : List Body → Streams S → Except Fault (Option (List (Outcome S)))
  | [], ss => do
    let o ← rangeFor ⟨some p⟩ (fun _ ↦ false) n ss
    return o.map ([·])
  | body :: bodies, ss => do
    match ← rangeFor ⟨some p⟩ body n ss with
    | none => return none
    | some o =>
      if o.broken then return (← consume p n bodies o.streams).map (o :: ·) else return some [o]

/-! ## The lines of a text -/

/-- The pieces of the text between successive newline characters, the last one, which no newline
ends, only if it is not empty. -/
def lines (content : List Char) : List Line :=
  let pieces := content.splitOn '\n'
  if pieces.getLast? = some [] then pieces.dropLast else pieces

example : lines "a\n\nb".toList = ["a".toList, [], "b".toList] := by decide

theorem lines_terminated {l : List Char} (rest : List Char) (h : '\n' ∉ l) :
    lines (l ++ '\n' :: rest) = l :: lines rest := by
  have hne : rest.splitOn '\n' ≠ [] := List.splitOn_ne_nil _ _
  rw [lines, List.splitOn_append_cons_self_of_not_mem h, lines, List.getLast?_cons_of_ne_nil hne,
    List.dropLast_cons_of_ne_nil hne]
  split <;> rfl

theorem lines_unterminated {l : List Char} (h : '\n' ∉ l) (hne : l ≠ []) : lines l = [l] := by
  rw [lines, List.splitOn_eq_singleton h]
  simp [hne]

/-! ## What a loop has ahead of it

A loop that is broken off leaves a stream with some lines left, from which the next loop goes on.
The line in whose body it was broken off has been read and has been seen, so it does not come again.
-/

/-- The lines that can still be read. -/
def IStream.linesLeft (is : IStream) : List Line := if is.good then lines is.buf else []

/-- **One `getline`.**  It reads the first line that is left, and fails if there is none. -/
theorem getline_eq (is : IStream) (str : Line) (hfail : is.fail = false) :
    match is.linesLeft with
    | [] => (getline is str).1.fail = true
    | l :: ls => ∃ is', getline is str = (is', l) ∧ is'.fail = false ∧ is'.linesLeft = ls := by
  obtain ⟨buf, eofbit, failbit⟩ := is
  obtain rfl : failbit = false := hfail
  cases eofbit with
  | true => rfl
  | false =>
    have hbuf : buf.takeWhile (· ≠ '\n') ++ buf.dropWhile (· ≠ '\n') = buf :=
      List.takeWhile_append_dropWhile
    have hline : '\n' ∉ buf.takeWhile (· ≠ '\n') := fun h ↦ by
      simpa using List.all_eq_true.mp List.all_takeWhile _ h
    have hleft : (IStream.mk buf false false).linesLeft = lines buf := rfl
    have hget : getline ⟨buf, false, false⟩ str =
        match buf.dropWhile (· ≠ '\n') with
        | _ :: rest => (⟨rest, false, false⟩, buf.takeWhile (· ≠ '\n'))
        | [] => (⟨[], true, (buf.takeWhile (· ≠ '\n')).isEmpty⟩, buf.takeWhile (· ≠ '\n')) := rfl
    rw [hleft, hget]
    cases hdrop : buf.dropWhile (· ≠ '\n') with
    | nil =>
      -- the text ends without a newline
      rw [hdrop, List.append_nil] at hbuf
      by_cases hempty : buf = []
      · subst hempty
        rfl
      · rw [hbuf, lines_unterminated (hbuf ▸ hline) hempty]
        exact ⟨_, rfl, by simpa [IStream.fail] using hempty, rfl⟩
    | cons c rest =>
      have hc : c = '\n' := by
        have hhead := List.head?_dropWhile_not (· ≠ '\n') buf
        rw [hdrop] at hhead
        simpa using hhead
      rw [hdrop, hc] at hbuf
      have hlines : lines buf = buf.takeWhile (· ≠ '\n') :: lines rest := by
        rw [← lines_terminated rest hline, hbuf]
      rw [hlines]
      exact ⟨_, rfl, rfl, rfl⟩

/-- The iterator goes to the next line that is left, or becomes the end iterator. -/
theorem incr_eq {p : S} {ss : Streams S} (l : Line) (hfail : (ss p).fail = false) :
    match (ss p).linesLeft with
    | [] => ∃ ss' l', (Iterator.mk (some p) l).incr ss = .ok (ss', ⟨none, l'⟩)
    | l' :: ls => ∃ ss', (Iterator.mk (some p) l).incr ss = .ok (ss', ⟨some p, l'⟩) ∧
        (ss' p).fail = false ∧ (ss' p).linesLeft = ls := by
  have hget := getline_eq (ss p) l hfail
  cases hleft : (ss p).linesLeft with
  | nil =>
    rw [hleft] at hget
    exact ⟨_, _, by simp only [Iterator.incr, hget, if_true]; rfl⟩
  | cons l' ls =>
    rw [hleft] at hget
    obtain ⟨is', hline, hok, hls⟩ := hget
    refine ⟨Function.update ss p is', ?_, ?_, ?_⟩
    · simp [Iterator.incr, hline, hok]
    · rw [Function.update_self, hok]
    · rw [Function.update_self, hls]

section Rounds

variable {body : Body} {n : ℕ} {ss ss' : Streams S} {p : S} {l : Line} {seen : List Line}
  {it : Iterator S}

theorem loop_end : loop .null body (n + 1) ss ⟨none, l⟩ seen = .ok (some ⟨ss, seen, false⟩) := rfl

theorem loop_break (hbody : body (seen ++ [l]) = true) :
    loop .null body (n + 1) ss ⟨some p, l⟩ seen = .ok (some ⟨ss, seen ++ [l], true⟩) := by
  rw [loop, if_neg (by simp [Iterator.eq, Iterator.null])]
  exact if_pos hbody

theorem loop_next (hbody : ¬body (seen ++ [l]) = true)
    (hincr : (Iterator.mk (some p) l).incr ss = .ok (ss', it)) :
    loop .null body (n + 1) ss ⟨some p, l⟩ seen = loop .null body n ss' it (seen ++ [l]) := by
  rw [loop, if_neg (by simp [Iterator.eq, Iterator.null])]
  refine (if_neg hbody).trans ?_
  rw [hincr]
  rfl

theorem postLoop_next (hincr : (Iterator.mk (some p) l).incr ss = .ok (ss', it)) :
    postLoop .null (n + 1) ss ⟨some p, l⟩ seen = postLoop .null n ss' it (seen ++ [l]) := by
  rw [postLoop, if_neg (by simp [Iterator.eq, Iterator.null]), Iterator.postIncr, hincr]
  rfl

end Rounds

/-- What a loop over the lines `ls` comes to: broken off by its body, it leaves the lines that it
has not seen, and otherwise it has seen all of them. -/
structure Reads (body : Body) (p : S) (ls : List Line) (o : Outcome S) : Prop where
  asked : o.broken = true → body o.seen = true
  left : o.broken = true → (o.streams p).fail = false ∧ o.seen ++ (o.streams p).linesLeft = ls
  all : o.broken = false → o.seen = ls

/-- The loop from the line `l` on, when the lines `ls` come after it. -/
theorem loop_reads (body : Body) (l : Line) (seen : List Line) {n : ℕ} {p : S} {ss : Streams S}
    {ls : List Line} (hfail : (ss p).fail = false) (hleft : (ss p).linesLeft = ls)
    (hn : ls.length + 2 ≤ n) :
    ∃ o, loop .null body n ss ⟨some p, l⟩ seen = .ok (some o) ∧
      Reads body p (seen ++ l :: ls) o := by
  induction ls generalizing n ss l seen with
  | nil =>
    obtain ⟨n, rfl⟩ := Nat.exists_eq_add_of_le' hn
    have hincr := incr_eq l hfail
    rw [hleft] at hincr
    obtain ⟨ss', l', hincr⟩ := hincr
    by_cases hbody : body (seen ++ [l]) = true
    · exact ⟨_, loop_break hbody, fun _ ↦ hbody, fun _ ↦ ⟨hfail, by simp [hleft]⟩, nofun⟩
    · exact ⟨_, (loop_next hbody hincr).trans loop_end, nofun, nofun, fun _ ↦ rfl⟩
  | cons l' ls ih =>
    obtain ⟨n, rfl⟩ := Nat.exists_eq_add_of_le' hn
    have hincr := incr_eq l hfail
    rw [hleft] at hincr
    obtain ⟨ss', hincr, hfail', hleft'⟩ := hincr
    by_cases hbody : body (seen ++ [l]) = true
    · exact ⟨_, loop_break hbody, fun _ ↦ hbody, fun _ ↦ ⟨hfail, by simp [hleft]⟩, nofun⟩
    · have hle : ls.length + 2 ≤ n + (ls.length + 2) := Nat.le_add_left _ _
      obtain ⟨o, ho, hreads⟩ := ih l' (seen ++ [l]) hfail' hleft' hle
      refine ⟨o, (loop_next hbody hincr).trans ho, ?_⟩
      rwa [List.append_assoc, List.singleton_append] at hreads

theorem begin_eq {p : S} {ss : Streams S} (hfail : (ss p).fail = false) :
    (IstreamLineReader.mk (some p)).begin ss = (Iterator.mk (some p) []).incr ss := by
  simp [begin, hfail, Iterator.new]

/-- **One loop**, over a reader of a stream that has not failed. -/
theorem rangeFor_reads (body : Body) {n : ℕ} {p : S} {ss : Streams S}
    (hfail : (ss p).fail = false) (hn : (ss p).linesLeft.length + 1 ≤ n) :
    ∃ o, rangeFor ⟨some p⟩ body n ss = .ok (some o) ∧ Reads body p (ss p).linesLeft o := by
  have hincr := incr_eq [] hfail
  cases hleft : (ss p).linesLeft with
  | nil =>
    rw [hleft] at hincr hn
    obtain ⟨ss', l', hincr⟩ := hincr
    obtain ⟨n, rfl⟩ := Nat.exists_eq_add_of_le' hn
    refine ⟨⟨ss', [], false⟩, ?_, nofun, nofun, fun _ ↦ rfl⟩
    rw [rangeFor, begin_eq hfail, hincr]
    rfl
  | cons l ls =>
    rw [hleft] at hincr hn
    obtain ⟨ss', hincr, hfail', hleft'⟩ := hincr
    obtain ⟨o, ho, hreads⟩ := loop_reads body l [] hfail' hleft' hn
    refine ⟨o, ?_, hreads⟩
    rw [rangeFor, begin_eq hfail, hincr]
    exact ho

/-- Consecutive loops see the lines that are left. -/
theorem consume_eq (p : S) {n : ℕ} (bodies : List Body) {ss : Streams S}
    (hfail : (ss p).fail = false) (hn : (ss p).linesLeft.length + 1 ≤ n) :
    ∃ outs, consume p n bodies ss = .ok (some outs) ∧
      outs.flatMap Outcome.seen = (ss p).linesLeft ∧
      (∀ o ∈ outs.dropLast, o.broken = true) ∧ outs.getLast?.map Outcome.broken = some false := by
  induction bodies generalizing ss with
  | nil =>
    obtain ⟨o, ho, hreads⟩ := rangeFor_reads (fun _ ↦ false) hfail hn
    have hbroken : o.broken = false := Bool.eq_false_iff.mpr fun h ↦ by simpa using hreads.asked h
    refine ⟨[o], ?_, by simp [hreads.all hbroken], by simp, by simp [hbroken]⟩
    rw [consume, ho]
    rfl
  | cons body bodies ih =>
    obtain ⟨o, ho, hreads⟩ := rangeFor_reads body hfail hn
    cases hbroken : o.broken with
    | false =>
      refine ⟨[o], ?_, by simp [hreads.all hbroken], by simp, by simp [hbroken]⟩
      rw [consume, ho]
      exact if_neg (Bool.eq_false_iff.mp hbroken)
    | true =>
      obtain ⟨hfail', hleft⟩ := hreads.left hbroken
      have hn' : (o.streams p).linesLeft.length + 1 ≤ n := by
        rw [← hleft, List.length_append] at hn
        omega
      obtain ⟨outs, houts, hseen, hdrop, hlast⟩ := ih hfail' hn'
      have hne : outs ≠ [] := by
        rintro rfl
        cases hlast
      refine ⟨o :: outs, ?_, ?_, ?_, ?_⟩
      · rw [consume, ho]
        refine (if_pos hbroken).trans ?_
        rw [houts]
        rfl
      · rw [List.flatMap_cons, hseen, hleft]
      · rw [List.dropLast_cons_of_ne_nil hne]
        exact List.forall_mem_cons.mpr ⟨hbroken, hdrop⟩
      · rw [List.getLast?_cons_of_ne_nil hne, hlast]

/-- `*it++` from the line `l` on, when the lines `ls` come after it. -/
theorem postLoop_eq (l : Line) (seen : List Line) {n : ℕ} {p : S} {ss : Streams S} {ls : List Line}
    (hfail : (ss p).fail = false) (hleft : (ss p).linesLeft = ls) (hn : ls.length + 2 ≤ n) :
    postLoop .null n ss ⟨some p, l⟩ seen = .ok (some (seen ++ l :: ls)) := by
  induction ls generalizing n ss l seen with
  | nil =>
    obtain ⟨n, rfl⟩ := Nat.exists_eq_add_of_le' hn
    have hincr := incr_eq l hfail
    rw [hleft] at hincr
    obtain ⟨ss', l', hincr⟩ := hincr
    exact postLoop_next hincr
  | cons l' ls ih =>
    obtain ⟨n, rfl⟩ := Nat.exists_eq_add_of_le' hn
    have hincr := incr_eq l hfail
    rw [hleft] at hincr
    obtain ⟨ss', hincr, hfail', hleft'⟩ := hincr
    have hle : ls.length + 2 ≤ n + (ls.length + 2) := Nat.le_add_left _ _
    have hrest := ih l' (seen ++ [l]) hfail' hleft' hle
    rw [List.append_assoc, List.singleton_append] at hrest
    exact (postLoop_next hincr).trans hrest

theorem traverse_eq {n : ℕ} {p : S} {ss : Streams S} (hfail : (ss p).fail = false)
    (hn : (ss p).linesLeft.length + 1 ≤ n) :
    traverse ⟨some p⟩ n ss = .ok (some (ss p).linesLeft) := by
  have hincr := incr_eq [] hfail
  cases hleft : (ss p).linesLeft with
  | nil =>
    rw [hleft] at hincr hn
    obtain ⟨ss', l', hincr⟩ := hincr
    obtain ⟨n, rfl⟩ := Nat.exists_eq_add_of_le' hn
    rw [traverse, begin_eq hfail, hincr]
    rfl
  | cons l ls =>
    rw [hleft] at hincr hn
    obtain ⟨ss', hincr, hfail', hleft'⟩ := hincr
    rw [traverse, begin_eq hfail, hincr]
    exact postLoop_eq l [] hfail' hleft' hn

/-- **Reading lines loses and invents nothing.**  Let a stream have any content, and let it be read
by consecutive range-for loops over readers of it, each of them but the last broken off in the body
of some line, and the last one run to its end.  Every loop ends, and the lines seen are the lines of
the content.  A traversal with `*it++` sees the same lines. -/
theorem consume_lines (ss : Streams S) (p : S) (content : List Char) (bodies : List Body) :
    ∃ N, ∀ n ≥ N,
      (∃ outs, consume p n bodies (Function.update ss p (.ofContent content)) = .ok (some outs) ∧
        outs.flatMap Outcome.seen = lines content ∧
        (∀ o ∈ outs.dropLast, o.broken = true) ∧
        outs.getLast?.map Outcome.broken = some false) ∧
      traverse ⟨some p⟩ n (Function.update ss p (.ofContent content))
        = .ok (some (lines content)) := by
  have hstream : Function.update ss p (.ofContent content) p = IStream.ofContent content :=
    Function.update_self ..
  have hfail : (Function.update ss p (.ofContent content) p).fail = false := by
    rw [hstream]
    rfl
  have hleft : (Function.update ss p (.ofContent content) p).linesLeft = lines content := by
    rw [hstream]
    rfl
  refine ⟨(lines content).length + 1, fun n hn ↦ ?_⟩
  rw [← hleft] at hn ⊢
  exact ⟨consume_eq p bodies hfail hn, traverse_eq hfail hn⟩

end IstreamLineReader
