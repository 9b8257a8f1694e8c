import CppUtility.LineReader
import CppUtility.Transition

/-!
# Iterators that share their streams

An iterator reads one line ahead and keeps it; everything else about the position is in the stream,
which it shares with its copies and with the iterators of other readers of the same stream.  So two
of them do not each see all lines: `lines_once` says that together they see each line once, in the
order in which they are incremented, and that whoever asks after the last line becomes the end
iterator.

`Program.step` is one operation of a program that has any number of iterators, readers and streams.

* Readers need no state, since a reader is nothing but a pointer to its stream; an operation that
  uses one names it.
* An operation that throws leaves everything as it was.  Only `begin` can throw, on a reader without
  a stream or with one that has failed, and it does so before it reads.
* An operation that violates an `assert` is not enabled.
* Copying an iterator copies the line that it has read ahead.  It reads nothing.

The lines that a program has read are collected from its history by `Transition.emitted`, with the
stream that each of them is a line of.  For every stream they and the lines that are left make up
what the stream had at the beginning (`Kept`).
-/

set_option autoImplicit false

namespace IstreamLineReader

open Transition

variable {S I : Type}

/-- The streams of a program, and its iterators by name. -/
structure Program (S I : Type) where
  streams : Streams S
  iterators : I → Iterator S

/-- What a program can do with iterators. -/
inductive IteratorOp (S I : Type)
  /-- `i = r.begin()`. -/
  | begin (i : I) (r : IstreamLineReader S)
  /-- `i = r.end()`. -/
  | end_ (i : I) (r : IstreamLineReader S)
  /-- `i = j`. -/
  | copy (i j : I)
  /-- `++i`. -/
  | incr (i : I)
  /-- `j = i++`. -/
  | postIncr (i j : I)
  deriving DecidableEq

namespace Program

/-- Every iterator is default-constructed. -/
def init (ss : Streams S) : Program S I := ⟨ss, fun _ ↦ .null⟩

variable [DecidableEq S] [DecidableEq I]

/-- One operation. -/
def step (s : Program S I) : IteratorOp S I → Option (Program S I)
  | .begin i r =>
    match r.begin s.streams with
    | .ok (ss, it) => some ⟨ss, Function.update s.iterators i it⟩
    | .error _ => some s
  | .end_ i r => some { s with iterators := Function.update s.iterators i r.end_ }
  | .copy i j => some { s with iterators := Function.update s.iterators i (s.iterators j) }
  | .incr i =>
    match (s.iterators i).incr s.streams with
    | .ok (ss, it) => some ⟨ss, Function.update s.iterators i it⟩
    | .error _ => none
  | .postIncr i j =>
    match (s.iterators i).postIncr s.streams with
    | .ok (ss, it, tmp) =>
      some ⟨ss, Function.update (Function.update s.iterators i it) j tmp⟩
    | .error _ => none

end Program

/-! ## What is read -/

/-- The line an iterator is at, and the stream it is a line of. -/
def Iterator.current (it : Iterator S) : List (S × Line) :=
  it.m_stream.elim [] fun p ↦ [(p, it.m_line)]

variable [DecidableEq S]

/-- Of some lines, those of one stream. -/
def linesOf (p : S) (read : List (S × Line)) : List Line :=
  (read.filter fun x ↦ x.1 = p).map Prod.snd

theorem linesOf_append (p : S) (read read' : List (S × Line)) :
    linesOf p (read ++ read') = linesOf p read ++ linesOf p read' := by
  rw [linesOf, List.filter_append, List.map_append]
  rfl

namespace Program

/-- The line that an operation reads ahead, if it does. -/
def read (s : Program S I) : IteratorOp S I → List (S × Line)
  | .begin _ r => match r.begin s.streams with
    | .ok (_, it) => it.current
    | .error _ => []
  | .incr i | .postIncr i _ => match (s.iterators i).incr s.streams with
    | .ok (_, it) => it.current
    | .error _ => []
  | .end_ _ _ | .copy _ _ => []

variable [DecidableEq I]

/-- The lines of one stream that a program has read, in order. -/
def seen (ss : Streams S) (tr : List (IteratorOp S I)) (p : S) : List Line :=
  linesOf p (emitted step read (init ss) tr)

end Program

/-! ## One increment

All reading is done by the prefix `++`: the postfix one and `begin` come down to it.  The statements
of `CppUtility.LineReader` about streams that have not failed are extended here to all streams; a
stream that has failed has no lines left. -/

/-- `getline_eq` for any stream, one that has failed included. -/
theorem getline_left (is : IStream) (str : Line) :
    match is.linesLeft with
    | [] => (getline is str).1.fail = true
    | l :: ls => ∃ is', getline is str = (is', l) ∧ is'.fail = false ∧ is'.linesLeft = ls := by
  cases hfail : is.fail with
  | false => exact getline_eq is str hfail
  | true =>
    have hgood : is.good = false := by
      rw [IStream.good, show is.failbit = true from hfail, Bool.not_true, Bool.and_false]
    rw [IStream.linesLeft, if_neg (Bool.eq_false_iff.mp hgood)]
    simp [getline, hgood, IStream.fail]

theorem linesLeft_of_fail {is : IStream} (h : is.fail = true) : is.linesLeft = [] := by
  refine if_neg (Bool.eq_false_iff.mp ?_)
  rw [IStream.good, show is.failbit = true from h, Bool.not_true, Bool.and_false]

/-- **One increment.**  It takes the first line that is left of the stream, and touches no other
stream; it makes the end iterator exactly when there is none. -/
theorem incr_left {it it' : Iterator S} {ss ss' : Streams S} {p : S} (hp : it.m_stream = some p)
    (h : it.incr ss = .ok (ss', it')) :
    (∀ q, linesOf q it'.current ++ (ss' q).linesLeft = (ss q).linesLeft) ∧
      (it'.m_stream = none ↔ (ss p).linesLeft = []) := by
  obtain ⟨stream, l⟩ := it
  obtain rfl : stream = some p := hp
  obtain ⟨rfl, rfl⟩ := Prod.mk.inj (Except.ok.inj h)
  have hget := getline_left (ss p) l
  cases hleft : (ss p).linesLeft with
  | nil =>
    rw [hleft] at hget
    refine ⟨fun q ↦ ?_, iff_of_true (if_pos hget) rfl⟩
    by_cases hq : q = p
    · subst hq
      rw [Function.update_self, hleft, linesLeft_of_fail hget, if_pos hget]
      rfl
    · rw [Function.update_of_ne hq, if_pos hget]
      rfl
  | cons l' ls =>
    rw [hleft] at hget
    obtain ⟨is', hline, hok, hls⟩ := hget
    have hfail : ¬is'.fail = true := Bool.eq_false_iff.mp hok
    rw [hline, if_neg hfail]
    refine ⟨fun q ↦ ?_, iff_of_false nofun nofun⟩
    by_cases hq : q = p
    · subst hq
      rw [Function.update_self, hls, hleft]
      simp [linesOf, Iterator.current]
    · rw [Function.update_of_ne hq]
      simp [linesOf, Iterator.current, Ne.symm hq]

/-- A `begin` that does not throw is one increment. -/
theorem incr_of_begin {r : IstreamLineReader S} {ss ss' : Streams S} {it : Iterator S}
    (h : r.begin ss = .ok (ss', it)) :
    ∃ p, (Iterator.mk (some p) []).incr ss = .ok (ss', it) := by
  rw [begin] at h
  split at h
  · cases h
  · next p _ =>
    split at h
    · cases h
    · exact ⟨p, h⟩

/-- Only an iterator that is not the end can be incremented. -/
theorem exists_stream {it : Iterator S} {ss ss' : Streams S} {it' : Iterator S}
    (h : it.incr ss = .ok (ss', it')) : ∃ p, it.m_stream = some p := by
  rw [Iterator.incr] at h
  split at h
  · cases h
  · next p hp => exact ⟨p, hp⟩

/-! ## All runs -/

namespace Program

variable [DecidableEq I] {ss : Streams S} {tr : List (IteratorOp S I)} {s s' : Program S I}
  {l : IteratorOp S I}

/-- What has been read and what is left is what there was, and an iterator that is not the end is at
a line that has been read. -/
structure Kept (ss : Streams S) (tr : List (IteratorOp S I)) (s : Program S I) : Prop where
  lines : ∀ p, seen ss tr p ++ (s.streams p).linesLeft = (ss p).linesLeft
  current : ∀ i p, (s.iterators i).m_stream = some p → (s.iterators i).m_line ∈ seen ss tr p

/-- Nothing is read, and iterators are copied or become the end. -/
theorem Kept.shuffle (hi : Kept ss tr s) (hrun : run step (init ss) tr = some s)
    (hread : s.read l = []) {iterators : I → Iterator S}
    (h : ∀ i, (iterators i).m_stream = none ∨ ∃ j, iterators i = s.iterators j) :
    Kept ss (tr ++ [l]) { s with iterators := iterators } := by
  have hseen : ∀ p, seen ss (tr ++ [l]) p = seen ss tr p := by
    intro p
    rw [seen, emitted_concat hrun, hread, List.append_nil]
    rfl
  refine ⟨fun p ↦ (hseen p).symm ▸ hi.lines p, fun i p hp ↦ ?_⟩
  rw [hseen]
  rcases h i with hnone | ⟨j, hj⟩
  · cases hnone.symm.trans hp
  · dsimp only at hp ⊢
    rw [hj] at hp ⊢
    exact hi.current j p hp

/-- A line is read, and some iterators, or none, go to it. -/
theorem Kept.advance (hi : Kept ss tr s) (hrun : run step (init ss) tr = some s)
    {it it' : Iterator S} {ss' : Streams S} (hincr : it.incr s.streams = .ok (ss', it'))
    (hread : s.read l = it'.current) {iterators : I → Iterator S}
    (h : ∀ i, iterators i = it' ∨ ∃ j, iterators i = s.iterators j) :
    Kept ss (tr ++ [l]) ⟨ss', iterators⟩ := by
  obtain ⟨p₀, hp₀⟩ := exists_stream hincr
  have hseen : ∀ p, seen ss (tr ++ [l]) p = seen ss tr p ++ linesOf p it'.current := by
    intro p
    rw [seen, emitted_concat hrun, hread, linesOf_append]
    rfl
  refine ⟨fun p ↦ ?_, fun i p hp ↦ ?_⟩
  · rw [hseen, List.append_assoc, (incr_left hp₀ hincr).1 p]
    exact hi.lines p
  · rw [hseen, List.mem_append]
    dsimp only at hp ⊢
    rcases h i with hnew | ⟨j, hj⟩
    · rw [hnew] at hp ⊢
      right
      simp [linesOf, Iterator.current, hp]
    · rw [hj] at hp ⊢
      exact .inl (hi.current j p hp)

theorem Kept.step (hi : Kept ss tr s) (hrun : run step (init ss) tr = some s)
    (hs : s.step l = some s') : Kept ss (tr ++ [l]) s' := by
  have hupdate : ∀ {i : I} {it : Iterator S} (j : I), Function.update s.iterators i it j = it ∨
      ∃ k, Function.update s.iterators i it j = s.iterators k := by
    intro i it j
    by_cases hj : j = i
    · exact .inl (hj ▸ Function.update_self ..)
    · exact .inr ⟨j, Function.update_of_ne hj ..⟩
  cases l with
  | begin i r =>
    rw [Program.step] at hs
    split at hs
    · next ss' it hbegin =>
      obtain rfl := Option.some_inj.mp hs
      obtain ⟨p, hincr⟩ := incr_of_begin hbegin
      exact hi.advance hrun hincr (by simp only [read, hbegin]) hupdate
    · next hbegin =>
      obtain rfl := Option.some_inj.mp hs
      exact hi.shuffle hrun (by simp only [read, hbegin]) fun j ↦ .inr ⟨j, rfl⟩
  | end_ i r =>
    obtain rfl := Option.some_inj.mp hs
    exact hi.shuffle hrun rfl fun j ↦ (hupdate j).imp_left fun hj ↦ congrArg Iterator.m_stream hj
  | copy i j =>
    obtain rfl := Option.some_inj.mp hs
    exact hi.shuffle hrun rfl fun k ↦ .inr ((hupdate k).elim (⟨j, ·⟩) id)
  | incr i =>
    rw [Program.step] at hs
    split at hs
    · next ss' it hincr =>
      obtain rfl := Option.some_inj.mp hs
      exact hi.advance hrun hincr (by simp only [read, hincr]) hupdate
    · cases hs
  | postIncr i j =>
    rw [Program.step, Iterator.postIncr] at hs
    cases hincr : (s.iterators i).incr s.streams with
    | error e =>
      rw [hincr] at hs
      cases hs
    | ok r =>
      obtain ⟨ss', it⟩ := r
      rw [hincr] at hs
      obtain rfl := Option.some_inj.mp hs
      refine hi.advance hrun hincr (by simp only [read, hincr]) fun k ↦ ?_
      by_cases hk : k = j
      · -- `tmp` is a copy of what `i` was
        exact .inr ⟨i, hk ▸ Function.update_self ..⟩
      · rw [Function.update_of_ne hk]
        exact hupdate k

theorem kept (h : run step (init ss) tr = some s) : Kept ss tr s :=
  run_induction (P := Kept ss) ⟨fun _ ↦ rfl, fun _ _ hp ↦ by cases hp⟩
    (fun _ _ _ _ hrun hi hs ↦ hi.step hrun hs) h

/-- **Iterators that share a stream see each of its lines once, between them.**  Whatever a program
does with its readers, iterators and copies of iterators,

* the lines of a stream that have been read, in the order in which they were read and by whomever,
  and the lines that are left are the lines that the stream had;
* an iterator that is not the end yields one that has been read;
* an iterator that is incremented becomes the end exactly when all lines of its stream have been
  read, and only then can `begin` throw because the stream has failed. -/
theorem lines_once (h : run step (init ss) tr = some s) (p : S) :
    seen ss tr p ++ (s.streams p).linesLeft = (ss p).linesLeft ∧
    (∀ i, (s.iterators i).m_stream = some p →
      (∃ line ∈ seen ss tr p, (s.iterators i).deref = .ok line) ∧
      ∃ ss' it, (s.iterators i).incr s.streams = .ok (ss', it) ∧
        (it.m_stream = none ↔ seen ss tr p = (ss p).linesLeft)) ∧
    (∀ what, (IstreamLineReader.mk (some p)).begin s.streams = .error (.runtime_error what) →
      seen ss tr p = (ss p).linesLeft) := by
  have hi := kept h
  have hall : (s.streams p).linesLeft = [] ↔ seen ss tr p = (ss p).linesLeft := by
    rw [← hi.lines p]
    simp
  refine ⟨hi.lines p, fun i hp ↦ ⟨⟨_, hi.current i p hp, ?_⟩, ?_⟩, fun what hthrow ↦ ?_⟩
  · rw [Iterator.deref, hp]
    rfl
  · cases hincr : (s.iterators i).incr s.streams with
    | error e =>
      rw [Iterator.incr, hp] at hincr
      cases hincr
    | ok r => exact ⟨_, _, rfl, (incr_left hp hincr).2.trans hall⟩
  · refine hall.mp (linesLeft_of_fail ?_)
    by_contra hok
    simp only [begin, if_neg hok] at hthrow
    rw [Iterator.new, Iterator.incr] at hthrow
    cases hthrow

/-- Two loops take turns on one stream, and one of them goes on with a copy. -/
def turns : List (IteratorOp ℕ ℕ) :=
  [.begin 0 ⟨some 0⟩, .begin 1 ⟨some 0⟩, .incr 0, .copy 2 1, .postIncr 2 1, .incr 0]

theorem lines_once_turns : ∃ s,
    run step (init fun _ ↦ .ofContent "a\nb\nc\nd".toList) turns = some s ∧
      seen (fun _ ↦ .ofContent "a\nb\nc\nd".toList) turns 0
          ++ (s.streams 0).linesLeft = (IStream.ofContent "a\nb\nc\nd".toList).linesLeft ∧
      (s.iterators 0).m_stream = none ∧ (s.iterators 1).deref = .ok ['b'] ∧
      (s.iterators 2).deref = .ok ['d'] := by
  have hrun : ((run step (init fun _ ↦ .ofContent "a\nb\nc\nd".toList) turns).any fun s ↦
      decide ((s.iterators 0).m_stream = none ∧ s.iterators 1 = ⟨some 0, ['b']⟩ ∧
        s.iterators 2 = ⟨some 0, ['d']⟩)) = true := by decide
  obtain ⟨s, hs, hp⟩ := exists_run_of_any hrun
  obtain ⟨hend, h1, h2⟩ := of_decide_eq_true hp
  exact ⟨s, hs, (lines_once hs 0).1, hend, by rw [h1]; rfl, by rw [h2]; rfl⟩

end Program

end IstreamLineReader
