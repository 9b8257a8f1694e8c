import CppUtility.FileUtils.Split
import Mathlib.Dynamics.FixedPoints.Basic

/-!
# Climbing to the root

`dirname` applied to its own result, over and over.  Every result is shorter than the path it came
from, until it is `"/"` or `"."`, and these two are fixed.

A relative path ends at `"."`.  An absolute path ends at `"/"` when each of its directories can be
read, and falls to `"."` otherwise.  Three things stand in the way:

* a line terminator before the last component, which the `.` of the expression does not match;
* two slashes at the end, of which the expression takes only one off;
* three slashes anywhere.  When the climb comes to them, the component behind has been cut off with
  one of the three, and two are left at the end.

`Clear` rules them out.  It is a condition on the path as it is given, before anything has been cut
from it, and so the proof has to follow it up the path: `clear_cut_iff` says that a path is clear
exactly when its directory is and has no line terminator.  Read from left to right this carries the
induction of `exists_climb`, that a clear path gets to its root; read from right to left it carries
that of `clear_of_climb`, that nothing else does.  Together they are `reachesRoot_iff`.

The number of steps is bounded by the length of the path, in both cases: a climb that goes wrong
ends as soon as one that does not.
-/

set_option autoImplicit false

namespace FileUtils

open Path

variable {path d b : List Char}

/-- One step up. -/
def climb (path : List Char) : List Char := dirname (some path)

/-- The root of a path: `"/"` for an absolute path, `"."` for a relative one. -/
def root (path : List Char) : List Char := if path.head? = some '/' then ['/'] else ['.']

/-- The climb from a path reaches its root, in at most one step more than it has characters, and
stays there. -/
def ReachesRoot (path : List Char) : Prop :=
  ∃ n ≤ path.length + 1, Function.IsFixedPt climb (climb^[n] path) ∧ climb^[n] path = root path

/-- Nothing in the path stops the climb. -/
structure Clear (path : List Char) : Prop where
  no_run : ¬List.replicate 3 '/' <:+: path
  no_suffix : ¬['/', '/'] <:+ path
  lineFree : LineFree (front '/' path)

/-! ## One step -/

theorem climb_slash : climb ['/'] = ['/'] := by decide

theorem climb_dot : climb ['.'] = ['.'] := by decide

theorem isFixedPt_root (path : List Char) : Function.IsFixedPt climb (root path) := by
  unfold root
  split_ifs
  · exact climb_slash
  · exact climb_dot

/-- **What a step does**: it goes to what is before the last component, or to `"."`. -/
theorem climb_cases (hnil : path ≠ []) (hroot : path ≠ ['/']) :
    (∃ d b, chop '/' path = d ++ '/' :: b ∧ (b ≠ [] ∧ '/' ∉ b) ∧ LineFree d ∧
      climb path = if d = [] then ['/'] else d) ∨
    (¬∃ d b, chop '/' path = d ++ '/' :: b ∧ (b ≠ [] ∧ '/' ∉ b) ∧ LineFree d) ∧
      climb path = ['.'] := by
  by_cases h : ∃ d b, chop '/' path = d ++ '/' :: b ∧ (b ≠ [] ∧ '/' ∉ b) ∧ LineFree d
  · obtain ⟨d, b, hchop, hb, hd⟩ := h
    exact .inl ⟨d, b, hchop, hb, hd, dirname_cut hchop hb.1 hb.2 hd⟩
  · exact .inr ⟨h, dirname_dot hnil hroot h⟩

theorem length_cut (hchop : chop '/' path = d ++ '/' :: b) : d.length < path.length := by
  obtain ⟨t, -, hp⟩ := exists_append_chop '/' path
  rw [hp, hchop]
  simp only [List.length_append, List.length_cons]
  omega

/-- A directory is absolute when the path is. -/
theorem head?_directory (hchop : chop '/' path = d ++ '/' :: b) (hd : d ≠ []) :
    path.head? = d.head? := by
  rw [head?_cut hchop, List.head?_append_of_ne_nil d hd]

theorem root_directory (hchop : chop '/' path = d ++ '/' :: b) (hd : d ≠ []) :
    root d = root path := by
  rw [root, root, head?_directory hchop hd]

/-- A path `/name` is absolute. -/
theorem root_top (hchop : chop '/' path = [] ++ '/' :: b) : root path = ['/'] := by
  rw [root, head?_cut hchop]
  rfl

/-! ## Paths that the climb can leave

The two conditions on slashes belong together.  A path may have two slashes before a component,
since a step takes the component with one of them and leaves the other at the end, where the next
step drops it.  With three it leaves two at the end, and this is a path that cannot be cut.  So
`no_run` for a path is `no_suffix` for one of its directories, and `Path.infix_cut_iff` is the lemma
that goes from one to the other. -/

/-- **A path is clear when its directory is**, and has no line terminator. -/
theorem clear_cut_iff (hchop : chop '/' path = d ++ '/' :: b) (hne : b ≠ []) (hb : '/' ∉ b) :
    Clear path ↔ LineFree d ∧ Clear d := by
  have hrun : List.replicate 3 '/' <:+: path ↔
      List.replicate 3 '/' <:+: d ∨ List.replicate 2 '/' <:+ d := infix_cut_iff hchop hne hb
  have hfront : LineFree (front '/' path) ↔ LineFree d := by
    rw [front_of_chop hchop hne hb, lineFree_concat]
  constructor
  · rintro ⟨hno, -, hfree⟩
    obtain ⟨hno, hsuffix⟩ := not_or.mp (mt hrun.mpr hno)
    have hd := hfront.mp hfree
    exact ⟨hd, hno, hsuffix, fun c hc ↦ hd c ((prefix_front '/' d).mem hc)⟩
  · rintro ⟨hd, hno, hsuffix, -⟩
    refine ⟨mt hrun.mp (not_or.mpr ⟨hno, hsuffix⟩), ?_, hfront.mpr hd⟩
    -- a path that ends with two slashes has nothing after its last slash
    rw [suffix_iff_chop]
    rintro ⟨e, he⟩
    obtain ⟨-, rfl⟩ := cut_unique (hchop.symm.trans he) hb List.not_mem_nil
    exact hne rfl

theorem clear_slash : Clear ['/'] := by
  have hfront : LineFree (front '/' ['/']) := nofun
  exact ⟨by decide, by decide, hfront⟩

/-- A clear absolute path is the root or is cut. -/
theorem Clear.exists_cut (h : Clear path) (habs : path.head? = some '/') (hroot : path ≠ ['/']) :
    ∃ d b, chop '/' path = d ++ '/' :: b ∧ (b ≠ [] ∧ '/' ∉ b) ∧ LineFree d := by
  rcases cut '/' (chop '/' path) with hp | ⟨d, b, hchop, hb⟩
  · -- the first slash is in what is left, unless it is all of the path
    exfalso
    rcases chop_cases '/' path with heq | heq
    · exact hp (heq ▸ List.mem_of_mem_head? habs)
    · by_cases hnil : chop '/' path = []
      · exact hroot (by rw [heq, hnil]; rfl)
      · rw [heq, List.head?_append_of_ne_nil _ hnil] at habs
        exact hp (List.mem_of_mem_head? habs)
  · have hne : b ≠ [] := by
      rintro rfl
      exact h.no_suffix (suffix_iff_chop.mpr ⟨d, hchop⟩)
    exact ⟨d, b, hchop, ⟨hne, hb⟩, ((clear_cut_iff hchop hne hb).mp h).1⟩

/-! ## The whole climb -/

/-- **A relative path, and an absolute path that is clear, climb to their root.** -/
theorem exists_climb (hnil : path ≠ []) (h : path.head? = some '/' → Clear path) :
    ∃ n ≤ path.length, climb^[n] path = root path := by
  induction hlen : path.length using Nat.strong_induction_on generalizing path with
  | h len ih =>
    by_cases hroot : path = ['/']
    · exact ⟨0, Nat.zero_le _, by rw [hroot]; rfl⟩
    have hpos : 0 < path.length := List.length_pos_of_ne_nil hnil
    rcases climb_cases hnil hroot with ⟨d, b, hchop, ⟨hne, hb⟩, -, hstep⟩ | ⟨hcut, hstep⟩
    · by_cases hd : d = []
      · rw [if_pos hd] at hstep
        exact ⟨1, by omega, hstep.trans (root_top (hd ▸ hchop)).symm⟩
      · have hlt := length_cut hchop
        have habs : d.head? = some '/' → Clear d := by
          intro hhead
          rw [← head?_directory hchop hd] at hhead
          exact ((clear_cut_iff hchop hne hb).mp (h hhead)).2
        obtain ⟨n, hn, hclimb⟩ := ih d.length (hlen ▸ hlt) hd habs rfl
        refine ⟨n + 1, by omega, ?_⟩
        rw [Function.iterate_succ_apply, hstep, if_neg hd, hclimb, root_directory hchop hd]
    · have hrel : path.head? ≠ some '/' := fun habs ↦ hcut ((h habs).exists_cut habs hroot)
      refine ⟨1, by omega, ?_⟩
      rw [Function.iterate_one, hstep, root, if_neg hrel]

/-- **An absolute path that climbs to `"/"` is clear.** -/
theorem clear_of_climb {n : ℕ} (habs : path.head? = some '/') (h : climb^[n] path = ['/']) :
    Clear path := by
  induction n generalizing path with
  | zero =>
    obtain rfl : path = ['/'] := h
    exact clear_slash
  | succ n ih =>
    rw [Function.iterate_succ_apply] at h
    by_cases hroot : path = ['/']
    · exact hroot ▸ clear_slash
    have hnil : path ≠ [] := by
      rintro rfl
      cases habs
    rcases climb_cases hnil hroot with ⟨d, b, hchop, ⟨hne, hb⟩, hfree, hstep⟩ | ⟨-, hstep⟩
    · refine (clear_cut_iff hchop hne hb).mpr ⟨hfree, ?_⟩
      by_cases hd : d = []
      · subst hd
        exact ⟨by decide, by decide, hfree⟩
      · rw [hstep, if_neg hd] at h
        rw [head?_directory hchop hd] at habs
        exact ih habs h
    · -- the climb does not leave `"."`
      rw [hstep, Function.iterate_fixed climb_dot] at h
      exact absurd h (by decide)

/-- **Climbing ends at the right root** exactly from the relative paths and from the absolute ones
that are clear. -/
theorem reachesRoot_iff (hnil : path ≠ []) :
    ReachesRoot path ↔ path.head? ≠ some '/' ∨ Clear path := by
  constructor
  · rintro ⟨n, -, -, hn⟩
    rw [or_iff_not_imp_left, not_not]
    intro habs
    refine clear_of_climb (n := n) habs ?_
    rw [hn, root, if_pos habs]
  · intro h
    obtain ⟨n, hn, hclimb⟩ := exists_climb hnil fun habs ↦ h.resolve_left (not_not.mpr habs)
    exact ⟨n, by omega, hclimb ▸ isFixedPt_root path, hclimb⟩

/-- The climb from `/usr//lib/`. -/
theorem reachesRoot_iff_usr_lib : ReachesRoot "/usr//lib/".toList ↔
    "/usr//lib/".toList.head? ≠ some '/' ∨ Clear "/usr//lib/".toList :=
  reachesRoot_iff (by decide)

/-- From `//` the climb ends at `"."`. -/
theorem climb_slashes_dot : ¬∀ path : List Char, path ≠ [] → ReachesRoot path := by
  intro h
  obtain ⟨n, -, -, hn⟩ := h ['/', '/'] (by decide)
  have hroot : root ['/', '/'] = ['/'] := by decide
  cases n with
  | zero => exact absurd (hn.trans hroot) (by decide)
  | succ n =>
    have hstep : climb ['/', '/'] = ['.'] := by decide
    rw [Function.iterate_succ_apply, hstep, Function.iterate_fixed climb_dot, hroot] at hn
    exact absurd hn (by decide)

end FileUtils
