import CppUtility.Path
import CppUtility.Regex.FullMatch

/-!
# `dirname` and `basename`

The two functions of `fs/FileUtils.cpp` cut a path by one regular expression each.  Both expressions
end with `([^/]+)/?`: the last component, which may be followed by one slash.  They differ in what
they allow before it:

* `dirname` wants a slash there, and captures whatever the `.` matches before that slash.  The
  directory is the first group.
* `basename` wants nothing, or components that end with slashes.  The base is the third group, the
  one that both expressions end with.

Each function deals with `nullptr`, the empty path and `"/"` before the expression is used, and has
an answer of its own for a path that does not match.

A regular expression may match in many ways, and which of them `std::regex_match` takes is decided
by the order in which the alternatives and the repetitions are tried.  Nothing of the kind matters
here: the last component has no slash, and what is before it ends with one or is empty, so that
there is one way to match at most.  The captures can then be read off the path, and that is what
this file does.

* `dirnamePattern_re` and `basenamePattern_re` say what the two expressions are compiled to, and
  `mem_component`, `mem_dots` and their like which words the parts match.
* `mem_dirs` is the one lemma with an argument in it: `/*([^/]+/+)*` matches the words that are
  empty or end with a slash, and no others.
* `basename_eq` and `dirname_cut` are the results.  They are in the vocabulary of `CppUtility.Path`,
  `chop`, `last` and the cut at the last separator, and the rest of the folder never looks at an
  expression again.
-/

set_option autoImplicit false

namespace FileUtils

open Regex

/-! ## The functions -/

/-- `pattern` of `dirname`. -/
def dirnamePattern : Pattern := (compile "(.*)/([^/]+)/?".toList).get (by decide)

/-- `pattern` of `basename`. -/
def basenamePattern : Pattern := (compile "(/*([^/]+/+)*)([^/]+)/?".toList).get (by decide)

/-- A C string: the characters before the NUL, or none for `nullptr`. -/
abbrev CString := Option (List Char)

/-- `FileUtils::dirname`. -/
def dirname : CString → List Char
  | none => []
  | some [] => []
  | some path =>
    if path = ['/'] then ['/']
    else match dirnamePattern.re.fullMatch path with
      | some result =>
        -- `"/path"` or `"/path/"`, else `"/path/to"`, `"path/to"`, or `"path/to/"`
        if result.get 1 = [] then ['/'] else result.get 1
      | none => ['.']

/-- `FileUtils::basename`.  The sub-matches of a failed match are empty. -/
def basename : CString → List Char
  | none => []
  | some [] => []
  | some path =>
    if path = ['/'] then []
    else match basenamePattern.re.fullMatch path with
      | some result => result.get 3
      | none => []

/-! ## The expressions -/

/-- `/`. -/
def slash : CharSet := .single '/'

/-- `[^/]`. -/
def noSlash : CharSet := ⟨true, [.range '/' '/']⟩

theorem mem_slash {c : Char} : slash.mem c = true ↔ c = '/' := CharSet.mem_single

theorem mem_noSlash {c : Char} : noSlash.mem c = true ↔ c ≠ '/' := by
  simp only [CharSet.mem, noSlash, List.any_cons, List.any_nil, Bool.or_false, bne_iff_ne, ne_eq,
    ClassItem.mem_range_self]

/-- `[^/]+`. -/
def componentRe : Re := .seq (.rep 1 none true (.set noSlash)) .empty

/-- `/?` at the end. -/
def optSlash : Re := .seq (.rep 0 (some 1) true (.set slash)) .empty

/-- `/*([^/]+/+)*`. -/
def dirsRe : Re :=
  .seq (.rep 0 none true (.set slash)) (.seq (.rep 0 none true (.group 2
    (.seq (.rep 1 none true (.set noSlash)) (.seq (.rep 1 none true (.set slash)) .empty)))) .empty)

theorem dirnamePattern_re : dirnamePattern.re =
    .seq (.group 1 (.seq (.rep 0 none true (.set .dot)) .empty))
      (.seq (.set slash) (.seq (.group 2 componentRe) optSlash)) := by decide

theorem basenamePattern_re : basenamePattern.re =
    .seq (.group 1 dirsRe) (.seq (.group 3 componentRe) optSlash) := by decide

theorem mem_noSlashes {w : List Char} :
    w ∈ (Re.rep 1 none true (.set noSlash)).language ↔ w ≠ [] ∧ '/' ∉ w := by
  rw [Re.mem_language_plus_set]
  refine and_congr_right fun _ ↦ ⟨fun h hin ↦ mem_noSlash.mp (h _ hin) rfl, fun h c hc ↦ ?_⟩
  rw [mem_noSlash]
  rintro rfl
  exact h hc

theorem mem_component {w : List Char} : w ∈ componentRe.language ↔ w ≠ [] ∧ '/' ∉ w := by
  rw [componentRe, Re.language_seq_empty, mem_noSlashes]

theorem mem_optSlash {w : List Char} : w ∈ optSlash.language ↔ w = [] ∨ w = ['/'] := by
  rw [optSlash, Re.language_seq_empty, Re.mem_language_opt, Re.mem_language_set]
  simp only [mem_slash, exists_eq_left]

/-- Without line terminators. -/
def LineFree (w : List Char) : Prop := ∀ c ∈ w, c ≠ '\n' ∧ c ≠ '\r'

theorem mem_dots {w : List Char} :
    w ∈ (Re.seq (.rep 0 none true (.set .dot)) .empty).language ↔ LineFree w := by
  rw [LineFree, Re.language_seq_empty, Re.mem_language_star_set]
  simp only [CharSet.mem_dot]

/-! ## Directories before the last component

The first group of `basename` is a run of slashes and then blocks, each of them a component with its
slashes.  A word with a slash at its end can always be divided in this way: go through it from the
left, and let a block begin at each character that is no slash and comes after one.  So the group
takes every path that is a directory, and the only question left is where it ends. -/

/-- The words of `[^/]+/+`: a component and a run of slashes. -/
def Block (w : List Char) : Prop :=
  ∃ u v, w = u ++ v ∧ (u ≠ [] ∧ '/' ∉ u) ∧ v ≠ [] ∧ ∀ c ∈ v, c = '/'

theorem mem_block {w : List Char} :
    w ∈ (Re.group 2 (.seq (.rep 1 none true (.set noSlash))
        (.seq (.rep 1 none true (.set slash)) .empty))).language ↔ Block w := by
  rw [Re.language_group, Re.language_seq, Re.language_seq_empty, Language.mem_mul]
  constructor
  · rintro ⟨u, hu, v, hv, rfl⟩
    obtain ⟨hne, hall⟩ := Re.mem_language_plus_set.mp hv
    exact ⟨u, v, rfl, mem_noSlashes.mp hu, hne, fun c hc ↦ mem_slash.mp (hall c hc)⟩
  · rintro ⟨u, v, rfl, hu, hne, hall⟩
    have hv : v ∈ (Re.rep 1 none true (.set slash)).language :=
      Re.mem_language_plus_set.mpr ⟨hne, fun c hc ↦ mem_slash.mpr (hall c hc)⟩
    exact ⟨u, mem_noSlashes.mpr hu, v, hv, rfl⟩

/-- A run of slashes and blocks. -/
theorem mem_dirs_iff {w : List Char} : w ∈ dirsRe.language ↔
    ∃ (a : List Char) (S : List (List Char)), w = a ++ S.flatten ∧ (∀ c ∈ a, c = '/') ∧
      ∀ y ∈ S, Block y := by
  rw [dirsRe, Re.language_seq, Re.language_seq_empty, Language.mem_mul]
  rw [Re.language_rep_none 0 true (.group 2 _), pow_zero, one_mul]
  constructor
  · rintro ⟨a, ha, x, hx, rfl⟩
    obtain ⟨S, rfl, hS⟩ := Language.mem_kstar.mp hx
    exact ⟨a, S, rfl, fun c hc ↦ mem_slash.mp (Re.mem_language_star_set.mp ha c hc),
      fun y hy ↦ mem_block.mp (hS y hy)⟩
  · rintro ⟨a, S, rfl, ha, hS⟩
    exact ⟨a, Re.mem_language_star_set.mpr fun c hc ↦ mem_slash.mpr (ha c hc), S.flatten,
      Language.mem_kstar.mpr ⟨S, rfl, fun y hy ↦ mem_block.mpr (hS y hy)⟩, rfl⟩

/-- Empty, or with a slash at the end. -/
def EndsWithSlash (w : List Char) : Prop := ∀ c ∈ w.getLast?, c = '/'

theorem EndsWithSlash.append {u v : List Char} (hu : EndsWithSlash u) (hv : EndsWithSlash v) :
    EndsWithSlash (u ++ v) := by
  intro c hc
  by_cases hne : v = []
  · exact hu c (by simpa [hne] using hc)
  · rw [List.getLast?_append_of_ne_nil _ hne] at hc
    exact hv c hc

theorem endsWithSlash_of_forall {w : List Char} (h : ∀ c ∈ w, c = '/') : EndsWithSlash w :=
  fun c hc ↦ h c (List.mem_of_getLast? hc)

theorem Block.endsWithSlash {w : List Char} (h : Block w) : EndsWithSlash w := by
  obtain ⟨u, v, rfl, -, hne, hall⟩ := h
  intro c hc
  rw [List.getLast?_append_of_ne_nil _ hne] at hc
  exact hall c (List.mem_of_getLast? hc)

theorem EndsWithSlash.tail {c : Char} {w : List Char} (h : EndsWithSlash (c :: w)) :
    EndsWithSlash w := by
  intro d hd
  have hne : w ≠ [] := by
    rintro rfl
    cases hd
  refine h d ?_
  rw [← List.singleton_append, List.getLast?_append_of_ne_nil _ hne]
  exact hd

/-- **What can stand before the last component.** -/
theorem mem_dirs {w : List Char} : w ∈ dirsRe.language ↔ EndsWithSlash w := by
  rw [mem_dirs_iff]
  constructor
  · rintro ⟨a, S, rfl, ha, hS⟩
    refine (endsWithSlash_of_forall ha).append ?_
    induction S with
    | nil => nofun
    | cons y S ih =>
      rw [List.flatten_cons]
      exact (hS y List.mem_cons_self).endsWithSlash.append
        (ih fun z hz ↦ hS z (List.mem_cons_of_mem y hz))
  · intro h
    induction w with
    | nil => exact ⟨[], [], rfl, nofun, nofun⟩
    | cons c w ih =>
      obtain ⟨a, S, rfl, ha, hS⟩ := ih h.tail
      by_cases hc : c = '/'
      · exact ⟨c :: a, S, rfl, List.forall_mem_cons.mpr ⟨hc, ha⟩, hS⟩
      · -- the character begins a block, or belongs to the component of the first one
        by_cases hne : a = []
        · subst hne
          cases S with
          | nil => exact absurd (h c rfl) hc
          | cons y S =>
            obtain ⟨hy, hS'⟩ := List.forall_mem_cons.mp hS
            obtain ⟨u, v, rfl, ⟨-, hu⟩, hv⟩ := hy
            have hblock : Block (c :: u ++ v) := by
              refine ⟨c :: u, v, rfl, ⟨List.cons_ne_nil c u, ?_⟩, hv⟩
              simpa [hu] using Ne.symm hc
            exact ⟨[], (c :: u ++ v) :: S, by simp, nofun, List.forall_mem_cons.mpr ⟨hblock, hS'⟩⟩
        · have hblock : Block ([c] ++ a) :=
            ⟨[c], a, rfl, ⟨List.cons_ne_nil c [], by simpa using Ne.symm hc⟩, hne, ha⟩
          exact ⟨[], ([c] ++ a) :: S, by simp, nofun, List.forall_mem_cons.mpr ⟨hblock, hS⟩⟩

/-! ## What the functions compute

Both expressions stop one slash before the end at most, which is what `chop` takes off.  After that
`basename` is the part behind the last slash, whatever it is: when the path does not match, this
part is empty, and so is the answer.  `dirname` needs more than that: a component behind the last
slash, and a directory that the `.` can read. -/

open Path

/-- The words of `([^/]+)/?`. -/
theorem mem_lastComponent {i : ℕ} {w : List Char} :
    w ∈ (Re.seq (.group i componentRe) optSlash).language ↔
      ∃ b t, w = b ++ t ∧ (b ≠ [] ∧ '/' ∉ b) ∧ (t = [] ∨ t = ['/']) := by
  rw [Re.language_seq, Re.language_group, Language.mem_mul]
  constructor
  · rintro ⟨b, hb, t, ht, rfl⟩
    exact ⟨b, t, rfl, mem_component.mp hb, mem_optSlash.mp ht⟩
  · rintro ⟨b, t, rfl, hb, ht⟩
    exact ⟨b, mem_component.mpr hb, t, mem_optSlash.mpr ht, rfl⟩

/-- The one slash that can follow the last component is the one that `chop` takes off. -/
theorem chop_eq {w b t : List Char} (hb : b ≠ [] ∧ '/' ∉ b) (ht : t = [] ∨ t = ['/']) :
    chop '/' (w ++ b ++ t) = w ++ b := by
  rcases ht with rfl | rfl
  · rw [List.append_nil, chop_of_ne (getLast?_ne w hb.1 hb.2)]
  · exact chop_concat (w ++ b)

theorem last_append {w b : List Char} (hw : EndsWithSlash w) (hb : '/' ∉ b) :
    last '/' (w ++ b) = b := by
  rcases List.eq_nil_or_concat w with rfl | ⟨w, c, rfl⟩
  · exact last_of_not_mem hb
  · obtain rfl : c = '/' := hw c (by simp)
    rw [List.concat_eq_append, ← List.append_cons]
    exact last_cut w hb

/-- The third group of `basename` is what follows the last slash. -/
theorem basename_capture {path : List Char} {result : Match}
    (h : basenamePattern.re.fullMatch path = some result) :
    result.get 3 = last '/' (chop '/' path) := by
  obtain ⟨t, ht, hrest, hcaps⟩ := Re.exists_of_fullMatch h
  rw [basenamePattern_re] at ht
  obtain ⟨u, hu, ht⟩ := List.mem_flatMap.mp ht
  obtain ⟨w, hw, hstart⟩ := (Re.accepts (r := .group 1 dirsRe) (by decide)).sound _ u hu
  obtain ⟨b, v, hb, hu', ht', hcap⟩ := mem_run_group_seq (by decide) (by decide) ht
  obtain ⟨z, hz, hv⟩ := (Re.accepts (r := optSlash) (by decide)).sound v t ht'
  have hpath : path = w ++ b ++ z := by
    have hsplit : path = w ++ u.rest := hstart
    rw [hsplit, hu', hv, hrest, List.append_nil, List.append_assoc]
  have hb' := mem_component.mp hb
  rw [hpath, chop_eq hb' (mem_optSlash.mp hz), last_append (mem_dirs.mp hw) hb'.2]
  show (result.caps 3).getD [] = b
  rw [hcaps, hcap, Option.getD_some]

/-- A path that does not match has nothing after its last slash. -/
theorem last_eq_nil_of_no_match {path : List Char}
    (h : basenamePattern.re.fullMatch path = none) : last '/' (chop '/' path) = [] := by
  have hnot := (Re.fullMatch_eq_none (by decide)).mp h
  rw [basenamePattern_re, Re.language_seq, Re.language_group, Language.mem_mul] at hnot
  have hmatch : ∀ w b, EndsWithSlash w → '/' ∉ b → chop '/' path = w ++ b → b = [] := by
    intro w b hw hb hchop
    by_contra hne
    refine hnot ⟨w, mem_dirs.mpr hw, ?_⟩
    obtain ⟨t, ht, hp⟩ := exists_append_chop '/' path
    exact ⟨b ++ t, mem_lastComponent.mpr ⟨b, t, rfl, ⟨hne, hb⟩, ht⟩,
      by rw [hp, hchop, List.append_assoc]⟩
  rcases cut '/' (chop '/' path) with hp | ⟨d, b, hchop, hb⟩
  · rw [last_of_not_mem hp]
    exact hmatch [] _ nofun hp rfl
  · rw [hchop, last_cut d hb]
    refine hmatch (d ++ ['/']) b (fun c hc ↦ ?_) hb (by rw [hchop, List.append_cons])
    simpa using hc.symm

/-- **`basename` is what follows the last slash**, when one trailing slash has been taken off. -/
theorem basename_eq (path : List Char) : basename (some path) = last '/' (chop '/' path) := by
  unfold basename
  split
  · next heq => cases heq
  · next heq =>
    obtain rfl := Option.some_inj.mp heq
    rfl
  · next heq =>
    obtain rfl := Option.some_inj.mp heq
    split_ifs with hroot
    · rw [hroot]
      rfl
    · split
      · next hmatch => exact basename_capture hmatch
      · next hmatch => exact (last_eq_nil_of_no_match hmatch).symm

example : basename (some "/root/".toList) = "root".toList := by decide

/-- The paths that `dirname` can cut: there is a slash before the last component, and no line
terminator before that slash. -/
theorem mem_dirname_language {path : List Char} : path ∈ dirnamePattern.re.language ↔
    ∃ d b, chop '/' path = d ++ '/' :: b ∧ (b ≠ [] ∧ '/' ∉ b) ∧ LineFree d := by
  rw [dirnamePattern_re, Re.language_seq, Re.language_group, Re.language_seq, Language.mem_mul]
  constructor
  · rintro ⟨d, hd, x, ⟨y, hy, z, hz, rfl⟩, rfl⟩
    obtain ⟨c, hc, rfl⟩ := Re.mem_language_set.mp hy
    obtain rfl := mem_slash.mp hc
    obtain ⟨b, t, rfl, hb, ht⟩ := mem_lastComponent.mp hz
    refine ⟨d, b, ?_, hb, mem_dots.mp hd⟩
    have hchop := chop_eq (w := d ++ ['/']) hb ht
    simpa using hchop
  · rintro ⟨d, b, hchop, hb, hd⟩
    obtain ⟨t, ht, hp⟩ := exists_append_chop '/' path
    refine ⟨d, mem_dots.mpr hd, ['/'] ++ (b ++ t), ⟨['/'], ?_, b ++ t, ?_, rfl⟩, ?_⟩
    · exact Re.mem_language_set.mpr ⟨'/', mem_slash.mpr rfl, rfl⟩
    · exact mem_lastComponent.mpr ⟨b, t, rfl, hb, ht⟩
    · rw [hp, hchop]
      simp

/-- The first group of `dirname` is what stands before the last slash. -/
theorem dirname_capture {path d b : List Char} {result : Match}
    (h : dirnamePattern.re.fullMatch path = some result) (hchop : chop '/' path = d ++ '/' :: b)
    (hb : '/' ∉ b) : result.get 1 = d := by
  obtain ⟨t, ht, hrest, hcaps⟩ := Re.exists_of_fullMatch h
  rw [dirnamePattern_re] at ht
  obtain ⟨w, u, -, hstart, ht', hcap⟩ := mem_run_group_seq (by decide) (by decide) ht
  obtain ⟨x, hx, hu⟩ := (Re.accepts
    (r := .seq (.set slash) (.seq (.group 2 componentRe) optSlash)) (by decide)).sound u t ht'
  rw [Re.language_seq, Language.mem_mul] at hx
  obtain ⟨y, hy, z, hz, rfl⟩ := hx
  obtain ⟨c, hc, rfl⟩ := Re.mem_language_set.mp hy
  obtain rfl := mem_slash.mp hc
  obtain ⟨b', v, rfl, hb', hv⟩ := mem_lastComponent.mp hz
  have hpath : path = w ++ ['/'] ++ b' ++ v := by
    have hsplit : path = w ++ u.rest := hstart
    rw [hsplit, hu, hrest]
    simp
  have hcut : d ++ '/' :: b = w ++ '/' :: b' := by
    rw [← hchop, hpath, chop_eq hb' hv, ← List.append_cons]
  obtain ⟨rfl, -⟩ := cut_unique hcut hb hb'.2
  show (result.caps 1).getD [] = d
  rw [hcaps, hcap, Option.getD_some]

/-- A path that is empty or one slash is not cut. -/
theorem ne_of_cut {path d b : List Char} (hchop : chop '/' path = d ++ '/' :: b) :
    path ≠ [] ∧ path ≠ ['/'] := by
  have hne : chop '/' path ≠ [] := by simp [hchop]
  constructor
  · rintro rfl
    exact hne rfl
  · rintro rfl
    exact hne rfl

/-- **`dirname` is what stands before the last slash**, when one trailing slash has been taken off
and what remains does not end with a slash. -/
theorem dirname_cut {path d b : List Char} (hchop : chop '/' path = d ++ '/' :: b) (hne : b ≠ [])
    (hb : '/' ∉ b) (hd : LineFree d) : dirname (some path) = if d = [] then ['/'] else d := by
  obtain ⟨hnil, hroot⟩ := ne_of_cut hchop
  obtain ⟨c, path, rfl⟩ := List.exists_cons_of_ne_nil hnil
  have hmatch : dirnamePattern.re.fullMatch (c :: path) ≠ none := fun h ↦
    (Re.fullMatch_eq_none (by decide)).mp h (mem_dirname_language.mpr ⟨d, b, hchop, ⟨hne, hb⟩, hd⟩)
  obtain ⟨result, hresult⟩ := Option.ne_none_iff_exists'.mp hmatch
  rw [dirname, if_neg hroot, hresult]
  · simp only [dirname_capture hresult hchop hb]
  · exact List.cons_ne_nil c path

example : dirname (some "/root/test.txt".toList) = "/root".toList := by decide

/-- Every other path is taken for a name in the current directory. -/
theorem dirname_dot {path : List Char} (hnil : path ≠ []) (hroot : path ≠ ['/'])
    (h : ¬∃ d b, chop '/' path = d ++ '/' :: b ∧ (b ≠ [] ∧ '/' ∉ b) ∧ LineFree d) :
    dirname (some path) = ['.'] := by
  obtain ⟨c, path, rfl⟩ := List.exists_cons_of_ne_nil hnil
  have hmatch : dirnamePattern.re.fullMatch (c :: path) = none :=
    (Re.fullMatch_eq_none (by decide)).mpr (mt mem_dirname_language.mp h)
  rw [dirname, if_neg hroot, hmatch]
  exact List.cons_ne_nil c path

end FileUtils
