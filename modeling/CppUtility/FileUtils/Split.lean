import CppUtility.FileUtils.Basic

/-!
# Splitting a path

What `dirname` and `basename` say of a path together.  The two are used as a pair: what the one cuts
off the other one should keep, so that a file can be found again from its directory and its base.
`Splits` is this expectation, in terms of the components of the path: those of the directory and
then the base are those of the path, and the directory is absolute when the path is.

The functions agree on where the last component begins, and between them they keep every component,
as long as `dirname` can read what comes before the last component.  Its `.` does not match a line
terminator, while the `[^/]` of `basename` does; so a file is known by its name and has lost its
directory when there is a newline on the way to it.  `splits_iff` says that this is the only thing
that can go wrong for a path with a base.

Trailing slashes are the other half.  Both expressions take one slash after the last component and
no more: one trailing slash is ignored, as in the shell, and two are not.  `trailing_slashes_iff`
covers paths that consist of slashes alone as well, where one slash is the root directory and two
are nothing at all.
-/

set_option autoImplicit false

namespace FileUtils

open Path

/-! ## The directory and the base -/

/-- `directory` and `base` are what a path is made of: if a slash comes before the last component,
`directory` has the components before it and begins where the path begins; otherwise `base` is all
there is, in the current directory. -/
def Splits (path directory base : List Char) : Prop :=
  '/' ∉ base ∧
    if '/' ∈ front '/' path then
      components '/' directory ++ [base] = components '/' path ∧
        (directory.head? = some '/' ↔ path.head? = some '/')
    else directory = ['.'] ∧ components '/' path = [base]

variable {path d b : List Char}

theorem ne_of_basename (h : basename (some path) ≠ []) : path ≠ [] ∧ path ≠ ['/'] := by
  constructor
  · rintro rfl
    exact h rfl
  · rintro rfl
    exact h rfl

/-- A path without a slash before its last component. -/
theorem splits_of_not_mem (h : basename (some path) ≠ []) (hp : '/' ∉ chop '/' path) :
    front '/' path = [] ∧ Splits path (dirname (some path)) (basename (some path)) := by
  obtain ⟨hnil, hroot⟩ := ne_of_basename h
  have hbase : basename (some path) = chop '/' path := by rw [basename_eq, last_of_not_mem hp]
  have hfront : front '/' path = [] := by
    rw [hbase] at h
    rcases chop_cases '/' path with heq | heq
    · rw [heq]
      simpa using front_of_not_mem h hp 0
    · rw [heq]
      exact front_of_not_mem h hp 1
  have hdir : dirname (some path) = ['.'] := by
    refine dirname_dot hnil hroot ?_
    rintro ⟨d, b, hchop, -⟩
    exact hp (by simp [hchop])
  have hcomp : components '/' path = [basename (some path)] := by
    rw [hbase, ← components_chop, components_of_not_mem (hbase ▸ h) hp]
  refine ⟨hfront, hbase ▸ hp, ?_⟩
  rw [hfront, if_neg List.not_mem_nil]
  exact ⟨hdir, hcomp⟩

/-- The components of a path are those before the last slash and the one after it. -/
theorem components_cut (hchop : chop '/' path = d ++ '/' :: b) (hne : b ≠ []) (hb : '/' ∉ b) :
    components '/' path = components '/' d ++ [b] := by
  rw [← components_chop, hchop, components_append, components_of_not_mem hne hb]

theorem head?_cut (hchop : chop '/' path = d ++ '/' :: b) :
    path.head? = (d ++ ['/']).head? := by
  obtain ⟨t, -, hp⟩ := exists_append_chop '/' path
  rw [hp, hchop, List.append_cons]
  simp

/-- A path that is cut, with no line terminator before the cut. -/
theorem splits_of_lineFree (hchop : chop '/' path = d ++ '/' :: b) (hne : b ≠ []) (hb : '/' ∉ b)
    (hd : LineFree d) : Splits path (dirname (some path)) b := by
  refine ⟨hb, ?_⟩
  rw [front_of_chop hchop hne hb, if_pos (by simp), dirname_cut hchop hne hb hd,
    components_cut hchop hne hb, head?_cut hchop]
  by_cases hnil : d = []
  · subst hnil
    simp
  · rw [if_neg hnil, List.head?_append_of_ne_nil _ hnil]
    exact ⟨rfl, Iff.rfl⟩

/-- With a line terminator before the cut, the directory is lost. -/
theorem not_splits_of_not_lineFree (hchop : chop '/' path = d ++ '/' :: b) (hne : b ≠ [])
    (hb : '/' ∉ b) (hd : ¬LineFree d) : ¬Splits path (dirname (some path)) b := by
  obtain ⟨hnil, hroot⟩ := ne_of_cut hchop
  have hdir : dirname (some path) = ['.'] := by
    refine dirname_dot hnil hroot ?_
    rintro ⟨d', b', hchop', hb', hd'⟩
    obtain ⟨rfl, -⟩ := cut_unique (hchop.symm.trans hchop') hb hb'.2
    exact hd hd'
  rintro ⟨-, h⟩
  rw [front_of_chop hchop hne hb, if_pos (by simp), hdir, components_cut hchop hne hb] at h
  have hcomp : components '/' d = [['.']] := by
    rw [← List.append_cancel_right h.1]
    exact components_of_not_mem (List.cons_ne_nil _ _) (by decide)
  -- the terminator is in a component, and is not a dot
  obtain ⟨c, hc, hterm⟩ : ∃ c ∈ d, c = '\n' ∨ c = '\r' := by
    simpa [LineFree, or_iff_not_imp_left] using hd
  have hslash : c ≠ '/' := by
    rintro rfl
    revert hterm
    decide
  obtain ⟨w, hw, hcw⟩ := mem_components hc hslash
  obtain rfl := List.mem_singleton.mp (hcomp ▸ hw)
  obtain rfl := List.mem_singleton.mp hcw
  revert hterm
  decide

theorem lineFree_concat (d : List Char) : LineFree (d ++ ['/']) ↔ LineFree d := by
  constructor
  · exact fun h c hc ↦ h c (List.mem_append_left _ hc)
  · intro h c hc
    rcases List.mem_append.mp hc with hc | hc
    · exact h c hc
    · obtain rfl := List.mem_singleton.mp hc
      decide

/-- **`dirname` and `basename` split a path** with a last component exactly when no line terminator
comes before that component. -/
theorem splits_iff (h : basename (some path) ≠ []) :
    Splits path (dirname (some path)) (basename (some path)) ↔ LineFree (front '/' path) := by
  rcases cut '/' (chop '/' path) with hp | ⟨d, b, hchop, hb⟩
  · obtain ⟨hfront, hsplits⟩ := splits_of_not_mem h hp
    rw [hfront]
    exact ⟨fun _ ↦ nofun, fun _ ↦ hsplits⟩
  · have hbase : basename (some path) = b := by rw [basename_eq, hchop, last_cut d hb]
    have hne : b ≠ [] := hbase ▸ h
    rw [hbase, front_of_chop hchop hne hb, lineFree_concat]
    constructor
    · contrapose!
      exact not_splits_of_not_lineFree hchop hne hb
    · exact splits_of_lineFree hchop hne hb

/-- The split of `/usr//lib`. -/
theorem splits_iff_usr_lib : basename (some "/usr//lib".toList) ≠ [] ∧
    (Splits "/usr//lib".toList (dirname (some "/usr//lib".toList))
      (basename (some "/usr//lib".toList)) ↔ LineFree (front '/' "/usr//lib".toList)) :=
  ⟨by decide, splits_iff (by decide)⟩

/-- The directory of a file is lost when its name has a newline, although `basename` reads it. -/
theorem directory_lost : ¬∀ path, basename (some path) ≠ [] →
    Splits path (dirname (some path)) (basename (some path)) := by
  intro h
  have hsplits := h "/a\nb/c".toList (by decide)
  revert hsplits
  unfold Splits
  decide

/-! ## Trailing slashes

Any number of them would be taken off by the functions of the same names in a shell.  With one slash
`chop` gives the path back, and both functions see no difference.  With two or more there is still a
slash at the end after one has been taken off, and then the path has no last component for these
expressions: `basename` is empty, and that alone shows the difference. -/

/-- The split of a path is that of the path with `k` slashes after it. -/
def IgnoresTrailing (path : List Char) (k : ℕ) : Prop :=
  dirname (some (path ++ List.replicate k '/')) = dirname (some path) ∧
    basename (some (path ++ List.replicate k '/')) = basename (some path)

/-- `k` slashes are the root directory. -/
def IsRoot (k : ℕ) : Prop :=
  dirname (some (List.replicate k '/')) = ['/'] ∧ basename (some (List.replicate k '/')) = []

/-- Trailing slashes do not change the split: slashes alone, one at least, are the root directory,
and after any other path they are ignored. -/
def KeepsSplit (path : List Char) (k : ℕ) : Prop :=
  if path = [] then 1 ≤ k → IsRoot k else IgnoresTrailing path k

/-- One trailing slash is not looked at. -/
theorem dirname_concat (hnil : path ≠ []) (hlast : path.getLast? ≠ some '/') :
    dirname (some (path ++ ['/'])) = dirname (some path) := by
  have hchop : chop '/' (path ++ ['/']) = chop '/' path := by
    rw [chop_concat, chop_of_ne hlast]
  by_cases h : ∃ d b, chop '/' path = d ++ '/' :: b ∧ (b ≠ [] ∧ '/' ∉ b) ∧ LineFree d
  · obtain ⟨d, b, hcut, ⟨hne, hb⟩, hd⟩ := h
    rw [dirname_cut hcut hne hb hd, dirname_cut (hchop.trans hcut) hne hb hd]
  · rw [dirname_dot hnil (fun hroot ↦ hlast (by rw [hroot]; rfl)) h]
    exact dirname_dot (by simp) (by simpa using hnil) (by rwa [hchop])

/-- After two slashes or more there is no last component. -/
theorem basename_trailing (path : List Char) (k : ℕ) :
    basename (some (path ++ List.replicate (k + 2) '/')) = [] := by
  rw [basename_eq, List.replicate_succ', ← List.append_assoc, chop_concat, List.replicate_succ',
    ← List.append_assoc]
  exact last_cut _ List.not_mem_nil

theorem basename_ne_nil (hnil : path ≠ []) (hlast : path.getLast? ≠ some '/') :
    basename (some path) ≠ [] := by
  rw [basename_eq, chop_of_ne hlast]
  rcases cut '/' path with hp | ⟨d, b, rfl, hb⟩
  · rwa [last_of_not_mem hp]
  · rw [last_cut d hb]
    rintro rfl
    exact hlast (by simp)

theorem ignoresTrailing_iff (k : ℕ) (hnil : path ≠ []) (hlast : path.getLast? ≠ some '/') :
    IgnoresTrailing path k ↔ k ≤ 1 := by
  match k with
  | 0 => simp [IgnoresTrailing]
  | 1 =>
    have hbase : basename (some (path ++ ['/'])) = basename (some path) := by
      rw [basename_eq, basename_eq, chop_concat, chop_of_ne hlast]
    exact iff_of_true ⟨dirname_concat hnil hlast, hbase⟩ le_rfl
  | k + 2 =>
    refine iff_of_false (fun h ↦ ?_) (by omega)
    exact basename_ne_nil hnil hlast (h.2.symm.trans (basename_trailing path k))

theorem isRoot_iff (k : ℕ) (hk : 1 ≤ k) : IsRoot k ↔ k = 1 := by
  match k, hk with
  | 1, _ => exact iff_of_true (by unfold IsRoot; decide) rfl
  | k + 2, _ =>
    refine iff_of_false (fun h ↦ ?_) (by omega)
    have hchop : chop '/' (List.replicate (k + 2) '/') = List.replicate (k + 1) '/' := by
      rw [List.replicate_succ', chop_concat]
    have hdir : dirname (some (List.replicate (k + 2) '/')) = ['.'] := by
      refine dirname_dot (by simp) (by simp [List.replicate_succ]) ?_
      rintro ⟨d, b, hcut, ⟨hne, hb⟩, -⟩
      obtain ⟨c, hc⟩ := List.exists_mem_of_ne_nil b hne
      have hmem : c ∈ List.replicate (k + 1) '/' := by simp [← hchop, hcut, hc]
      exact hb (List.eq_of_mem_replicate hmem ▸ hc)
    exact absurd (hdir.symm.trans h.1) (by decide)

/-- **One trailing slash is ignored, and no more.** -/
theorem trailing_slashes_iff (k : ℕ) (hlast : path.getLast? ≠ some '/') :
    KeepsSplit path k ↔ k ≤ 1 := by
  by_cases hnil : path = []
  · rw [KeepsSplit, if_pos hnil]
    constructor
    · intro h
      by_contra hk
      exact absurd ((isRoot_iff k (by omega)).mp (h (by omega))) (by omega)
    · intro hk hpos
      exact (isRoot_iff k hpos).mpr (by omega)
  · rw [KeepsSplit, if_neg hnil]
    exact ignoresTrailing_iff k hnil hlast

/-- The split of `/usr/lib` with two slashes after it. -/
theorem trailing_slashes_iff_usr_lib : KeepsSplit "/usr/lib".toList 2 ↔ 2 ≤ 1 :=
  trailing_slashes_iff 2 (by decide)

/-- Two trailing slashes change the split. -/
theorem trailing_slashes_split :
    ¬∀ (path : List Char) (k : ℕ), path.getLast? ≠ some '/' → KeepsSplit path k := by
  intro h
  have hsplit := h ['a'] 2 (by decide)
  rw [KeepsSplit, if_neg (by decide)] at hsplit
  have hbase := hsplit.2
  revert hbase
  decide

end FileUtils
