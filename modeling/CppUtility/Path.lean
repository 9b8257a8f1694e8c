import Mathlib.Data.List.DropRight
import Mathlib.Logic.Basic

/-!
# Paths with a separator

A path is a list of symbols, one of which, `sep`, separates its components.  Separators can come in
runs, at the beginning, at the end and in between; the components are the non-empty pieces, so that
several paths have the same components and a path is more than the list of them.

Functions on paths look at them from the end, and so does this file.

* `cut` splits a path at its last separator: there is none, or there is one way to do it
  (`cut_unique`).
* `last` is what follows the last separator, and `chop` takes one trailing separator off.  The two
  are used together by anything that ignores one separator at the end.
* `front` is what comes before the last component, however many separators follow that; it is empty
  or ends with a separator.
* `components` are the non-empty pieces.  They are additive over a separator (`components_append`),
  and neither a trailing separator nor a second one adds anything.

Most statements are about a path in its cut form, `chop sep p = d ++ sep :: b` with no separator in
`b`: the directory `d`, the base `b`, and perhaps one separator after it.  A proof by induction over
the directories then goes from `p` to `d`, and `last_cut`, `front_of_chop` and `infix_cut_iff` say
what this step does to each of the notions above.
-/

set_option autoImplicit false

namespace Path

variable {α : Type*}

/-! ## Lists from the right -/

section Right

variable {p : α → Bool} {l m : List α}

theorem rdropWhile_append (h : ∀ x ∈ m, p x = true) :
    (l ++ m).rdropWhile p = l.rdropWhile p := by
  induction m using List.reverseRecOn with
  | nil => rw [List.append_nil]
  | append_singleton m x ih =>
    rw [← List.append_assoc, List.rdropWhile_concat_pos p _ x (h x (by simp))]
    exact ih fun y hy ↦ h y (List.mem_append_left _ hy)

theorem rdropWhile_append_neg (hne : m ≠ []) (h : ∀ x ∈ m, p x = false) :
    (l ++ m).rdropWhile p = l ++ m := by
  obtain ⟨m, x, rfl⟩ := (List.eq_nil_or_concat m).resolve_left hne
  rw [List.concat_eq_append, ← List.append_assoc]
  refine List.rdropWhile_concat_neg p _ x ?_
  simp [h x (by simp)]

theorem rtakeWhile_append (h : ∀ x ∈ m, p x = true) :
    (l ++ m).rtakeWhile p = l.rtakeWhile p ++ m := by
  induction m using List.reverseRecOn with
  | nil => rw [List.append_nil, List.append_nil]
  | append_singleton m x ih =>
    rw [← List.append_assoc, List.rtakeWhile_concat_pos p _ x (h x (by simp)),
      ih fun y hy ↦ h y (List.mem_append_left _ hy), List.append_assoc]

end Right

variable [DecidableEq α] {sep : α} {p q d b : List α}

/-! ## The last separator -/

/-- What follows the last separator. -/
def last (sep : α) (p : List α) : List α := p.rtakeWhile (· ≠ sep)

/-- One trailing separator is taken off. -/
def chop (sep : α) (p : List α) : List α := if p.getLast? = some sep then p.dropLast else p

/-- What comes before the last component; it is empty or ends with a separator. -/
def front (sep : α) (p : List α) : List α := (p.rdropWhile (· = sep)).rdropWhile (· ≠ sep)

/-- **A path is cut at its last separator**, if it has one. -/
theorem cut (sep : α) (p : List α) : sep ∉ p ∨ ∃ d b, p = d ++ sep :: b ∧ sep ∉ b := by
  by_cases h : sep ∈ p
  · right
    obtain ⟨b, d, hrev, hb⟩ := List.eq_append_cons_of_mem (List.mem_reverse.mpr h)
    refine ⟨d.reverse, b.reverse, ?_, by simpa using hb⟩
    rw [← List.reverse_reverse p, hrev]
    simp
  · exact .inl h

theorem ne_of_not_mem (hb : sep ∉ b) : ∀ x ∈ b, decide (x ≠ sep) = true := by
  intro x hx
  rw [decide_eq_true_eq]
  rintro rfl
  exact hb hx

theorem last_of_not_mem (hp : sep ∉ p) : last sep p = p :=
  List.rtakeWhile_eq_self_iff.mpr (ne_of_not_mem hp)

theorem last_cut (d : List α) (hb : sep ∉ b) : last sep (d ++ sep :: b) = b := by
  have hsep : List.rtakeWhile (fun x ↦ decide (x ≠ sep)) (d ++ [sep]) = [] :=
    List.rtakeWhile_concat_neg _ _ sep (by simp)
  rw [last, List.append_cons d sep b, rtakeWhile_append (ne_of_not_mem hb), hsep, List.nil_append]

/-- There is one way to cut a path at its last separator. -/
theorem cut_unique {d' b' : List α} (h : d ++ sep :: b = d' ++ sep :: b') (hb : sep ∉ b)
    (hb' : sep ∉ b') : d = d' ∧ b = b' := by
  have heq : b = b' := by rw [← last_cut d hb, h, last_cut d' hb']
  subst heq
  exact ⟨List.append_cancel_right h, rfl⟩

omit [DecidableEq α] in
theorem getLast?_ne (d : List α) (hne : b ≠ []) (hb : sep ∉ b) : (d ++ b).getLast? ≠ some sep := by
  rw [List.getLast?_append_of_ne_nil _ hne]
  exact fun h ↦ hb (List.mem_of_getLast? h)

@[simp] theorem chop_concat (p : List α) : chop sep (p ++ [sep]) = p := by
  simp [chop]

theorem chop_of_ne (h : p.getLast? ≠ some sep) : chop sep p = p := if_neg h

/-- A path is what is left of it, with or without a trailing separator. -/
theorem chop_cases (sep : α) (p : List α) : p = chop sep p ∨ p = chop sep p ++ [sep] := by
  by_cases h : p.getLast? = some sep
  · right
    obtain ⟨q, rfl⟩ := List.getLast?_eq_some_iff.mp h
    rw [chop_concat]
  · exact .inl (chop_of_ne h).symm

/-- What `chop` takes off. -/
theorem exists_append_chop (sep : α) (p : List α) :
    ∃ t, (t = [] ∨ t = [sep]) ∧ p = chop sep p ++ t := by
  rcases chop_cases sep p with h | h
  · exact ⟨[], .inl rfl, by rwa [List.append_nil]⟩
  · exact ⟨[sep], .inr rfl, h⟩

/-- Two separators end a path when one still ends what `chop` leaves. -/
theorem suffix_iff_chop : [sep, sep] <:+ p ↔ ∃ d, chop sep p = d ++ [sep] := by
  constructor
  · rintro ⟨d, rfl⟩
    exact ⟨d, by rw [List.append_cons, chop_concat]⟩
  · rintro ⟨d, hd⟩
    refine ⟨d, ?_⟩
    rcases chop_cases sep p with hp | hp
    · rw [hd] at hp
      rw [hp, chop_concat] at hd
      simp at hd
    · rw [hp, hd, List.append_cons]

theorem front_of_not_mem (hne : b ≠ []) (hb : sep ∉ b) (k : ℕ) :
    front sep (b ++ List.replicate k sep) = [] := by
  have hrep : ∀ x ∈ List.replicate k sep, decide (x = sep) = true :=
    fun x hx ↦ decide_eq_true (List.eq_of_mem_replicate hx)
  have hkeep : List.rdropWhile (fun x ↦ decide (x = sep)) ([] ++ b) = [] ++ b :=
    rdropWhile_append_neg hne fun x hx ↦ by simpa using ne_of_not_mem hb x hx
  rw [front, rdropWhile_append hrep, ← List.nil_append b, hkeep]
  exact List.rdropWhile_eq_nil_iff.mpr (ne_of_not_mem hb)

theorem front_cut (d : List α) (hne : b ≠ []) (hb : sep ∉ b) (k : ℕ) :
    front sep (d ++ sep :: b ++ List.replicate k sep) = d ++ [sep] := by
  have hrep : ∀ x ∈ List.replicate k sep, decide (x = sep) = true :=
    fun x hx ↦ decide_eq_true (List.eq_of_mem_replicate hx)
  have hkeep : List.rdropWhile (fun x ↦ decide (x = sep)) (d ++ [sep] ++ b) = d ++ [sep] ++ b :=
    rdropWhile_append_neg hne fun x hx ↦ by simpa using ne_of_not_mem hb x hx
  rw [front, rdropWhile_append hrep, List.append_cons d sep b, hkeep,
    rdropWhile_append (ne_of_not_mem hb)]
  exact List.rdropWhile_concat_neg _ _ sep (by simp)

/-- Of a path that is cut after its trailing separator is taken off. -/
theorem front_of_chop (h : chop sep p = d ++ sep :: b) (hne : b ≠ []) (hb : sep ∉ b) :
    front sep p = d ++ [sep] := by
  rcases chop_cases sep p with hp | hp
  · rw [hp, h]
    exact List.append_nil (d ++ sep :: b) ▸ front_cut d hne hb 0
  · rw [hp, h]
    exact front_cut d hne hb 1

theorem prefix_front (sep : α) (p : List α) : front sep p <+: p :=
  (List.rdropWhile_prefix _ _).trans (List.rdropWhile_prefix _ p)

/-! ## Components -/

/-- The components: the non-empty pieces between separators. -/
def components (sep : α) (p : List α) : List (List α) := (p.splitOn sep).filter (· ≠ [])

/-- **The components of two paths with a separator between them.** -/
theorem components_append (sep : α) (p q : List α) :
    components sep (p ++ sep :: q) = components sep p ++ components sep q := by
  rw [components, List.splitOn_append_cons_self, List.filter_append]
  rfl

@[simp] theorem components_nil (sep : α) : components sep [] = [] := by
  simp [components, List.splitOn_nil]

theorem components_of_not_mem (hne : b ≠ []) (hb : sep ∉ b) : components sep b = [b] := by
  rw [components, List.splitOn_eq_singleton hb]
  simp [hne]

/-- A trailing separator does not add a component. -/
@[simp] theorem components_concat (sep : α) (p : List α) :
    components sep (p ++ [sep]) = components sep p := by
  rw [components_append, components_nil, List.append_nil]

@[simp] theorem components_sep (sep : α) : components sep [sep] = [] :=
  (components_concat sep []).trans (components_nil sep)

theorem components_chop (sep : α) (p : List α) :
    components sep (chop sep p) = components sep p := by
  rcases chop_cases sep p with h | h
  · rw [← h]
  · conv_rhs => rw [h, components_concat]

/-- Every symbol but the separator is in a component. -/
theorem mem_components {c : α} (hc : c ∈ p) (hne : c ≠ sep) : ∃ w ∈ components sep p, c ∈ w := by
  induction hn : p.length using Nat.strong_induction_on generalizing p with
  | h n ih =>
    rcases cut sep p with hp | ⟨d, b, rfl, hb⟩
    · have hnil : p ≠ [] := List.ne_nil_of_mem hc
      exact ⟨p, by simp [components_of_not_mem hnil hp], hc⟩
    · simp only [List.mem_append, List.mem_cons, hne, false_or] at hc
      rw [components_append]
      rcases hc with hc | hc
      · obtain ⟨w, hw, hcw⟩ := ih d.length (by simp [← hn]) hc rfl
        exact ⟨w, List.mem_append_left _ hw, hcw⟩
      · have hnil : b ≠ [] := List.ne_nil_of_mem hc
        exact ⟨b, by simp [components_of_not_mem hnil hb], hc⟩

/-! ## Runs of separators

A run of `n` separators is an infix of the path.  When the last component is cut off, with the
separator before it, a run in the rest is as long as before, but the run that the cut goes through
loses one.  So a run of `n + 2` in the path is one in the directory, or one of `n + 1` at the
directory's end. -/

omit [DecidableEq α] in
/-- A run of separators does not reach across another symbol. -/
theorem infix_of_append_cons {n : ℕ} {c : α} {u v : List α} (hc : c ≠ sep)
    (h : List.replicate n sep <:+: u ++ c :: v) :
    List.replicate n sep <:+: u ∨ List.replicate n sep <:+: v := by
  -- no piece of the run that is not empty begins with `c`
  have hhead : ∀ w : List α, w ≠ [] → (∀ x ∈ w, x = sep) → ¬w <+: c :: v := by
    rintro w hne hw ⟨y, hy⟩
    obtain ⟨x, w, rfl⟩ := List.exists_cons_of_ne_nil hne
    rw [List.cons_append] at hy
    exact hc ((List.cons.inj hy).1.symm.trans (hw x List.mem_cons_self))
  have hrep : ∀ x ∈ List.replicate n sep, x = sep := fun x ↦ List.eq_of_mem_replicate
  rcases List.infix_append_iff_ne_nil.mp h with h | h | ⟨w₁, w₂, -, hne, heq, -, h⟩
  · exact .inl h
  · rcases List.infix_cons_iff.mp h with h | h
    · cases n with
      | zero => exact .inl (List.nil_infix)
      | succ n => exact absurd h (hhead _ (by simp) hrep)
    · exact .inr h
  · exact absurd h (hhead w₂ hne fun x hx ↦ hrep x (heq ▸ List.mem_append_right _ hx))

omit [DecidableEq α] in
/-- A run is not in a component and a separator after it. -/
theorem not_infix_component {n : ℕ} {t : List α} (hb : sep ∉ b) (ht : t = [] ∨ t = [sep]) :
    ¬List.replicate (n + 2) sep <:+: b ++ t := by
  classical
  intro h
  have hcount : n + 2 ≤ (b ++ t).count sep := by
    have hle := h.sublist.count_le sep
    rwa [List.count_replicate_self] at hle
  have ht' : t.count sep ≤ 1 := by
    rcases ht with rfl | rfl <;> simp
  rw [List.count_append, List.count_eq_zero.mpr hb] at hcount
  omega

/-- **The runs in a path are those before the last separator**, or one that ends with it. -/
theorem infix_cut_iff {n : ℕ} (h : chop sep p = d ++ sep :: b) (hne : b ≠ []) (hb : sep ∉ b) :
    List.replicate (n + 2) sep <:+: p ↔
      List.replicate (n + 2) sep <:+: d ∨ List.replicate (n + 1) sep <:+ d := by
  have hdir : List.replicate (n + 2) sep <:+: d ++ [sep] ↔
      List.replicate (n + 2) sep <:+: d ∨ List.replicate (n + 1) sep <:+ d := by
    rw [List.infix_concat_iff, or_comm, List.replicate_succ', List.suffix_concat_iff]
    simp
  rw [← hdir]
  obtain ⟨c, b, rfl⟩ := List.exists_cons_of_ne_nil hne
  obtain ⟨hc, hb'⟩ := not_or.mp (mt List.mem_cons.mpr hb)
  constructor
  · intro hrun
    obtain ⟨t, ht, hp⟩ := exists_append_chop sep p
    have hsplit : p = (d ++ [sep]) ++ c :: (b ++ t) := by
      rw [hp, h]
      simp
    rw [hsplit] at hrun
    exact (infix_of_append_cons (Ne.symm hc) hrun).resolve_right (not_infix_component hb' ht)
  · intro hrun
    rw [← front_of_chop h hne hb] at hrun
    exact hrun.trans (prefix_front sep p).isInfix

end Path
