import CppUtility.Router.Tokens

/-!
# What the constructor of `Route` makes of a path

The expression of a route is compiled from the text of its path with a group for each parameter; the
literal text is copied as it is.  What comes of it depends on the literal text.

* For any text, the constructor succeeds if the names are distinct and the text compiles, and fails
  in one of two ways otherwise: it aborts at a name that comes twice, or throws a
  `std::regex_error`.  `new_colon` says so for a path with a `:`, and `new_param` for a path with a
  parameter, in terms of the pieces of the path.
* Where the only syntax character of the literal text is the `.`, the text always compiles, piece by
  piece: `compile_pattern` gives the expression, a set for each literal character and a group for
  each parameter.  Such a piece is called simple.
* The words of this expression are those of `Template.found` (`language_pattern`).  With this, what
  such a route finds is a matter of templates, and nothing has to be parsed any more.

The expression of a list of pieces depends on the number of groups that have been opened before it,
as groups are numbered from the left.  An induction on the pieces has to be about any such number.
-/

set_option autoImplicit false

open Template Regex

namespace Template

/-! ## The expression of a simple template -/

/-- `[^/]`. -/
def notSlash : CharSet := ⟨true, [.range '/' '/']⟩

theorem notSlash_mem {c : Char} : notSlash.mem c = true ↔ c ≠ '/' := by
  simp [notSlash, CharSet.mem, ClassItem.mem]

namespace Piece

/-- The groups that the expression of a piece opens. -/
def groups : Piece → ℕ
  | lit _ => 0
  | param _ => 1

/-- The characters at which the expression of a literal one is found. -/
def charSet (c : Char) : CharSet := if c = '.' then .dot else .single c

/-- The expression of a piece, after `k` groups. -/
def term : Piece → ℕ → Re
  | lit c, _ => .set (charSet c)
  | param _, k => .group (k + 1) (.seq (.rep 1 none true (.set notSlash)) .empty)

theorem charSet_mem {c d : Char} : (charSet c).mem d = true ↔ Finds c d := by
  rw [charSet, Finds]
  split
  · exact CharSet.mem_dot
  · exact CharSet.mem_single

theorem termText {p : Piece} (h : p.Simple) : TermText p.pattern p.groups p.term := by
  cases p with
  | lit c =>
    by_cases hc : c = '.'
    · subst hc
      exact termText_dot
    · have hterm : (lit c).term = fun _ ↦ .set (.single c) := by
        funext k
        rw [term, charSet, if_neg hc]
      rw [hterm]
      exact termText_single (h.resolve_left hc)
  | param name =>
    refine ⟨⟨'(', "[^/]+)".toList, rfl, by decide⟩, fun _ _ ↦ rfl, fun n k rest hrest ↦ ?_⟩
    have hclosed : parseTerm (parseDisj (n + 1)) ((param name).pattern ++ rest) k
        = quantified ((param name).term k) rest (k + 1) := rfl
    rw [hclosed, quantified_eq hrest]
    rfl

end Piece

/-- The expression of a template, after `k` groups. -/
def pattern (k : ℕ) (ps : List Piece) : Re := seqOf Piece.groups Piece.term k ps

theorem groupsOf_eq (ps : List Piece) : groupsOf Piece.groups ps = (names ps).length := by
  induction ps with
  | nil => rfl
  | cons p ps ih =>
    rw [groupsOf, ih]
    cases p with
    | lit c => exact Nat.zero_add _
    | param name => exact Nat.add_comm 1 _

/-- **The text of a simple template is compiled piece by piece.** -/
theorem compile_pattern {ps : List Piece} (h : ∀ p ∈ ps, p.Simple) :
    compile (ps.flatMap Piece.pattern) = some ⟨pattern 0 ps, (names ps).length⟩ := by
  rw [compile_terms fun p hp ↦ Piece.termText (h p hp), groupsOf_eq]
  rfl

theorem regular_pattern (k : ℕ) (ps : List Piece) : (pattern k ps).regular = true := by
  induction ps generalizing k with
  | nil => rfl
  | cons p ps ih =>
    have hp : (p.term k).regular = true := by cases p <;> rfl
    rw [pattern, seqOf, Re.regular, hp]
    exact ih _

theorem language_lit (c : Char) (k : ℕ) : ((Piece.lit c).term k).language = literals c := by
  ext w
  rw [Piece.term, Re.mem_language_set]
  exact exists_congr fun d ↦ and_congr_left fun _ ↦ Piece.charSet_mem

/-- A group takes a value. -/
theorem language_param (name : List Char) (k : ℕ) :
    ((Piece.param name).term k).language = values := by
  ext w
  rw [Piece.term, Re.language_group, Re.language_seq_empty,
    Re.mem_language_plus_set]
  refine and_congr_right fun _ ↦ ?_
  simp only [notSlash_mem]
  exact ⟨fun h hw ↦ h '/' hw rfl, fun h c hc hslash ↦ h (hslash ▸ hc)⟩

/-- **The words of the expression are those that the template is found at.** -/
theorem language_pattern (k : ℕ) (ps : List Piece) : (pattern k ps).language = found ps := by
  induction ps generalizing k with
  | nil => rw [pattern, seqOf, Re.language_empty, found]
  | cons p ps ih =>
    have hrest := ih (k + p.groups)
    rw [pattern] at hrest
    rw [pattern, seqOf, Re.language_seq, hrest]
    cases p with
    | lit c => rw [language_lit, found]
    | param name => rw [language_param, found]

end Template

namespace Route

variable {H : Type}

/-! ## The constructor

These are the results of `CppUtility.Router.Tokens` about the loop, put into the constructor.  A
path whose `:` has no letter after it gets an expression too, and no names. -/

theorem createPattenRegex_eq {r : Route H} (hr : r.m_groups = []) (path : List Char) :
    r.createPattenRegex path =
      if (names (read path)).Nodup then
        match compile ((read path).flatMap Piece.pattern) with
        | none => .error .regexError
        | some pattern => .ok { r with m_groups := names (read path), m_pattern := some pattern }
      else .error .abort := by
  have hlen : path.length < 2 * path.length + 2 := by omega
  have hloop := foldlM_tokenStep [] path [] hlen List.nodup_nil
  rw [List.reverse_nil, List.nil_append, List.nil_append, List.nil_append] at hloop
  rw [createPattenRegex, hr, Re.iterate]
  by_cases h : (names (read path)).Nodup
  · obtain ⟨l, hl, hgroups, htext⟩ := hloop.1 h
    rw [List.length_nil] at hl
    rw [hl, if_pos h, ← htext, ← hgroups]
    rfl
  · have hl := hloop.2 h
    rw [List.length_nil] at hl
    rw [hl, if_neg h]
    rfl

/-- The constructor, for a path with a `:`. -/
theorem new_colon {path : List Char} (hhead : path.head? = some '/') (hcolon : ':' ∈ path)
    (method : HTTPMethod) :
    (new method path : Except Fault (Route H)) =
      if (names (read path)).Nodup then
        match compile ((read path).flatMap Piece.pattern) with
        | none => .error .regexError
        | some pattern =>
          .ok ⟨none, method, path, some pattern, none, names (read path)⟩
      else .error .abort := by
  have hcheck : checkPath path = .ok () := by
    rw [checkPath, if_pos ⟨List.ne_nil_of_mem hcolon, hhead⟩]
  have hset : (new method path : Except Fault (Route H))
      = (createPattenRegex ⟨none, method, [], none, none, []⟩ path).map
        fun r ↦ { r with m_path := path } := by
    rw [new, hcheck]
    exact if_pos hcolon
  rw [hset, createPattenRegex_eq rfl]
  split
  · split <;> rfl
  · rfl

theorem colon_mem_of_names {path : List Char} (hparam : names (read path) ≠ []) : ':' ∈ path := by
  obtain ⟨name, hname⟩ := List.exists_mem_of_ne_nil _ hparam
  rw [← flatMap_text_read path]
  exact List.mem_flatMap.mpr ⟨_, mem_names.mp hname, List.mem_cons_self⟩

/-- **The constructor, for a path with a parameter.** -/
theorem new_param {path : List Char} (hhead : path.head? = some '/')
    (hparam : names (read path) ≠ []) (method : HTTPMethod) :
    (new method path : Except Fault (Route H)) =
      if (names (read path)).Nodup then
        match compile ((read path).flatMap Piece.pattern) with
        | none => .error .regexError
        | some pattern =>
          .ok ⟨none, method, path, some pattern, none, names (read path)⟩
      else .error .abort :=
  new_colon hhead (colon_mem_of_names hparam) method

end Route
