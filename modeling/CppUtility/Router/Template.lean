import CppUtility.Regex.Match

/-!
# Route templates

What the path of a route says, apart from how it is matched.  A path is read as a list of pieces:
characters that stand for themselves, and parameters `:name`, where a name is a letter and then
letters, digits and underscores, as many as there are.  An instance of the template has a value in
the place of each parameter, a text that is not empty and has no `/`.

Nothing here is about the code of `Route`.  This is what a reader takes a path like `/get/:id` for,
and the files that follow say how far the code does so too.

* `IsInstance` is the definition: there are values such that the path is the template with these in
  it.  A name that occurs twice has the same value at both places.
* `words` is the description of the instances by a language, which forgets the values.  For distinct
  names it is the same (`isInstance_iff`), and languages are what can be compared with what a
  regular expression matches.
* `found` is the larger language of the same template when its literal text is read as a regular
  expression.  Of the characters that have a meaning there, only the `.` is covered: it is found at
  any character but the end of a line.  Literal text with a `*` or a bracket in it is not a list of
  terms at all, and has no such description.

`read` is total: whatever cannot begin a parameter is a literal character, a `:` included.
-/

set_option autoImplicit false

namespace Template

open Regex (syntaxChars)

/-! ## Pieces and values -/

/-- A piece of a template. -/
inductive Piece
  | lit (c : Char)
  | param (name : List Char)
  deriving DecidableEq, Repr

/-- What may stand in the place of a parameter. -/
structure Value where
  text : List Char
  ne_nil : text ≠ []
  no_slash : '/' ∉ text

instance : Inhabited Value := ⟨['0'], by simp, by simp⟩

namespace Piece

/-- How a piece is written in the path of a route. -/
def text : Piece → List Char
  | lit c => [c]
  | param name => ':' :: name

/-- What a piece is in the path of a request. -/
def subst (val : List Char → Value) : Piece → List Char
  | lit c => [c]
  | param name => (val name).text

/-- The name of a parameter. -/
def name? : Piece → Option (List Char)
  | lit _ => none
  | param name => some name

/-- A literal character that is a term of a regular expression by itself: it is the `.` or no syntax
character.  Parameters are simple in any case. -/
def Simple : Piece → Prop
  | lit c => c = '.' ∨ c ∉ syntaxChars
  | param _ => True

instance : DecidablePred Simple
  | lit c => inferInstanceAs (Decidable (c = '.' ∨ c ∉ syntaxChars))
  | param _ => isTrue trivial

end Piece

/-- The names, in order. -/
def names (ps : List Piece) : List (List Char) := ps.filterMap Piece.name?

@[simp] theorem names_nil : names [] = [] := rfl
@[simp] theorem names_lit (c : Char) (ps : List Piece) : names (.lit c :: ps) = names ps := rfl
@[simp] theorem names_param (name : List Char) (ps : List Piece) :
    names (.param name :: ps) = name :: names ps := rfl

@[simp] theorem names_map_lit (s : List Char) : names (s.map .lit) = [] := by
  induction s with
  | nil => rfl
  | cons c s ih => exact ih

theorem names_append (ps qs : List Piece) : names (ps ++ qs) = names ps ++ names qs :=
  List.filterMap_append

theorem mem_names {ps : List Piece} {name : List Char} : name ∈ names ps ↔ .param name ∈ ps := by
  rw [names, List.mem_filterMap]
  constructor
  · rintro ⟨p, hp, h⟩
    cases p with
    | lit c => cases h
    | param m => exact Option.some.inj h ▸ hp
  · exact fun h ↦ ⟨.param name, h, rfl⟩

/-- The template with each parameter replaced by its value. -/
def instantiate (val : List Char → Value) (ps : List Piece) : List Char :=
  ps.flatMap (Piece.subst val)

/-- `q` is, as a whole, the template with each parameter replaced by some value. -/
def IsInstance (ps : List Piece) (q : List Char) : Prop := ∃ val, q = instantiate val ps

/-! ## Instances as a language -/

/-- The texts of values. -/
def values : Language Char := {v | v ≠ [] ∧ '/' ∉ v}

/-- The instances of a template, when each parameter has a value of its own. -/
def words : List Piece → Language Char
  | [] => 1
  | .lit c :: ps => ({[c]} : Language Char) * words ps
  | .param _ :: ps => values * words ps

theorem instantiate_congr {val val' : List Char → Value} {ps : List Piece}
    (h : ∀ name ∈ names ps, val name = val' name) : instantiate val ps = instantiate val' ps := by
  refine List.flatMap_congr fun p hp ↦ ?_
  cases p with
  | lit c => rfl
  | param name => exact congrArg Value.text (h name (mem_names.mpr hp))

theorem instantiate_mem_words (val : List Char → Value) (ps : List Piece) :
    instantiate val ps ∈ words ps := by
  induction ps with
  | nil => rfl
  | cons p ps ih =>
    cases p with
    | lit c => exact ⟨[c], rfl, _, ih, rfl⟩
    | param name => exact ⟨_, ⟨(val name).ne_nil, (val name).no_slash⟩, _, ih, rfl⟩

/-- **The instances are the words of the template**, when no name occurs twice. -/
theorem isInstance_iff {ps : List Piece} (hnames : (names ps).Nodup) {q : List Char} :
    IsInstance ps q ↔ q ∈ words ps := by
  constructor
  · rintro ⟨val, rfl⟩
    exact instantiate_mem_words val ps
  · intro h
    induction ps generalizing q with
    | nil => exact ⟨default, h⟩
    | cons p ps ih =>
      cases p with
      | lit c =>
        obtain ⟨a, rfl, b, hb, rfl⟩ := Language.mem_mul.mp h
        obtain ⟨val, rfl⟩ := ih hnames hb
        exact ⟨val, rfl⟩
      | param name =>
        obtain ⟨a, ha, b, hb, rfl⟩ := Language.mem_mul.mp h
        obtain ⟨hname, hnames⟩ := List.nodup_cons.mp hnames
        obtain ⟨val, rfl⟩ := ih hnames hb
        -- the value of a name that does not occur again can be chosen freely
        refine ⟨Function.update val name ⟨a, ha.1, ha.2⟩, ?_⟩
        have hrest : instantiate (Function.update val name ⟨a, ha.1, ha.2⟩) ps
            = instantiate val ps :=
          instantiate_congr fun m hm ↦ Function.update_of_ne (ne_of_mem_of_not_mem hm hname) _ _
        simp [instantiate, Piece.subst] at hrest ⊢
        exact hrest.symm

/-! ## Literal text read as a regular expression

The router copies literal text into the expression without quoting it.  A template is then found at
its instances (`IsInstance.mem_found`), and without a `.` nowhere else (`found_eq_words`). -/

/-- A literal `c` is found at the character `d`: a `.` is found at all but the ends of lines, and
the others only at themselves. -/
def Finds (c d : Char) : Prop := if c = '.' then d ≠ '\n' ∧ d ≠ '\r' else d = c

/-- The characters that a literal one is found at. -/
def literals (c : Char) : Language Char := {w | ∃ d, Finds c d ∧ w = [d]}

/-- What a template is found at, when literal text is read as a regular expression. -/
def found : List Piece → Language Char
  | [] => 1
  | .lit c :: ps => literals c * found ps
  | .param _ :: ps => values * found ps

theorem finds_self (c : Char) : Finds c c := by
  by_cases hc : c = '.'
  · subst hc
    exact ⟨by decide, by decide⟩
  · rw [Finds, if_neg hc]

/-- A template is found at its words. -/
theorem mem_found_of_mem_words {ps : List Piece} {w : List Char} (h : w ∈ words ps) :
    w ∈ found ps := by
  induction ps generalizing w with
  | nil => exact h
  | cons p ps ih =>
    cases p with
    | lit c =>
      obtain ⟨a, ha, b, hb, rfl⟩ := Language.mem_mul.mp h
      exact ⟨a, ⟨c, finds_self c, ha⟩, b, ih hb, rfl⟩
    | param name =>
      obtain ⟨a, ha, b, hb, rfl⟩ := Language.mem_mul.mp h
      exact ⟨a, ha, b, ih hb, rfl⟩

theorem IsInstance.mem_found {ps : List Piece} {q : List Char} (h : IsInstance ps q) :
    q ∈ found ps := by
  obtain ⟨val, rfl⟩ := h
  exact mem_found_of_mem_words (instantiate_mem_words val ps)

/-- Without a `.` a template is found nowhere else. -/
theorem found_eq_words {ps : List Piece} (h : .lit '.' ∉ ps) : found ps = words ps := by
  induction ps with
  | nil => rfl
  | cons p ps ih =>
    obtain ⟨hp, hps⟩ := List.ne_and_not_mem_of_not_mem_cons h
    cases p with
    | lit c =>
      have hc : c ≠ '.' := fun hdot ↦ hp (hdot ▸ rfl)
      have hset : literals c = {[c]} := by
        ext w
        refine ⟨?_, fun hw ↦ ⟨c, finds_self c, hw⟩⟩
        rintro ⟨d, hd, rfl⟩
        rw [Finds, if_neg hc] at hd
        exact hd ▸ rfl
      rw [found, words, ih hps, hset]
    | param name => rw [found, words, ih hps]

/-- Every piece takes at least a character. -/
theorem length_le_of_mem_found {ps : List Piece} {q : List Char} (h : q ∈ found ps) :
    ps.length ≤ q.length := by
  induction ps generalizing q with
  | nil => exact Nat.zero_le _
  | cons p ps ih =>
    have hpiece : ∃ a b, a ≠ [] ∧ b ∈ found ps ∧ a ++ b = q := by
      cases p with
      | lit c =>
        obtain ⟨a, ⟨d, -, rfl⟩, b, hb, rfl⟩ := Language.mem_mul.mp h
        exact ⟨[d], b, List.cons_ne_nil d [], hb, rfl⟩
      | param name =>
        obtain ⟨a, ha, b, hb, rfl⟩ := Language.mem_mul.mp h
        exact ⟨a, b, ha.1, hb, rfl⟩
    obtain ⟨a, b, ha, hb, rfl⟩ := hpiece
    have hpos := List.length_pos_of_ne_nil ha
    have hlen := ih hb
    rw [List.length_append, List.length_cons]
    omega

/-! ## Reading a path

`readFrom` carries the number of characters of a name that has just been read and that are still in
front of it.  So it is a structural recursion along the path, and `read_lit` and `read_param` are
the equations by which it is used. -/

/-- A letter. -/
def isLetter (c : Char) : Bool := 'A' ≤ c ∧ c ≤ 'Z' ∨ 'a' ≤ c ∧ c ≤ 'z'

/-- A character of a name, other than the first one. -/
def isNameChar (c : Char) : Bool := isLetter c || c = '_' || ('0' ≤ c ∧ c ≤ '9' : Bool)

/-- The pieces of a path, after the first `k` characters.  (These are those of a name that has just
been read.) -/
def readFrom : ℕ → List Char → List Piece
  | _, [] => []
  | k + 1, _ :: cs => readFrom k cs
  | 0, c :: cs =>
    if c = ':' ∧ cs.head?.any isLetter then
      .param (cs.takeWhile isNameChar) :: readFrom (cs.takeWhile isNameChar).length cs
    else .lit c :: readFrom 0 cs

/-- The pieces of a path. -/
def read (path : List Char) : List Piece := readFrom 0 path

theorem readFrom_eq_drop (k : ℕ) (s : List Char) : readFrom k s = read (s.drop k) := by
  induction k generalizing s with
  | zero => rfl
  | succ k ih =>
    cases s with
    | nil => rw [readFrom]; rfl
    | cons c cs => rw [readFrom, ih]; rfl

theorem read_lit {c : Char} {cs : List Char} (h : ¬ (c = ':' ∧ cs.head?.any isLetter)) :
    read (c :: cs) = .lit c :: read cs := by
  rw [read, readFrom, if_neg h]
  rfl

/-- A name is read as far as it goes. -/
theorem read_param {w v : List Char} (hhead : w.head?.any isLetter) (hw : ∀ c ∈ w, isNameChar c)
    (hv : ∀ c ∈ v.head?, isNameChar c = false) :
    read (':' :: (w ++ v)) = .param w :: read v := by
  have htake : (w ++ v).takeWhile isNameChar = w := by
    rw [List.takeWhile_append_of_pos hw]
    cases v with
    | nil => simp
    | cons c v => simp [hv c rfl]
  have hletter : (w ++ v).head?.any isLetter := by
    cases w with
    | nil => cases hhead
    | cons c w => exact hhead
  rw [read, readFrom, if_pos ⟨rfl, hletter⟩, htake, readFrom_eq_drop, List.drop_left]

/-- Where a name begins, there is a longest one. -/
theorem exists_name {cs : List Char} (h : cs.head?.any isLetter) : ∃ w v, cs = w ++ v ∧
    w.head?.any isLetter ∧ (∀ c ∈ w, isNameChar c) ∧ ∀ c ∈ v.head?, isNameChar c = false := by
  refine ⟨cs.takeWhile isNameChar, cs.dropWhile isNameChar, List.takeWhile_append_dropWhile.symm,
    ?_, List.all_eq_true.mp List.all_takeWhile, ?_⟩
  · cases cs with
    | nil => cases h
    | cons c cs =>
      have hc : isLetter c = true := h
      rw [List.takeWhile_cons_of_pos (by simp [isNameChar, hc])]
      exact h
  · intro c hc
    have hhead := List.head?_dropWhile_not isNameChar cs
    rw [Option.mem_def.mp hc] at hhead
    simpa using hhead

/-- The pieces spell the path. -/
theorem flatMap_text_read (path : List Char) : (read path).flatMap Piece.text = path := by
  induction hn : path.length using Nat.strong_induction_on generalizing path with
  | _ n ih =>
    cases path with
    | nil => rfl
    | cons c cs =>
      rw [List.length_cons] at hn
      by_cases h : c = ':' ∧ cs.head?.any isLetter
      · obtain ⟨rfl, hl⟩ := h
        obtain ⟨w, v, rfl, hhead, hw, hv⟩ := exists_name hl
        rw [List.length_append] at hn
        rw [read_param hhead hw hv, List.flatMap_cons, ih v.length (by omega) v rfl]
        rfl
      · rw [read_lit h, List.flatMap_cons, ih cs.length (by omega) cs rfl]
        rfl

end Template
