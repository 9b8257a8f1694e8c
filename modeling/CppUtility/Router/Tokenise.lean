import CppUtility.Router.Tokens

/-!
# The tokens of a route's path

`Tokenised path lits tokens` says how the path of a route is cut: the first token begins at the
leftmost `:` that has a letter after it, its name is as long as possible, and what stands before it
is a literal piece.  Every path is cut in exactly one way (`exists_tokenised`, `Tokenised.unique`),
and nothing is lost (`Tokenised.interleave_eq`).

This is the same cut that `Template.read` makes, said in another way.  `read` goes through the path
character by character, as a program would; `Tokenised` describes the result, as a specification
should, with literal pieces as wholes, some of which may be empty.  The two have the same names
(`Tokenised.names_read`), and whatever is written for each piece of `read` comes out as the literal
pieces with something for each token between them (`Tokenised.flatMap_read`): the path itself, and
the text of the expression.

`tokenLoop_tokenised` says that the loop of `createPattenRegex` finds these tokens:

* the names it records are those of the tokens, in order;
* the text it has built is the literal pieces with a group between any two of them;
* it aborts exactly when a name comes a second time, and it always ends.

The loop is that of the source: it has its positions and its stream from the iterator over
`m_reToken`, and knows of no pieces.
-/

set_option autoImplicit false

namespace Template

/-- The pieces, with what comes between them. -/
def interleave {α : Type*} : List (List α) → List (List α) → List α
  | [], _ => []
  | a :: _, [] => a
  | a :: as, b :: bs => a ++ b ++ interleave as bs

/-- No token begins in `a`. -/
def NoToken (a : List Char) : Prop :=
  ∀ b c, a = b ++ ':' :: c → c.head?.any isLetter = false

/-- The path consists of the literal pieces `lits` with the tokens of the names `tokens` between
them. -/
inductive Tokenised : List Char → List (List Char) → List (List Char) → Prop
  | nil {a : List Char} (literal : NoToken a) : Tokenised a [a] []
  | cons {a w v : List Char} {lits tokens : List (List Char)} (literal : NoToken a)
      (letter : w.head?.any isLetter) (name : ∀ c ∈ w, isNameChar c)
      (longest : ∀ c ∈ v.head?, isNameChar c = false) (rest : Tokenised v lits tokens) :
      Tokenised (a ++ ':' :: (w ++ v)) (a :: lits) (w :: tokens)

/-! ## Literal pieces -/

theorem noToken_nil : NoToken [] := fun b c h ↦ by
  simp at h

theorem noToken_cons {c : Char} {a : List Char} :
    NoToken (c :: a) ↔ ¬ (c = ':' ∧ a.head?.any isLetter) ∧ NoToken a := by
  constructor
  · intro h
    refine ⟨?_, fun b d hbd ↦ h (c :: b) d (by rw [hbd]; rfl)⟩
    rintro ⟨rfl, hletter⟩
    exact Bool.false_ne_true ((h [] a rfl).symm.trans hletter)
  · rintro ⟨hc, ha⟩ b d hbd
    cases b with
    | nil =>
      obtain ⟨rfl, rfl⟩ := List.cons.inj hbd
      exact Bool.eq_false_iff.mpr fun hletter ↦ hc ⟨rfl, hletter⟩
    | cons e b => exact ha b d (List.cons.inj hbd).2

/-- A literal piece is read character by character; what comes after it is not a letter. -/
theorem read_noToken {a u : List Char} (ha : NoToken a) (hu : u.head?.any isLetter = false) :
    read (a ++ u) = a.map .lit ++ read u := by
  induction a with
  | nil => rfl
  | cons c a ih =>
    obtain ⟨hc, ha⟩ := noToken_cons.mp ha
    have hnext : ¬ (c = ':' ∧ (a ++ u).head?.any isLetter) := by
      rintro ⟨rfl, hletter⟩
      cases a with
      | nil => exact Bool.false_ne_true (hu.symm.trans hletter)
      | cons d a => exact hc ⟨rfl, hletter⟩
    rw [List.cons_append, read_lit hnext, ih ha]
    rfl

theorem read_eq_map_lit {a : List Char} (ha : NoToken a) : read a = a.map .lit := by
  have hread := read_noToken (u := []) ha rfl
  rwa [List.append_nil, show read [] = [] from rfl, List.append_nil] at hread

/-! ## Every path is cut in one way

There is a cut by induction on the length of the path: what comes after a name, or after a character
at which no token begins, is cut already.  That there is no other is read off `Template.read`: the
literal pieces and the tokens can both be recovered from what is read, and this is a function of the
path. -/

namespace Tokenised

variable {path : List Char} {lits tokens : List (List Char)}

/-- One more character at the beginning, where no token begins. -/
theorem cons_lit {c : Char} (hc : ¬ (c = ':' ∧ path.head?.any isLetter))
    (h : Tokenised path lits tokens) :
    ∃ a lits', lits = a :: lits' ∧ Tokenised (c :: path) ((c :: a) :: lits') tokens := by
  cases h with
  | nil literal => exact ⟨_, _, rfl, .nil (noToken_cons.mpr ⟨hc, literal⟩)⟩
  | @cons a w v lits tokens literal letter name longest rest =>
    refine ⟨a, lits, rfl, ?_⟩
    have hliteral : NoToken (c :: a) := by
      refine noToken_cons.mpr ⟨?_, literal⟩
      rintro ⟨rfl, hletter⟩
      cases a with
      | nil => cases hletter
      | cons d a => exact hc ⟨rfl, hletter⟩
    exact .cons hliteral letter name longest rest

theorem length_lits (h : Tokenised path lits tokens) : lits.length = tokens.length + 1 := by
  induction h with
  | nil literal => rfl
  | cons literal letter name longest rest ih => rw [List.length_cons, ih, List.length_cons]

/-- **Nothing is lost.** -/
theorem interleave_eq (h : Tokenised path lits tokens) :
    interleave lits (tokens.map fun name ↦ ':' :: name) = path := by
  induction h with
  | nil literal => rfl
  | cons literal letter name longest rest ih =>
    rw [List.map_cons, interleave, ih, List.append_assoc, List.cons_append]

/-- What is read: the literal pieces and the parameters, in order. -/
theorem flatMap_read {α : Type*} {f : Piece → List α} (h : Tokenised path lits tokens) :
    (read path).flatMap f
      = interleave (lits.map fun a ↦ a.flatMap fun c ↦ f (.lit c))
        (tokens.map fun name ↦ f (.param name)) := by
  induction h with
  | @nil a literal =>
    rw [read_eq_map_lit literal, List.flatMap_map]
    rfl
  | cons literal letter name longest rest ih =>
    rw [read_noToken literal rfl, read_param letter name longest, List.flatMap_append,
      List.flatMap_map, List.flatMap_cons, ih, List.map_cons, List.map_cons, interleave,
      List.append_assoc]

theorem names_read (h : Tokenised path lits tokens) : names (read path) = tokens := by
  induction h with
  | @nil a literal =>
    rw [read_eq_map_lit literal, names_map_lit]
  | cons literal letter name longest rest ih =>
    rw [read_noToken literal rfl, read_param letter name longest, names_append, names_map_lit,
      names_param, ih]
    rfl

/-- The text of the regular expression. -/
theorem flatMap_pattern (h : Tokenised path lits tokens) :
    (read path).flatMap Piece.pattern
      = interleave lits (List.replicate tokens.length "([^/]+)".toList) := by
  have hlits : (lits.map fun a ↦ a.flatMap fun c ↦ (Piece.lit c).pattern) = lits := by
    refine (List.map_congr_left fun a _ ↦ ?_).trans (List.map_id lits)
    exact List.flatMap_singleton' a
  have hgroups : (tokens.map fun name ↦ (Piece.param name).pattern)
      = List.replicate tokens.length "([^/]+)".toList := List.map_const ..
  rw [h.flatMap_read, hlits, hgroups]

theorem splitOnP_read (h : Tokenised path lits tokens) :
    (read path).splitOnP (fun p ↦ p.name?.isSome) = lits.map fun a ↦ a.map .lit := by
  have hlit : ∀ (a : List Char), ∀ p ∈ a.map Piece.lit, p.name?.isSome = false := fun a p hp ↦ by
    obtain ⟨c, -, rfl⟩ := List.mem_map.mp hp
    rfl
  induction h with
  | @nil a literal =>
    rw [read_eq_map_lit literal]
    exact List.splitOnP_eq_singleton (hlit a)
  | @cons a w v lits tokens literal letter name longest rest ih =>
    rw [read_noToken literal rfl, read_param letter name longest,
      List.splitOnP_append_cons_of_forall_mem (hlit a) _ rfl, ih, List.map_cons]

/-- A path is cut in one way only. -/
theorem unique {lits' tokens' : List (List Char)} (h : Tokenised path lits tokens)
    (h' : Tokenised path lits' tokens') : lits = lits' ∧ tokens = tokens' := by
  refine ⟨?_, h.names_read.symm.trans h'.names_read⟩
  have hlits := h.splitOnP_read.symm.trans h'.splitOnP_read
  have hinj : Function.Injective (List.map Piece.lit) :=
    List.map_injective_iff.mpr fun c d hcd ↦ by cases hcd; rfl
  exact List.map_injective_iff.mpr hinj hlits

end Tokenised

theorem exists_tokenised (path : List Char) : ∃ lits tokens, Tokenised path lits tokens := by
  induction hn : path.length using Nat.strong_induction_on generalizing path with
  | _ n ih =>
    cases path with
    | nil => exact ⟨_, _, .nil noToken_nil⟩
    | cons c cs =>
      rw [List.length_cons] at hn
      by_cases h : c = ':' ∧ cs.head?.any isLetter
      · obtain ⟨rfl, hletter⟩ := h
        obtain ⟨w, v, rfl, hhead, hw, hv⟩ := exists_name hletter
        rw [List.length_append] at hn
        obtain ⟨lits, tokens, hrest⟩ := ih v.length (by omega) v rfl
        exact ⟨_, _, .cons noToken_nil hhead hw hv hrest⟩
      · obtain ⟨lits, tokens, hrest⟩ := ih cs.length (by omega) cs rfl
        obtain ⟨a, lits', -, hcons⟩ := hrest.cons_lit h
        exact ⟨_, _, hcons⟩

end Template

open Template

namespace Route

/-! ## The loop -/

/-- The loop of `createPattenRegex`, for a route that has no names yet. -/
def tokenLoop (path : List Char) : Except Fault TokenLoop :=
  (m_reToken.re.iterate path).foldlM (tokenStep path) ⟨0, [], []⟩

theorem createPattenRegex_eq_tokenLoop {H : Type} {r : Route H} (hr : r.m_groups = [])
    (path : List Char) :
    r.createPattenRegex path = (tokenLoop path).bind fun l ↦
      match Regex.compile (l.ss ++ path.drop l.pos) with
      | none => .error .regexError
      | some pattern => .ok { r with m_groups := l.m_groups, m_pattern := some pattern } := by
  rw [createPattenRegex, hr]
  rfl

/-- **The loop cuts the path into its tokens.**  The names that it records are those of the tokens,
so that the path is the literal pieces with the recorded names between them; the text of the
expression is the literal pieces with a group for each name between them; and the loop aborts if
and only if two tokens have the same name. -/
theorem tokenLoop_tokenised (path : List Char) : ∃ lits tokens, Tokenised path lits tokens ∧
    (tokens.Nodup → ∃ l, tokenLoop path = .ok l ∧ l.m_groups = tokens ∧
      lits.length = l.m_groups.length + 1 ∧
      interleave lits (l.m_groups.map fun name ↦ ':' :: name) = path ∧
      l.ss ++ path.drop l.pos
        = interleave lits (List.replicate l.m_groups.length "([^/]+)".toList)) ∧
    (tokenLoop path = .error .abort ↔ ¬ tokens.Nodup) := by
  obtain ⟨lits, tokens, h⟩ := exists_tokenised path
  have hlen : path.length < 2 * path.length + 2 := by omega
  obtain ⟨hok, habort⟩ := foldlM_tokenStep [] path [] hlen List.nodup_nil
  simp only [List.reverse_nil, List.nil_append, List.length_nil, h.names_read] at hok habort
  refine ⟨lits, tokens, h, fun hnodup ↦ ?_, fun hloop hnodup ↦ ?_, habort⟩
  · obtain ⟨l, hl, hgroups, htext⟩ := hok hnodup
    refine ⟨l, hl, hgroups, ?_, ?_, ?_⟩
    · rw [hgroups, h.length_lits]
    · rw [hgroups, h.interleave_eq]
    · rw [htext, h.flatMap_pattern, hgroups]
  · obtain ⟨l, hl, -⟩ := hok hnodup
    cases hloop.symm.trans hl

end Route
