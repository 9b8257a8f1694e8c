import Mathlib.Data.Char

/-!
# Regular expressions in the default grammar of `std::regex`

`compile` reads the text of a regular expression in the ECMAScript grammar, as a recursive descent
that has one function for each production: a disjunction is a list of alternatives, an alternative
a list of terms, and a term an assertion, or an atom with or without a quantifier.  The answer is
`none` where the grammar has no derivation for the text.

The text is a list of characters, and the classification of characters is that of the "C" locale.
A text that is put together from the texts of terms compiles to the sequence of these terms:
`TermText` says when a text is that of one term wherever it stands, and `compile_terms` is the
statement about sequences.

## The grammar and the library

The C++ standard defines this grammar by reference to ECMA-262, and `compile` follows it there.
libstdc++ departs from it in a few places, none of which concerns a text without the characters in
question:

* outside a bracket expression it takes a `]` for itself, and outside a bound a `}`, where the
  grammar allows neither;
* it takes a second quantifier after the first one, as in `a**`;
* it takes a `\` before any letter that is not an escape for that letter, as in `\q`, and reads
  `\cA` as the letter `A`;
* it refuses a back reference to a group that has not been opened yet, as in `\1()`, which the
  grammar allows.
-/

set_option autoImplicit false

namespace Regex

/-! ## Sets of characters -/

/-- The character classes that have a name. -/
inductive CharKind
  | alnum | alpha | blank | cntrl | digit | graph | lower | print | punct | space | upper | xdigit
  | word
  deriving DecidableEq, Repr

/-- The members of a named class. -/
def CharKind.mem : CharKind → Char → Bool
  | .alnum, c => c.isAlphanum
  | .alpha, c => c.isAlpha
  | .blank, c => c = ' ' ∨ c = '\t'
  | .cntrl, c => c.toNat < 32 ∨ c.toNat = 127
  | .digit, c => c.isDigit
  | .graph, c => 32 < c.toNat ∧ c.toNat < 127
  | .lower, c => c.isLower
  | .print, c => 32 ≤ c.toNat ∧ c.toNat < 127
  | .punct, c => 32 < c.toNat ∧ c.toNat < 127 ∧ ¬ c.isAlphanum
  | .space, c => c = ' ' ∨ 9 ≤ c.toNat ∧ c.toNat ≤ 13
  | .upper, c => c.isUpper
  | .xdigit, c => c.isDigit ∨ 'a' ≤ c ∧ c ≤ 'f' ∨ 'A' ≤ c ∧ c ≤ 'F'
  | .word, c => c.isAlphanum ∨ c = '_'

/-- What `traits.lookup_classname` makes of a name. -/
def CharKind.ofName (name : List Char) : Option CharKind :=
  [("alnum", .alnum), ("alpha", .alpha), ("blank", .blank), ("cntrl", .cntrl), ("d", .digit),
    ("digit", .digit), ("graph", .graph), ("lower", .lower), ("print", .print), ("punct", .punct),
    ("s", .space), ("space", .space), ("upper", .upper), ("w", .word), ("xdigit", CharKind.xdigit)]
    |>.findSome? fun e ↦ if e.1.toList = name then some e.2 else none

/-- An item of a bracket expression. -/
inductive ClassItem
  | range (lo hi : Char)
  | kind (neg : Bool) (k : CharKind)
  deriving DecidableEq, Repr

/-- The characters that an item stands for. -/
def ClassItem.mem : ClassItem → Char → Bool
  | .range lo hi, c => lo ≤ c ∧ c ≤ hi
  | .kind neg k, c => k.mem c != neg

theorem ClassItem.mem_range_self {c d : Char} : (ClassItem.range c c).mem d = true ↔ d = c := by
  rw [ClassItem.mem, decide_eq_true_eq]
  exact ⟨fun h ↦ le_antisymm h.2 h.1, by rintro rfl; exact ⟨le_rfl, le_rfl⟩⟩

/-- A set of characters: those of the items, or with `neg` all others. -/
structure CharSet where
  neg : Bool
  items : List ClassItem
  deriving DecidableEq, Repr

namespace CharSet

/-- Membership. -/
def mem (S : CharSet) (c : Char) : Bool := S.items.any (·.mem c) != S.neg

/-- One character. -/
def single (c : Char) : CharSet := ⟨false, [.range c c]⟩

/-- `.`: all but the line terminators. -/
def dot : CharSet := ⟨true, [.range '\n' '\n', .range '\r' '\r']⟩

theorem mem_single {c d : Char} : (single c).mem d = true ↔ d = c := by
  simp only [mem, single, List.any_cons, List.any_nil, Bool.or_false, Bool.bne_false,
    ClassItem.mem_range_self]

theorem mem_dot {d : Char} : dot.mem d = true ↔ d ≠ '\n' ∧ d ≠ '\r' := by
  simp only [mem, dot, List.any_cons, List.any_nil, Bool.or_false, bne_iff_ne, ne_eq,
    Bool.or_eq_true, not_or, ClassItem.mem_range_self]

end CharSet

/-! ## Expressions -/

/-- Abstract syntax.  Groups are numbered from 1, by their opening parentheses. -/
inductive Re
  | empty
  | set (S : CharSet)
  | seq (a b : Re)
  | alt (a b : Re)
  | group (i : ℕ) (a : Re)
  | ref (i : ℕ)
  | bol
  | eol
  | word (neg : Bool)
  | look (neg : Bool) (a : Re)
  | rep (lo : ℕ) (hi : Option ℕ) (greedy : Bool) (a : Re)
  deriving DecidableEq, Repr

/-- The groups of an expression. -/
def Re.groups : Re → List ℕ
  | .seq a b | .alt a b => a.groups ++ b.groups
  | .group i a => i :: a.groups
  | .look _ a | .rep _ _ _ a => a.groups
  | _ => []

/-- Whether the back references are to the first `k` groups. -/
def Re.refsLe (k : ℕ) : Re → Bool
  | .seq a b | .alt a b => a.refsLe k && b.refsLe k
  | .group _ a | .look _ a | .rep _ _ _ a => a.refsLe k
  | .ref i => i ≤ k
  | _ => true

/-- A compiled expression, with the number of its groups. -/
structure Pattern where
  re : Re
  mark_count : ℕ
  deriving DecidableEq, Repr

/-! ## Parts without groups

A parser takes the text that is left and gives, with its result, the text that is left after it. -/

/-- The characters that do not stand for themselves. -/
def syntaxChars : List Char :=
  ['^', '$', '\\', '.', '*', '+', '?', '(', ')', '[', ']', '{', '}', '|']

/-- `DecimalDigits`. -/
def parseNat (s : List Char) : Option (ℕ × List Char) :=
  match s.takeWhile Char.isDigit with
  | [] => none
  | ds => some (ds.foldl (fun n d ↦ 10 * n + (d.toNat - 48)) 0, s.dropWhile Char.isDigit)

/-- The value of a hexadecimal digit. -/
def hexDigit (c : Char) : Option ℕ :=
  if c.isDigit then some (c.toNat - 48)
  else if 'a' ≤ c ∧ c ≤ 'f' then some (c.toNat - 87)
  else if 'A' ≤ c ∧ c ≤ 'F' then some (c.toNat - 55)
  else none

/-- The character with the code that `k` hexadecimal digits spell. -/
def parseHex (k : ℕ) (s : List Char) : Option (Char × List Char) :=
  if s.length < k then none
  else do
    let ds ← (s.take k).mapM hexDigit
    some (Char.ofNat (ds.foldl (fun n d ↦ 16 * n + d) 0), s.drop k)

/-- `CharacterEscape`, and `\0`, after the backslash. -/
def parseCharEscape : List Char → Option (Char × List Char)
  | 'f' :: s => some ('\x0c', s)
  | 'n' :: s => some ('\n', s)
  | 'r' :: s => some ('\r', s)
  | 't' :: s => some ('\t', s)
  | 'v' :: s => some ('\x0b', s)
  | 'c' :: c :: s => if c.isAlpha then some (Char.ofNat (c.toNat % 32), s) else none
  | 'x' :: s => parseHex 2 s
  | 'u' :: s => parseHex 4 s
  | '0' :: s => if (s.head?.any Char.isDigit) then none else some ('\x00', s)
  | c :: s => if c.isAlphanum ∨ c = '_' then none else some (c, s)
  | [] => none

/-- `CharacterClassEscape`, after the backslash. -/
def parseKindEscape : List Char → Option (ClassItem × List Char)
  | 'd' :: s => some (.kind false .digit, s)
  | 'D' :: s => some (.kind true .digit, s)
  | 's' :: s => some (.kind false .space, s)
  | 'S' :: s => some (.kind true .space, s)
  | 'w' :: s => some (.kind false .word, s)
  | 'W' :: s => some (.kind true .word, s)
  | _ => none

/-- `ClassAtom`. -/
def parseClassAtom : List Char → Option (ClassItem × List Char)
  | '\\' :: 'b' :: s => some (.range '\x08' '\x08', s)
  | '\\' :: s =>
    (parseKindEscape s).orElse fun _ ↦ (parseCharEscape s).map fun r ↦ (.range r.1 r.1, r.2)
  | '[' :: ':' :: s =>
    match s.dropWhile (· ≠ ':') with
    | ':' :: ']' :: s' => (CharKind.ofName (s.takeWhile (· ≠ ':'))).map fun k ↦ (.kind false k, s')
    | _ => none
  | '[' :: '.' :: s => match s with
    | c :: '.' :: ']' :: s => some (.range c c, s)
    | _ => none
  | '[' :: '=' :: s => match s with
    | c :: '=' :: ']' :: s => some (.range c c, s)
    | _ => none
  | c :: s => some (.range c c, s)
  | [] => none

/-- A range from one atom to another; both have to be single characters, in order. -/
def ClassItem.upTo : ClassItem → ClassItem → Option ClassItem
  | .range lo _, .range hi _ => if lo ≤ hi then some (.range lo hi) else none
  | _, _ => none

/-- `ClassRanges` up to the closing bracket.  Every item takes a character of the text, so that
the length of the text is enough of the first argument. -/
def parseClass : ℕ → List Char → Option (List ClassItem × List Char)
  | 0, _ => none
  | _ + 1, ']' :: s => some ([], s)
  | n + 1, s => do
    let (a, s) ← parseClassAtom s
    match s with
    | '-' :: ']' :: s => some ([a, .range '-' '-'], s)
    | '-' :: s =>
      let (b, s) ← parseClassAtom s
      let r ← a.upTo b
      let (rs, s) ← parseClass n s
      some (r :: rs, s)
    | s =>
      let (rs, s) ← parseClass n s
      some (a :: rs, s)

/-- `QuantifierPrefix`, if there is one here. -/
def parseBounds : List Char → Option (Option (ℕ × Option ℕ) × List Char)
  | '*' :: s => some (some (0, none), s)
  | '+' :: s => some (some (1, none), s)
  | '?' :: s => some (some (0, some 1), s)
  | '{' :: s => do
    let (lo, s) ← parseNat s
    match s with
    | '}' :: s => some (some (lo, some lo), s)
    | ',' :: '}' :: s => some (some (lo, none), s)
    | ',' :: s =>
      let (hi, s) ← parseNat s
      match s with
      | '}' :: s => if lo ≤ hi then some (some (lo, some hi), s) else none
      | _ => none
    | _ => none
  | s => some (none, s)

/-! ## The grammar -/

/-- What follows an atom: a quantifier or nothing. -/
def quantified (a : Re) (s : List Char) (k : ℕ) : Option (Re × List Char × ℕ) :=
  match parseBounds s with
  | none => none
  | some (none, s) => some (a, s, k)
  | some (some b, '?' :: s) => some (.rep b.1 b.2 false a, s, k)
  | some (some b, s) => some (.rep b.1 b.2 true a, s, k)

/-- `AtomEscape` after the backslash: a back reference, a class, or a character. -/
def parseAtomEscape (s : List Char) : Option (Re × List Char) :=
  match parseNat s with
  | some (i + 1, s) => some (.ref (i + 1), s)
  | _ => (parseKindEscape s).elim ((parseCharEscape s).map fun r ↦ (.set (.single r.1), r.2))
    fun r ↦ some (.set ⟨false, [r.1]⟩, r.2)

/-- A parser that numbers the groups: the last argument and the last result count those opened. -/
abbrev Parser : Type := List Char → ℕ → Option (Re × List Char × ℕ)

/-- What stands between an opening parenthesis and its closing one. -/
def closed (disj : Parser) (s : List Char) (k : ℕ) : Option (Re × List Char × ℕ) :=
  match disj s k with
  | some (a, ')' :: s, k) => some (a, s, k)
  | _ => none

/-- `Term`, given the parser of what stands in parentheses. -/
def parseTerm (disj : Parser) : Parser
  | '^' :: s, k => some (.bol, s, k)
  | '$' :: s, k => some (.eol, s, k)
  | '\\' :: 'b' :: s, k => some (.word false, s, k)
  | '\\' :: 'B' :: s, k => some (.word true, s, k)
  | '\\' :: s, k => (parseAtomEscape s).bind fun r ↦ quantified r.1 r.2 k
  | '(' :: '?' :: '=' :: s, k => (closed disj s k).map fun r ↦ (.look false r.1, r.2)
  | '(' :: '?' :: '!' :: s, k => (closed disj s k).map fun r ↦ (.look true r.1, r.2)
  | '(' :: '?' :: ':' :: s, k => (closed disj s k).bind fun r ↦ quantified r.1 r.2.1 r.2.2
  | '(' :: s, k => (closed disj s (k + 1)).bind fun r ↦ quantified (.group (k + 1) r.1) r.2.1 r.2.2
  | '.' :: s, k => quantified (.set .dot) s k
  | '[' :: '^' :: s, k =>
    (parseClass s.length s).bind fun r ↦ quantified (.set ⟨true, r.1⟩) r.2 k
  | '[' :: s, k => (parseClass s.length s).bind fun r ↦ quantified (.set ⟨false, r.1⟩) r.2 k
  | c :: s, k => if c ∈ syntaxChars then none else quantified (.set (.single c)) s k
  | [], _ => none

/-- `Alternative`: terms up to the end, a bar or a closing parenthesis.  The first number is
enough if it exceeds the length of the text. -/
def parseAlt (disj : Parser) : ℕ → Parser
  | 0, _, _ => none
  | _ + 1, [], k => some (.empty, [], k)
  | _ + 1, '|' :: s, k => some (.empty, '|' :: s, k)
  | _ + 1, ')' :: s, k => some (.empty, ')' :: s, k)
  | n + 1, s, k =>
    (parseTerm disj s k).bind fun t ↦
      (parseAlt disj n t.2.1 t.2.2).map fun r ↦ (.seq t.1 r.1, r.2)

/-- `Disjunction`.  The first number bounds the depth of parentheses together with the number of
bars; it is enough if it exceeds the length of the text. -/
def parseDisj : ℕ → Parser
  | 0, _, _ => none
  | n + 1, s, k =>
    match parseAlt (parseDisj n) (s.length + 1) s k with
    | some (a, '|' :: s, k) => (parseDisj n s k).map fun r ↦ (.alt a r.1, r.2)
    | r => r

/-- The constructor of `std::regex`, as ECMA-262 has it; `none` if it throws a `regex_error`.  For
texts with a lone `]` or `}`, stacked quantifiers, an escaped letter that is no escape, or a back
reference before its group, libstdc++ differs. -/
def compile (s : List Char) : Option Pattern :=
  match parseDisj (s.length + 1) s 0 with
  | some (a, [], k) => if a.refsLe k then some ⟨a, k⟩ else none
  | _ => none

/-! ## Texts put together from terms -/

/-- The characters that cannot be the first of a term's text. -/
def stopChars : List Char := ['*', '+', '?', '{', '|', ')']

/-- The text `w` is that of the term `t`, which opens `g` groups and has no back references.  The
term may depend on the number of groups opened before it. -/
structure TermText (w : List Char) (g : ℕ) (t : ℕ → Re) : Prop where
  head : ∃ c v, w = c :: v ∧ c ∉ stopChars
  refs : ∀ k m, (t k).refsLe m = true
  parse : ∀ n k rest, (∀ c ∈ rest.head?, c ∉ stopChars) →
    parseTerm (parseDisj (n + 1)) (w ++ rest) k = some (t k, rest, k + g)

theorem quantified_eq {a : Re} {s : List Char} {k : ℕ} (h : ∀ c ∈ s.head?, c ∉ stopChars) :
    quantified a s k = some (a, s, k) := by
  have hb : parseBounds s = some (none, s) := by
    unfold parseBounds
    split <;> simp_all [stopChars]
  rw [quantified, hb]

theorem stopChars_subset : stopChars ⊆ syntaxChars := by decide

/-- A character that is not a syntax character stands for itself. -/
theorem parseTerm_single {disj : Parser} {c : Char} {s : List Char} {k : ℕ} (h : c ∉ syntaxChars) :
    parseTerm disj (c :: s) k = quantified (.set (.single c)) s k := by
  rw [parseTerm, if_neg h]
  all_goals intros; subst_vars; simp [syntaxChars] at h

theorem termText_single {c : Char} (h : c ∉ syntaxChars) :
    TermText [c] 0 fun _ ↦ .set (.single c) where
  head := ⟨c, [], rfl, fun hc ↦ h (stopChars_subset hc)⟩
  refs _ _ := rfl
  parse n k rest hrest := by
    rw [List.singleton_append, parseTerm_single h, quantified_eq hrest, Nat.add_zero]

theorem termText_dot : TermText ['.'] 0 fun _ ↦ .set .dot where
  head := ⟨'.', [], rfl, by decide⟩
  refs _ _ := rfl
  parse _ _ _ hrest := quantified_eq hrest

section Terms

variable {ι : Type*} (text : ι → List Char) (groups : ι → ℕ) (term : ι → ℕ → Re)

/-- The sequence of the terms, when `k` groups have been opened before. -/
def seqOf : ℕ → List ι → Re
  | _, [] => .empty
  | k, i :: l => .seq (term i k) (seqOf (k + groups i) l)

/-- The number of groups that the terms open. -/
def groupsOf : List ι → ℕ
  | [] => 0
  | i :: l => groups i + groupsOf l

variable {text groups term} {l : List ι} (h : ∀ i ∈ l, TermText (text i) (groups i) (term i))
include h

theorem head_flatMap_text : ∀ c ∈ (l.flatMap text).head?, c ∉ stopChars := by
  cases l with
  | nil => simp
  | cons i l =>
    obtain ⟨c, v, hw, hc⟩ := (h i List.mem_cons_self).head
    simp [hw, hc]

theorem parseAlt_terms {n m : ℕ} (k : ℕ) (hm : (l.flatMap text).length < m) :
    parseAlt (parseDisj (n + 1)) m (l.flatMap text) k
      = some (seqOf groups term k l, [], k + groupsOf groups l) := by
  induction l generalizing m k with
  | nil =>
    obtain ⟨m, rfl⟩ := Nat.exists_eq_add_of_lt hm
    simp [parseAlt, seqOf, groupsOf]
  | cons i l ih =>
    have htail := fun j hj ↦ h j (List.mem_cons_of_mem i hj)
    have hi := h i List.mem_cons_self
    obtain ⟨c, v, hw, hc⟩ := hi.head
    obtain ⟨m, rfl⟩ := Nat.exists_eq_add_of_lt (Nat.zero_lt_of_lt hm)
    have hstep : parseAlt (parseDisj (n + 1)) (0 + m + 1) (text i ++ l.flatMap text) k
        = (parseTerm (parseDisj (n + 1)) (text i ++ l.flatMap text) k).bind fun t ↦
          (parseAlt (parseDisj (n + 1)) (0 + m) t.2.1 t.2.2).map fun r ↦ (.seq t.1 r.1, r.2) := by
      rw [hw, List.cons_append, parseAlt]
      all_goals intros; simp_all [stopChars]
    have hlen : (l.flatMap text).length < 0 + m := by
      simp only [List.flatMap_cons, hw, List.length_append, List.length_cons] at hm
      omega
    rw [List.flatMap_cons, hstep, hi.parse n k _ (head_flatMap_text htail), Option.bind_some,
      ih htail _ hlen]
    simp [seqOf, groupsOf, Nat.add_assoc]

theorem refsLe_seqOf (m k : ℕ) : (seqOf groups term k l).refsLe m = true := by
  induction l generalizing k with
  | nil => rfl
  | cons i l ih =>
    rw [seqOf, Re.refsLe, (h i List.mem_cons_self).refs,
      ih fun j hj ↦ h j (List.mem_cons_of_mem i hj)]
    rfl

/-- **A text put together from the texts of terms compiles to the sequence of the terms.** -/
theorem compile_terms :
    compile (l.flatMap text) = some ⟨seqOf groups term 0 l, groupsOf groups l⟩ := by
  cases hl : (l.flatMap text).length with
  | zero =>
    cases l with
    | nil => rfl
    | cons i l =>
      obtain ⟨c, v, hw, -⟩ := (h i List.mem_cons_self).head
      simp [hw] at hl
  | succ n =>
    have hdisj : parseDisj (n + 2) (l.flatMap text) 0
        = some (seqOf groups term 0 l, [], groupsOf groups l) := by
      rw [parseDisj, parseAlt_terms h 0 (Nat.lt_succ_self _), Nat.zero_add]
    rw [compile, hl, hdisj]
    simp [refsLe_seqOf h]

end Terms

end Regex
