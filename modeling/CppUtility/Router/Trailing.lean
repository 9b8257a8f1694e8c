import CppUtility.Regex.Append
import CppUtility.Router.Matches
import CppUtility.Router.Tokenise

/-!
# A `/` at the end of a route's path

Two functions take care of a trailing `/`, and each sees one side only.  `setPath` removes the one
of an exact path, when the route is constructed; `matches` removes the one of every request path,
whatever kind of route it is that is being asked.  For an exact path the two meet.  A path with a
`:` is not shortened, so that its `/` becomes one more term of the expression (`new_slash`), which
has to be found in the request path although the one at the end of the request path is gone.

* **The expressions.**  The longer path is read as one more literal piece (`Template.read_concat`),
  so that the expression of the longer route is that of the shorter one with a `/` as its last
  term.  This holds for any literal text, whatever operators it contains; an unquoted `|` makes
  the `/` a term of the last alternative only.
* **What they find.**  The longer one is found where the shorter one is found right before a `/`
  (`foundIn_snocLast_iff`), so the two routes differ where the shorter one is found, but nowhere
  before a `/` (`sameAnswer_pattern_iff`).
* **The condition.**  For literal text without syntax characters other than the `.`, what is found
  are the words of the template, and `Insignificant` is a condition on the strings alone: the
  request path, without a `/` at its end, has no word of the template in it, or has one with a `/`
  right behind.

`slash_insignificant` says that nothing else is needed, and for such text that nothing less will do.
With other syntax characters in the text the answer of either route is whatever the quantifiers,
groups and anchors make of it, and `sameAnswer_pattern_iff` is as far as one can go.
-/

set_option autoImplicit false

open Template Regex

namespace Template

/-- A character that belongs to no name is one more literal piece. -/
theorem read_concat {c : Char} (hc : isNameChar c = false) (path : List Char) :
    read (path ++ [c]) = read path ++ [.lit c] := by
  have hletter : isLetter c = false := by
    rw [isNameChar, Bool.or_assoc, Bool.or_eq_false_iff] at hc
    exact hc.1
  obtain ⟨lits, tokens, h⟩ := exists_tokenised path
  induction h with
  | @nil a literal =>
    have hread : read [c] = [.lit c] := read_lit fun h ↦ Bool.false_ne_true h.2
    rw [read_noToken (u := [c]) literal hletter, read_eq_map_lit literal, hread]
  | @cons a w v lits tokens literal letter name longest rest ih =>
    have hnext : ∀ d ∈ (v ++ [c]).head?, isNameChar d = false := by
      cases v with
      | nil => exact fun d hd ↦ Option.some.inj hd ▸ hc
      | cons e v => exact longest
    have htext : a ++ ':' :: (w ++ v) ++ [c] = a ++ ':' :: (w ++ (v ++ [c])) := by
      simp only [List.append_assoc, List.cons_append]
    rw [htext, read_noToken literal rfl, read_param letter name hnext, ih,
      read_noToken literal rfl, read_param letter name longest, List.append_assoc]
    rfl

end Template

namespace Route

variable {H : Type} {method : HTTPMethod} {path : List Char} {r : Route H}

/-! ## The longer path -/

theorem inert_slash : Inert '/' := ⟨by decide, by decide, by decide⟩

theorem ne_nil_of_head? (hhead : path.head? = some '/') : path ≠ [] := by
  rintro rfl
  cases hhead

theorem head?_concat (hhead : path.head? = some '/') : (path ++ ['/']).head? = some '/' := by
  rw [List.head?_append, hhead]
  rfl

theorem searched_concat (hne : path ≠ []) : searched (path ++ ['/']) = path := by
  have hlen : 1 < (path ++ ['/']).length := by
    have := List.length_pos_of_ne_nil hne
    rw [List.length_append, List.length_singleton]
    omega
  have hlast : (path ++ ['/']).getLast? = some '/' := List.getLast?_concat ..
  rw [searched, if_neg (List.append_ne_nil_of_right_ne_nil _ (List.cons_ne_nil _ _)),
    if_pos ⟨hlen, hlast⟩, List.dropLast_concat]

/-- The constructor does to an exact path what `matches` does to a request path. -/
theorem new_exact (hhead : path.head? = some '/') (hcolon : ':' ∉ path) (method : HTTPMethod) :
    (new method path : Except Fault (Route H))
      = .ok ⟨none, method, searched path, none, none, []⟩ := by
  have hne := ne_nil_of_head? hhead
  have hcheck : checkPath path = .ok () := if_pos ⟨hne, hhead⟩
  have hset : (new method path : Except Fault (Route H))
      = setPath ⟨none, method, [], none, none, []⟩ path := by
    rw [new, hcheck]
    rfl
  rw [hset, setPath, if_neg hcolon, searched, if_neg hne]
  split
  · rfl
  · rfl

/-- An exact path is the same with a `/` at its end. -/
theorem new_slash_exact (hnew : new method path = .ok r) (hlast : path.getLast? ≠ some '/')
    (hcolon : ':' ∉ path) : new method (path ++ ['/']) = .ok r := by
  have hhead := head?_of_new_ok hnew
  have hne := ne_nil_of_head? hhead
  have hcolon' : ':' ∉ path ++ ['/'] := by simp [hcolon]
  rw [new_exact hhead hcolon, searched_eq hne hlast] at hnew
  rw [new_exact (head?_concat hhead) hcolon', searched_concat hne, hnew]

/-- A path with a `:` is not, and its expression has one more term. -/
theorem new_slash {pattern : Pattern} (hnew : new method path = .ok r) (hcolon : ':' ∈ path)
    (hpattern : r.m_pattern = some pattern) :
    (new method (path ++ ['/']) : Except Fault (Route H)) = .ok
      { r with
        m_path := path ++ ['/']
        m_pattern := some ⟨pattern.re.snocLast '/', pattern.mark_count⟩ } := by
  obtain ⟨hnodup, ⟨a, k⟩, hcompile, rfl⟩ := new_colon_ok hnew hcolon
  obtain rfl := Option.some.inj hpattern
  have hread : read (path ++ ['/']) = read path ++ [.lit '/'] := read_concat (by decide) path
  have hnames : names (read (path ++ ['/'])) = names (read path) := by
    rw [hread, names_append]
    exact List.append_nil _
  have htext : (read (path ++ ['/'])).flatMap Piece.pattern
      = (read path).flatMap Piece.pattern ++ ['/'] := by
    rw [hread, List.flatMap_append]
    rfl
  rw [new_colon (head?_concat (head?_of_new_ok hnew)) (List.mem_append_left _ hcolon), hnames,
    if_pos hnodup, htext, compile_append inert_slash hcompile]

/-! ## What the two expressions find

With any literal text: the longer expression is found where the shorter one is and a `/` comes
next, and for a text with an unquoted `|` this is to be read of the last alternative. -/

/-- The expression is found somewhere in `s`. -/
def FoundIn (a : Re) (s : List Char) : Prop :=
  ∃ u v, s = u ++ v ∧ a.run (.start u.reverse v) ≠ []

/-- It is found somewhere right before a `/`; if it has alternatives, then the last one is, or one
of the others is found anywhere. -/
def FoundBeforeSlash (a : Re) (s : List Char) : Prop :=
  ∃ u v, s = u ++ v ∧ a.FollowedBy '/' (.start u.reverse v)

theorem isSome_search_iff {a : Re} {s : List Char} : (a.search s).isSome = true ↔ FoundIn a s := by
  rw [Re.search, Re.isSome_searchFrom]
  simp only [List.append_nil, FoundIn]

theorem foundIn_snocLast_iff {a : Re} {s : List Char} :
    FoundIn (a.snocLast '/') s ↔ FoundBeforeSlash a s := by
  simp only [FoundIn, Re.run_snocLast_ne_nil, FoundBeforeSlash]

theorem FoundBeforeSlash.found {a : Re} {s : List Char} (h : FoundBeforeSlash a s) :
    FoundIn a s := by
  obtain ⟨u, v, rfl, h⟩ := h
  exact ⟨u, v, rfl, h.run_ne_nil⟩

/-- What is answered by a route with an expression. -/
theorem doesMatch_pattern {pattern : Pattern} (hpattern : r.m_pattern = some pattern)
    (method' : HTTPMethod) (q : List Char) :
    r.doesMatch method' q = true ↔ method' = r.m_method ∧ FoundIn pattern.re (searched q) := by
  rw [doesMatch, hpattern, ← isSome_search_iff]
  split
  · next hm => exact iff_of_false Bool.false_ne_true fun h ↦ hm h.1.symm
  · next hm => exact (and_iff_right (not_not.mp hm).symm).symm

/-- Two routes with the same method, where the expression of the second one has the `/` as well:
they answer differently when the first expression is found, but not before a `/`. -/
theorem sameAnswer_pattern_iff {r' : Route H} {pattern : Pattern}
    (hpattern : r.m_pattern = some pattern) (hmethod : r'.m_method = r.m_method)
    (hpattern' : r'.m_pattern = some ⟨pattern.re.snocLast '/', pattern.mark_count⟩)
    (method' : HTTPMethod) (q : List Char) :
    r.doesMatch method' q = r'.doesMatch method' q ↔ method' ≠ r.m_method ∨
      ¬ FoundIn pattern.re (searched q) ∨ FoundBeforeSlash pattern.re (searched q) := by
  have hfound := fun h : FoundBeforeSlash pattern.re (searched q) ↦ h.found
  rw [Bool.eq_iff_iff, doesMatch_pattern hpattern, doesMatch_pattern hpattern', hmethod,
    foundIn_snocLast_iff]
  tauto

/-! ## Literal text without syntax characters -/

/-- What is searched for is a word of the template, and it has to be followed by a `/`. -/
theorem foundBeforeSlash_pattern {ps : List Piece} {s : List Char} :
    FoundBeforeSlash (pattern 0 ps) s ↔ ∃ w ∈ found ps, w ++ ['/'] <:+: s := by
  have haccepts := Re.accepts (regular_pattern 0 ps)
  have hfollowed : ∀ t : Cursor, (pattern 0 ps).FollowedBy '/' t ↔
      ∃ t' ∈ (pattern 0 ps).run t, t'.rest.head? = some '/' := by
    cases ps <;> exact fun _ ↦ Iff.rfl
  rw [language_pattern] at haccepts
  constructor
  · rintro ⟨u, v, rfl, h⟩
    obtain ⟨t, ht, hslash⟩ := (hfollowed _).mp h
    obtain ⟨w, hw, hrest⟩ := haccepts.sound _ t ht
    obtain ⟨x, hx⟩ := List.head?_eq_some_iff.mp hslash
    refine ⟨w, hw, u, x, ?_⟩
    rw [show v = w ++ t.rest from hrest, hx]
    simp
  · rintro ⟨w, hw, u, x, rfl⟩
    obtain ⟨t, ht, hrest⟩ :=
      haccepts.complete (.start u.reverse (w ++ '/' :: x)) w ('/' :: x) rfl hw
    refine ⟨u, w ++ '/' :: x, by simp, (hfollowed _).mpr ⟨t, ht, ?_⟩⟩
    rw [hrest]
    rfl

/-- What is searched for is a word of the template. -/
theorem foundIn_pattern {ps : List Piece} {s : List Char} :
    FoundIn (pattern 0 ps) s ↔ ∃ w ∈ found ps, w <:+: s := by
  rw [← isSome_search_iff, Re.isSome_search (regular_pattern 0 _), language_pattern]

/-! ## The answers

What is left is a condition on the method and on the two strings, the path of the route and that of
the request: no expression is in it, and no search. -/

/-- The requests that show no difference: those to an exact path, those with another method, and if
the `.` is the only syntax character of the literal text, those whose path, without a `/` at its
end, has no word of the template in it, or one with a `/` right behind. -/
def Insignificant (method : HTTPMethod) (path : List Char) (method' : HTTPMethod)
    (q : List Char) : Prop :=
  ':' ∉ path ∨ method' ≠ method ∨ (∀ p ∈ read path, p.Simple) ∧
    ((∀ w ∈ found (read path), ¬ w <:+: trimmed q) ∨
      ∃ w ∈ found (read path), w ++ ['/'] <:+: trimmed q)

/-- The same with the words in what `matches` searches: they have two characters at least. -/
theorem insignificant_iff_searched (hhead : path.head? = some '/') (hcolon : ':' ∈ path)
    (hsimple : ∀ p ∈ read path, p.Simple) {method' : HTTPMethod} {q : List Char} :
    Insignificant method path method' q ↔ method' ≠ method ∨
      (¬ ∃ w ∈ found (read path), w <:+: searched q) ∨
      ∃ w ∈ found (read path), w ++ ['/'] <:+: searched q := by
  have hword : (∃ w ∈ found (read path), w <:+: searched q) ↔
      ∃ w ∈ found (read path), w <:+: trimmed q :=
    exists_congr fun w ↦ and_congr_right fun hw ↦
      infix_searched_iff (two_le_length_of_mem_found hhead hcolon hw) q
  have hslash : (∃ w ∈ found (read path), w ++ ['/'] <:+: searched q) ↔
      ∃ w ∈ found (read path), w ++ ['/'] <:+: trimmed q := by
    refine exists_congr fun w ↦ and_congr_right fun hw ↦ infix_searched_iff ?_ q
    have := two_le_length_of_mem_found hhead hcolon hw
    rw [List.length_append]
    omega
  rw [Insignificant, or_iff_right (not_not.mpr hcolon), and_iff_right hsimple, hword, hslash]
  simp only [not_exists, not_and]

/-- **When the `/` at the end makes no difference.**  The path begins with a `/`, since the
constructor has accepted it; it accepts the longer one as well, and the two routes give the same
answer to the requests of `Insignificant`.  For a path with simple literal text they do so for no
other requests. -/
theorem slash_insignificant (hnew : new method path = .ok r) (hlast : path.getLast? ≠ some '/') :
    ∃ r' : Route H, new method (path ++ ['/']) = .ok r' ∧ ∀ method' q,
      (Insignificant method path method' q → r.doesMatch method' q = r'.doesMatch method' q) ∧
      ((∀ p ∈ read path, p.Simple) → r.doesMatch method' q = r'.doesMatch method' q →
        Insignificant method path method' q) := by
  by_cases hcolon : ':' ∈ path
  · have hhead := head?_of_new_ok hnew
    obtain ⟨-, pattern, hcompile, hr⟩ := new_colon_ok hnew hcolon
    have hpattern : r.m_pattern = some pattern := congrArg m_pattern hr
    obtain ⟨r', hnew', hmethod', hpattern'⟩ : ∃ r' : Route H, new method (path ++ ['/']) = .ok r' ∧
        r'.m_method = r.m_method ∧
        r'.m_pattern = some ⟨pattern.re.snocLast '/', pattern.mark_count⟩ :=
      ⟨_, new_slash hnew hcolon hpattern, rfl, rfl⟩
    refine ⟨r', hnew', fun method' q ↦ ?_⟩
    have hanswers := sameAnswer_pattern_iff hpattern hmethod' hpattern' method' q
    rw [congrArg m_method hr] at hanswers
    -- for simple text the expression is known, and what it finds are the words of the template
    have hiff : (∀ p ∈ read path, p.Simple) →
        (r.doesMatch method' q = r'.doesMatch method' q ↔ Insignificant method path method' q) := by
      intro hsimple
      rw [compile_pattern hsimple, Option.some_inj] at hcompile
      rw [hanswers, insignificant_iff_searched hhead hcolon hsimple, ← hcompile, foundIn_pattern,
        foundBeforeSlash_pattern]
    refine ⟨?_, fun hsimple ↦ (hiff hsimple).mp⟩
    rintro (hno | hm | ⟨hsimple, hq⟩)
    · exact absurd hcolon hno
    · exact hanswers.mpr (.inl hm)
    · exact (hiff hsimple).mpr (.inr (.inr ⟨hsimple, hq⟩))
  · refine ⟨r, new_slash_exact hnew hlast hcolon, fun method' q ↦ ?_⟩
    exact ⟨fun _ ↦ rfl, fun _ _ ↦ .inl hcolon⟩

/-- The answers for `/get/:id`, whose text is simple: the `/` makes no difference for `/get/7/x`,
and it makes one for `/get/7`. -/
theorem slash_insignificant_getId : ∃ r' : Route Unit,
    new .GET ("/get/:id".toList ++ ['/']) = .ok r' ∧
    (getId : Route Unit).doesMatch .GET "/get/7/x".toList
      = r'.doesMatch .GET "/get/7/x".toList ∧
    ∀ method' q, (getId : Route Unit).doesMatch method' q = r'.doesMatch method' q →
      Insignificant .GET "/get/:id".toList method' q := by
  have hsimple : ∀ p ∈ read "/get/:id".toList, p.Simple := by decide
  obtain ⟨r', hnew', hanswer⟩ := slash_insignificant (new_getId (H := Unit)) (by decide)
  have hbefore : Insignificant .GET "/get/:id".toList .GET "/get/7/x".toList :=
    .inr <| .inr ⟨hsimple, .inr ⟨"/get/7".toList, isInstance_getId.mem_found, [], "x".toList, rfl⟩⟩
  exact ⟨r', hnew', (hanswer _ _).1 hbefore, fun method' q ↦ (hanswer method' q).2 hsimple⟩

/-- `/get/7` is matched by the route of `/get/:id` and not by that of `/get/:id/`. -/
theorem not_sameAnswer : ¬ ∀ (method method' : HTTPMethod) (path q : List Char) (r r' : Route Unit),
    2 ≤ path.length → path.head? = some '/' → path.getLast? ≠ some '/' →
      new method path = .ok r → new method (path ++ ['/']) = .ok r' →
        r.doesMatch method' q = r'.doesMatch method' q := by
  intro h
  have hcolon : ':' ∈ "/get/:id".toList := by decide
  have hnew := new_slash (new_getId (H := Unit)) hcolon rfl
  have hsame := h .GET .GET _ "/get/7".toList _ _ (by decide) (by decide) (by decide) new_getId hnew
  have hshorter : (getId : Route Unit).doesMatch .GET "/get/7".toList = true := by decide
  rw [hshorter] at hsame
  exact absurd hsame (by decide)

end Route
