import CppUtility.Router.Pattern

/-!
# Which requests a route with parameters matches

The expression of a route is searched for anywhere in the request path, and the literal text of the
route's path is part of the expression as it is.  A request whose path has an instance of the
template inside, with something before or after it, is matched as well, and a `.` of the template is
found at other characters.

* `doesMatch_iff` says which requests a route matches whose literal text has no other syntax
  characters than the `.`: those in whose path, with one trailing `/` removed, the template is
  found.
* `AnswersTemplate` is the answer that the template calls for: the path as a whole is an instance.
* `answers_template` says when the two are the same, for the requests of `Unaffected`: another
  method, an instance, or a path in which the template is not found at all.

For a simple path `Unaffected` is also necessary.  For one that is not simple it covers the other
methods only.  The expression of such a route may be anything, or the constructor throws: a `*`
behind a parameter makes the group a repeated one, and a path with a single `(` cannot be
registered.  What the answer is then depends on the expression and not on the template.

The two paths at the end, `/get/:id` and `/v1.0/:id`, have the two defects: the first has no syntax
characters and is not anchored, and in the second the `.` is not quoted.
-/

set_option autoImplicit false

open Template Regex

namespace Template

/-- A path with one trailing `/` removed, when it is longer than one character. -/
def trimmed (q : List Char) : List Char :=
  if 1 < q.length ∧ q.getLast? = some '/' then q.dropLast else q

end Template

namespace Route

variable {H : Type} {method : HTTPMethod} {path : List Char} {r : Route H}

theorem head?_of_new_ok (hnew : new method path = .ok r) : path.head? = some '/' := by
  by_contra hhead
  have hcheck : checkPath path = .error .assertion := if_neg fun h ↦ hhead h.2
  rw [new, hcheck] at hnew
  cases hnew

/-- What is known of a route that has been constructed from a path with a `:`. -/
theorem new_colon_ok (hnew : new method path = .ok r) (hcolon : ':' ∈ path) :
    (names (read path)).Nodup ∧ ∃ pattern,
      compile ((read path).flatMap Piece.pattern) = some pattern ∧
      r = ⟨none, method, path, some pattern, none, names (read path)⟩ := by
  rw [new_colon (head?_of_new_ok hnew) hcolon] at hnew
  split at hnew
  · rename_i hnodup
    split at hnew
    · cases hnew
    · rename_i pattern hpattern
      exact ⟨hnodup, pattern, hpattern, (Except.ok.inj hnew).symm⟩
  · cases hnew

theorem new_ok (hnew : new method path = .ok r) (hparam : names (read path) ≠ []) :
    path.head? = some '/' ∧ (names (read path)).Nodup ∧
      ∃ pattern, compile ((read path).flatMap Piece.pattern) = some pattern ∧
        r = ⟨none, method, path, some pattern, none, names (read path)⟩ :=
  ⟨head?_of_new_ok hnew, new_colon_ok hnew (colon_mem_of_names hparam)⟩

theorem searched_eq {q : List Char} (hnil : q ≠ []) (hlast : q.getLast? ≠ some '/') :
    searched q = q := by
  rw [searched, if_neg hnil, if_neg fun h ↦ hlast h.2]

/-- The `/` at the beginning and what comes before or after the `:` are found. -/
theorem two_le_length_of_mem_found {w : List Char} (hhead : path.head? = some '/')
    (hcolon : ':' ∈ path) (hw : w ∈ found (read path)) : 2 ≤ w.length := by
  refine le_trans ?_ (length_le_of_mem_found hw)
  cases path with
  | nil => cases hhead
  | cons c cs =>
    obtain rfl := Option.some.inj hhead
    have hread : read ('/' :: cs) = .lit '/' :: read cs := read_lit fun h ↦ absurd h.1 (by decide)
    have hmem : ':' ∈ cs := (List.mem_cons.mp hcolon).resolve_left (by decide)
    have hne : read cs ≠ [] := by
      intro hnil
      have htext := flatMap_text_read cs
      rw [hnil] at htext
      exact List.ne_nil_of_mem hmem htext.symm
    have := List.length_pos_of_ne_nil hne
    rw [hread, List.length_cons]
    omega

/-- The empty request path is searched as `/`, where nothing of length two is found either. -/
theorem infix_searched_iff {w : List Char} (hw : 2 ≤ w.length) (q : List Char) :
    w <:+: searched q ↔ w <:+: trimmed q := by
  by_cases hq : q = []
  · subst hq
    have hshort : ∀ v : List Char, v.length ≤ 1 → ¬ w <:+: v := by
      intro v hv hinfix
      have := hinfix.length_le
      omega
    exact iff_of_false (hshort _ (by decide)) (hshort _ (by decide))
  · rw [searched, if_neg hq, trimmed]

/-- **A route with a simple path matches a request in which its template is found.** -/
theorem doesMatch_iff (hnew : new method path = .ok r) (hparam : names (read path) ≠ [])
    (hsimple : ∀ p ∈ read path, p.Simple) (method' : HTTPMethod) (q : List Char) :
    r.doesMatch method' q = true ↔
      method' = method ∧ ∃ w ∈ found (read path), w <:+: trimmed q := by
  obtain ⟨hhead, -, pattern, hpattern, rfl⟩ := new_ok hnew hparam
  rw [compile_pattern hsimple, Option.some.injEq] at hpattern
  subst hpattern
  have hinfix : (∃ w ∈ found (read path), w <:+: searched q) ↔
      ∃ w ∈ found (read path), w <:+: trimmed q :=
    exists_congr fun w ↦ and_congr_right fun hw ↦ infix_searched_iff
      (two_le_length_of_mem_found hhead (colon_mem_of_names hparam) hw) q
  rw [← hinfix, doesMatch]
  by_cases hm : method = method'
  · subst hm
    simp only [ne_eq, not_true_eq_false, if_false, true_and,
      Re.isSome_search (regular_pattern 0 _), language_pattern]
  · simp only [ne_eq, hm, not_false_eq_true, if_true, Bool.false_eq_true, false_iff]
    exact fun h ↦ hm h.1.symm

/-- If there is no `.` either, it matches a request that has an instance inside. -/
theorem doesMatch_iff_isInstance (hnew : new method path = .ok r) (hparam : names (read path) ≠ [])
    (hplain : ∀ c ∈ syntaxChars, .lit c ∉ read path) (method' : HTTPMethod) (q : List Char) :
    r.doesMatch method' q = true ↔
      method' = method ∧ ∃ w, IsInstance (read path) w ∧ w <:+: trimmed q := by
  have hsimple : ∀ p ∈ read path, p.Simple := by
    intro p hp
    cases p with
    | lit c => exact Or.inr fun hc ↦ hplain c hc hp
    | param name => trivial
  rw [doesMatch_iff hnew hparam hsimple, found_eq_words (hplain '.' (by decide))]
  simp only [isInstance_iff (new_ok hnew hparam).2.1]

/-- The answer that the template of the path calls for: the methods are equal, and the request
path is, as a whole, an instance. -/
def AnswersTemplate (r : Route H) (method : HTTPMethod) (path : List Char) (method' : HTTPMethod)
    (q : List Char) : Prop :=
  r.doesMatch method' q = true ↔ method' = method ∧ IsInstance (read path) (trimmed q)

/-- The requests that show neither the missing anchors nor the missing quotation of literal text:
those with another method, and if the `.` is the only syntax character of the literal text, those
whose path is an instance and those in whose path the template is not found. -/
def Unaffected (method : HTTPMethod) (path : List Char) (method' : HTTPMethod)
    (q : List Char) : Prop :=
  method' ≠ method ∨ (∀ p ∈ read path, p.Simple) ∧
    (IsInstance (read path) (trimmed q) ∨ ∀ w ∈ found (read path), ¬ w <:+: trimmed q)

/-- **When the answer is the one that the template calls for.**  For a route with a simple path
this is so for no other requests. -/
theorem answers_template (hnew : new method path = .ok r) (hparam : names (read path) ≠ [])
    (method' : HTTPMethod) (q : List Char) :
    (Unaffected method path method' q → AnswersTemplate r method path method' q) ∧
    ((∀ p ∈ read path, p.Simple) → AnswersTemplate r method path method' q →
      Unaffected method path method' q) := by
  constructor
  · rintro (hm | ⟨hsimple, hq⟩)
    · have hmethod : r.m_method = method := by
        obtain ⟨-, -, pattern, -, rfl⟩ := new_ok hnew hparam
        rfl
      have hfalse : r.doesMatch method' q = false := if_pos fun h ↦ hm (h.symm.trans hmethod)
      rw [AnswersTemplate, hfalse]
      exact iff_of_false Bool.false_ne_true fun h ↦ hm h.1
    · rw [AnswersTemplate, doesMatch_iff hnew hparam hsimple]
      refine and_congr_right fun _ ↦ ⟨?_, fun h ↦ ⟨_, h.mem_found, List.infix_rfl⟩⟩
      rintro ⟨w, hw, hinfix⟩
      exact hq.resolve_right fun h ↦ h w hw hinfix
  · intro hsimple hanswer
    rw [AnswersTemplate, doesMatch_iff hnew hparam hsimple] at hanswer
    by_cases hm : method' = method
    · refine Or.inr ⟨hsimple, ?_⟩
      by_cases hq : IsInstance (read path) (trimmed q)
      · exact Or.inl hq
      · exact Or.inr fun w hw hinfix ↦ hq (hanswer.mp ⟨hm, w, hw, hinfix⟩).2
    · exact Or.inl hm

section GetId

/-- The route that `GET /get/:id` constructs. -/
def getId : Route H :=
  ⟨none, .GET, "/get/:id".toList, some ⟨pattern 0 (read "/get/:id".toList), 1⟩, none,
    ["id".toList]⟩

theorem new_getId : (new .GET "/get/:id".toList : Except Fault (Route H)) = .ok getId := rfl

theorem isInstance_getId : IsInstance (read "/get/:id".toList) "/get/7".toList :=
  ⟨fun _ ↦ ⟨['7'], by decide, by decide⟩, by decide⟩

theorem not_isInstance_getId : ¬ IsInstance (read "/get/:id".toList) "/x/get/7".toList := by
  rintro ⟨val, hval⟩
  have hsecond := congrArg (fun s : List Char ↦ s[1]?) hval
  exact absurd (Option.some.inj hsecond) (by decide)

/-- The answer for `/get/7` is the right one, that for `/x/get/7` is not. -/
theorem answers_template_getId :
    AnswersTemplate (getId : Route Unit) .GET "/get/:id".toList .GET "/get/7".toList ∧
    ¬ AnswersTemplate (getId : Route Unit) .GET "/get/:id".toList .GET "/x/get/7".toList := by
  constructor
  · refine (answers_template new_getId (by decide) .GET _).1 (Or.inr ⟨by decide, Or.inl ?_⟩)
    exact isInstance_getId
  · intro h
    rcases (answers_template new_getId (by decide) .GET _).2 (by decide) h with h | ⟨-, h | h⟩
    · exact h rfl
    · exact not_isInstance_getId h
    · exact h _ isInstance_getId.mem_found ⟨"/x".toList, [], rfl⟩

/-- The route is found for `/x/get/7`, which is no instance of `/get/:id`. -/
theorem not_answersTemplate : ¬ ∀ (method method' : HTTPMethod) (path q : List Char)
    (r : Route Unit), new method path = .ok r → names (read path) ≠ [] →
      AnswersTemplate r method path method' q := by
  intro h
  have hanswer := h .GET .GET _ "/x/get/7".toList _ new_getId (by decide)
  have hmatch : (getId : Route Unit).doesMatch .GET "/x/get/7".toList = true := by decide
  exact not_isInstance_getId (hanswer.mp hmatch).2

/-- The `.` of `/v1.0/:id` is found at another character. -/
example : ((new .GET "/v1.0/:id".toList : Except Fault (Route Unit)).map
    (·.doesMatch .GET "/v1x0/7".toList)).toOption = some true := by
  decide

end GetId

end Route
