import CppUtility.Regex.Extend
import CppUtility.Router.Params

/-!
# `matches` and `generateHandler` look at different strings

`matches` searches the request path without a trailing `/`, `generateHandler` searches it as it
came.  If the second search failed after the first had succeeded, the size of the match would not be
that of the names, and the process would abort.

* The second search cannot fail, for any simple path: what is found in the shorter string is found
  in the longer one, of which it is a part.
* The match could still be another one, and for a template of plain text it is not (`agrees`): the
  `/` at the end would have to be one of the template's, and then the match would have one `/` more
  than the template, since the match in the shorter path has as many already.  This is
  `Regex.Re.search_concat`, with the number of slashes of the template.

So for a path without a `/` at its end, and for the same path with one, `generateHandler` passes the
groups of the match that `matches` has seen.  A value that is found for want of an anchor is cut in
the same place both times, as the example at the end shows.

For a template with a `.` the match can be another one.  In `/:x.` the `.` takes the last character
of the request path, and this is the `/` in one of the two strings only.
-/

set_option autoImplicit false

open Template Regex

namespace Template

/-! ## Counting slashes -/

/-- The number of `/` in the literal text. -/
def slashes (ps : List Piece) : ℕ := ps.countP fun p ↦ p = .lit '/'

/-- The words of a template have the `/` of its literal text and no others. -/
theorem count_slash {ps : List Piece} {w : List Char} (h : w ∈ words ps) :
    w.count '/' = slashes ps := by
  induction ps generalizing w with
  | nil =>
    obtain rfl := (Language.mem_one w).mp h
    rfl
  | cons p ps ih =>
    cases p with
    | lit c =>
      obtain ⟨a, rfl, b, hb, rfl⟩ := Language.mem_mul.mp h
      rw [List.count_append, ih hb, List.count_singleton, slashes, slashes, List.countP_cons,
        Nat.add_comm]
      simp
    | param name =>
      obtain ⟨a, ha, b, hb, rfl⟩ := Language.mem_mul.mp h
      rw [List.count_append, ih hb, List.count_eq_zero_of_not_mem ha.2, slashes, slashes,
        List.countP_cons, Nat.zero_add]
      simp

end Template

/-! ## What the two functions search

The empty path is the exception to the rule that `matches` searches a part of the path: it searches
`/` instead.  Nothing is found there, since an expression with a parameter takes at least two
characters. -/

namespace Route

variable {H : Type} {path : List Char}

section Searched

variable {q : List Char}

/-- What `matches` searches is part of the path as it came. -/
theorem infix_of_searched (hnil : q ≠ []) : searched q <:+: q := by
  rw [searched, if_neg hnil]
  split
  · exact (List.dropLast_prefix q).isInfix
  · exact List.infix_rfl

variable (hhead : path.head? = some '/') (hparam : names (read path) ≠ [])
include hhead hparam

/-- Nothing is found in the empty path, which is searched as `/`. -/
theorem ne_nil_of_found (h : ((pattern 0 (read path)).search (searched q)).isSome = true) :
    q ≠ [] := by
  rintro rfl
  rw [Re.isSome_search (regular_pattern 0 _), language_pattern] at h
  obtain ⟨w, hw, hinfix⟩ := h
  have hlen := two_le_length_of_mem_found hhead (colon_mem_of_names hparam) hw
  have hle := hinfix.length_le
  rw [searched, if_pos rfl, List.length_singleton] at hle
  omega

/-- A match in what `matches` searches is one in the path as it came. -/
theorem isSome_search_of_searched
    (h : ((pattern 0 (read path)).search (searched q)).isSome = true) :
    ((pattern 0 (read path)).search q).isSome = true := by
  have hnil := ne_nil_of_found hhead hparam h
  rw [Re.isSome_search (regular_pattern 0 _)] at h ⊢
  obtain ⟨w, hw, hinfix⟩ := h
  exact ⟨w, hw, hinfix.trans (infix_of_searched hnil)⟩

end Searched

/-! ## Templates of plain text -/

section Plain

variable (hplain : ∀ c ∈ syntaxChars, .lit c ∉ read path)
include hplain

theorem simple_of_plain : ∀ p ∈ read path, p.Simple := by
  intro p hp
  cases p with
  | lit c => exact .inr fun hc ↦ hplain c hc hp
  | param name => trivial

/-- The words of the expression have as many slashes as the template. -/
theorem count_slash_pattern : ∀ w ∈ (pattern 0 (read path)).language,
    w.count '/' = slashes (read path) := by
  intro w hw
  rw [language_pattern, found_eq_words (hplain '.' (by decide))] at hw
  exact count_slash hw

end Plain

/-! ## The parameters of a match -/

/-- Only the groups of the match count. -/
theorem pathParams_congr {m m' : Match} (h : ∀ i, m.get i = m'.get i) (gs : List (List Char))
    (i : ℕ) (params : PathParams) : pathParams m i gs params = pathParams m' i gs params := by
  induction gs generalizing i params with
  | nil => rfl
  | cons g gs ih => rw [pathParams, pathParams, h, ih]

/-- Each name is bound to its group. -/
theorem lookup_pathParams_get {m : Match} {gs : List (List Char)} (hnodup : gs.Nodup) :
    (∀ i name, gs[i]? = some name → (pathParams m 0 gs ∅).lookup name = some (m.get (i + 1))) ∧
    ∀ name ∉ gs, (pathParams m 0 gs ∅).lookup name = none := by
  have hindex : ∀ i name, gs[i]? = some name → gs.idxOf name = i := by
    intro i name hi
    obtain ⟨hlt, rfl⟩ := List.getElem?_eq_some_iff.mp hi
    exact hnodup.idxOf_getElem i hlt
  have hget : ∀ j name, gs[j]? = some name → m.get (0 + j + 1) = m.get (gs.idxOf name + 1) :=
    fun j name hj ↦ by rw [hindex j name hj, Nat.zero_add]
  have hlookup : ∀ name, (pathParams m 0 gs ∅).lookup name = if name ∈ gs then
      some (m.get (gs.idxOf name + 1)) else Finmap.lookup name (∅ : PathParams) :=
    lookup_pathParams hnodup (fun _ _ ↦ Finmap.notMem_empty) hget
  refine ⟨fun i name hi ↦ ?_, fun name hname ↦ ?_⟩
  · rw [hlookup, if_pos (List.mem_of_getElem? hi), hindex i name hi]
  · rw [hlookup, if_neg hname, Finmap.lookup_empty]

/-! ## The route of a template of plain text -/

/-- What the constructor makes of a simple path. -/
def compiled (method : HTTPMethod) (path : List Char) : Route H :=
  ⟨none, method, path, some ⟨pattern 0 (read path), (names (read path)).length⟩, none,
    names (read path)⟩

section Compiled

variable {method method' : HTTPMethod} {generator : PathParams → H} {q : List Char}

theorem search_of_doesMatch
    (h : ((compiled method path).handler generator).doesMatch method' q = true) :
    ((pattern 0 (read path)).search (searched q)).isSome = true := by
  rw [doesMatch] at h
  split at h
  · cases h
  · exact h

/-- A match in the path as it came gives the parameters. -/
theorem generateHandler_of_search {m : Match} (hm : (pattern 0 (read path)).search q = some m) :
    ((compiled method path).handler generator).generateHandler q
      = .ok (generator (pathParams m 0 (names (read path)) ∅)) := by
  simp only [compiled, handler, generateHandler, hm, ne_eq, not_true_eq_false, if_false]
  rfl

end Compiled

/-- **The two functions agree.**  For a template of plain text with a parameter and distinct names:
`generateHandler` does not abort for a path that `matches` accepts, and for a path without a `/` at
its end it passes the same parameters as for the path with a `/` at its end, the groups of the match
that is found in what `matches` has searched. -/
theorem agrees (hhead : path.head? = some '/') (hparam : names (read path) ≠ [])
    (hnodup : (names (read path)).Nodup) (hplain : ∀ c ∈ syntaxChars, .lit c ∉ read path)
    (method : HTTPMethod) (generator : PathParams → H) :
    ∃ r pattern, new method path = .ok r ∧ r.m_pattern = some pattern ∧
      ∀ method' q, (r.handler generator).doesMatch method' q = true →
        (∃ params, (r.handler generator).generateHandler q = .ok (generator params)) ∧
        (q.getLast? ≠ some '/' → ∃ m params, pattern.re.search (searched q) = some m ∧
          (r.handler generator).generateHandler q = .ok (generator params) ∧
          (r.handler generator).generateHandler (q ++ ['/']) = .ok (generator params) ∧
          (∀ i name, (names (read path))[i]? = some name →
            params.lookup name = some (m.get (i + 1))) ∧
          ∀ name ∉ names (read path), params.lookup name = none) := by
  have hnew : (new method path : Except Fault (Route H)) = .ok (compiled method path) := by
    rw [new_param hhead hparam, if_pos hnodup, compile_pattern (simple_of_plain hplain)]
    rfl
  refine ⟨compiled method path, _, hnew, rfl, fun method' q hmatch ↦ ⟨?_, fun hlast ↦ ?_⟩⟩
  · have hfound := isSome_search_of_searched hhead hparam (search_of_doesMatch hmatch)
    obtain ⟨m, hm⟩ := Option.isSome_iff_exists.mp hfound
    exact ⟨_, generateHandler_of_search hm⟩
  · have hfound := search_of_doesMatch hmatch
    obtain ⟨m, hm⟩ := Option.isSome_iff_exists.mp hfound
    have hsearched : searched q = q := searched_eq (ne_nil_of_found hhead hparam hfound) hlast
    have hq : (pattern 0 (read path)).search q = some m := hsearched ▸ hm
    have hslash := Re.search_concat (regular_pattern 0 _) (count_slash_pattern hplain) hq
    have hget : ∀ i, ({ m with rest := m.rest ++ ['/'] } : Match).get i = m.get i := fun _ ↦ rfl
    refine ⟨m, _, hm, generateHandler_of_search hq, ?_, lookup_pathParams_get hnodup⟩
    rw [generateHandler_of_search hslash, pathParams_congr hget]

/-- `/a:x/`, with a value that is cut at the `/`. -/
theorem agrees_cut : ∃ (r : Route PathParams) (pattern : Pattern), new .GET "/a:x/".toList = .ok r ∧
    r.m_pattern = some pattern ∧ ∃ m params,
      pattern.re.search (searched "/ab/c".toList) = some m ∧
      (r.handler id).generateHandler "/ab/c".toList = .ok params ∧
      (r.handler id).generateHandler "/ab/c/".toList = .ok params ∧
      params.lookup "x".toList = some (m.get 1) := by
  have hhead : "/a:x/".toList.head? = some '/' := rfl
  have hplain : ∀ c ∈ syntaxChars, .lit c ∉ read "/a:x/".toList :=
    List.forall_iff_forall_mem.mp (by decide)
  obtain ⟨r, pattern, hnew, hpattern, hagrees⟩ := agrees hhead (by decide) (by decide) hplain .GET
    (id : PathParams → PathParams)
  have hr : r = compiled .GET "/a:x/".toList := Except.ok.inj (hnew.symm.trans rfl)
  have hmatch : (r.handler id).doesMatch .GET "/ab/c".toList = true := by
    rw [hr]
    decide
  obtain ⟨m, params, hm, h1, h2, hlookup, -⟩ := (hagrees .GET _ hmatch).2 (by decide)
  exact ⟨r, pattern, hnew, hpattern, m, params, hm, h1, h2, hlookup 0 _ rfl⟩

end Route
