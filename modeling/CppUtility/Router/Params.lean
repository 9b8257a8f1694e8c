import CppUtility.Router.Matches
import CppUtility.Router.Router

/-!
# Path parameters

A template made of segments is a `/` before each of its segments, which are literal text or a
parameter.  The values come back: the request path with values in the place of the parameters is
matched, and `generateHandler` passes these values to the generator, under the names.

The expression is searched for in the path as it came, so that the proof is about the preferred
match, and a statement about languages will not do: there may be other matches, further on in the
path or with shorter values, and they are not the ones that are returned.

* **Where the match is.**  The path of a request begins with an instance of the template, so that
  the first position has a match.
* **What it captures.**  A group takes as many characters as it can, up to the next `/`.  After each
  parameter of such a template comes a `/` or the end (`Delimited`), and a value has no `/`; hence
  it takes the whole value (`head?_run_param`), and the captures are the values, in order
  (`head?_run_pattern`).
* **What becomes of it.**  The names are distinct, so that `emplace` never finds a key that is there
  (`lookup_pathParams`).

A `/` at the end of the request changes nothing, as it comes after the last segment.  Nor does a
prefix of plain text, which is literal text at the beginning.

Templates whose parameters share a segment with other text are not included.  There a group would
take what belongs to the text behind it, and give it back only as far as it has to.
-/

set_option autoImplicit false

open Template Regex

namespace Template

/-! ## Templates made of segments

The structures carry what makes a template of this kind: what is a name, what is literal text, that
names are distinct, and that there is a parameter at all.  A template without one is an exact path,
and has no expression. -/

/-- A name, as the token of a parameter has it. -/
structure Name where
  text : List Char
  letter : text.head?.any isLetter = true
  chars : ∀ c ∈ text, isNameChar c = true

/-- Text that is not empty and stands for itself, within a segment. -/
structure Literal where
  text : List Char
  ne_nil : text ≠ []
  plain : ∀ c ∈ text, c ∉ syntaxChars ∧ c ≠ ':' ∧ c ≠ '/'

/-- A segment. -/
inductive Segment
  | literal (t : Literal)
  | param (n : Name)

namespace Segment

/-- How a segment is written in the path of a route. -/
def text : Segment → List Char
  | literal t => t.text
  | param n => ':' :: n.text

/-- What a segment is in the path of a request. -/
def subst (val : List Char → Value) : Segment → List Char
  | literal t => t.text
  | param n => (val n.text).text

/-- The name of a parameter. -/
def name? : Segment → Option (List Char)
  | literal _ => none
  | param n => some n.text

/-- The pieces of a segment, with its `/`. -/
def pieces : Segment → List Piece
  | literal t => .lit '/' :: t.text.map .lit
  | param n => [.lit '/', .param n.text]

theorem subst_ne_nil (val : List Char → Value) (s : Segment) : s.subst val ≠ [] := by
  cases s with
  | literal t => exact t.ne_nil
  | param n => exact (val n.text).ne_nil

theorem slash_notMem_subst (val : List Char → Value) (s : Segment) : '/' ∉ s.subst val := by
  cases s with
  | literal t => exact fun h ↦ (t.plain _ h).2.2 rfl
  | param n => exact (val n.text).no_slash

end Segment

/-- A template made of segments, with at least one parameter and distinct names. -/
structure SegTemplate where
  segments : List Segment
  nodup : (segments.filterMap Segment.name?).Nodup
  param : segments.filterMap Segment.name? ≠ []

namespace SegTemplate

variable (T : SegTemplate)

/-- The names, in order. -/
def names : List (List Char) := T.segments.filterMap Segment.name?

theorem names_nodup : T.names.Nodup := T.nodup

theorem names_ne_nil : T.names ≠ [] := T.param

/-- The path of the route. -/
def path : List Char := T.segments.flatMap fun s ↦ '/' :: s.text

/-- The path of a request: the values in the place of the parameters. -/
def request (val : List Char → Value) : List Char :=
  T.segments.flatMap fun s ↦ '/' :: s.subst val

/-- The pieces of the path. -/
def pieces : List Piece := T.segments.flatMap Segment.pieces

end SegTemplate

/-- Text that stands for itself in the prefix of a router; without a prefix it is empty. -/
structure PlainText where
  text : List Char
  plain : ∀ c ∈ text, c ∉ syntaxChars ∧ c ≠ ':'

/-- What a prefix puts before the path of a route. -/
def PlainText.lead (pre : PlainText) : List Char := if pre.text = [] then [] else '/' :: pre.text

theorem PlainText.lead_plain (pre : PlainText) : ∀ c ∈ pre.lead, c ∉ syntaxChars ∧ c ≠ ':' := by
  rw [lead]
  split
  · exact List.forall_mem_nil _
  · exact List.forall_mem_cons.mpr ⟨by decide, pre.plain⟩

/-! ## Reading such a template -/

theorem read_lits {a b : List Char} (ha : ∀ c ∈ a, c ≠ ':') :
    read (a ++ b) = a.map .lit ++ read b := by
  induction a with
  | nil => rfl
  | cons c a ih =>
    obtain ⟨hc, ha⟩ := List.forall_mem_cons.mp ha
    rw [List.cons_append, read_lit fun h ↦ hc h.1, ih ha]
    rfl

theorem head?_segments {f : Segment → List Char} (segs : List Segment) :
    ∀ c ∈ (segs.flatMap fun s ↦ '/' :: f s).head?, c = '/' := by
  cases segs with
  | nil => simp
  | cons s segs => simp

theorem read_segments (segs : List Segment) :
    read (segs.flatMap fun s ↦ '/' :: s.text) = segs.flatMap Segment.pieces := by
  induction segs with
  | nil => rfl
  | cons s segs ih =>
    rw [List.flatMap_cons, List.flatMap_cons, List.cons_append, read_lit (by simp)]
    cases s with
    | literal t => rw [Segment.text, read_lits fun c hc ↦ (t.plain c hc).2.1, ih]; rfl
    | param n =>
      have hv : ∀ c ∈ (segs.flatMap fun s ↦ '/' :: s.text).head?, isNameChar c = false := by
        intro c hc
        rw [head?_segments segs c hc]
        decide
      rw [Segment.text, List.cons_append, read_param n.letter n.chars hv, ih]
      rfl

theorem names_segments (segs : List Segment) :
    names (segs.flatMap Segment.pieces) = segs.filterMap Segment.name? := by
  induction segs with
  | nil => rfl
  | cons s segs ih =>
    rw [List.flatMap_cons, names_append, ih]
    cases s with
    | literal t => rw [Segment.pieces, names_lit, names_map_lit]; rfl
    | param n => rfl

theorem simple_segments (segs : List Segment) : ∀ p ∈ segs.flatMap Segment.pieces, p.Simple := by
  intro p hp
  obtain ⟨s, -, hp⟩ := List.mem_flatMap.mp hp
  cases s with
  | literal t =>
    rcases List.mem_cons.mp hp with rfl | hp
    · decide
    · obtain ⟨c, hc, rfl⟩ := List.mem_map.mp hp
      exact Or.inr (t.plain c hc).1
  | param n =>
    rcases List.mem_cons.mp hp with rfl | hp
    · decide
    · rw [List.mem_singleton.mp hp]
      trivial

theorem instantiate_append (val : List Char → Value) (ps qs : List Piece) :
    instantiate val (ps ++ qs) = instantiate val ps ++ instantiate val qs :=
  List.flatMap_append

theorem instantiate_lit (val : List Char → Value) (c : Char) (ps : List Piece) :
    instantiate val (.lit c :: ps) = c :: instantiate val ps := rfl

theorem instantiate_param (val : List Char → Value) (name : List Char) (ps : List Piece) :
    instantiate val (.param name :: ps) = (val name).text ++ instantiate val ps := rfl

theorem instantiate_map_lit (val : List Char → Value) (a : List Char) :
    instantiate val (a.map .lit) = a := by
  rw [instantiate, List.flatMap_map]
  exact List.flatMap_singleton' a

theorem instantiate_segments (val : List Char → Value) (segs : List Segment) :
    instantiate val (segs.flatMap Segment.pieces) = segs.flatMap fun s ↦ '/' :: s.subst val := by
  induction segs with
  | nil => rfl
  | cons s segs ih =>
    rw [List.flatMap_cons, instantiate_append, ih, List.flatMap_cons]
    cases s with
    | literal t => exact congrArg (fun u ↦ '/' :: u ++ _) (instantiate_map_lit val t.text)
    | param n => simp [Segment.pieces, instantiate, Piece.subst, Segment.subst]

/-! ## The preferred match

The induction is on the pieces, and the statement is about a position inside the path with any
number of groups before it.  What has been captured before is kept, since the groups that are still
to come have larger numbers. -/

/-- After each parameter comes a `/` or the end. -/
def Delimited : List Piece → Prop
  | [] => True
  | .lit _ :: ps => Delimited ps
  | .param _ :: ps => (∀ p ∈ ps.head?, p = .lit '/') ∧ Delimited ps

theorem delimited_lits {ps : List Piece} (h : Delimited ps) (a : List Char) :
    Delimited (a.map .lit ++ ps) := by
  induction a with
  | nil => exact h
  | cons c a ih => exact ih

theorem delimited_segments (segs : List Segment) : Delimited (segs.flatMap Segment.pieces) := by
  induction segs with
  | nil => trivial
  | cons s segs ih =>
    rw [List.flatMap_cons]
    cases s with
    | literal t => exact delimited_lits ih t.text
    | param n =>
      refine ⟨?_, ih⟩
      cases segs with
      | nil => simp
      | cons s' segs => cases s' <;> simp [Segment.pieces]

/-- What comes after a parameter in an instance. -/
theorem head?_instantiate {ps : List Piece} (hps : ∀ p ∈ ps.head?, p = .lit '/')
    {tail : List Char} (htail : ∀ c ∈ tail.head?, c = '/') (val : List Char → Value) :
    ∀ c ∈ (instantiate val ps ++ tail).head?, c = '/' := by
  cases ps with
  | nil => exact htail
  | cons p ps =>
    obtain rfl := hps p rfl
    intro c hc
    exact (Option.some.inj hc).symm

/-- A group takes a whole value, when a `/` or the end comes after it. -/
theorem head?_run_param (name : List Char) (k : ℕ) {s : Cursor} {v : Value} {tail : List Char}
    (hs : s.rest = v.text ++ tail) (htail : ∀ c ∈ tail.head?, c = '/') :
    (((Piece.param name).term k).run s).head?
      = some ((s.advance v.text.length).capture (k + 1) v.text) := by
  have hmem : ∀ c ∈ v.text, notSlash.mem c = true := fun c hc ↦
    notSlash_mem.mpr fun hslash ↦ v.no_slash (hslash ▸ hc)
  have hnext : ∀ c ∈ tail.head?, notSlash.mem c = false := fun c hc ↦ by
    rw [htail c hc]
    decide
  have hplus := head?_run_plus_set hs hmem v.ne_nil hnext
  have hupTo : s.upTo (s.advance v.text.length) = v.text :=
    Cursor.upTo_eq (by rw [Cursor.advance_rest, hs, List.drop_left])
  have hgroup := head?_run_group (k + 1) (head?_run_seq hplus (b := .empty) rfl)
  rwa [hupTo] at hgroup

/-- **The preferred match takes whole values.**  After `k` groups, the match at the beginning of an
instance captures the value of each name, in order, and does not touch the first `k` groups. -/
theorem head?_run_pattern {ps : List Piece} (h : Delimited ps) {tail : List Char}
    (htail : ∀ c ∈ tail.head?, c = '/') (val : List Char → Value) (k : ℕ) {s : Cursor}
    (hs : s.rest = instantiate val ps ++ tail) :
    ∃ t, ((pattern k ps).run s).head? = some t ∧
      (∀ j ≤ k, t.caps j = s.caps j) ∧
      ∀ i name, (names ps)[i]? = some name → t.caps (k + i + 1) = some (val name).text := by
  induction ps generalizing k s with
  | nil => exact ⟨s, rfl, fun _ _ ↦ rfl, fun i name hi ↦ by simp at hi⟩
  | cons p ps ih =>
    cases p with
    | lit c =>
      rw [instantiate_lit, List.cons_append] at hs
      have hrest : (s.advance 1).rest = instantiate val ps ++ tail := by simp [hs]
      obtain ⟨t, ht, hold, hnew⟩ := ih h k hrest
      exact ⟨t, head?_run_seq (head?_run_set hs (Piece.charSet_mem.mpr (finds_self c))) ht, hold,
        hnew⟩
    | param name =>
      obtain ⟨hnext, h⟩ := h
      rw [instantiate_param, List.append_assoc] at hs
      have hgroup := head?_run_param name k hs (head?_instantiate hnext htail val)
      have hrest : ((s.advance (val name).text.length).capture (k + 1) (val name).text).rest
          = instantiate val ps ++ tail := by
        rw [Cursor.capture_rest, Cursor.advance_rest, hs, List.drop_left]
      obtain ⟨t, ht, hold, hnew⟩ := ih h (k + 1) hrest
      refine ⟨t, head?_run_seq hgroup ht, fun j hj ↦ ?_, fun i m hi ↦ ?_⟩
      · rw [hold j (Nat.le_succ_of_le hj)]
        exact Function.update_of_ne (Nat.ne_of_lt (Nat.lt_succ_of_le hj)) _ _
      · cases i with
        | zero =>
          obtain rfl : name = m := by simpa using hi
          rw [Nat.add_zero, hold (k + 1) le_rfl]
          exact Function.update_self ..
        | succ i =>
          rw [← hnew i m (by simpa using hi)]
          congr 1
          omega

end Template

/-! ## The parameters that the generator gets -/

namespace Route

theorem mem_emplace {params : PathParams} {key value name : List Char} :
    name ∈ params.emplace key value ↔ name = key ∨ name ∈ params := by
  rw [PathParams.emplace]
  split
  · rename_i hkey
    exact ⟨Or.inr, fun h ↦ h.elim (fun h ↦ h ▸ hkey) id⟩
  · exact Finmap.mem_insert

/-- The loop of `generateHandler` binds each name to its group. -/
theorem lookup_pathParams {m : Match} {val : List Char → List Char} {gs : List (List Char)} {i : ℕ}
    {params : PathParams} (hnodup : gs.Nodup) (hfresh : ∀ name ∈ gs, name ∉ params)
    (hget : ∀ j name, gs[j]? = some name → m.get (i + j + 1) = val name)
    (name : List Char) :
    (pathParams m i gs params).lookup name =
      if name ∈ gs then some (val name) else params.lookup name := by
  induction gs generalizing i params with
  | nil => rfl
  | cons g gs ih =>
    obtain ⟨hg, hnodup⟩ := List.nodup_cons.mp hnodup
    have hgp := hfresh g List.mem_cons_self
    have hvalue : m.get (i + 1) = val g := hget 0 g rfl
    have hemplace : params.emplace g (m.get (i + 1)) = params.insert g (val g) := by
      rw [PathParams.emplace, if_neg hgp, hvalue]
    have hfresh' : ∀ n ∈ gs, n ∉ params.emplace g (m.get (i + 1)) := by
      intro n hn hmem
      rcases mem_emplace.mp hmem with rfl | hmem
      · exact hg hn
      · exact hfresh n (List.mem_cons_of_mem g hn) hmem
    have hget' : ∀ j n, gs[j]? = some n → m.get (i + 1 + j + 1) = val n := by
      intro j n hj
      rw [← hget (j + 1) n (by simpa using hj)]
      congr 1
      omega
    rw [pathParams, ih hnodup hfresh' hget', hemplace]
    by_cases hname : name = g
    · subst hname
      rw [if_neg hg, if_pos List.mem_cons_self, Finmap.lookup_insert]
    · rw [Finmap.lookup_insert_of_ne _ hname]
      simp [hname]

end Route

/-! ## Routes with such a template -/

namespace Template

namespace SegTemplate

variable {H : Type} (pre : PlainText) (T : SegTemplate) (val : List Char → Value)

theorem read_path : read (pre.lead ++ T.path) = pre.lead.map .lit ++ T.pieces := by
  rw [read_lits fun c hc ↦ (pre.lead_plain c hc).2, path, read_segments]
  rfl

theorem names_path : Template.names (read (pre.lead ++ T.path)) = T.names := by
  rw [read_path, names_append, names_map_lit, pieces, names_segments]
  rfl

theorem simple_path : ∀ p ∈ read (pre.lead ++ T.path), p.Simple := by
  rw [read_path]
  intro p hp
  rcases List.mem_append.mp hp with hp | hp
  · obtain ⟨c, hc, rfl⟩ := List.mem_map.mp hp
    exact Or.inr (pre.lead_plain c hc).1
  · exact simple_segments T.segments p hp

theorem instantiate_path :
    instantiate val (read (pre.lead ++ T.path)) = pre.lead ++ T.request val := by
  rw [read_path, instantiate_append, instantiate_map_lit, pieces, instantiate_segments]
  rfl

theorem segments_ne_nil : T.segments ≠ [] := fun h ↦ T.param (by rw [h]; rfl)

theorem head?_path : (pre.lead ++ T.path).head? = some '/' := by
  obtain ⟨s, segs, hs⟩ := List.exists_cons_of_ne_nil T.segments_ne_nil
  have hpath : T.path.head? = some '/' := by rw [path, hs]; rfl
  rw [PlainText.lead]
  split
  · exact hpath
  · rfl

/-- The path of a request ends with its last segment. -/
theorem getLast?_request : (pre.lead ++ T.request val).getLast? ≠ some '/' := by
  obtain ⟨segs, s, hs⟩ := List.eq_nil_or_concat T.segments |>.resolve_left T.segments_ne_nil
  have hrequest : pre.lead ++ T.request val
      = (pre.lead ++ (segs.flatMap fun s ↦ '/' :: s.subst val) ++ ['/']) ++ s.subst val := by
    rw [request, hs]
    simp
  rw [hrequest, List.getLast?_append_of_ne_nil _ (s.subst_ne_nil val)]
  exact fun h ↦ s.slash_notMem_subst val (List.mem_of_getLast? h)

/-- The route that is registered. -/
theorem newRoute_path (method : HTTPMethod) :
    (Router.newRoute pre.text method T.path : Except Fault (Route H)) =
      Route.new method (pre.lead ++ T.path) := by
  have hpath : T.path ≠ [] := by
    obtain ⟨s, segs, hs⟩ := List.exists_cons_of_ne_nil T.segments_ne_nil
    rw [path, hs]
    exact List.cons_ne_nil _ _
  rw [Router.newRoute, PlainText.lead, if_neg hpath]
  by_cases hpre : pre.text = []
  · rw [if_neg (not_not.mpr hpre), if_pos hpre]
    rfl
  · rw [if_pos hpre, if_neg hpre]
    rfl

theorem new_path (method : HTTPMethod) :
    (Route.new method (pre.lead ++ T.path) : Except Fault (Route H)) =
      .ok ⟨none, method, pre.lead ++ T.path,
        some ⟨pattern 0 (read (pre.lead ++ T.path)), T.names.length⟩, none, T.names⟩ := by
  have hparam : Template.names (read (pre.lead ++ T.path)) ≠ [] := by
    rw [names_path]
    exact T.names_ne_nil
  rw [Route.new_param (T.head?_path pre) hparam, compile_pattern (T.simple_path pre), names_path,
    if_pos T.names_nodup]

/-- One more `/` at the end of a path, or not. -/
def trailing (slash : Bool) : List Char := if slash then ['/'] else []

theorem head?_trailing (slash : Bool) : ∀ c ∈ (trailing slash).head?, c = '/' := by
  cases slash <;> simp [trailing]

/-- A trailing `/` does not count. -/
theorem trimmed_request (slash : Bool) :
    trimmed (pre.lead ++ T.request val ++ trailing slash) = pre.lead ++ T.request val := by
  have hlast := T.getLast?_request pre val
  cases slash with
  | false => rw [trailing, if_neg Bool.false_ne_true, List.append_nil, trimmed,
      if_neg fun h ↦ hlast h.2]
  | true =>
    have hne : pre.lead ++ T.request val ≠ [] := by
      obtain ⟨s, segs, hs⟩ := List.exists_cons_of_ne_nil T.segments_ne_nil
      rw [request, hs]
      exact List.append_ne_nil_of_right_ne_nil _ (List.cons_ne_nil _ _)
    have hlen : 1 < (pre.lead ++ T.request val ++ ['/']).length := by
      have := List.length_pos_of_ne_nil hne
      rw [List.length_append, List.length_singleton]
      omega
    rw [trailing, if_pos rfl, trimmed, if_pos ⟨hlen, List.getLast?_concat⟩, List.dropLast_concat]

/-- The route matches the request. -/
theorem doesMatch_request (method : HTTPMethod) (slash : Bool) {r : Route H}
    (hnew : Route.new method (pre.lead ++ T.path) = .ok r) :
    r.doesMatch method (pre.lead ++ T.request val ++ trailing slash) = true := by
  have hparam : Template.names (read (pre.lead ++ T.path)) ≠ [] := by
    rw [names_path]
    exact T.names_ne_nil
  rw [Route.doesMatch_iff hnew hparam (T.simple_path pre), trimmed_request, ← instantiate_path]
  have hinstance : IsInstance (read (pre.lead ++ T.path)) _ := ⟨val, rfl⟩
  exact ⟨rfl, _, hinstance.mem_found, List.infix_rfl⟩

/-- The search in the path as it came finds the values. -/
theorem search_request (slash : Bool) :
    ∃ m, (pattern 0 (read (pre.lead ++ T.path))).search
        (pre.lead ++ T.request val ++ trailing slash) = some m ∧
      ∀ i name, T.names[i]? = some name → m.get (i + 1) = (val name).text := by
  have hdelimited : Delimited (read (pre.lead ++ T.path)) := by
    rw [read_path]
    exact delimited_lits (delimited_segments T.segments) _
  have hrest : (Cursor.start [] (pre.lead ++ T.request val ++ trailing slash)).rest
      = instantiate val (read (pre.lead ++ T.path)) ++ trailing slash := by
    rw [instantiate_path]
    rfl
  obtain ⟨t, ht, -, hcaps⟩ := head?_run_pattern hdelimited (head?_trailing slash) val 0 hrest
  refine ⟨_, Re.searchFrom_of_matchAt (by rw [Re.matchAt, ht, Option.map_some]), ?_⟩
  intro i name hi
  rw [← names_path pre] at hi
  have hcap := hcaps i name hi
  rw [Nat.zero_add] at hcap
  rw [Match.get_between, hcap, Option.getD_some]

/-- **The values come back.**  For every plain prefix, every template made of segments and every
assignment of values, the request path with the values, also with one more `/` at its end, is
matched by the route, and `generateHandler` passes to the generator a map with the names of the
template, each bound to its value. -/
theorem generateHandler_request (method : HTTPMethod) (generator : PathParams → H) :
    ∃ r : Route H, Router.newRoute pre.text method T.path = .ok r ∧ ∀ slash : Bool,
      (r.handler generator).doesMatch method (pre.lead ++ T.request val ++ trailing slash) = true ∧
      ∃ params : PathParams,
        (r.handler generator).generateHandler (pre.lead ++ T.request val ++ trailing slash)
          = .ok (generator params) ∧
        ∀ name, params.lookup name = if name ∈ T.names then some (val name).text else none := by
  rw [newRoute_path, new_path]
  refine ⟨_, rfl, fun slash ↦ ⟨?_, ?_⟩⟩
  · have hmatch := T.doesMatch_request pre val method slash (T.new_path (H := H) pre method)
    exact hmatch
  · obtain ⟨m, hm, hget⟩ := T.search_request pre val slash
    refine ⟨Route.pathParams m 0 T.names ∅, ?_, fun name ↦ ?_⟩
    · simp only [Route.handler, Route.generateHandler, hm, ne_eq, not_true_eq_false, if_false]
      rfl
    · have hget' : ∀ j n, T.names[j]? = some n → m.get (0 + j + 1) = (val n).text := by
        intro j n hj
        rw [Nat.zero_add, hget j n hj]
      rw [Route.lookup_pathParams T.names_nodup (fun _ _ ↦ Finmap.notMem_empty) hget',
        Finmap.lookup_empty]

end SegTemplate

/-- `/foo/:bar/:baz` below the prefix `v1`. -/
theorem generateHandler_request_foo : ∃ T : SegTemplate, T.path = "/foo/:bar/:baz".toList ∧
    ∃ r : Route PathParams, Router.newRoute "v1".toList .GET T.path = .ok r ∧ ∀ slash : Bool,
      (r.handler id).doesMatch .GET
        ("/v1/foo/hello/world".toList ++ SegTemplate.trailing slash) = true ∧
      ∃ params : PathParams, (r.handler id).generateHandler
          ("/v1/foo/hello/world".toList ++ SegTemplate.trailing slash) = .ok params ∧
        params.lookup "bar".toList = some "hello".toList ∧
        params.lookup "baz".toList = some "world".toList ∧
        params.lookup "foo".toList = none := by
  have hv1 : ∀ c ∈ "v1".toList, c ∉ syntaxChars ∧ c ≠ ':' := by simp [syntaxChars]
  let T : SegTemplate :=
    { segments := [.literal ⟨"foo".toList, by decide, by simp [syntaxChars]⟩,
        .param ⟨"bar".toList, by decide, List.all_eq_true.mp (by decide)⟩,
        .param ⟨"baz".toList, by decide, List.all_eq_true.mp (by decide)⟩]
      nodup := by decide
      param := by decide }
  let val : List Char → Value := fun name ↦
    if name = "bar".toList then ⟨"hello".toList, by decide, by decide⟩
    else ⟨"world".toList, by decide, by decide⟩
  obtain ⟨r, hr, h⟩ := SegTemplate.generateHandler_request ⟨"v1".toList, hv1⟩ T val .GET
    (id : PathParams → PathParams)
  refine ⟨T, rfl, r, hr, fun slash ↦ ⟨(h slash).1, ?_⟩⟩
  obtain ⟨params, hparams, hlookup⟩ := (h slash).2
  exact ⟨params, hparams, hlookup _, hlookup _, hlookup _⟩

end Template
