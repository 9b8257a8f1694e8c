import CppUtility.Regex.Match

/-!
# Searching

`Re.search` is `std::regex_search`: it tries one position after the other and takes the preferred
match at the first one where there is a match.  `Re.iterate` is the sequence that a
`std::sregex_iterator` runs through; after an empty match it tries a match that is not empty at the
same position before it moves on.

A `Match` is what a `std::smatch` has to offer: the text before the match, the text that is matched,
the text after it, and the groups.  A group that has not taken part in the match has captured
nothing (`caps i = none`), which the accessor `get` shows as an empty string, as `str()` does.

* A search goes through the target position by position, and so do its lemmas: it finds the match
  here if there is one (`searchFrom_of_matchAt`), and otherwise searches on (`searchFrom_cons`).
* Whether it finds anything is again a matter of languages (`isSome_search`): some part of the
  target has to be a word.  Which match it finds is not; the order of `Re.run` decides.
* The iterator is given a bound on the number of its matches that it cannot exceed, so that
  `Re.iterate` is a list and nothing has to be said about its end.
-/

set_option autoImplicit false

namespace Regex

/-- A match: what stands before it, the last character first, what is matched, what stands after
it, and the groups (`std::smatch`). -/
structure Match where
  before : List Char
  str : List Char
  rest : List Char
  caps : ℕ → Option (List Char)

namespace Match

/-- The match from a position to a later one. -/
def between (s t : Cursor) : Match := ⟨s.before, s.upTo t, t.rest, t.caps⟩

/-- `position()`, from the beginning of the target. -/
def position (m : Match) : ℕ := m.before.length

/-- `m[i]` as a string; a group that has not taken part gives an empty one. -/
def get (m : Match) (i : ℕ) : List Char := if i = 0 then m.str else (m.caps i).getD []

theorem get_between (s t : Cursor) (i : ℕ) :
    (between s t).get (i + 1) = (t.caps (i + 1)).getD [] := rfl

end Match

/-- A position with nothing captured. -/
def Cursor.start (before rest : List Char) : Cursor := ⟨before, rest, fun _ ↦ none⟩

namespace Re

variable (r : Re)

/-- The preferred match at a position. -/
def matchAt (before rest : List Char) : Option Match :=
  (r.run (.start before rest)).head?.map (.between (.start before rest))

/-- The preferred match at the first position from here on that has one. -/
def searchFrom : List Char → List Char → Option Match
  | before, [] => r.matchAt before []
  | before, c :: cs => (r.matchAt before (c :: cs)).orElse fun _ ↦ searchFrom (c :: before) cs

/-- `std::regex_search`. -/
def search (target : List Char) : Option Match := r.searchFrom [] target

/-- The preferred match at a position among those that are not empty
(`match_not_null | match_continuous`). -/
def matchAtNotNull (before rest : List Char) : Option Match :=
  ((r.run (.start before rest)).find? fun t ↦ t.rest.length < rest.length).map
    (.between (.start before rest))

/-- The next match of the iterator, when the last one ended here. -/
def nextMatch (afterEmpty : Bool) (before rest : List Char) : Option Match :=
  if afterEmpty then
    (r.matchAtNotNull before rest).orElse fun _ ↦ match rest with
      | [] => none
      | c :: cs => r.searchFrom (c :: before) cs
  else r.searchFrom before rest

/-- At most `n` matches of the iterator. -/
def iterateFrom : ℕ → Bool → List Char → List Char → List Match
  | 0, _, _, _ => []
  | n + 1, afterEmpty, before, rest => match r.nextMatch afterEmpty before rest with
    | none => []
    | some m => m :: iterateFrom n m.str.isEmpty (m.str.reverse ++ m.before) m.rest

/-- `std::sregex_iterator`: at most two matches begin at a position, an empty one and after it one
that is not. -/
def iterate (target : List Char) : List Match :=
  r.iterateFrom (2 * target.length + 2) false [] target

variable {r}

theorem matchAt_eq_none {before rest : List Char} :
    r.matchAt before rest = none ↔ r.run (.start before rest) = [] := by
  rw [matchAt, Option.map_eq_none_iff, List.head?_eq_none_iff]

theorem matchAt_eq_some {before rest w v : List Char} {t : Cursor}
    (h : (r.run (.start before rest)).head? = some t) (hrest : rest = w ++ v) (ht : t.rest = v) :
    r.matchAt before rest = some ⟨before, w, v, t.caps⟩ := by
  subst ht
  have hupTo : (Cursor.start before rest).upTo t = w := Cursor.upTo_eq hrest
  rw [matchAt, h, Option.map_some, Match.between, hupTo]
  rfl

theorem searchFrom_of_matchAt {before rest : List Char} {m : Match}
    (h : r.matchAt before rest = some m) : r.searchFrom before rest = some m := by
  cases rest <;> simp [searchFrom, h]

/-- Positions without a match are passed over. -/
theorem searchFrom_cons {before cs : List Char} {c : Char}
    (h : r.run (.start before (c :: cs)) = []) :
    r.searchFrom before (c :: cs) = r.searchFrom (c :: before) cs := by
  rw [searchFrom, matchAt_eq_none.mpr h]
  rfl

theorem iterateFrom_of_none {n : ℕ} {before rest : List Char}
    (h : r.searchFrom before rest = none) : r.iterateFrom (n + 1) false before rest = [] := by
  have hnext : r.nextMatch false before rest = none := h
  rw [iterateFrom, hnext]

theorem iterateFrom_of_some {n : ℕ} {before rest : List Char} {m : Match}
    (h : r.searchFrom before rest = some m) :
    r.iterateFrom (n + 1) false before rest
      = m :: r.iterateFrom n m.str.isEmpty (m.str.reverse ++ m.before) m.rest := by
  have hnext : r.nextMatch false before rest = some m := h
  rw [iterateFrom, hnext]

theorem isSome_searchFrom {before rest : List Char} :
    (r.searchFrom before rest).isSome = true ↔
      ∃ a b, rest = a ++ b ∧ r.run (.start (a.reverse ++ before) b) ≠ [] := by
  induction rest generalizing before with
  | nil =>
    rw [searchFrom, Option.isSome_iff_ne_none, Ne, matchAt_eq_none]
    constructor
    · exact fun h ↦ ⟨[], [], rfl, h⟩
    · rintro ⟨a, b, hab, h⟩
      obtain ⟨rfl, rfl⟩ := List.append_eq_nil_iff.mp hab.symm
      exact h
  | cons c cs ih =>
    by_cases hc : r.run (.start before (c :: cs)) = []
    · rw [searchFrom_cons hc, ih]
      constructor
      · rintro ⟨a, b, rfl, h⟩
        exact ⟨c :: a, b, rfl, by simpa using h⟩
      · rintro ⟨a, b, hab, h⟩
        cases a with
        | nil =>
          rw [List.nil_append] at hab
          subst hab
          exact absurd hc h
        | cons d a =>
          obtain ⟨rfl, rfl⟩ := List.cons.inj hab
          exact ⟨a, b, rfl, by simpa using h⟩
    · obtain ⟨m, hm⟩ := Option.ne_none_iff_exists'.mp (mt matchAt_eq_none.mp hc)
      rw [searchFrom_of_matchAt hm]
      exact iff_of_true rfl ⟨[], c :: cs, rfl, hc⟩

/-- **A search succeeds when some part of the target is a word of the language.** -/
theorem isSome_search (h : r.regular = true) {target : List Char} :
    (r.search target).isSome = true ↔ ∃ w ∈ r.language, w <:+: target := by
  rw [search, isSome_searchFrom]
  constructor
  · rintro ⟨a, b, rfl, hne⟩
    obtain ⟨t, ht⟩ := List.exists_mem_of_ne_nil _ hne
    obtain ⟨w, hw, hb⟩ := (accepts h).sound _ t ht
    exact ⟨w, hw, a, t.rest, by rw [List.append_assoc, ← hb]; rfl⟩
  · rintro ⟨w, hw, a, b, rfl⟩
    obtain ⟨t, ht, -⟩ := (accepts h).complete (.start (a.reverse ++ []) (w ++ b)) w b rfl hw
    exact ⟨a, w ++ b, by rw [List.append_assoc], List.ne_nil_of_mem ht⟩

end Re

end Regex
