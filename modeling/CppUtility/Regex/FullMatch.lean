import CppUtility.Regex.Search

/-!
# Matching a whole target

`Re.fullMatch` is `std::regex_match`: of the ways to match from the beginning of the target, the
first one that ends at its end.  For an expression without assertions and back references it exists
exactly when the target is a word of the language (`fullMatch_eq_none`).

This is not a search for an expression between `^` and `$`.  The preferred way to match may end
before the end of the target, and then the next one is tried, from the same list.

Which captures the match has depends on the order of that list.  Where the target can be cut in one
way only, it does not, and two facts determine them:

* a match changes the captures of its own groups only (`Re.run_caps`), so that what a group has
  captured is still there when the terms behind it have matched;
* a group followed by other terms has captured a word of its language, and the other terms match the
  rest (`mem_run_group_seq`).

A cut of the target into words, one for each term, is then all there is to know about a match, and
finding the captures is a matter of taking words apart.
-/

set_option autoImplicit false

namespace Regex

/-! ## What a match leaves alone

A property of positions that one iteration keeps is kept by any number of them.  The induction is
stated once, for the iterations that are required and for those that are optional, and captures are
the property it is used for. -/

section Iterations

variable {f : Cursor → List Cursor} {P : Cursor → Prop} {n : ℕ} {s t : Cursor}

theorem times_induction (hf : ∀ s t, P s → t ∈ f s → P t) (hs : P s) (ht : t ∈ times f n s) :
    P t := by
  induction n generalizing s with
  | zero => exact List.mem_singleton.mp ht ▸ hs
  | succ n ih =>
    obtain ⟨u, hu, ht⟩ := List.mem_flatMap.mp ht
    exact ih (hf s u hs hu) ht

theorem more_induction {greedy : Bool} (hf : ∀ s t, P s → t ∈ f s → P t) (hs : P s)
    (ht : t ∈ more f greedy n s) : P t := by
  induction n generalizing s with
  | zero => exact List.mem_singleton.mp ht ▸ hs
  | succ n ih =>
    have hcases : t = s ∨ ∃ u ∈ f s, t ∈ more f greedy n u := by
      cases greedy <;> simp [more] at ht <;> grind
    rcases hcases with rfl | ⟨u, hu, ht⟩
    · exact hs
    · exact ih (hf s u hs hu) ht

end Iterations

/-- **A match changes the captures of its own groups only.** -/
theorem Re.run_caps {r : Re} {s t : Cursor} {i : ℕ} (hi : i ∉ r.groups) (ht : t ∈ r.run s) :
    t.caps i = s.caps i := by
  induction r generalizing s t with
  | empty => rw [List.mem_singleton.mp ht]
  | set S =>
    cases h : s.rest with
    | nil => simp [Re.run_set_nil h] at ht
    | cons c cs =>
      rw [Re.run_set_cons h] at ht
      split at ht
      · rw [List.mem_singleton.mp ht]
        rfl
      · cases ht
  | seq a b iha ihb =>
    obtain ⟨ha, hb⟩ := not_or.mp (mt List.mem_append.mpr hi)
    obtain ⟨u, hu, ht⟩ := List.mem_flatMap.mp ht
    exact (ihb hb ht).trans (iha ha hu)
  | alt a b iha ihb =>
    obtain ⟨ha, hb⟩ := not_or.mp (mt List.mem_append.mpr hi)
    exact (List.mem_append.mp ht).elim (iha ha) (ihb hb)
  | group j a iha =>
    obtain ⟨hj, ha⟩ := not_or.mp (mt List.mem_cons.mpr hi)
    obtain ⟨u, hu, rfl⟩ := List.mem_map.mp ht
    exact (Function.update_of_ne hj _ _).trans (iha ha hu)
  | ref j =>
    rw [Re.run] at ht
    split at ht
    · rw [List.mem_singleton.mp ht]
    · split at ht
      · rw [List.mem_singleton.mp ht]
        rfl
      · cases ht
  | bol | eol | word neg =>
    rw [Re.run] at ht
    split at ht
    · rw [List.mem_singleton.mp ht]
    · cases ht
  | look neg a iha =>
    cases neg with
    | false =>
      cases ha : a.run s with
      | nil => simp [Re.run, ha] at ht
      | cons u l =>
        obtain rfl : t = { s with caps := u.caps } := by simpa [Re.run, ha] using ht
        have hu : u.caps i = s.caps i := iha hi (by simp [ha])
        exact hu
    | true =>
      cases ha : a.run s with
      | nil =>
        obtain rfl : t = s := by simpa [Re.run, ha] using ht
        rfl
      | cons u l => simp [Re.run, ha] at ht
  | rep lo hi' greedy a iha =>
    have hf : ∀ u v : Cursor, u.caps i = s.caps i → v ∈ a.run (u.clear a.groups) →
        v.caps i = s.caps i := by
      intro u v hu hv
      rw [iha hi hv, ← hu]
      exact if_neg hi
    obtain ⟨u, hu, ht⟩ := List.mem_flatMap.mp ht
    exact more_induction (P := fun v ↦ v.caps i = s.caps i) hf
      (times_induction (P := fun v ↦ v.caps i = s.caps i) hf rfl hu) ht

/-- **A group that other terms follow** has captured a word of its language; the other terms match
what is left. -/
theorem mem_run_group_seq {a b : Re} {i : ℕ} {s t : Cursor} (ha : a.regular = true)
    (hi : i ∉ b.groups) (ht : t ∈ (Re.seq (.group i a) b).run s) :
    ∃ w u, w ∈ a.language ∧ s.rest = w ++ u.rest ∧ t ∈ b.run u ∧ t.caps i = some w := by
  obtain ⟨u, hu, ht⟩ := List.mem_flatMap.mp ht
  obtain ⟨v, hv, rfl⟩ := List.mem_map.mp hu
  obtain ⟨w, hw, hrest⟩ := (Re.accepts ha).sound s v hv
  refine ⟨w, v.capture i (s.upTo v), hw, hrest, ht, ?_⟩
  rw [Re.run_caps hi ht, Cursor.upTo_eq hrest]
  exact Function.update_self ..

/-! ## Matching the whole target -/

namespace Re

variable {r : Re} {target : List Char} {m : Match}

/-- `std::regex_match`. -/
def fullMatch (r : Re) (target : List Char) : Option Match :=
  ((r.run (.start [] target)).find? fun t ↦ t.rest = []).map (.between (.start [] target))

/-- **A target is matched when it is a word of the language.** -/
theorem fullMatch_eq_none (h : r.regular = true) :
    r.fullMatch target = none ↔ target ∉ r.language := by
  rw [fullMatch, Option.map_eq_none_iff, List.find?_eq_none]
  constructor
  · intro hnone hw
    have hstart : (Cursor.start [] target).rest = target ++ [] := by simp [Cursor.start]
    obtain ⟨t, ht, hrest⟩ := (accepts h).complete _ target [] hstart hw
    exact hnone t ht (by simp [hrest])
  · intro hnot t ht hrest
    obtain ⟨w, hw, heq⟩ := (accepts h).sound _ t ht
    have htarget : target = w := by simpa [Cursor.start, of_decide_eq_true hrest] using heq
    exact hnot (htarget ▸ hw)

/-- The captures are those of a way to match that ends at the end. -/
theorem exists_of_fullMatch (h : r.fullMatch target = some m) :
    ∃ t ∈ r.run (.start [] target), t.rest = [] ∧ m.caps = t.caps := by
  obtain ⟨t, ht, rfl⟩ := Option.map_eq_some_iff.mp h
  exact ⟨t, List.mem_of_find?_eq_some ht, by simpa using List.find?_some ht, rfl⟩

/-! ## Optional terms -/

theorem mem_language_star_set {S : CharSet} {greedy : Bool} {w : List Char} :
    w ∈ (Re.rep 0 none greedy (.set S)).language ↔ ∀ c ∈ w, S.mem c = true := by
  rw [language_rep_none, pow_zero, one_mul]
  exact mem_kstar_set

theorem language_rep_some (lo hi : ℕ) (greedy : Bool) (a : Re) :
    (Re.rep lo (some hi) greedy a).language = a.language ^ lo * (1 + a.language) ^ (hi - lo) := rfl

theorem mem_language_opt {a : Re} {greedy : Bool} {w : List Char} :
    w ∈ (Re.rep 0 (some 1) greedy a).language ↔ w = [] ∨ w ∈ a.language := by
  rw [language_rep_some, pow_zero, one_mul, Nat.sub_zero, pow_one, Language.mem_add,
    Language.mem_one]

end Re

end Regex
