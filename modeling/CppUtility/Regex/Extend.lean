import CppUtility.Regex.Search

/-!
# A longer target

What an expression without assertions and back references does at a position of the target does not
depend on what is appended to the target, except for the ways to match that reach what is appended.

* **One matcher.**  `Extends tail f` says so of a matcher: on a target with `tail` appended, the
  ways to match that do not reach `tail` are those of the target without it, and they come in the
  same order.  There is one lemma for each way to build a matcher from others, as for `Accepts`.
* **All of them.**  `Re.run_extends` puts these lemmas together, by induction on the expression.
* **Searches.**  A search has the same result in the longer target, if no word that begins at or
  before its position reaches what is appended (`Re.search_append`).  Counting a character is a way
  to see that none does (`Re.search_concat`): if all words have the same number of slashes, say, and
  the match has them, then a word with the slash that was appended would have one more.

The order is what makes this a statement of its own.  That the same words are found is clear from
`Re.accepts`; that the same match is preferred is not, because a greedy repetition tries the longer
target's ways first.  They are filtered out of the list, and the others have kept their places.

How often an optional iteration may be repeated is bounded by the length of the rest of the target,
which is another number in the longer target.  `more_eq` says that the bound makes no difference.
-/

set_option autoImplicit false

namespace Regex

namespace Cursor

/-- The position in the target with `tail` appended. -/
def extend (tail : List Char) (s : Cursor) : Cursor := { s with rest := s.rest ++ tail }

@[simp] theorem extend_rest (tail : List Char) (s : Cursor) :
    (s.extend tail).rest = s.rest ++ tail := rfl

/-- `tail` is still ahead. -/
def before? (tail : List Char) (t : Cursor) : Bool := tail.length ≤ t.rest.length

theorem before?_extend (tail : List Char) (s : Cursor) : (s.extend tail).before? tail = true := by
  simp [before?]

/-- What is between two positions. -/
theorem upTo_extend (tail : List Char) {s t : Cursor} (h : t.rest.length ≤ s.rest.length) :
    (s.extend tail).upTo (t.extend tail) = s.upTo t := by
  have hlen : (s.rest ++ tail).length - (t.rest ++ tail).length
      = s.rest.length - t.rest.length := by
    simp only [List.length_append]
    omega
  rw [upTo, extend_rest, extend_rest, hlen, upTo, List.take_append_of_le_length (Nat.sub_le _ _)]

end Cursor

open Cursor

/-! ## Matchers on a longer target

Besides the equation between lists, `Extends` keeps that a matcher does not move backwards.  A way
to match that has reached `tail` can then not lead to one that has not, which is what sequences and
iterations need. -/

/-- The matcher `f` goes ahead, and on a target with `tail` appended the ways to match that do not
reach `tail` are the same as without it. -/
structure Extends (tail : List Char) (f : Cursor → List Cursor) : Prop where
  shrinks : ∀ s, ∀ t ∈ f s, t.rest.length ≤ s.rest.length
  extend : ∀ s, (f (s.extend tail)).filter (before? tail) = (f s).map (Cursor.extend tail)

theorem filter_flatMap_of_nil {α β : Type*} {p : α → Bool} {l : List α} {g : α → List β}
    (h : ∀ a ∈ l, p a = false → g a = []) : (l.filter p).flatMap g = l.flatMap g := by
  induction l with
  | nil => rfl
  | cons a l ih =>
    obtain ⟨ha, hl⟩ := List.forall_mem_cons.mp h
    cases hp : p a with
    | true => rw [List.filter_cons_of_pos hp, List.flatMap_cons, List.flatMap_cons, ih hl]
    | false =>
      rw [List.filter_cons_of_neg (by simp [hp]), List.flatMap_cons, ha hp, ih hl, List.nil_append]

namespace Extends

variable {tail : List Char} {f g : Cursor → List Cursor}

theorem skip : Extends tail fun s ↦ [s] where
  shrinks s t ht := by rw [List.mem_singleton.mp ht]
  extend s := by rw [List.filter_cons_of_pos (before?_extend tail s)]; rfl

theorem set (S : CharSet) : Extends tail (Re.set S).run where
  shrinks s t ht := by
    cases h : s.rest with
    | nil => simp [Re.run_set_nil h] at ht
    | cons c cs =>
      rw [Re.run_set_cons h] at ht
      split at ht
      · rw [List.mem_singleton.mp ht, advance_rest, h, List.length_drop]
        exact Nat.sub_le _ _
      · cases ht
  extend s := by
    cases h : s.rest with
    | nil =>
      -- a character of `tail` may be matched, which reaches it
      rw [Re.run_set_nil h, List.map_nil]
      refine List.filter_eq_nil_iff.mpr fun t ht hbefore ↦ ?_
      cases htail : tail with
      | nil => simp [Re.run_set_nil (s := s.extend tail) (by simp [h, htail])] at ht
      | cons c cs =>
        have hrest : (s.extend tail).rest = c :: cs := by simp [h, htail]
        rw [Re.run_set_cons hrest] at ht
        split at ht
        · rw [List.mem_singleton.mp ht, before?, advance_rest, hrest, htail, List.drop_one,
            List.tail_cons] at hbefore
          exact absurd (of_decide_eq_true hbefore) (Nat.not_succ_le_self _)
        · cases ht
    | cons c cs =>
      have hrest : (s.extend tail).rest = c :: (cs ++ tail) := by simp [h]
      rw [Re.run_set_cons h, Re.run_set_cons hrest]
      split
      · have hstep : (s.extend tail).advance 1 = (s.advance 1).extend tail := by
          simp [advance, Cursor.extend, h]
        rw [hstep, List.filter_cons_of_pos (before?_extend tail _)]
        rfl
      · rfl

/-- One matcher after the other. -/
theorem bind (hf : Extends tail f) (hg : Extends tail g) :
    Extends tail fun s ↦ (f s).flatMap g where
  shrinks s t ht := by
    obtain ⟨t', ht', ht⟩ := List.mem_flatMap.mp ht
    exact (hg.shrinks t' t ht).trans (hf.shrinks s t' ht')
  extend s := by
    -- behind a position that has reached `tail`, all others have
    have hnone : ∀ t ∈ f (s.extend tail), t.before? tail = false →
        (g t).filter (before? tail) = [] := by
      intro t _ ht
      refine List.filter_eq_nil_iff.mpr fun u hu hbefore ↦ ?_
      have hle := hg.shrinks t u hu
      simp only [before?, decide_eq_false_iff_not, decide_eq_true_eq] at ht hbefore
      omega
    rw [List.filter_flatMap, ← filter_flatMap_of_nil hnone, hf.extend, List.flatMap_map,
      List.map_flatMap]
    exact List.flatMap_congr fun t _ ↦ hg.extend t

/-- One matcher or the other. -/
theorem append (hf : Extends tail f) (hg : Extends tail g) :
    Extends tail fun s ↦ f s ++ g s where
  shrinks s t ht := (List.mem_append.mp ht).elim (hf.shrinks s t) (hg.shrinks s t)
  extend s := by rw [List.filter_append, hf.extend, hg.extend, List.map_append]

/-- What is done to the captures afterwards. -/
theorem map (hf : Extends tail f) {k : Cursor → Cursor → Cursor}
    (hk : ∀ s t, (k s t).rest = t.rest)
    (hext : ∀ s t, t.rest.length ≤ s.rest.length →
      k (s.extend tail) (t.extend tail) = (k s t).extend tail) :
    Extends tail fun s ↦ (f s).map (k s) where
  shrinks s t ht := by
    obtain ⟨t', ht', rfl⟩ := List.mem_map.mp ht
    rw [hk]
    exact hf.shrinks s t' ht'
  extend s := by
    have hbefore : before? tail ∘ k (s.extend tail) = before? tail := by
      funext t
      simp only [Function.comp, before?, hk]
    rw [List.filter_map, hbefore, hf.extend, List.map_map, List.map_map]
    exact List.map_congr_left fun t ht ↦ hext s t (hf.shrinks s t ht)

/-- What is done to them before. -/
theorem comp (hf : Extends tail f) {k : Cursor → Cursor} (hk : ∀ s, (k s).rest = s.rest)
    (hext : ∀ s, k (s.extend tail) = (k s).extend tail) : Extends tail fun s ↦ f (k s) where
  shrinks s t ht := hk s ▸ hf.shrinks (k s) t ht
  extend s := by rw [hext, hf.extend]

/-- The iterations that consume something. -/
theorem shorter (hf : Extends tail f) :
    Extends tail fun s ↦ (f s).filter fun t ↦ t.rest.length < s.rest.length where
  shrinks s t ht := hf.shrinks s t (List.mem_filter.mp ht).1
  extend s := by
    have hcomp : (fun t : Cursor ↦ decide (t.rest.length < (s.extend tail).rest.length))
        ∘ Cursor.extend tail = fun t ↦ decide (t.rest.length < s.rest.length) := by
      funext t
      simp
    rw [List.filter_comm, hf.extend, List.filter_map, hcomp]

theorem times (hf : Extends tail f) (n : ℕ) : Extends tail (times f n) := by
  induction n with
  | zero => exact skip
  | succ n ih => exact hf.bind ih

theorem more (hf : Extends tail f) (greedy : Bool) (n : ℕ) : Extends tail (more f greedy n) := by
  induction n with
  | zero => exact skip
  | succ n ih =>
    cases greedy with
    | true => exact (hf.shorter.bind ih).append skip
    | false => exact skip.append (hf.shorter.bind ih)

end Extends

section More

variable {f : Cursor → List Cursor} {greedy : Bool} {n m : ℕ} {s : Cursor}

theorem more_of_rest_eq_nil (h : s.rest = []) : more f greedy n s = [s] := by
  cases n with
  | zero => rfl
  | succ n =>
    have hnone : ((f s).filter fun t ↦ t.rest.length < s.rest.length) = [] := by simp [h]
    cases greedy <;> simp [more, hnone]

/-- More iterations than there are characters make no difference. -/
theorem more_eq (hn : s.rest.length ≤ n) (hm : s.rest.length ≤ m) :
    more f greedy n s = more f greedy m s := by
  induction n generalizing m s with
  | zero =>
    have hnil := List.length_eq_zero_iff.mp (Nat.le_zero.mp hn)
    rw [more_of_rest_eq_nil hnil, more_of_rest_eq_nil hnil]
  | succ n ih =>
    cases m with
    | zero =>
      have hnil := List.length_eq_zero_iff.mp (Nat.le_zero.mp hm)
      rw [more_of_rest_eq_nil hnil, more_of_rest_eq_nil hnil]
    | succ m =>
      have hlonger : ((f s).filter fun t ↦ t.rest.length < s.rest.length).flatMap (more f greedy n)
          = ((f s).filter fun t ↦ t.rest.length < s.rest.length).flatMap (more f greedy m) := by
        refine List.flatMap_congr fun t ht ↦ ?_
        have hlt := of_decide_eq_true (List.mem_filter.mp ht).2
        exact ih (by omega) (by omega)
      simp only [more, hlonger]

end More

/-- Any number of iterations. -/
theorem Extends.more_length {tail : List Char} {f : Cursor → List Cursor} (hf : Extends tail f)
    (greedy : Bool) : Extends tail fun s ↦ Regex.more f greedy s.rest.length s where
  shrinks s := (hf.more greedy s.rest.length).shrinks s
  extend s := by
    have hbound : Regex.more f greedy s.rest.length s
        = Regex.more f greedy (s.extend tail).rest.length s := more_eq le_rfl (by simp)
    rw [hbound]
    exact (hf.more greedy _).extend s

namespace Re

variable {r : Re}

/-- **What is appended changes nothing for the ways to match that do not reach it.** -/
theorem run_extends (tail : List Char) (h : r.regular = true) : Extends tail r.run := by
  induction r with
  | empty => exact .skip
  | set S => exact .set S
  | seq a b iha ihb =>
    obtain ⟨ha, hb⟩ := Bool.and_eq_true_iff.mp h
    exact (iha ha).bind (ihb hb)
  | alt a b iha ihb =>
    obtain ⟨ha, hb⟩ := Bool.and_eq_true_iff.mp h
    exact (iha ha).append (ihb hb)
  | group i a iha =>
    refine (iha h).map (fun s t ↦ rfl) fun s t hle ↦ ?_
    rw [upTo_extend tail hle]
    rfl
  | rep lo hi greedy a iha =>
    have hf := (iha h).comp (fun s ↦ s.clear_rest a.groups) fun s ↦ rfl
    cases hi with
    | none => exact (hf.times lo).bind (hf.more_length greedy)
    | some hi => exact (hf.times lo).bind (hf.more greedy (hi - lo))
  | ref | bol | eol | word | look => cases h

/-! ## Searching in a longer target

The lemmas are by induction along the target.  A position without a match has none in the longer
target either, if no word that begins there reaches what is appended, and the search goes on from
the next one. -/

/-- A match is at this position, or there is none here and it is further on. -/
theorem searchFrom_cases {before rest : List Char} {m : Match}
    (hm : r.searchFrom before rest = some m) : r.matchAt before rest = some m ∨
      r.run (.start before rest) = [] ∧ ∃ c cs, rest = c :: cs ∧
        r.searchFrom (c :: before) cs = some m := by
  by_cases hnone : r.run (.start before rest) = []
  · cases rest with
    | nil =>
      rw [searchFrom, matchAt_eq_none.mpr hnone] at hm
      cases hm
    | cons c cs => exact .inr ⟨hnone, c, cs, rfl, (searchFrom_cons hnone).symm.trans hm⟩
  · obtain ⟨m', hm'⟩ := Option.ne_none_iff_exists'.mp (mt matchAt_eq_none.mp hnone)
    rw [searchFrom_of_matchAt hm'] at hm
    exact .inl (hm'.trans hm)

/-- What a match at a position is. -/
theorem matchAt_spec (h : r.regular = true) {before rest : List Char} {m : Match}
    (hm : r.matchAt before rest = some m) :
    m.before = before ∧ m.str ∈ r.language ∧ rest = m.str ++ m.rest := by
  obtain ⟨t, ht, rfl⟩ := Option.map_eq_some_iff.mp hm
  obtain ⟨w, hw, hrest⟩ := (accepts h).sound _ t (List.mem_of_head? ht)
  have hstr : (Cursor.start before rest).upTo t = w := Cursor.upTo_eq hrest
  exact ⟨rfl, by rw [Match.between, hstr]; exact hw, by rw [Match.between, hstr]; exact hrest⟩

/-- What a match is. -/
theorem searchFrom_spec (h : r.regular = true) {before rest : List Char} {m : Match}
    (hm : r.searchFrom before rest = some m) :
    m.str ∈ r.language ∧ ∃ a, m.before = a.reverse ++ before ∧ rest = a ++ (m.str ++ m.rest) := by
  induction rest generalizing before with
  | nil =>
    rcases searchFrom_cases hm with hm | ⟨-, c, cs, hcons, -⟩
    · obtain ⟨hbefore, hstr, hrest⟩ := matchAt_spec h hm
      exact ⟨hstr, [], hbefore, hrest⟩
    · cases hcons
  | cons c cs ih =>
    rcases searchFrom_cases hm with hm | ⟨-, d, ds, hcons, hm⟩
    · obtain ⟨hbefore, hstr, hrest⟩ := matchAt_spec h hm
      exact ⟨hstr, [], hbefore, hrest⟩
    · obtain ⟨rfl, rfl⟩ := List.cons.inj hcons
      obtain ⟨hstr, a, hbefore, hrest⟩ := ih hm
      exact ⟨hstr, c :: a, by simp [hbefore], congrArg (c :: ·) hrest⟩

/-- Where no word reaches what is appended, all ways to match are the same. -/
theorem run_extend (h : r.regular = true) {s : Cursor} {tail : List Char}
    (hreach : ∀ w v, s.rest ++ tail = w ++ v → w ∈ r.language → tail.length ≤ v.length) :
    r.run (s.extend tail) = (r.run s).map (Cursor.extend tail) := by
  rw [← (run_extends tail h).extend s, List.filter_eq_self.mpr fun t ht ↦ ?_]
  obtain ⟨w, hw, hrest⟩ := (accepts h).sound _ t ht
  exact decide_eq_true (hreach w t.rest hrest hw)

theorem matchAt_append (h : r.regular = true) {before rest tail : List Char} {m : Match}
    (hm : r.matchAt before rest = some m)
    (hreach : ∀ w v, rest ++ tail = w ++ v → w ∈ r.language → tail.length ≤ v.length) :
    r.matchAt before (rest ++ tail) = some { m with rest := m.rest ++ tail } := by
  obtain ⟨t, ht, rfl⟩ := Option.map_eq_some_iff.mp hm
  have hrun : r.run (.start before (rest ++ tail))
      = (r.run (.start before rest)).map (Cursor.extend tail) :=
    run_extend h (s := .start before rest) hreach
  have hshrinks := (run_extends tail h).shrinks _ t (List.mem_of_head? ht)
  have hstr : (Cursor.start before (rest ++ tail)).upTo (t.extend tail)
      = (Cursor.start before rest).upTo t := upTo_extend tail hshrinks
  rw [matchAt, hrun, List.head?_map, ht, Option.map_some, Option.map_some, Match.between, hstr]
  rfl

theorem le_position (h : r.regular = true) {before rest : List Char} {m : Match}
    (hm : r.searchFrom before rest = some m) : before.length ≤ m.position := by
  obtain ⟨-, a, hbefore, -⟩ := searchFrom_spec h hm
  rw [Match.position, hbefore, List.length_append]
  exact Nat.le_add_left _ _

theorem searchFrom_append (h : r.regular = true) {before rest tail : List Char} {m : Match}
    (hm : r.searchFrom before rest = some m)
    (hreach : ∀ a b w v, rest = a ++ b → b ++ tail = w ++ v → w ∈ r.language →
      a.length + before.length ≤ m.position → tail.length ≤ v.length) :
    r.searchFrom before (rest ++ tail) = some { m with rest := m.rest ++ tail } := by
  have hposition := le_position h hm
  induction rest generalizing before with
  | nil =>
    rcases searchFrom_cases hm with hm | ⟨-, c, cs, hcons, -⟩
    · exact searchFrom_of_matchAt (matchAt_append h hm fun w v hwv hw ↦
        hreach [] [] w v rfl hwv hw (by simpa using hposition))
    · cases hcons
  | cons c cs ih =>
    have hhere : ∀ w v, c :: cs ++ tail = w ++ v → w ∈ r.language → tail.length ≤ v.length :=
      fun w v hwv hw ↦ hreach [] (c :: cs) w v rfl hwv hw (by simpa using hposition)
    rcases searchFrom_cases hm with hm | ⟨hnone, d, ds, hcons, hm⟩
    · exact searchFrom_of_matchAt (matchAt_append h hm hhere)
    · obtain ⟨rfl, rfl⟩ := List.cons.inj hcons
      have hnone' : r.run (.start before (c :: (cs ++ tail))) = [] := by
        have hrun := run_extend h (s := .start before (c :: cs)) hhere
        rwa [hnone, List.map_nil] at hrun
      rw [List.cons_append, searchFrom_cons hnone']
      refine ih hm (fun a b w v hab hwv hw ha ↦ ?_) (le_position h hm)
      refine hreach (c :: a) b w v (congrArg (c :: ·) hab) hwv hw ?_
      rw [List.length_cons] at ha ⊢
      omega

/-- **A search does not change** when what is appended to the target is not reached from the
positions up to that of the match. -/
theorem search_append (h : r.regular = true) {target tail : List Char} {m : Match}
    (hm : r.search target = some m)
    (hreach : ∀ a b w v, target = a ++ b → b ++ tail = w ++ v → w ∈ r.language →
      a.length ≤ m.position → tail.length ≤ v.length) :
    r.search (target ++ tail) = some { m with rest := m.rest ++ tail } :=
  searchFrom_append h hm fun a b w v hab hwv hw ha ↦ hreach a b w v hab hwv hw (by simpa using ha)

/-- If all words have the same number of `c`, a `c` at the end of the target is not reached: there
would be one too many. -/
theorem search_concat (h : r.regular = true) {c : Char} {k : ℕ}
    (hcount : ∀ w ∈ r.language, w.count c = k) {target : List Char} {m : Match}
    (hm : r.search target = some m) :
    r.search (target ++ [c]) = some { m with rest := m.rest ++ [c] } := by
  obtain ⟨hstr, before, hbefore, htarget⟩ := searchFrom_spec h hm
  refine search_append h hm fun a b w v hab hwv hw ha ↦ ?_
  have hposition : m.position = before.length := by
    rw [Match.position, hbefore, List.append_nil, List.length_reverse]
  have hprefix : a <+: before := List.prefix_of_prefix_length_le
    ⟨b, hab.symm⟩ ⟨m.str ++ m.rest, htarget.symm⟩ (hposition ▸ ha)
  obtain ⟨d, rfl⟩ := hprefix
  -- the match lies in `b`
  have hb : b = d ++ (m.str ++ m.rest) := by
    rw [hab, List.append_assoc] at htarget
    exact List.append_cancel_left htarget
  by_contra hv
  have hnil : v = [] := List.length_eq_zero_iff.mp (by simpa using hv)
  have hall : (b ++ [c]).count c = k := by
    rw [hwv, hnil, List.append_nil, hcount w hw]
  rw [hb] at hall
  simp only [List.count_append, hcount _ hstr, List.count_singleton_self] at hall
  omega

end Re

end Regex
