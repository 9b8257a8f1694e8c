import CppUtility.Regex.Syntax
import Mathlib.Algebra.BigOperators.Group.List.Basic
import Mathlib.Computability.Language
import Mathlib.Logic.Function.Basic

/-!
# Matching with backtracking

`Re.run` lists the ways in which an expression matches from a position of the target on, in the
order in which a backtracking matcher finds them: the left alternative before the right one, and a
greedy repetition longest first.  The groups of a repeated expression are reset at the beginning of
each iteration, an optional iteration has to consume something, and a lookahead is not entered a
second time.  The first entry of the list is the match that the standard prescribes.

Two of these rules are those of ECMA-262 and not of every library.  libstdc++ does not reset the
groups of a repeated expression, and a back reference to a group that has captured nothing does not
match there, where ECMA-262 has it match the empty text.  Both are about expressions with back
references, or with groups inside a repetition.

What an expression without assertions and back references matches is a matter of languages alone.

* **One matcher.**  `Accepts f L` says that the matcher `f` takes the words of `L` from the target,
  and no others.  There is one lemma for each way to build a matcher from others, and each of them
  is about languages as Mathlib has them: concatenation, union, and the powers of a repetition.
* **All of them.**  `Re.accepts` puts these lemmas together, by induction on the expression.

The order of the ways to match is lost in this, so `Accepts` tells whether there is a match and not
which one comes first.  The lemmas about `head?` at the end of the file do, for sequences of sets,
groups and greedy repetitions of sets.
-/

set_option autoImplicit false

namespace Regex

/-! ## Positions -/

/-- A position of the target, with what the groups have captured: the characters before it, the
last one first, and those after it. -/
structure Cursor where
  before : List Char
  rest : List Char
  caps : ℕ → Option (List Char)

namespace Cursor

/-- Forgets the captures of some groups. -/
def clear (s : Cursor) (is : List ℕ) : Cursor :=
  { s with caps := fun i ↦ if i ∈ is then none else s.caps i }

/-- Moves `n` characters ahead. -/
def advance (s : Cursor) (n : ℕ) : Cursor :=
  { s with before := (s.rest.take n).reverse ++ s.before, rest := s.rest.drop n }

/-- The characters from `s` to the later position `t`. -/
def upTo (s t : Cursor) : List Char := s.rest.take (s.rest.length - t.rest.length)

/-- Records a capture. -/
def capture (s : Cursor) (i : ℕ) (w : List Char) : Cursor :=
  { s with caps := Function.update s.caps i (some w) }

/-- Whether a word begins or ends here. -/
def atWordBoundary (s : Cursor) : Bool :=
  s.before.head?.any CharKind.word.mem != s.rest.head?.any CharKind.word.mem

@[simp] theorem clear_rest (s : Cursor) (is : List ℕ) : (s.clear is).rest = s.rest := rfl
@[simp] theorem clear_nil (s : Cursor) : s.clear [] = s := by simp [clear]
@[simp] theorem capture_rest (s : Cursor) (i : ℕ) (w : List Char) :
    (s.capture i w).rest = s.rest := rfl
@[simp] theorem advance_rest (s : Cursor) (n : ℕ) : (s.advance n).rest = s.rest.drop n := rfl
@[simp] theorem advance_zero (s : Cursor) : s.advance 0 = s := rfl

theorem advance_advance (s : Cursor) (m n : ℕ) : (s.advance m).advance n = s.advance (m + n) := by
  simp [advance, List.take_add, List.drop_drop]

end Cursor

/-! ## The matcher -/

/-- `n` iterations. -/
def times (f : Cursor → List Cursor) : ℕ → Cursor → List Cursor
  | 0, s => [s]
  | n + 1, s => (f s).flatMap (times f n)

/-- Up to `n` optional iterations. -/
def more (f : Cursor → List Cursor) (greedy : Bool) : ℕ → Cursor → List Cursor
  | 0, s => [s]
  | n + 1, s =>
    let longer := ((f s).filter fun t ↦ t.rest.length < s.rest.length).flatMap (more f greedy n)
    if greedy then longer ++ [s] else s :: longer

/-- The ways to match, the preferred ones first.  Without an upper bound, no more optional
iterations are possible than there are characters.  The groups are reset at each iteration, and a
group that is not set is matched by the empty text, as in ECMA-262; libstdc++ does neither. -/
def Re.run : Re → Cursor → List Cursor
  | .empty, s => [s]
  | .set S, s => match s.rest with
    | [] => []
    | c :: _ => if S.mem c then [s.advance 1] else []
  | .seq a b, s => (a.run s).flatMap b.run
  | .alt a b, s => a.run s ++ b.run s
  | .group i a, s => (a.run s).map fun t ↦ t.capture i (s.upTo t)
  | .ref i, s => match s.caps i with
    | none => [s]
    | some w => if w.isPrefixOf s.rest then [s.advance w.length] else []
  | .bol, s => if s.before = [] then [s] else []
  | .eol, s => if s.rest = [] then [s] else []
  | .word neg, s => if s.atWordBoundary != neg then [s] else []
  | .look neg a, s => match neg, a.run s with
    | false, t :: _ => [{ s with caps := t.caps }]
    | true, [] => [s]
    | _, _ => []
  | .rep lo hi greedy a, s =>
    let f : Cursor → List Cursor := fun s ↦ a.run (s.clear a.groups)
    (times f lo s).flatMap fun t ↦ more f greedy (hi.elim t.rest.length (· - lo)) t

theorem Re.run_set_cons {S : CharSet} {s : Cursor} {c : Char} {cs : List Char}
    (h : s.rest = c :: cs) : (Re.set S).run s = if S.mem c then [s.advance 1] else [] := by
  rw [Re.run, h]

theorem Re.run_set_nil {S : CharSet} {s : Cursor} (h : s.rest = []) : (Re.set S).run s = [] := by
  rw [Re.run, h]

/-! ## Matchers of languages

`sound` and `complete` are stated for one matcher at all positions, so that they can be used at the
positions in the middle of a match.  What is captured on the way does not enter. -/

/-- The matcher `f` takes the words of `L` from the target, all of them and no others. -/
structure Accepts (f : Cursor → List Cursor) (L : Language Char) : Prop where
  sound : ∀ s, ∀ t ∈ f s, ∃ w ∈ L, s.rest = w ++ t.rest
  complete : ∀ s w v, s.rest = w ++ v → w ∈ L → ∃ t ∈ f s, t.rest = v

namespace Accepts

variable {f g : Cursor → List Cursor} {L M : Language Char}

theorem skip : Accepts (fun s ↦ [s]) 1 where
  sound s t ht := by
    obtain rfl := List.mem_singleton.mp ht
    exact ⟨[], rfl, rfl⟩
  complete s w v h hw := by
    obtain rfl := (Language.mem_one w).mp hw
    exact ⟨s, List.mem_singleton_self s, h⟩

theorem set (S : CharSet) : Accepts (Re.set S).run {w | ∃ c, S.mem c = true ∧ w = [c]} where
  sound s t ht := by
    cases h : s.rest with
    | nil => simp [Re.run_set_nil h] at ht
    | cons c cs =>
      rw [Re.run_set_cons h] at ht
      by_cases hc : S.mem c
      · rw [if_pos hc, List.mem_singleton] at ht
        exact ⟨[c], ⟨c, hc, rfl⟩, by simp [ht, h]⟩
      · rw [if_neg hc] at ht
        simp at ht
  complete s w v h hw := by
    obtain ⟨c, hc, rfl⟩ := hw
    refine ⟨s.advance 1, ?_, by simp [h]⟩
    rw [Re.run_set_cons h, if_pos hc]
    exact List.mem_singleton_self _

/-- One matcher after the other. -/
theorem bind (hf : Accepts f L) (hg : Accepts g M) :
    Accepts (fun s ↦ (f s).flatMap g) (L * M) where
  sound s t ht := by
    obtain ⟨t', ht', ht⟩ := List.mem_flatMap.mp ht
    obtain ⟨a, ha, h1⟩ := hf.sound s t' ht'
    obtain ⟨b, hb, h2⟩ := hg.sound t' t ht
    exact ⟨a ++ b, ⟨a, ha, b, hb, rfl⟩, by rw [h1, h2, List.append_assoc]⟩
  complete s w v h hw := by
    obtain ⟨a, ha, b, hb, rfl⟩ := Language.mem_mul.mp hw
    obtain ⟨t', ht', h1⟩ := hf.complete s a (b ++ v) (by rw [h, List.append_assoc]) ha
    obtain ⟨t, ht, h2⟩ := hg.complete t' b v h1 hb
    exact ⟨t, List.mem_flatMap.mpr ⟨t', ht', ht⟩, h2⟩

/-- One matcher or the other. -/
theorem append (hf : Accepts f L) (hg : Accepts g M) :
    Accepts (fun s ↦ f s ++ g s) (L + M) where
  sound s t ht := by
    rcases List.mem_append.mp ht with ht | ht
    · obtain ⟨w, hw, h⟩ := hf.sound s t ht
      exact ⟨w, Or.inl hw, h⟩
    · obtain ⟨w, hw, h⟩ := hg.sound s t ht
      exact ⟨w, Or.inr hw, h⟩
  complete s w v h hw := by
    rcases (Language.mem_add L M w).mp hw with hw | hw
    · obtain ⟨t, ht, h'⟩ := hf.complete s w v h hw
      exact ⟨t, List.mem_append_left _ ht, h'⟩
    · obtain ⟨t, ht, h'⟩ := hg.complete s w v h hw
      exact ⟨t, List.mem_append_right _ ht, h'⟩

/-- What is done to the captures afterwards does not matter. -/
theorem map (hf : Accepts f L) {k : Cursor → Cursor → Cursor} (hk : ∀ s t, (k s t).rest = t.rest) :
    Accepts (fun s ↦ (f s).map (k s)) L where
  sound s t ht := by
    obtain ⟨t', ht', rfl⟩ := List.mem_map.mp ht
    rw [hk]
    exact hf.sound s t' ht'
  complete s w v h hw := by
    obtain ⟨t, ht, h'⟩ := hf.complete s w v h hw
    exact ⟨k s t, List.mem_map_of_mem ht, by rw [hk, h']⟩

/-- Nor is what is done to them before. -/
theorem comp (hf : Accepts f L) {k : Cursor → Cursor} (hk : ∀ s, (k s).rest = s.rest) :
    Accepts (fun s ↦ f (k s)) L where
  sound s t ht := hk s ▸ hf.sound (k s) t ht
  complete s w v h hw := hf.complete (k s) w v (by rw [hk, h]) hw

theorem times (hf : Accepts f L) (n : ℕ) : Accepts (times f n) (L ^ n) := by
  induction n with
  | zero => rw [pow_zero]; exact skip
  | succ n ih => rw [pow_succ']; exact hf.bind ih

/-- Iterations that consume nothing can be left out. -/
theorem mem_more_of_pieces (hf : Accepts f L) {greedy : Bool} {n : ℕ} {S : List (List Char)}
    (hS : ∀ y ∈ S, y ∈ L ∧ y ≠ []) (hn : S.length ≤ n) {s : Cursor} {v : List Char}
    (h : s.rest = S.flatten ++ v) : ∃ t ∈ more f greedy n s, t.rest = v := by
  induction n generalizing S s with
  | zero =>
    obtain rfl := List.length_eq_zero_iff.mp (Nat.le_zero.mp hn)
    exact ⟨s, List.mem_singleton_self s, h⟩
  | succ n ih =>
    cases S with
    | nil => exact ⟨s, by cases greedy <;> simp [more], h⟩
    | cons y S =>
      obtain ⟨hy, hne⟩ := hS y List.mem_cons_self
      obtain ⟨t', ht', h1⟩ := hf.complete s y (S.flatten ++ v) (by simp [h]) hy
      obtain ⟨t, ht, h2⟩ := ih (fun z hz ↦ hS z (List.mem_cons_of_mem y hz))
        (Nat.le_of_succ_le_succ hn) h1
      have hlt : t'.rest.length < s.rest.length := by
        have := List.length_pos_of_ne_nil hne
        simp only [h1, h, List.flatten_cons, List.length_append]
        omega
      have hmem : t ∈ ((f s).filter fun t ↦ t.rest.length < s.rest.length).flatMap
          (more f greedy n) :=
        List.mem_flatMap.mpr ⟨t', List.mem_filter.mpr ⟨ht', by simpa using hlt⟩, ht⟩
      exact ⟨t, by cases greedy <;> simp [more, hmem], h2⟩

theorem more_sound (hf : Accepts f L) {greedy : Bool} {n : ℕ} {s t : Cursor}
    (ht : t ∈ more f greedy n s) : ∃ w ∈ (1 + L) ^ n, s.rest = w ++ t.rest := by
  induction n generalizing s with
  | zero =>
    obtain rfl := List.mem_singleton.mp ht
    exact ⟨[], by simp [Language.mem_one], rfl⟩
  | succ n ih =>
    have hcases : t = s ∨ ∃ t' ∈ f s, t ∈ more f greedy n t' := by
      cases greedy <;> simp [more] at ht <;> grind
    rw [pow_succ']
    rcases hcases with rfl | ⟨t', ht', ht⟩
    · refine ⟨[], ⟨[], Or.inl rfl, [], ?_, rfl⟩, rfl⟩
      exact Language.mem_pow.mpr ⟨List.replicate n [], by simp, by simp,
        fun y hy ↦ Or.inl (List.eq_of_mem_replicate hy)⟩
    · obtain ⟨a, ha, h1⟩ := hf.sound s t' ht'
      obtain ⟨b, hb, h2⟩ := ih ht
      exact ⟨a ++ b, ⟨a, Or.inr ha, b, hb, rfl⟩, by rw [h1, h2, List.append_assoc]⟩

/-- At most `n` iterations. -/
theorem more (hf : Accepts f L) (greedy : Bool) (n : ℕ) :
    Accepts (more f greedy n) ((1 + L) ^ n) where
  sound s t ht := hf.more_sound ht
  complete s w v h hw := by
    obtain ⟨S, rfl, rfl, hS⟩ := Language.mem_pow.mp hw
    refine hf.mem_more_of_pieces (S := S.filter fun y ↦ !y.isEmpty) ?_
      (List.length_filter_le _ S) ?_
    · intro y hy
      obtain ⟨hy, hne⟩ := List.mem_filter.mp hy
      have hne : y ≠ [] := by simpa using hne
      exact ⟨(hS y hy).resolve_left hne, hne⟩
    · rw [List.flatten_filter_not_isEmpty, h]

/-- Any number of iterations: as many as there are characters are enough. -/
theorem more_length (hf : Accepts f L) (greedy : Bool) :
    Accepts (fun s ↦ Regex.more f greedy s.rest.length s) (KStar.kstar L) where
  sound s t ht := by
    obtain ⟨w, hw, h⟩ := hf.more_sound ht
    obtain ⟨S, rfl, -, hS⟩ := Language.mem_pow.mp hw
    refine ⟨S.flatten, ⟨S.filter fun y ↦ !y.isEmpty, ?_, ?_⟩, h⟩
    · rw [List.flatten_filter_not_isEmpty]
    · intro y hy
      obtain ⟨hy, hne⟩ := List.mem_filter.mp hy
      have hne : y ≠ [] := by simpa using hne
      exact (hS y hy).resolve_left hne
  complete s w v h hw := by
    obtain ⟨S, rfl, hS⟩ := Language.mem_kstar_iff_exists_nonempty.mp hw
    have hlen : S.length ≤ S.flatten.length := by
      have hone : ∀ i ∈ S.map List.length, 1 ≤ i := fun i hi ↦ by
        obtain ⟨y, hy, rfl⟩ := List.mem_map.mp hi
        exact List.length_pos_of_ne_nil (hS y hy).2
      have hsum := List.length_le_sum_of_one_le _ hone
      rwa [List.length_map, ← List.length_flatten] at hsum
    exact hf.mem_more_of_pieces hS (by rw [h, List.length_append]; omega) h

end Accepts

/-! ## What an expression matches -/

/-- Without assertions and back references. -/
def Re.regular : Re → Bool
  | .empty | .set _ => true
  | .seq a b | .alt a b => a.regular && b.regular
  | .group _ a | .rep _ _ _ a => a.regular
  | _ => false

/-- The words that an expression of this kind stands for. -/
def Re.language : Re → Language Char
  | .empty => 1
  | .set S => {w | ∃ c, S.mem c = true ∧ w = [c]}
  | .seq a b => a.language * b.language
  | .alt a b => a.language + b.language
  | .group _ a => a.language
  | .rep lo none _ a => a.language ^ lo * KStar.kstar a.language
  | .rep lo (some hi) _ a => a.language ^ lo * (1 + a.language) ^ (hi - lo)
  | _ => 0

/-- **Backtracking finds the words of the language**, all of them and no others. -/
theorem Re.accepts {r : Re} (h : r.regular = true) : Accepts r.run r.language := by
  induction r with
  | empty => exact .skip
  | set S => exact .set S
  | seq a b iha ihb =>
    obtain ⟨ha, hb⟩ := Bool.and_eq_true_iff.mp h
    exact (iha ha).bind (ihb hb)
  | alt a b iha ihb =>
    obtain ⟨ha, hb⟩ := Bool.and_eq_true_iff.mp h
    exact (iha ha).append (ihb hb)
  | group i a iha => exact (iha h).map fun s t ↦ rfl
  | rep lo hi greedy a iha =>
    have hf := (iha h).comp fun s ↦ s.clear_rest a.groups
    cases hi with
    | none => exact (hf.times lo).bind (hf.more_length greedy)
    | some hi => exact (hf.times lo).bind (hf.more greedy (hi - lo))
  | ref | bol | eol | word | look => cases h

theorem Re.language_empty : Re.empty.language = 1 := rfl
theorem Re.language_seq (a b : Re) : (Re.seq a b).language = a.language * b.language := rfl
theorem Re.language_seq_empty (a : Re) : (Re.seq a .empty).language = a.language :=
  mul_one a.language
theorem Re.language_group (i : ℕ) (a : Re) : (Re.group i a).language = a.language := rfl
theorem Re.language_rep_none (lo : ℕ) (greedy : Bool) (a : Re) :
    (Re.rep lo none greedy a).language = a.language ^ lo * KStar.kstar a.language := rfl

theorem Re.mem_language_set {S : CharSet} {w : List Char} :
    w ∈ (Re.set S).language ↔ ∃ c, S.mem c = true ∧ w = [c] := Iff.rfl

theorem Re.mem_kstar_set {S : CharSet} {w : List Char} :
    w ∈ KStar.kstar (Re.set S).language ↔ ∀ c ∈ w, S.mem c = true := by
  rw [Language.mem_kstar]
  constructor
  · rintro ⟨ws, rfl, hws⟩ c hc
    obtain ⟨y, hy, hcy⟩ := List.mem_flatten.mp hc
    obtain ⟨d, hd, rfl⟩ := mem_language_set.mp (hws y hy)
    exact List.mem_singleton.mp hcy ▸ hd
  · intro h
    refine ⟨w.map fun c ↦ [c], (List.flatMap_singleton' w).symm, fun y hy ↦ ?_⟩
    obtain ⟨c, hc, rfl⟩ := List.mem_map.mp hy
    exact mem_language_set.mpr ⟨c, h c hc, rfl⟩

/-- The words of a repeated set. -/
theorem Re.mem_language_plus_set {S : CharSet} {greedy : Bool} {w : List Char} :
    w ∈ (Re.rep 1 none greedy (.set S)).language ↔ w ≠ [] ∧ ∀ c ∈ w, S.mem c = true := by
  rw [Re.language_rep_none, pow_one, Language.mem_mul]
  constructor
  · rintro ⟨a, ha, b, hb, rfl⟩
    obtain ⟨c, hc, rfl⟩ := mem_language_set.mp ha
    have hb : ∀ d ∈ b, S.mem d = true := mem_kstar_set.mp hb
    rw [List.singleton_append]
    exact ⟨List.cons_ne_nil c b, List.forall_mem_cons.mpr ⟨hc, hb⟩⟩
  · rintro ⟨hne, h⟩
    obtain ⟨c, w, rfl⟩ := List.exists_cons_of_ne_nil hne
    obtain ⟨hc, hw⟩ := List.forall_mem_cons.mp h
    exact ⟨[c], mem_language_set.mpr ⟨c, hc, rfl⟩, w, mem_kstar_set.mpr hw, rfl⟩

/-! ## The preferred match

The first way to match of a sequence is the first one of its first term, continued by the first one
of the others, provided that they have one.  A greedy loop over a set stops at the first character
that does not belong to it. -/

theorem head?_flatMap_of_head? {α β : Type*} {l : List α} {f : α → List β} {a : α} {b : β}
    (ha : l.head? = some a) (hb : (f a).head? = some b) : (l.flatMap f).head? = some b := by
  obtain ⟨l, rfl⟩ := List.head?_eq_some_iff.mp ha
  rw [List.flatMap_cons, List.head?_append, hb, Option.some_or]

/-- A greedy loop over a set of characters prefers to take as many as there are. -/
theorem head?_more_set {S : CharSet} {n : ℕ} {s : Cursor} {w v : List Char}
    (h : s.rest = w ++ v) (hw : ∀ c ∈ w, S.mem c = true) (hv : ∀ c ∈ v.head?, S.mem c = false)
    (hn : w.length ≤ n) :
    (more (fun s ↦ (Re.set S).run (s.clear (Re.set S).groups)) true n s).head?
      = some (s.advance w.length) := by
  induction n generalizing s w with
  | zero =>
    obtain rfl := List.length_eq_zero_iff.mp (Nat.le_zero.mp hn)
    rfl
  | succ n ih =>
    have hclear : s.clear (Re.set S).groups = s := s.clear_nil
    simp only [more, hclear, if_true]
    cases w with
    | nil =>
      have hnone : (Re.set S).run s = [] := by
        cases v with
        | nil => exact Re.run_set_nil h
        | cons c v => simp [Re.run_set_cons h, hv c rfl]
      simp [hnone]
    | cons c w =>
      have hone : (Re.set S).run s = [s.advance 1] := by
        rw [Re.run_set_cons h, if_pos (hw c List.mem_cons_self)]
      have hrest : (s.advance 1).rest = w ++ v := by simp [h]
      have hhead := ih hrest (fun d hd ↦ hw d (List.mem_cons_of_mem c hd))
        (Nat.le_of_succ_le_succ hn)
      rw [Cursor.advance_advance, Nat.add_comm] at hhead
      have hlt : (s.advance 1).rest.length < s.rest.length := by
        simp [h]
      rw [hone, List.filter_cons_of_pos (by simpa using hlt), List.filter_nil,
        List.flatMap_singleton, List.head?_append, hhead, Option.some_or]
      rfl

section Head

variable {a b : Re} {S : CharSet} {s t u : Cursor} {w v : List Char}

theorem Cursor.upTo_eq (h : s.rest = w ++ t.rest) : s.upTo t = w := by
  simp [Cursor.upTo, h]

theorem head?_run_set {c : Char} (h : s.rest = c :: v) (hc : S.mem c = true) :
    ((Re.set S).run s).head? = some (s.advance 1) := by
  rw [Re.run_set_cons h, if_pos hc, List.head?_cons]

theorem head?_run_seq (ha : (a.run s).head? = some t) (hb : (b.run t).head? = some u) :
    ((Re.seq a b).run s).head? = some u :=
  head?_flatMap_of_head? ha hb

theorem head?_run_group (i : ℕ) (ha : (a.run s).head? = some t) :
    ((Re.group i a).run s).head? = some (t.capture i (s.upTo t)) := by
  rw [Re.run, List.head?_map, ha, Option.map_some]

/-- Any number of characters of a set. -/
theorem head?_run_star_set (h : s.rest = w ++ v) (hw : ∀ c ∈ w, S.mem c = true)
    (hv : ∀ c ∈ v.head?, S.mem c = false) :
    ((Re.rep 0 none true (.set S)).run s).head? = some (s.advance w.length) := by
  have hlen : w.length ≤ s.rest.length := by
    rw [h, List.length_append]
    exact Nat.le_add_right _ _
  have hhead := head?_more_set h hw hv hlen
  rw [Re.run]
  simpa [times] using hhead

/-- At least one character of a set. -/
theorem head?_run_plus_set (h : s.rest = w ++ v) (hw : ∀ c ∈ w, S.mem c = true) (hne : w ≠ [])
    (hv : ∀ c ∈ v.head?, S.mem c = false) :
    ((Re.rep 1 none true (.set S)).run s).head? = some (s.advance w.length) := by
  obtain ⟨c, w, rfl⟩ := List.exists_cons_of_ne_nil hne
  have hone : times (fun s ↦ (Re.set S).run (s.clear (Re.set S).groups)) 1 s = [s.advance 1] := by
    have hclear : s.clear (Re.set S).groups = s := s.clear_nil
    simp [times, hclear, Re.run_set_cons h, hw c List.mem_cons_self]
  have hrest : (s.advance 1).rest = w ++ v := by simp [h]
  have hlen : w.length ≤ (s.advance 1).rest.length := by
    rw [hrest, List.length_append]
    exact Nat.le_add_right _ _
  have hhead := head?_more_set hrest (fun d hd ↦ hw d (List.mem_cons_of_mem c hd)) hv hlen
  rw [Cursor.advance_advance, Nat.add_comm] at hhead
  rw [Re.run, hone]
  simpa using hhead

end Head

end Regex
