import CppUtility.Router.Route

/-!
# The loop of `createPattenRegex`

The iterator over `m_reToken` stops at the parameters of the path, one after the other, so that the
loop collects their names and replaces each of them by a group.  It aborts when a name comes a
second time.

* **The expression.**  `m_reToken` compiles to a `:`, a letter, and any number of name characters,
  the last two in a group.  Where a parameter is, the whole name is taken (`matchAt_m_reToken`),
  since the loop over the name characters is greedy; elsewhere nothing matches (`run_m_reToken`).
* **The search.**  From any position of the path, the next match is the next parameter, with literal
  characters before it (`searchFrom_m_reToken`).  In particular a match is never empty, so that the
  iterator goes on where the match has ended.
* **The loop.**  `foldlM_tokenStep` is its invariant.  It is stated for the loop from any position
  on, with whatever has been collected before: the names that follow are those of `Template.read` of
  the rest, and the text that is written is that of its pieces.

The variable `pos` of the loop is where the last match has ended.  In the invariant it is the length
of what is before the position, so that the pieces between the matches are cut out of the path with
nothing missing and nothing twice.
-/

set_option autoImplicit false

open Template Regex

/-- How a piece is written in the regular expression. -/
def Template.Piece.pattern : Piece → List Char
  | lit c => [c]
  | param _ => "([^/]+)".toList

theorem Template.flatMap_pattern_lits (a : List Char) :
    (a.map Piece.lit).flatMap Piece.pattern = a := by
  rw [List.flatMap_map]
  exact List.flatMap_singleton' a

namespace Route

/-! ## The expression for a token

Compiling is left to evaluation (`m_reToken_eq`), and the two sets of the expression are those of
`Template`: what the iterator takes for a name is what `read` takes for one. -/

/-- `[A-Za-z]`. -/
def letters : CharSet := ⟨false, [.range 'A' 'Z', .range 'a' 'z']⟩

/-- `[A-Za-z_0-9]`. -/
def nameChars : CharSet :=
  ⟨false, [.range 'A' 'Z', .range 'a' 'z', .range '_' '_', .range '0' '9']⟩

theorem m_reToken_eq : m_reToken =
    ⟨.seq (.set (.single ':'))
      (.seq (.group 1 (.seq (.set letters) (.seq (.rep 0 none true (.set nameChars)) .empty)))
        .empty), 1⟩ := by
  decide

theorem letters_mem (c : Char) : letters.mem c = isLetter c := by
  simp [letters, CharSet.mem, ClassItem.mem, isLetter]

theorem nameChars_mem (c : Char) : nameChars.mem c = isNameChar c := by
  rw [Bool.eq_iff_iff]
  simp only [nameChars, CharSet.mem, ClassItem.mem, isNameChar, isLetter, List.any_cons,
    List.any_nil, Bool.or_false, Bool.bne_false, Bool.or_eq_true, decide_eq_true_eq]
  have hunderscore := ClassItem.mem_range_self (c := '_') (d := c)
  rw [ClassItem.mem, decide_eq_true_eq] at hunderscore
  rw [hunderscore]
  tauto

/-- Where a parameter is, the whole name is taken. -/
theorem matchAt_m_reToken (before : List Char) {w v : List Char} (hhead : w.head?.any isLetter)
    (hw : ∀ c ∈ w, isNameChar c) (hv : ∀ c ∈ v.head?, isNameChar c = false) :
    ∃ caps, m_reToken.re.matchAt before (':' :: (w ++ v)) = some ⟨before, ':' :: w, v, caps⟩ := by
  cases w with
  | nil => cases hhead
  | cons c w =>
    let s : Cursor := .start before (':' :: (c :: w ++ v))
    have hs : s.rest = ':' :: (c :: w ++ v) := rfl
    have h1 : (s.advance 1).rest = c :: (w ++ v) := rfl
    have h2 : ((s.advance 1).advance 1).rest = w ++ v := rfl
    have hcolon := head?_run_set hs (CharSet.mem_single.mpr rfl)
    have hletter := head?_run_set h1 ((letters_mem c).trans hhead)
    have hname := head?_run_star_set h2
      (fun d hd ↦ (nameChars_mem d).trans (hw d (List.mem_cons_of_mem c hd)))
      (fun d hd ↦ (nameChars_mem d).trans (hv d hd))
    have hgroup := head?_run_group 1 (head?_run_seq hletter (head?_run_seq hname
      (b := .empty) (u := ((s.advance 1).advance 1).advance w.length) rfl))
    have hall := head?_run_seq hcolon (head?_run_seq hgroup (b := .empty) rfl)
    have hrest : (((s.advance 1).advance 1).advance w.length).rest = v := by
      rw [Cursor.advance_rest, h2, List.drop_left]
    rw [m_reToken_eq]
    exact ⟨_, Re.matchAt_eq_some hall rfl hrest⟩

/-- No match begins where no parameter is. -/
theorem run_m_reToken {before cs : List Char} {c : Char} (h : ¬ (c = ':' ∧ cs.head?.any isLetter)) :
    m_reToken.re.run (.start before (c :: cs)) = [] := by
  have hset : (Cursor.start before (c :: cs)).rest = c :: cs := rfl
  rw [m_reToken_eq, Re.run, Re.run_set_cons hset]
  by_cases hc : c = ':'
  · subst hc
    rw [if_pos (CharSet.mem_single.mpr rfl), List.flatMap_singleton, Re.run, Re.run, Re.run]
    have hnone : (Re.set letters).run ((Cursor.start before (':' :: cs)).advance 1) = [] := by
      cases cs with
      | nil => exact Re.run_set_nil rfl
      | cons d ds =>
        have hd : isLetter d = false := by simpa using h
        rw [Re.run_set_cons (show _ = d :: ds from rfl), letters_mem, hd]
        rfl
    rw [hnone]
    rfl
  · rw [if_neg (mt CharSet.mem_single.mp hc), List.flatMap_nil]

/-- **The next match is the next parameter.**  Without a match there is no parameter; otherwise
only literal characters come before it. -/
theorem searchFrom_m_reToken (before rest : List Char) :
    (m_reToken.re.searchFrom before rest = none ∧ read rest = rest.map .lit) ∨
    ∃ a w v caps, rest = a ++ ':' :: (w ++ v) ∧
      m_reToken.re.searchFrom before rest = some ⟨a.reverse ++ before, ':' :: w, v, caps⟩ ∧
      read rest = a.map .lit ++ .param w :: read v := by
  induction rest generalizing before with
  | nil =>
    refine Or.inl ⟨?_, rfl⟩
    rw [Re.searchFrom, Re.matchAt_eq_none, m_reToken_eq]
    rfl
  | cons c cs ih =>
    by_cases h : c = ':' ∧ cs.head?.any isLetter
    · obtain ⟨rfl, hl⟩ := h
      obtain ⟨w, v, rfl, hhead, hw, hv⟩ := exists_name hl
      obtain ⟨caps, hm⟩ := matchAt_m_reToken before hhead hw hv
      exact Or.inr ⟨[], w, v, caps, rfl, Re.searchFrom_of_matchAt hm, read_param hhead hw hv⟩
    · rw [Re.searchFrom_cons (run_m_reToken h), read_lit h]
      rcases ih (c :: before) with ⟨h1, h2⟩ | ⟨a, w, v, caps, rfl, h1, h2⟩
      · exact Or.inl ⟨h1, by rw [h2, List.map_cons]⟩
      · exact Or.inr ⟨c :: a, w, v, caps, rfl, by rw [h1]; simp, by rw [h2]; rfl⟩

/-! ## The loop -/

section Loop

variable {gs : List (List Char)}

/-- One iteration, at the parameter `w` that comes after the literal characters `a`. -/
theorem tokenStep_eq (before ss a v : List Char) {w : List Char} {caps : ℕ → Option (List Char)}
    (hw : w ∉ gs) :
    tokenStep (before.reverse ++ (a ++ ':' :: (w ++ v))) ⟨before.length, ss, gs⟩
        ⟨a.reverse ++ before, ':' :: w, v, caps⟩
      = .ok ⟨((':' :: w).reverse ++ (a.reverse ++ before)).length,
          ss ++ a ++ "([^/]+)".toList, gs ++ [w]⟩ := by
  have hdrop : (before.reverse ++ (a ++ ':' :: (w ++ v))).drop before.length
      = a ++ ':' :: (w ++ v) := by
    rw [← List.length_reverse, List.drop_left]
  have hlen : (a.reverse ++ before).length - before.length = a.length := by simp
  simp only [tokenStep, Match.position, List.head?_cons, if_true, List.tail_cons, if_neg hw, hdrop,
    hlen, List.take_left, Except.ok.injEq, TokenLoop.mk.injEq, and_true]
  simp only [List.length_append, List.length_reverse, List.length_cons]
  omega

/-- **What the loop computes** from the position after `before` on, when it has collected the names
`gs` there: the names that follow, and the text with a group for each parameter; it aborts if a
name comes a second time. -/
theorem foldlM_tokenStep (before rest ss : List Char) {n : ℕ} (hn : rest.length < n)
    (hgs : gs.Nodup) :
    ((gs ++ names (read rest)).Nodup → ∃ l,
      (m_reToken.re.iterateFrom n false before rest).foldlM (tokenStep (before.reverse ++ rest))
          ⟨before.length, ss, gs⟩ = .ok l ∧
      l.m_groups = gs ++ names (read rest) ∧
      l.ss ++ (before.reverse ++ rest).drop l.pos
        = ss ++ (read rest).flatMap Piece.pattern) ∧
    (¬ (gs ++ names (read rest)).Nodup →
      (m_reToken.re.iterateFrom n false before rest).foldlM (tokenStep (before.reverse ++ rest))
        ⟨before.length, ss, gs⟩ = .error .abort) := by
  induction n generalizing before rest ss gs with
  | zero => exact absurd hn (Nat.not_lt_zero _)
  | succ n ih =>
    rcases searchFrom_m_reToken before rest with ⟨hm, hread⟩ | ⟨a, w, v, caps, rfl, hm, hread⟩
    · have hnames : gs ++ names (read rest) = gs := by rw [hread, names_map_lit, List.append_nil]
      have htext : (read rest).flatMap Piece.pattern = rest := by
        rw [hread, flatMap_pattern_lits]
      rw [Re.iterateFrom_of_none hm, hnames, htext]
      refine ⟨fun _ ↦ ⟨_, rfl, rfl, ?_⟩, fun h ↦ absurd hgs h⟩
      rw [← List.length_reverse, List.drop_left]
    · have hnames : names (read (a ++ ':' :: (w ++ v))) = w :: names (read v) := by
        rw [hread, names_append, names_map_lit]
        rfl
      rw [Re.iterateFrom_of_some hm, hnames, List.foldlM_cons]
      by_cases hw : w ∈ gs
      · have hdup : ¬ (gs ++ w :: names (read v)).Nodup := fun h ↦
          List.disjoint_of_nodup_append h hw List.mem_cons_self
        refine ⟨fun h ↦ absurd h hdup, fun _ ↦ ?_⟩
        simp [tokenStep, hw]
        rfl
      · have hpath : before.reverse ++ (a ++ ':' :: (w ++ v))
            = ((':' :: w).reverse ++ (a.reverse ++ before)).reverse ++ v := by simp
        have hlen : v.length < n := by
          simp only [List.length_append, List.length_cons] at hn
          omega
        have hgs' : (gs ++ [w]).Nodup := List.nodup_append_comm.mp (List.nodup_cons.mpr ⟨hw, hgs⟩)
        have htext : (read (a ++ ':' :: (w ++ v))).flatMap Piece.pattern
            = a ++ "([^/]+)".toList ++ (read v).flatMap Piece.pattern := by
          rw [hread, List.flatMap_append, flatMap_pattern_lits, List.flatMap_cons,
            List.append_assoc]
          rfl
        have hih := ih ((':' :: w).reverse ++ (a.reverse ++ before)) v
          (ss ++ a ++ "([^/]+)".toList) hlen hgs'
        rw [tokenStep_eq before ss a v hw, htext, hpath]
        rw [List.append_assoc, List.singleton_append] at hih
        simp only [List.append_assoc] at hih ⊢
        exact hih

end Loop

end Route
