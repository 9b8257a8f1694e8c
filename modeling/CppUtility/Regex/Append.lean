import CppUtility.Regex.Search

/-!
# A character appended to a regular expression

If a text compiles, so does the text with one more character behind it, provided that the character
stands for itself and continues no token (`Inert`): it becomes one more term of the last alternative
(`compile_append`).  A `/` is such a character; a digit is not, since it would go on a number in a
back reference, nor is a `:`, since it could complete a `(?:`.

* **Reading.**  There is a lemma for each production of the grammar, in the order in which
  `CppUtility.Regex.Syntax` defines them.  It says that what has been read of the text is read of
  the longer text as well; for the productions without groups this is `Kept`.  A list of terms can
  come to the end of the text, and then it takes the character as well: what becomes of its result
  is `appended`.  The parser counts down a number so as to end, and the longer text needs one more.
* **Errors** are not followed.  A text that does not compile may do so with a character behind it,
  as one that ends with a backslash does.
* **Matching.**  `Re.FollowedBy` says at which positions the longer expression matches, in terms of
  the shorter one: an alternative other than the last one matches there, or the last one does and
  its match is followed by the character (`Re.run_snocLast_ne_nil`).
-/

set_option autoImplicit false

namespace Regex

/-- The character stands for itself, is no digit, and does not belong to `(?:`, `(?=`, `(?!` or to
the delimiters of a name in brackets. -/
structure Inert (c : Char) : Prop where
  plain : c ∉ syntaxChars
  digit : c.isDigit = false
  mark : c ∉ [':', '=', '!']

/-- What has been read of `s` is read of `s` with `c` behind it. -/
def Kept {α : Type*} (c : Char) (p : List Char → Option (α × List Char)) : Prop :=
  ∀ s a rest, p s = some (a, rest) → p (s ++ [c]) = some (a, rest ++ [c])

variable {c : Char}

/-! ## Parts without groups

These read a bounded number of characters, or up to a delimiter.  A number is the exception, as it
may end where the text does; this is where the character must not be a digit. -/

theorem takeWhile_concat {p : Char → Bool} (hc : p c = false) (s : List Char) :
    (s ++ [c]).takeWhile p = s.takeWhile p ∧ (s ++ [c]).dropWhile p = s.dropWhile p ++ [c] := by
  induction s with
  | nil => simp [hc]
  | cons d s ih =>
    by_cases hd : p d
    · simp [hd, ih.1, ih.2]
    · simp [hd]

theorem takeWhile_append_of_ne_nil {p : Char → Bool} {s : List Char} (h : s.dropWhile p ≠ [])
    (t : List Char) :
    (s ++ t).takeWhile p = s.takeWhile p ∧ (s ++ t).dropWhile p = s.dropWhile p ++ t := by
  induction s with
  | nil => exact absurd rfl h
  | cons d s ih =>
    by_cases hd : p d
    · rw [List.dropWhile_cons_of_pos hd] at h
      simp [hd, ih h]
    · simp [hd]

theorem parseNat_append (hc : Inert c) (s : List Char) :
    parseNat (s ++ [c]) = (parseNat s).map fun r ↦ (r.1, r.2 ++ [c]) := by
  obtain ⟨htake, hdrop⟩ := takeWhile_concat hc.digit s
  rw [parseNat, parseNat, htake, hdrop]
  split <;> rfl

theorem kept_parseNat (hc : Inert c) : Kept c parseNat := by
  intro s a rest h
  rw [parseNat_append hc, h]
  rfl

theorem kept_parseHex (k : ℕ) : Kept c (parseHex k) := by
  intro s a rest h
  obtain ⟨hlen, h⟩ := Option.ite_none_left_eq_some.mp h
  rw [Nat.not_lt] at hlen
  have hlen' : ¬ (s ++ [c]).length < k := by
    rw [List.length_append]
    omega
  rw [parseHex, if_neg hlen', List.take_append_of_le_length hlen,
    List.drop_append_of_le_length hlen]
  obtain ⟨ds, hds, h⟩ := Option.bind_eq_some_iff.mp h
  obtain ⟨rfl, rfl⟩ := Prod.mk.inj (Option.some_inj.mp h)
  rw [hds]
  rfl

theorem kept_parseCharEscape (hc : Inert c) : Kept c parseCharEscape := by
  intro s a rest h
  unfold parseCharEscape at h
  split at h
  case h_6 d s =>
    obtain ⟨hd, h⟩ := Option.ite_none_right_eq_some.mp h
    obtain ⟨rfl, rfl⟩ := Prod.mk.inj (Option.some_inj.mp h)
    exact if_pos hd
  case h_7 => exact kept_parseHex 2 _ _ _ h
  case h_8 => exact kept_parseHex 4 _ _ _ h
  case h_9 s =>
    obtain ⟨hd, h⟩ := Option.ite_none_left_eq_some.mp h
    obtain ⟨rfl, rfl⟩ := Prod.mk.inj (Option.some_inj.mp h)
    cases s with
    | nil => simp [parseCharEscape, hc.digit]
    | cons e s => exact if_neg hd
  case h_10 d s _ _ _ _ _ _ _ _ _ =>
    obtain ⟨hd, h⟩ := Option.ite_none_left_eq_some.mp h
    obtain ⟨rfl, rfl⟩ := Prod.mk.inj (Option.some_inj.mp h)
    have hletter : d ≠ 'c' := fun he ↦ hd (.inl (he ▸ rfl))
    rw [List.cons_append, parseCharEscape, if_neg hd]
    all_goals simp_all
  case h_11 => cases h
  all_goals
    obtain ⟨rfl, rfl⟩ := Prod.mk.inj (Option.some_inj.mp h)
    rfl

/-- Only the first character counts. -/
theorem parseKindEscape_append {s : List Char} (hs : s ≠ []) :
    parseKindEscape (s ++ [c]) = (parseKindEscape s).map fun r ↦ (r.1, r.2 ++ [c]) := by
  obtain ⟨d, s, rfl⟩ := List.exists_cons_of_ne_nil hs
  conv_rhs => unfold parseKindEscape
  split
  case h_7 =>
    rw [List.cons_append, parseKindEscape]
    all_goals simp_all
  all_goals simp_all [parseKindEscape]

/-- What `s` does not begin with, `s` with `c` behind it does not either. -/
theorem append_ne_cons {d : Char} {s : List Char} (hd : c ≠ d) (h : ∀ t, s ≠ d :: t)
    (t : List Char) : s ++ [c] ≠ d :: t := by
  cases s with
  | nil => exact fun he ↦ hd (List.cons.inj he).1
  | cons e s => exact fun he ↦ h s (congrArg (· :: s) (List.cons.inj he).1)

theorem Inert.ne (hc : Inert c) {d : Char} (hd : d ∈ syntaxChars ++ [':', '=', '!']) : c ≠ d := by
  rintro rfl
  exact (List.mem_append.mp hd).elim hc.plain hc.mark

theorem kept_parseClassAtom (hc : Inert c) : Kept c parseClassAtom := by
  intro s a rest h
  unfold parseClassAtom at h
  split at h
  case h_1 =>
    obtain ⟨rfl, rfl⟩ := Prod.mk.inj (Option.some_inj.mp h)
    rfl
  case h_2 s hb =>
    have hs : s ≠ [] := by
      rintro rfl
      cases h
    obtain ⟨d, s, rfl⟩ := List.exists_cons_of_ne_nil hs
    have hb' : ∀ t, d :: s ++ [c] = 'b' :: t → False := fun t he ↦
      hb s (congrArg (· :: s) (List.cons.inj he).1)
    rw [List.cons_append, parseClassAtom.eq_2 _ hb', parseKindEscape_append hs]
    cases hk : parseKindEscape (d :: s) with
    | some r =>
      rw [hk] at h
      obtain rfl := Option.some_inj.mp h
      rfl
    | none =>
      rw [hk] at h
      obtain ⟨r, hr, h⟩ := Option.map_eq_some_iff.mp h
      obtain ⟨rfl, rfl⟩ := Prod.mk.inj h
      rw [kept_parseCharEscape hc _ _ _ hr]
      rfl
  case h_3 s =>
    split at h
    · next s' hdrop =>
      obtain ⟨k, hk, h⟩ := Option.map_eq_some_iff.mp h
      obtain ⟨rfl, rfl⟩ := Prod.mk.inj h
      have hne : s.dropWhile (fun x ↦ decide (x ≠ ':')) ≠ [] := by
        rw [hdrop]
        exact List.cons_ne_nil _ _
      obtain ⟨htake', hdrop'⟩ := takeWhile_append_of_ne_nil hne [c]
      rw [List.cons_append, List.cons_append, parseClassAtom, hdrop', htake', hdrop]
      rw [List.cons_append, List.cons_append, hk]
      rfl
    · cases h
  case h_4 | h_5 =>
    split at h
    · obtain ⟨rfl, rfl⟩ := Prod.mk.inj (Option.some_inj.mp h)
      rfl
    · cases h
  case h_6 d s _ hback hcolon hdot hequals =>
    obtain ⟨rfl, rfl⟩ := Prod.mk.inj (Option.some_inj.mp h)
    have hnext : ∀ e, c ≠ e → (∀ t, d = '[' → s ≠ e :: t) → ∀ t, d = '[' → s ++ [c] ≠ e :: t :=
      fun e he hs t hd ↦ append_ne_cons he (fun t ↦ hs t hd) t
    rw [List.cons_append, parseClassAtom]
    · exact fun t hd ↦ (hback hd).elim
    · exact hback
    · exact hnext ':' (hc.ne (by decide)) hcolon
    · exact hnext '.' (hc.ne (by decide)) hdot
    · exact hnext '=' (hc.ne (by decide)) hequals
  case h_7 => cases h

theorem parseClass_nil (n : ℕ) : parseClass n [] = none := by
  cases n <;> rfl

theorem parseClass_append (hc : Inert c) {n : ℕ} {s rest : List Char} {is : List ClassItem}
    (h : parseClass n s = some (is, rest)) :
    parseClass (n + 1) (s ++ [c]) = some (is, rest ++ [c]) := by
  have hclose : c ≠ ']' := hc.ne (by decide)
  induction n generalizing s is rest with
  | zero => cases h
  | succ n ih =>
    unfold parseClass at h
    split at h
    · cases h
    · obtain ⟨rfl, rfl⟩ := Prod.mk.inj (Option.some_inj.mp h)
      rfl
    · next m hm hs =>
      obtain rfl := Nat.succ.inj hm
      obtain ⟨⟨a, s₁⟩, ha, h⟩ := Option.bind_eq_some_iff.mp h
      have hatom := kept_parseClassAtom hc _ _ _ ha
      rw [parseClass, hatom, Option.bind_eq_bind, Option.bind_some]
      · dsimp only at h ⊢
        split at h
        · obtain ⟨rfl, rfl⟩ := Prod.mk.inj (Option.some_inj.mp h)
          rfl
        · next s₂ hs₂ =>
          obtain ⟨⟨b, s₃⟩, hb, h⟩ := Option.bind_eq_some_iff.mp h
          obtain ⟨r, hr, h⟩ := Option.bind_eq_some_iff.mp h
          obtain ⟨⟨rs, s₄⟩, hrs, h⟩ := Option.bind_eq_some_iff.mp h
          obtain ⟨rfl, rfl⟩ := Prod.mk.inj (Option.some_inj.mp h)
          split
          · next he => exact absurd (List.cons.inj he).2 (append_ne_cons hclose hs₂ _)
          · next s' _ he =>
            have hs' : s₂ ++ [c] = s' := (List.cons.inj he).2
            rw [← hs', kept_parseClassAtom hc _ _ _ hb]
            simp [hr, ih hrs]
          · next hno => exact absurd rfl (hno _)
        · next hno =>
          obtain ⟨⟨rs, s₄⟩, hrs, h⟩ := Option.bind_eq_some_iff.mp h
          obtain ⟨rfl, rfl⟩ := Prod.mk.inj (Option.some_inj.mp h)
          have hne : s₁ ≠ [] := by
            rintro rfl
            cases (parseClass_nil n).symm.trans hrs
          obtain ⟨d, s₂, rfl⟩ := List.exists_cons_of_ne_nil hne
          have hdash : ∀ t, d :: s₂ ++ [c] ≠ '-' :: t := fun t he ↦
            hno s₂ (congrArg (· :: s₂) (List.cons.inj he).1)
          split
          · next he => exact absurd he (hdash _)
          · next he => exact absurd he (hdash _)
          · rw [ih hrs]
            rfl
      · exact fun t ↦ append_ne_cons hclose hs t

/-- The length of the longer text is one larger as well. -/
theorem parseClass_length_append (hc : Inert c) {s rest : List Char} {is : List ClassItem}
    (h : parseClass s.length s = some (is, rest)) :
    parseClass (s ++ [c]).length (s ++ [c]) = some (is, rest ++ [c]) := by
  rw [List.length_append]
  exact parseClass_append hc h

theorem kept_parseBounds (hc : Inert c) : Kept c parseBounds := by
  intro s a rest h
  unfold parseBounds at h
  split at h
  case h_4 s =>
    obtain ⟨⟨lo, s₁⟩, hlo, h⟩ := Option.bind_eq_some_iff.mp h
    rw [List.cons_append, parseBounds, kept_parseNat hc _ _ _ hlo, Option.bind_eq_bind,
      Option.bind_some]
    dsimp only at h ⊢
    split at h
    · obtain ⟨rfl, rfl⟩ := Prod.mk.inj (Option.some_inj.mp h)
      rfl
    · obtain ⟨rfl, rfl⟩ := Prod.mk.inj (Option.some_inj.mp h)
      rfl
    · next s₂ hclose =>
      obtain ⟨⟨hi, s₃⟩, hhi, h⟩ := Option.bind_eq_some_iff.mp h
      split
      · next he => cases he
      · next t he =>
        have hclose' : s₂ ++ [c] ≠ '}' :: t := append_ne_cons (hc.ne (by decide)) hclose t
        exact absurd (List.cons.inj he).2 hclose'
      · next t _ he =>
        obtain rfl : s₂ ++ [c] = t := (List.cons.inj he).2
        rw [kept_parseNat hc _ _ _ hhi, Option.bind_some]
        dsimp only at h ⊢
        split at h
        · obtain ⟨hle, h⟩ := Option.ite_none_right_eq_some.mp h
          obtain ⟨rfl, rfl⟩ := Prod.mk.inj (Option.some_inj.mp h)
          exact if_pos hle
        · cases h
      · next hno => exact absurd rfl (hno _)
    · cases h
  case h_5 hstar hplus hopt hopen =>
    -- no quantifier begins here, and `c` begins none
    obtain ⟨rfl, rfl⟩ := Prod.mk.inj (Option.some_inj.mp h)
    rw [parseBounds]
    · exact append_ne_cons (hc.ne (by decide)) hstar
    · exact append_ne_cons (hc.ne (by decide)) hplus
    · exact append_ne_cons (hc.ne (by decide)) hopt
    · exact append_ne_cons (hc.ne (by decide)) hopen
  all_goals
    obtain ⟨rfl, rfl⟩ := Prod.mk.inj (Option.some_inj.mp h)
    rfl

/-! ## The grammar -/

theorem quantified_append (hc : Inert c) {a b : Re} {s rest : List Char} {k k' : ℕ}
    (h : quantified a s k = some (b, rest, k')) :
    quantified a (s ++ [c]) k = some (b, rest ++ [c], k') := by
  unfold quantified at h
  split at h
  · cases h
  · next s₁ hs =>
    cases h
    rw [quantified, kept_parseBounds hc _ _ _ hs]
  · next bounds s₁ hs =>
    cases h
    rw [quantified, kept_parseBounds hc _ _ _ hs]
    rfl
  · next bounds s₁ hgreedy hs =>
    cases h
    -- `c` is not the `?` that would make it lazy
    have hgreedy' : ∀ t, rest ++ [c] ≠ '?' :: t := append_ne_cons (hc.ne (by decide)) hgreedy
    rw [quantified, kept_parseBounds hc _ _ _ hs]
    split
    · next he => cases he
    · next he => cases he
    · next he => exact absurd (Prod.mk.inj (Option.some_inj.mp he)).2 (hgreedy' _)
    · next he =>
      cases he
      rfl

theorem kept_parseAtomEscape (hc : Inert c) : Kept c parseAtomEscape := by
  intro s a rest h
  have hs : s ≠ [] := by
    rintro rfl
    cases h
  rw [parseAtomEscape, parseNat_append hc, parseKindEscape_append hs]
  unfold parseAtomEscape at h
  split at h
  · next i s₁ hi =>
    cases h
    rw [hi]
    rfl
  · next hno =>
    split
    · next i s₁ hi =>
      obtain ⟨⟨j, s₂⟩, hj, he⟩ := Option.map_eq_some_iff.mp hi
      obtain rfl : j = i + 1 := (Prod.mk.inj he).1
      exact absurd hj (hno i s₂)
    · cases hk : parseKindEscape s with
      | some r =>
        rw [hk] at h
        cases h
        rfl
      | none =>
        rw [hk] at h
        obtain ⟨r, hr, h⟩ := Option.map_eq_some_iff.mp h
        cases h
        rw [kept_parseCharEscape hc _ _ _ hr]
        rfl

/-- What is left is `rest`, so with `c` behind the text the parser leaves `c` as well. -/
def Extending (c : Char) (disj disj' : Parser) : Prop :=
  ∀ s k a d rest k', disj s k = some (a, d :: rest, k') →
    disj' (s ++ [c]) k = some (a, d :: rest ++ [c], k')

theorem closed_append {disj disj' : Parser} (h : Extending c disj disj') {s rest : List Char}
    {k k' : ℕ} {a : Re} (ha : closed disj s k = some (a, rest, k')) :
    closed disj' (s ++ [c]) k = some (a, rest ++ [c], k') := by
  unfold closed at ha
  split at ha
  · next hs =>
    cases ha
    rw [closed, h _ _ _ _ _ _ hs]
    rfl
  · cases ha

theorem append_ne_cons_cons {d e : Char} {s : List Char} (he : c ≠ e) (h : ∀ t, s ≠ d :: e :: t)
    (t : List Char) : s ++ [c] ≠ d :: e :: t := by
  cases s with
  | nil => exact fun h' ↦ List.cons_ne_nil _ _ (List.cons.inj h').2.symm
  | cons x s =>
    intro h'
    obtain ⟨rfl, htail⟩ := List.cons.inj h'
    exact append_ne_cons he (fun t ht ↦ h t (congrArg (x :: ·) ht)) t htail

theorem parseTerm_append (hc : Inert c) {disj disj' : Parser} (hdisj : Extending c disj disj')
    {s rest : List Char} {k k' : ℕ} {a : Re} (h : parseTerm disj s k = some (a, rest, k')) :
    parseTerm disj' (s ++ [c]) k = some (a, rest ++ [c], k') := by
  unfold parseTerm at h
  split at h
  case h_5 s hb hB =>
    obtain ⟨r, hr, hquantified⟩ := Option.bind_eq_some_iff.mp h
    have hs : s ≠ [] := by
      rintro rfl
      cases hr
    obtain ⟨d, s, rfl⟩ := List.exists_cons_of_ne_nil hs
    rw [List.cons_append, parseTerm, kept_parseAtomEscape hc _ _ _ hr, Option.bind_some]
    · exact quantified_append hc hquantified
    · exact fun t he ↦ hb s (congrArg (· :: s) (List.cons.inj he).1)
    · exact fun t he ↦ hB s (congrArg (· :: s) (List.cons.inj he).1)
  case h_6 | h_7 =>
    obtain ⟨⟨b, s₁, k₁⟩, hr, h⟩ := Option.map_eq_some_iff.mp h
    cases h
    simp only [List.cons_append, parseTerm, closed_append hdisj hr, Option.map_some]
  case h_8 =>
    obtain ⟨⟨b, s₁, k₁⟩, hr, h⟩ := Option.bind_eq_some_iff.mp h
    simp only [List.cons_append, parseTerm, closed_append hdisj hr, Option.bind_some]
    exact quantified_append hc h
  case h_9 s heq hne hcolon =>
    obtain ⟨⟨b, s₁, k₁⟩, hr, h⟩ := Option.bind_eq_some_iff.mp h
    rw [List.cons_append, parseTerm, closed_append hdisj hr, Option.bind_some]
    · exact quantified_append hc h
    · exact append_ne_cons_cons (hc.ne (by decide)) heq
    · exact append_ne_cons_cons (hc.ne (by decide)) hne
    · exact append_ne_cons_cons (hc.ne (by decide)) hcolon
  case h_10 => exact quantified_append hc h
  case h_11 s =>
    obtain ⟨⟨is, s₁⟩, hr, h⟩ := Option.bind_eq_some_iff.mp h
    simp only [List.cons_append, parseTerm, parseClass_length_append hc hr, Option.bind_some]
    exact quantified_append hc h
  case h_12 s hneg =>
    obtain ⟨⟨is, s₁⟩, hr, h⟩ := Option.bind_eq_some_iff.mp h
    rw [List.cons_append, parseTerm, parseClass_length_append hc hr, Option.bind_some]
    · exact quantified_append hc h
    · exact append_ne_cons (hc.ne (by decide)) hneg
  case h_13 d s _ _ _ _ _ _ _ _ _ _ _ _ =>
    obtain ⟨hd, h⟩ := Option.ite_none_left_eq_some.mp h
    exact (parseTerm_single hd).trans (quantified_append hc h)
  case h_14 => cases h
  all_goals
    cases h
    rfl

/-! ## The last alternative

The list of terms of an alternative ends with `Re.empty`, and the character goes in front of that.
Only the last alternative is concerned, because the bars between alternatives are in the text before
the character. -/

namespace Re

/-- The character as one more term. -/
def snoc (c : Char) : Re → Re
  | .empty => .seq (.set (.single c)) .empty
  | .seq a b => .seq a (b.snoc c)
  | r => .seq r (.seq (.set (.single c)) .empty)

/-- The character as one more term of the last alternative. -/
def snocLast (c : Char) : Re → Re
  | .alt a b => .alt a (b.snocLast c)
  | r => r.snoc c

/-- The expression matches here, and in its last alternative the match is followed by the
character. -/
def FollowedBy (c : Char) : Re → Cursor → Prop
  | .alt a b, s => a.run s ≠ [] ∨ b.FollowedBy c s
  | r, s => ∃ t ∈ r.run s, t.rest.head? = some c

theorem run_single (s : Cursor) :
    (Re.set (.single c)).run s = if s.rest.head? = some c then [s.advance 1] else [] := by
  cases h : s.rest with
  | nil => exact run_set_nil h
  | cons d cs =>
    rw [run_set_cons h]
    exact if_congr (CharSet.mem_single.trans (by simp)) rfl rfl

theorem run_snoc (r : Re) (s : Cursor) :
    (r.snoc c).run s = (r.run s).flatMap (Re.set (.single c)).run := by
  have hlast : ∀ t, (Re.seq (.set (.single c)) .empty).run t = (Re.set (.single c)).run t :=
    fun t ↦ List.flatMap_singleton' _
  induction r generalizing s with
  | empty => exact (hlast s).trans (List.flatMap_singleton _ s).symm
  | seq a b _ ihb =>
    rw [snoc, run, run, List.flatMap_assoc]
    exact List.flatMap_congr fun t _ ↦ ihb t
  | set | alt | group | ref | bol | eol | word | look | rep =>
    exact List.flatMap_congr fun t _ ↦ hlast t

theorem refsLe_snoc (k : ℕ) (r : Re) : (r.snoc c).refsLe k = r.refsLe k := by
  induction r with
  | seq a b _ ihb => rw [snoc, refsLe, ihb, refsLe]
  | empty => rfl
  | set | alt | group | ref | bol | eol | word | look | rep => exact Bool.and_true _

theorem refsLe_snocLast (k : ℕ) (r : Re) : (r.snocLast c).refsLe k = r.refsLe k := by
  induction r with
  | alt a b _ ihb => rw [snocLast, refsLe, ihb, refsLe]
  | empty | set | seq | group | ref | bol | eol | word | look | rep => exact refsLe_snoc k _

/-- **Where the longer expression matches.** -/
theorem run_snocLast_ne_nil {r : Re} {s : Cursor} :
    (r.snocLast c).run s ≠ [] ↔ r.FollowedBy c s := by
  have hsnoc : ∀ r : Re, (r.snoc c).run s ≠ [] ↔ ∃ t ∈ r.run s, t.rest.head? = some c := by
    intro r
    simp only [run_snoc, run_single, ne_eq, List.flatMap_eq_nil_iff, ite_eq_right_iff,
      List.cons_ne_nil, not_forall, exists_prop, imp_false, not_not]
  induction r with
  | alt a b _ ihb =>
    rw [FollowedBy, ← or_congr_right ihb, ← not_and_or, ← List.append_eq_nil_iff]
    rfl
  | empty | set | seq | group | ref | bol | eol | word | look | rep => exact hsnoc _

theorem FollowedBy.run_ne_nil {r : Re} {s : Cursor} (h : r.FollowedBy c s) : r.run s ≠ [] := by
  have hother : ∀ {r : Re}, (∃ t ∈ r.run s, t.rest.head? = some c) → r.run s ≠ [] :=
    fun ⟨t, ht, _⟩ ↦ List.ne_nil_of_mem ht
  induction r with
  | alt a b _ ihb =>
    rcases h with h | h
    · exact List.append_ne_nil_of_left_ne_nil h _
    · exact List.append_ne_nil_of_right_ne_nil _ (ihb h)
  | empty | set | seq | group | ref | bol | eol | word | look | rep => exact hother h

end Re

/-- What becomes of a result: the character is left as well, or it is one more term. -/
def appended (c : Char) : Re × List Char × ℕ → Re × List Char × ℕ
  | (a, [], k) => (a.snocLast c, [], k)
  | (a, d :: rest, k) => (a, d :: rest ++ [c], k)

/-- An alternative is not a list of alternatives. -/
theorem snocLast_parseAlt {disj : Parser} {m : ℕ} {s : List Char} {k : ℕ} {r : Re × List Char × ℕ}
    (h : parseAlt disj m s k = some r) : r.1.snocLast c = r.1.snoc c := by
  unfold parseAlt at h
  split at h
  · cases h
  · cases h
    rfl
  · cases h
    rfl
  · cases h
    rfl
  · obtain ⟨t, -, h⟩ := Option.bind_eq_some_iff.mp h
    obtain ⟨r', -, rfl⟩ := Option.map_eq_some_iff.mp h
    rfl

theorem parseAlt_append (hc : Inert c) {disj disj' : Parser} (hdisj : Extending c disj disj')
    {m : ℕ} {s : List Char} {k : ℕ} {r : Re × List Char × ℕ} (h : parseAlt disj m s k = some r) :
    parseAlt disj' (m + 1) (s ++ [c]) k = some (appended c r) := by
  have hbar : c ≠ '|' := hc.ne (by decide)
  have hclose : c ≠ ')' := hc.ne (by decide)
  induction m generalizing s k r with
  | zero => cases h
  | succ m ih =>
    unfold parseAlt at h
    split at h
    · cases h
    · -- the text ends here, and `c` is one more term
      cases h
      have hterm : ∀ k, parseTerm disj' [c] k = some (.set (.single c), [], k) :=
        fun _ ↦ parseTerm_single hc.plain
      rw [List.nil_append, parseAlt, hterm]
      · rfl
      · exact List.cons_ne_nil c []
      · exact fun t he ↦ hbar (List.cons.inj he).1
      · exact fun t he ↦ hclose (List.cons.inj he).1
    · cases h
      rfl
    · cases h
      rfl
    · next n hn hnil hno hno' =>
      obtain rfl := Nat.succ.inj hn
      obtain ⟨⟨t, s₁, k₁⟩, ht, h⟩ := Option.bind_eq_some_iff.mp h
      obtain ⟨⟨a, rest, k₂⟩, ha, rfl⟩ := Option.map_eq_some_iff.mp h
      rw [parseAlt, parseTerm_append hc hdisj ht, Option.bind_some, ih ha, Option.map_some]
      · cases rest with
        | nil =>
          rw [appended, snocLast_parseAlt ha]
          rfl
        | cons => rfl
      · exact fun h ↦ hnil (List.append_eq_nil_iff.mp h).1
      · exact append_ne_cons hbar hno
      · exact append_ne_cons hclose hno'

theorem parseDisj_append (hc : Inert c) {n : ℕ} {s : List Char} {k : ℕ}
    {r : Re × List Char × ℕ} (h : parseDisj n s k = some r) :
    parseDisj (n + 1) (s ++ [c]) k = some (appended c r) := by
  induction n generalizing s k r with
  | zero => cases h
  | succ n ih =>
    have hdisj : Extending c (parseDisj n) (parseDisj (n + 1)) := fun s k a d rest k' h ↦ ih h
    have hlen : (s ++ [c]).length + 1 = s.length + 1 + 1 := by
      rw [List.length_append]
      rfl
    rw [parseDisj] at h ⊢
    rw [hlen]
    split at h
    · next a s₁ k₁ hs =>
      obtain ⟨⟨b, rest, k₂⟩, hb, rfl⟩ := Option.map_eq_some_iff.mp h
      rw [parseAlt_append hc hdisj hs]
      change (parseDisj (n + 1) (s₁ ++ [c]) k₁).map _ = _
      rw [ih hb]
      cases rest <;> rfl
    · next hno =>
      rw [parseAlt_append hc hdisj h]
      obtain ⟨a, rest, k₁⟩ := r
      cases rest with
      | nil => rfl
      | cons d rest =>
        have hd : d ≠ '|' := by
          rintro rfl
          exact hno a rest k₁ h
        dsimp only [appended]
        split
        · next he =>
          obtain ⟨-, he⟩ := Prod.mk.inj (Option.some.inj he)
          exact absurd (List.cons.inj (Prod.mk.inj he).1).1 hd
        · rfl

/-- **The text with the character behind it compiles, to the expression with one more term.** -/
theorem compile_append (hc : Inert c) {s : List Char} {a : Re} {k : ℕ}
    (h : compile s = some ⟨a, k⟩) : compile (s ++ [c]) = some ⟨a.snocLast c, k⟩ := by
  unfold compile at h
  split at h
  · next a' k' hs =>
    obtain ⟨hrefs, h⟩ := Option.ite_none_right_eq_some.mp h
    cases h
    have hlen : (s ++ [c]).length + 1 = s.length + 1 + 1 := by
      rw [List.length_append]
      rfl
    rw [compile, hlen, parseDisj_append hc hs]
    exact if_pos ((Re.refsLe_snocLast k a).trans hrefs)
  · cases h

end Regex
