import Mathlib.Data.Int.CardIntervalMod
import Mathlib.Data.List.Range

/-!
# Taking turns

A counter goes up by one with each turn, and modulo the number `n` of participants it says whose
turn it is.  `turns n c k` is the list of those whose turn it is, for `k` turns in a row from the
counter `c` on.

However the turns lie, everybody gets `k / n` of them, rounded down or up (`count_turns`).  Nobody
starts at the beginning of a round: `c` is arbitrary, and the last round may be broken off anywhere,
so that both ends of the window have to be taken into account.  The count does not go by rounds.  It
asks for the numbers `m < k` of the turns with `(c + m) % n = j`, which are those congruent to one
fixed residue modulo `n` (`mod_eq_iff_modEq`), and how many of these there are below `k` is
`Nat.count_modEq_card` of the library.  The two roundings are what this count can be: `k / n`, with
one more for the residues that the remainder reaches.

A list of turns is extended at its end by the turns that follow (`turns_add`), which is how it grows
along a run.
-/

set_option autoImplicit false

namespace RoundRobin

variable {n : ℕ} (c k : ℕ)

/-- Whose turn it is, for `k` turns from `c` on. -/
def turns (n c k : ℕ) : List ℕ := (List.range k).map fun m ↦ (c + m) % n

/-- Some turns, and those that follow. -/
theorem turns_add (n l : ℕ) : turns n c (k + l) = turns n c k ++ turns n (c + k) l := by
  simp only [turns, List.range_add, List.map_append, List.map_map, Function.comp_def,
    Nat.add_assoc]

theorem lt_of_mem_turns (hn : 0 < n) {j : ℕ} (h : j ∈ turns n c k) : j < n := by
  obtain ⟨m, -, rfl⟩ := List.mem_map.mp h
  exact Nat.mod_lt _ hn

/-- It is the turn of `j` when the number of the turn is that of its first one, modulo `n`. -/
theorem mod_eq_iff_modEq {j : ℕ} (hj : j < n) (m : ℕ) :
    (c + m) % n = j ↔ m ≡ j + (n - c % n) [MOD n] := by
  have hn : 0 < n := Nat.zero_lt_of_lt hj
  have hround : c + (j + (n - c % n)) ≡ j [MOD n] := by
    have hsum : c + (j + (n - c % n)) = j + n * (c / n + 1) := by
      have hdiv := Nat.div_add_mod c n
      have hlt := Nat.mod_lt c hn
      rw [Nat.mul_add, Nat.mul_one]
      omega
    rw [hsum]
    exact Nat.add_modulus_mul_modEq_iff.mpr .rfl
  constructor
  · intro h
    have hmod : c + m ≡ j [MOD n] := by
      rw [Nat.ModEq, h, Nat.mod_eq_of_lt hj]
    exact .add_left_cancel' c (hmod.trans hround.symm)
  · intro h
    have hmod : c + m ≡ j [MOD n] := (h.add_left c).trans hround
    rw [Nat.ModEq, Nat.mod_eq_of_lt hj] at hmod
    exact hmod

/-- **Everybody gets the same number of turns**, but for those that are left over. -/
theorem count_turns {j : ℕ} (hj : j < n) :
    (turns n c k).count j = k / n ∨ (turns n c k).count j = (k + n - 1) / n := by
  have hn : 0 < n := Nat.zero_lt_of_lt hj
  have hcount : (turns n c k).count j = k.count (· ≡ j + (n - c % n) [MOD n]) := by
    rw [turns, List.count, List.countP_map, Nat.count]
    refine List.countP_congr fun m _ ↦ ?_
    simpa using mod_eq_iff_modEq c hj m
  rw [hcount, Nat.count_modEq_card k hn]
  split
  · next hlt =>
    -- the turns that are left over are `k % n` of the `n - 1` that fill up the last round
    refine .inr ?_
    have hdiv := Nat.div_add_mod k n
    have hmod := Nat.mod_lt k hn
    have hsum : k + n - 1 = n * (k / n + 1) + (k % n - 1) := by
      rw [Nat.mul_add, Nat.mul_one]
      omega
    have hrest : (k % n - 1) / n = 0 := Nat.div_eq_of_lt (by omega)
    rw [hsum, Nat.mul_add_div hn, hrest, Nat.add_zero]
  · exact .inl (Nat.add_zero _)

end RoundRobin
