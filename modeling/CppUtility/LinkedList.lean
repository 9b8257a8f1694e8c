import Mathlib.Data.List.Nodup
import Mathlib.Logic.Function.Basic

/-!
# Singly linked lists on a heap

A heap is a partial function from addresses to nodes, and `next` reads the link of a node, `none`
for a null pointer.  Nothing is assumed of nodes and addresses, so that a node may carry anything
beside its link, and `next` may be a field or computed.

`Links next heap p es q` says that following the links from `p` visits the nodes of `es`, each at
its address, and then arrives at `q`.  A segment that ends anywhere is as good as a whole list, for
which `q` is `none`; that is what makes `links_append` an equivalence and not only a rule.

* **The end.**  Lists are built at their end, and an induction from the front would have to go
  through all of a list to get there.  `links_concat` takes the last node off instead.
* **Frame rules.**  `Links.congr` is for writes elsewhere, and `Links.modify` for writes to the
  nodes that leave their links alone.  Both are about a list as a whole.
* **Append.**  `Links.push` is the one operation: the new node is written to a free address, and
  then the last node is written anew with a link to it.  It needs that the addresses of a list are
  distinct, or the second write could change two nodes; `Links.nodup_push` says that they stay so.
-/

set_option autoImplicit false

namespace LinkedList

variable {α N : Type*} {next : N → Option α} {heap heap' : α → Option N} {p q : Option α}
  {es fs : List (α × N)}

/-- The links from `p` go through the nodes `es` to `q`. -/
def Links (next : N → Option α) (heap : α → Option N) :
    Option α → List (α × N) → Option α → Prop
  | p, [], q => p = q
  | p, e :: es, q => p = some e.1 ∧ heap e.1 = some e.2 ∧ Links next heap (next e.2) es q

theorem links_append : Links next heap p (es ++ fs) q ↔
    ∃ m, Links next heap p es m ∧ Links next heap m fs q := by
  induction es generalizing p with
  | nil => simp [Links]
  | cons e es ih =>
    simp only [List.cons_append, Links, ih]
    constructor
    · rintro ⟨hp, he, m, h1, h2⟩
      exact ⟨m, ⟨hp, he, h1⟩, h2⟩
    · rintro ⟨m, ⟨hp, he, h1⟩, h2⟩
      exact ⟨hp, he, m, h1, h2⟩

/-- The last node. -/
theorem links_concat {e : α × N} : Links next heap p (es ++ [e]) q ↔
    Links next heap p es (some e.1) ∧ heap e.1 = some e.2 ∧ next e.2 = q := by
  rw [links_append]
  constructor
  · rintro ⟨m, h, rfl, he, hq⟩
    exact ⟨h, he, hq⟩
  · rintro ⟨h, he, hq⟩
    exact ⟨_, h, rfl, he, hq⟩

/-- The nodes are on the heap. -/
theorem Links.heap_eq (h : Links next heap p es q) : ∀ e ∈ es, heap e.1 = some e.2 := by
  induction es generalizing p with
  | nil => exact List.forall_mem_nil _
  | cons e es ih => exact List.forall_mem_cons.mpr ⟨h.2.1, ih h.2.2⟩

/-- A free address is not that of a node. -/
theorem Links.ne_of_free (h : Links next heap p es q) {a : α} (ha : heap a = none) :
    ∀ e ∈ es, e.1 ≠ a := by
  rintro e he rfl
  rw [h.heap_eq e he] at ha
  cases ha

/-- Writes elsewhere. -/
theorem Links.congr (h : Links next heap p es q) (heq : ∀ e ∈ es, heap' e.1 = heap e.1) :
    Links next heap' p es q := by
  induction es generalizing p with
  | nil => exact h
  | cons e es ih =>
    obtain ⟨he, hes⟩ := List.forall_mem_cons.mp heq
    exact ⟨h.1, he.trans h.2.1, ih h.2.2 hes⟩

/-- Writes to the nodes that do not touch the links. -/
theorem Links.modify (h : Links next heap p es q) {f : α → N → N}
    (hf : ∀ a x, next (f a x) = next x)
    (heq : ∀ e ∈ es, heap' e.1 = (heap e.1).map (f e.1)) :
    Links next heap' p (es.map fun e ↦ (e.1, f e.1 e.2)) q := by
  induction es generalizing p with
  | nil => exact h
  | cons e es ih =>
    obtain ⟨he, hes⟩ := List.forall_mem_cons.mp heq
    refine ⟨h.1, by rw [he, h.2.1]; rfl, ?_⟩
    rw [hf]
    exact ih h.2.2 hes

section Push

variable {e : α × N} {a : α} {x y : N}

/-- The addresses stay distinct. -/
theorem Links.nodup_push (h : Links next heap p (es ++ [e]) q)
    (hnodup : ((es ++ [e]).map Prod.fst).Nodup) (ha : heap a = none) :
    ((es ++ [(e.1, y)] ++ [(a, x)]).map Prod.fst).Nodup := by
  have hmap : (es ++ [(e.1, y)] ++ [(a, x)]).map Prod.fst
      = (es ++ [e]).map Prod.fst ++ [a] := by simp
  rw [hmap, List.nodup_append]
  refine ⟨hnodup, List.nodup_singleton _, fun b hb c hc ↦ ?_⟩
  obtain ⟨e', he', rfl⟩ := List.mem_map.mp hb
  rw [List.mem_singleton.mp hc]
  exact h.ne_of_free ha e' he'

variable [DecidableEq α]

/-- The heap after a push: elsewhere, at the last node, at the new one. -/
theorem push_apply (b : α) :
    Function.update (Function.update heap a (some x)) e.1 (some y) b =
      if b = e.1 then some y else if b = a then some x else heap b := by
  by_cases hbe : b = e.1
  · rw [hbe, Function.update_self, if_pos rfl]
  · rw [Function.update_of_ne hbe, if_neg hbe]
    by_cases hba : b = a
    · rw [hba, Function.update_self, if_pos rfl]
    · rw [Function.update_of_ne hba, if_neg hba]

/-- **A node is appended.** -/
theorem Links.push (h : Links next heap p (es ++ [e]) none)
    (hnodup : ((es ++ [e]).map Prod.fst).Nodup) (ha : heap a = none) (hy : next y = some a)
    (hx : next x = none) :
    Links next (Function.update (Function.update heap a (some x)) e.1 (some y)) p
      (es ++ [(e.1, y)] ++ [(a, x)]) none := by
  have hne := h.ne_of_free ha
  have hea := hne e (List.mem_append_right _ (List.mem_singleton_self e))
  rw [List.map_append, List.nodup_append] at hnodup
  refine links_concat.mpr ⟨links_concat.mpr ⟨?_, ?_, hy⟩, ?_, hx⟩
  · refine (links_concat.mp h).1.congr fun e' he' ↦ ?_
    have hfresh := hnodup.2.2 _ (List.mem_map_of_mem he') _ (List.mem_singleton_self e.1)
    rw [push_apply, if_neg hfresh, if_neg (hne e' (List.mem_append_left _ he'))]
  · rw [push_apply, if_pos rfl]
  · rw [push_apply, if_neg hea.symm, if_pos rfl]

end Push

end LinkedList
