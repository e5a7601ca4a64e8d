import EditGate.Rule.Book
import Mathlib.Data.List.Sort

/-!
# The order in which rules are visited

A book has its rules in order of insertion. Evaluation visits them by falling priority, and rules
of one priority in the order in which they were inserted. Two rules of a book may be the same, so
the order is said of rules with their places (`Before`). At most one list has given rules in this
order (`InOrder.unique`), and evaluation goes through the one that has the enabled rules of the book
(`inOrder_visited`, `map_fst_visited`). Leaving rules out of a book leaves the order of the others
as it is (`byPriority_filter`).
-/

namespace EditGate.RuleBook

/-! ## Rules with their places -/

/-- A rule with its place in the book. -/
abbrev Placed := ParsedRule × Nat

/-- One rule comes before another: it has the higher priority, or it has the same one and was
inserted earlier. -/
def Before (p q : Placed) : Prop :=
  q.1.rule.priority < p.1.rule.priority ∨ q.1.rule.priority = p.1.rule.priority ∧ p.2 < q.2

/-- A list has just the given rules, and each comes before those behind it. -/
structure InOrder (ps qs : List Placed) : Prop where
  perm : qs.Perm ps
  pairwise : qs.Pairwise Before

theorem Before.asymm {p q : Placed} (h : Before p q) : ¬Before q p := by
  rw [Before] at h ⊢
  omega

/-- The order leaves no choice. -/
theorem InOrder.unique {ps qs qs' : List Placed} (h : InOrder ps qs) (h' : InOrder ps qs') :
    qs' = qs := by
  refine List.Perm.eq_of_pairwise ?_ h'.pairwise h.pairwise (h'.perm.trans h.perm.symm)
  intro p q _ _ hpq hqp
  exact absurd hqp hpq.asymm

/-- The enabled rules of a book with their places. -/
def enabled (b : RuleBook) : List Placed := b.entries.zipIdx.filter (·.1.rule.enabled)

/-! ## Sorting by priority -/

/-- A rule has at least the priority of another. -/
def AtLeast (p q : ParsedRule) : Prop := q.rule.priority ≤ p.rule.priority

instance : DecidableRel AtLeast :=
  fun p q => inferInstanceAs (Decidable (q.rule.priority ≤ p.rule.priority))

instance : Std.Total AtLeast := ⟨fun p q => Int.le_total q.rule.priority p.rule.priority⟩

instance : IsTrans ParsedRule AtLeast := ⟨fun _ _ _ h h' => Int.le_trans h' h⟩

theorem insertByPriority_eq (p : ParsedRule) (qs : List ParsedRule) :
    insertByPriority p qs = qs.orderedInsert AtLeast p := by
  induction qs with
  | nil => rfl
  | cons q qs ih =>
    rw [insertByPriority, List.orderedInsert_cons, ih]
    by_cases h : AtLeast p q
    · rw [if_pos h, if_neg (Int.not_lt.mpr h)]
    · rw [if_neg h, if_pos (Int.not_le.mp h)]

theorem byPriority_eq (b : RuleBook) : b.byPriority = b.entries.insertionSort AtLeast := by
  rw [byPriority, List.insertionSort]
  congr 1
  funext p qs
  exact insertByPriority_eq p qs

/-! ## Rules of one priority stay in order -/

/-- A rule with its place has at least the priority of another. -/
def PlacedAtLeast (p q : Placed) : Prop := AtLeast p.1 q.1

instance : DecidableRel PlacedAtLeast := fun p q => inferInstanceAs (Decidable (AtLeast p.1 q.1))

/-- A rule that was inserted before others finds its place among them. -/
theorem pairwise_orderedInsert {p : Placed} {qs : List Placed} (h : qs.Pairwise Before)
    (hplace : ∀ q ∈ qs, p.2 < q.2) : (qs.orderedInsert PlacedAtLeast p).Pairwise Before := by
  induction qs with
  | nil => exact List.pairwise_singleton Before p
  | cons q qs ih =>
    obtain ⟨hq, hqs⟩ := List.pairwise_cons.mp h
    rw [List.orderedInsert_cons]
    split
    · rename_i hle
      refine List.pairwise_cons.mpr ⟨fun r hr => ?_, h⟩
      have hrq : r.1.rule.priority ≤ q.1.rule.priority := by
        rcases List.mem_cons.mp hr with rfl | hr
        · exact Int.le_refl _
        · exact (hq r hr).elim Int.le_of_lt fun h => h.1.le
      exact (Int.lt_or_eq_of_le (Int.le_trans hrq hle)).imp_right fun heq => ⟨heq, hplace r hr⟩
    · rename_i hlt
      refine List.pairwise_cons.mpr ⟨fun r hr => ?_, ih hqs fun r hr => hplace r (.tail q hr)⟩
      rcases (List.mem_orderedInsert PlacedAtLeast).mp hr with rfl | hr
      · exact .inl (Int.not_le.mp hlt)
      · exact hq r hr

/-- Sorting by priority keeps rules of one priority in the order of their places. -/
theorem pairwise_insertionSort {ps : List Placed} (h : ps.Pairwise (·.2 < ·.2)) :
    (ps.insertionSort PlacedAtLeast).Pairwise Before := by
  induction ps with
  | nil => exact List.Pairwise.nil
  | cons p ps ih =>
    obtain ⟨hp, hps⟩ := List.pairwise_cons.mp h
    rw [List.insertionSort_cons]
    exact pairwise_orderedInsert (ih hps) fun q hq =>
      hp q ((List.mem_insertionSort PlacedAtLeast).mp hq)

theorem pairwise_zipIdx (ps : List ParsedRule) (n : Nat) : (ps.zipIdx n).Pairwise (·.2 < ·.2) := by
  induction ps generalizing n with
  | nil => exact List.Pairwise.nil
  | cons p ps ih =>
    rw [List.zipIdx_cons]
    refine List.pairwise_cons.mpr ⟨fun q hq => ?_, ih (n + 1)⟩
    exact (List.mem_zipIdx hq).1

/-- The enabled rules of a book as evaluation visits them. -/
def visited (b : RuleBook) : List Placed :=
  (b.entries.zipIdx.insertionSort PlacedAtLeast).filter (·.1.rule.enabled)

theorem inOrder_visited (b : RuleBook) : InOrder b.enabled b.visited where
  perm := (List.perm_insertionSort PlacedAtLeast _).filter _
  pairwise := (pairwise_insertionSort (pairwise_zipIdx b.entries 0)).filter _

theorem map_fst_insertionSort (ps : List Placed) :
    (ps.insertionSort PlacedAtLeast).map Prod.fst = (ps.map Prod.fst).insertionSort AtLeast :=
  List.map_insertionSort PlacedAtLeast AtLeast Prod.fst ps fun _ _ _ _ => Iff.rfl

theorem map_fst_visited (b : RuleBook) :
    b.visited.map Prod.fst = b.byPriority.filter (·.rule.enabled) := by
  have hsort : (b.entries.zipIdx.insertionSort PlacedAtLeast).map Prod.fst = b.byPriority := by
    rw [map_fst_insertionSort, List.zipIdx_map_fst, byPriority_eq]
  rw [← hsort, List.filter_map]
  rfl

/-! ## Leaving rules out -/

variable {keep : ParsedRule → Bool}

theorem orderedInsert_of_forall {p : ParsedRule} {qs : List ParsedRule}
    (h : ∀ q ∈ qs, AtLeast p q) : qs.orderedInsert AtLeast p = p :: qs := by
  cases qs with
  | nil => rfl
  | cons q qs => exact List.orderedInsert_cons_of_le AtLeast qs (h q List.mem_cons_self)

theorem filter_orderedInsert (p : ParsedRule) {qs : List ParsedRule} (h : qs.Pairwise AtLeast) :
    (qs.orderedInsert AtLeast p).filter keep =
      if keep p then (qs.filter keep).orderedInsert AtLeast p else qs.filter keep := by
  induction qs with
  | nil => exact List.filter_cons
  | cons q qs ih =>
    obtain ⟨hq, hqs⟩ := List.pairwise_cons.mp h
    by_cases hle : AtLeast p q
    · -- the rule stands first, also among those that are kept
      have hall : ∀ r ∈ (q :: qs).filter keep, AtLeast p r := by
        intro r hr
        rcases List.mem_cons.mp (List.mem_filter.mp hr).1 with rfl | hr
        · exact hle
        · exact Int.le_trans (hq r hr) hle
      rw [List.orderedInsert_cons_of_le AtLeast qs hle, List.filter_cons,
        orderedInsert_of_forall hall]
    · rw [List.orderedInsert_of_not_le AtLeast qs hle, List.filter_cons, ih hqs, List.filter_cons]
      by_cases hkeep : keep q
      · rw [if_pos hkeep, if_pos hkeep, List.orderedInsert_of_not_le AtLeast _ hle]
        split <;> rfl
      · rw [if_neg hkeep, if_neg hkeep]

theorem filter_insertionSort (ps : List ParsedRule) :
    (ps.insertionSort AtLeast).filter keep = (ps.filter keep).insertionSort AtLeast := by
  induction ps with
  | nil => rfl
  | cons p ps ih =>
    rw [List.insertionSort_cons, filter_orderedInsert p (List.pairwise_insertionSort AtLeast ps), ih,
      List.filter_cons]
    split
    · rw [List.insertionSort_cons]
    · rfl

/-- A book without some of its rules visits the others in the same order. -/
theorem byPriority_filter (b : RuleBook) :
    { b with entries := b.entries.filter keep }.byPriority = b.byPriority.filter keep := by
  rw [byPriority_eq, byPriority_eq, filter_insertionSort]

end EditGate.RuleBook
