import EditGate.Keyed

/-!
# More on keyed lists

An ordered list is the ordered list of its own bindings (`ofList_eq_self`), and whatever is bound
in the ordered list of some bindings was bound in one of them (`mem_ofList`). Putting all bindings
of one list into another (`get?_foldl_put`) and picking some of them (`get?_filterMap`) are told by
what they answer.
-/

namespace EditGate.Keyed

variable {α β : Type}

/-- Order is a matter of the keys alone. -/
theorem sorted_iff_keys {m : Keyed α} : Sorted m ↔ (m.map Prod.fst).Pairwise (· < ·) :=
  List.pairwise_map.symm

theorem put_of_lt {key : String} {value : α} {m : Keyed α} (h : ∀ b ∈ m, b.1 < key) :
    put key value m = m ++ [(key, value)] := by
  induction m with
  | nil => rfl
  | cons b m ih =>
    obtain ⟨k, v⟩ := b
    have hk : k < key := h (k, v) List.mem_cons_self
    have hlt : ¬key < k := String.lt_asymm hk
    have hne : key ≠ k := fun he => String.lt_irrefl k (he ▸ hk)
    rw [put, if_neg hlt, if_neg hne, ih fun b hb => h b (List.mem_cons_of_mem _ hb)]
    rfl

/-- An ordered list is the ordered list of its bindings. -/
theorem ofList_eq_self {m : Keyed α} (h : Sorted m) : ofList m = m := by
  -- what was put so far stands before what is still to be put
  suffices hfold : ∀ done todo : Keyed α, Sorted (done ++ todo) →
      todo.foldl (fun m b => put b.1 b.2 m) done = done ++ todo from hfold [] m h
  intro done todo
  induction todo generalizing done with
  | nil => intro _; rw [List.foldl_nil, List.append_nil]
  | cons b todo ih =>
    intro hs
    have hlt : ∀ c ∈ done, c.1 < b.1 := fun c hc =>
      (List.pairwise_append.mp hs).2.2 c hc b List.mem_cons_self
    rw [List.foldl_cons, put_of_lt hlt, ih (done ++ [b]) (by rwa [List.append_cons] at hs),
      ← List.append_cons]

theorem mem_ofList {bindings : List (String × α)} {b : String × α} (h : b ∈ ofList bindings) :
    b ∈ bindings := by
  suffices hfold : ∀ m : Keyed α, b ∈ bindings.foldl (fun m b => put b.1 b.2 m) m →
      b ∈ m ∨ b ∈ bindings by
    rcases hfold [] h with hnil | hb
    · exact absurd hnil List.not_mem_nil
    · exact hb
  intro m hm
  clear h
  induction bindings generalizing m with
  | nil => exact .inl hm
  | cons c cs ih =>
    rcases ih _ hm with hput | hcs
    · rcases mem_put hput with rfl | hb
      · exact .inr List.mem_cons_self
      · exact .inl hb
    · exact .inr (List.mem_cons_of_mem _ hcs)

/-! ## Putting many bindings -/

/-- What is bound once the bindings of an ordered list are put into another. -/
theorem get?_foldl_put (f : α → β) (key : String) {l : Keyed α} (hl : Sorted l) (m : Keyed β) :
    get? key (l.foldl (fun m b => put b.1 (f b.2) m) m) =
      ((get? key l).map f).or (get? key m) := by
  induction l generalizing m with
  | nil => rfl
  | cons b l ih =>
    obtain ⟨k, v⟩ := b
    obtain ⟨hlt, hl⟩ := List.pairwise_cons.mp hl
    rw [List.foldl_cons, ih hl, get?_put, get?_cons]
    by_cases hk : k = key
    · have hnone : get? key l = none :=
        get?_eq_none_iff.mpr fun c hc he => String.lt_irrefl k (by simpa [he, hk] using hlt c hc)
      rw [if_pos hk, if_pos hk, hnone]
      rfl
    · rw [if_neg hk, if_neg hk]

theorem sorted_foldl_put (f : α → β) (l : Keyed α) {m : Keyed β} (hm : Sorted m) :
    Sorted (l.foldl (fun m b => put b.1 (f b.2) m) m) := by
  induction l generalizing m with
  | nil => exact hm
  | cons b l ih => exact ih (sorted_put b.1 (f b.2) hm)

/-- Binding a key once more to the same value changes nothing. -/
theorem put_put (key : String) (value : α) {m : Keyed α} (hm : Sorted m) :
    put key value (put key value m) = put key value m := by
  have honce := sorted_put key value hm
  refine ext (sorted_put key value honce) honce fun k => ?_
  rw [get?_put, get?_put]
  split <;> rfl

theorem erase_erase (key : String) (m : Keyed α) : erase key (erase key m) = erase key m := by
  simp [erase]

/-- Part of the bindings of an ordered list, with other values, is ordered. -/
theorem sorted_filterMap (f : α → Option β) {m : Keyed α} (hm : Sorted m) :
    Sorted (m.filterMap fun b => (f b.2).map (b.1, ·)) := by
  rw [Sorted, List.pairwise_filterMap]
  refine List.Pairwise.imp ?_ hm
  intro a b hlt c hc d hd
  obtain ⟨x, -, rfl⟩ := Option.map_eq_some_iff.mp hc
  obtain ⟨y, -, rfl⟩ := Option.map_eq_some_iff.mp hd
  exact hlt

theorem get?_filterMap (f : α → Option β) (key : String) {m : Keyed α} (hm : Sorted m) :
    get? key (m.filterMap fun b => (f b.2).map (b.1, ·)) = (get? key m).bind f := by
  induction m with
  | nil => rfl
  | cons b m ih =>
    obtain ⟨k, v⟩ := b
    obtain ⟨hlt, hm⟩ := List.pairwise_cons.mp hm
    have ih := ih hm
    by_cases hk : k = key
    · -- nothing after the first binding has its key
      have hnone : get? key m = none :=
        get?_eq_none_iff.mpr fun c hc he => String.lt_irrefl k (by simpa [he, hk] using hlt c hc)
      rw [hnone] at ih
      cases hv : f v with
      | none => simp [get?_cons, hk, hv, ih]
      | some y => simp [get?_cons, hk, hv]
    · cases hv : f v with
      | none => simp [get?_cons, hk, hv, ih]
      | some y => simp [get?_cons, hk, hv, ih]

end EditGate.Keyed
