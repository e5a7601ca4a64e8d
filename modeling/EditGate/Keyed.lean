/-!
# Keyed lists

A map from strings is kept as a list of bindings in strictly increasing order of key, where keys
compare by their characters. The order makes the list unique: two ordered lists that answer every
look-up alike are equal (`ext`). `put` and `erase` keep the order, and each changes the answer at
one key only.
-/

namespace EditGate

/-- Bindings of strings to values, meant to be in increasing order of key. -/
abbrev Keyed (α : Type) := List (String × α)

namespace Keyed

variable {α β : Type}

/-- The value bound to `key`. -/
def get? (key : String) : Keyed α → Option α
  | [] => none
  | (k, v) :: m => if k = key then some v else get? key m

/-- Binds `key` to `value`, in place of what it was bound to. -/
def put (key : String) (value : α) : Keyed α → Keyed α
  | [] => [(key, value)]
  | (k, v) :: m =>
    if key < k then (key, value) :: (k, v) :: m
    else if key = k then (key, value) :: m
    else (k, v) :: put key value m

/-- Removes every binding of `key`. -/
def erase (key : String) (m : Keyed α) : Keyed α := m.filter fun b => b.1 ≠ key

/-- The ordered list of some bindings; of two for one key the later counts. -/
def ofList (bindings : List (String × α)) : Keyed α :=
  bindings.foldl (fun m b => put b.1 b.2 m) []

/-- Applies `f` to every value. -/
def mapValues (f : α → β) (m : Keyed α) : Keyed β := m.map fun b => (b.1, f b.2)

/-- Strictly increasing in key. -/
def Sorted (m : Keyed α) : Prop := m.Pairwise fun a b => a.1 < b.1

instance (m : Keyed α) : Decidable (Sorted m) :=
  inferInstanceAs (Decidable (m.Pairwise fun a b => a.1 < b.1))

/-! ## What the operations do to look-up -/

@[simp] theorem get?_nil (key : String) : get? key ([] : Keyed α) = none := rfl

theorem get?_cons (key k : String) (v : α) (m : Keyed α) :
    get? key ((k, v) :: m) = if k = key then some v else get? key m := rfl

theorem get?_put (key key' : String) (value : α) (m : Keyed α) :
    get? key' (put key value m) = if key = key' then some value else get? key' m := by
  induction m with
  | nil => simp [put, get?]
  | cons b m ih =>
    obtain ⟨k, v⟩ := b
    simp only [put]
    split
    · simp [get?_cons]
    · split
      · rename_i hk
        subst hk
        simp only [get?_cons]
        split <;> rfl
      · rename_i hk
        simp only [get?_cons, ih]
        by_cases h : k = key'
        · subst h
          simp [hk]
        · simp [h]

theorem get?_erase (key key' : String) (m : Keyed α) :
    get? key' (erase key m) = if key = key' then none else get? key' m := by
  induction m with
  | nil => simp [erase]
  | cons b m ih =>
    obtain ⟨k, v⟩ := b
    simp only [erase, List.filter_cons] at ih ⊢
    split
    · rename_i hk
      simp only [ne_eq, decide_not, Bool.not_eq_eq_eq_not, Bool.not_true,
        decide_eq_false_iff_not] at hk
      simp only [get?_cons, ih]
      by_cases h : k = key'
      · subst h
        simp [Ne.symm hk]
      · simp [h]
    · rename_i hk
      simp only [ne_eq, decide_not, Bool.not_eq_eq_eq_not, Bool.not_true,
        decide_eq_false_iff_not, Decidable.not_not] at hk
      subst hk
      rw [ih, get?_cons]
      split <;> simp_all

theorem mem_of_get? {key : String} {v : α} {m : Keyed α} (h : get? key m = some v) :
    (key, v) ∈ m := by
  induction m with
  | nil => simp at h
  | cons b m ih =>
    obtain ⟨k, v'⟩ := b
    rw [get?_cons] at h
    split at h
    · simp_all
    · exact List.mem_cons_of_mem _ (ih h)

theorem get?_eq_none_iff {key : String} {m : Keyed α} :
    get? key m = none ↔ ∀ b ∈ m, b.1 ≠ key := by
  induction m with
  | nil => simp
  | cons b m ih =>
    obtain ⟨k, v⟩ := b
    rw [get?_cons]
    split <;> simp_all

theorem get?_of_mem {key : String} {v : α} {m : Keyed α} (hm : Sorted m) (h : (key, v) ∈ m) :
    get? key m = some v := by
  induction m with
  | nil => simp at h
  | cons b m ih =>
    obtain ⟨k, v'⟩ := b
    obtain ⟨hb, hm⟩ := List.pairwise_cons.1 hm
    rw [get?_cons]
    rcases List.mem_cons.1 h with h | h
    · simp_all
    · have := hb _ h
      rw [if_neg fun e => by simp [e] at this]
      exact ih hm h

theorem get?_mapValues (f : α → β) (key : String) (m : Keyed α) :
    get? key (mapValues f m) = (get? key m).map f := by
  induction m with
  | nil => rfl
  | cons b m ih =>
    obtain ⟨k, v⟩ := b
    simp only [mapValues, List.map_cons, get?_cons] at ih ⊢
    split
    · rfl
    · exact ih

/-! ## Order -/

theorem lt_or_eq_or_gt (a b : String) : a < b ∨ a = b ∨ b < a := by
  rcases Decidable.em (a < b) with h | h
  · exact .inl h
  · rcases Decidable.em (b < a) with h' | h'
    · exact .inr (.inr h')
    · exact .inr (.inl (String.le_antisymm (String.not_lt.1 h') (String.not_lt.1 h)))

theorem sorted_nil : Sorted ([] : Keyed α) := List.Pairwise.nil

theorem mem_put {key : String} {value : α} {m : Keyed α} {b : String × α}
    (h : b ∈ put key value m) : b = (key, value) ∨ b ∈ m := by
  induction m with
  | nil => simpa [put] using h
  | cons b' m ih =>
    obtain ⟨k, v⟩ := b'
    simp only [put] at h
    split at h
    · simpa using h
    · split at h
      · rcases List.mem_cons.1 h with h | h
        · exact .inl h
        · exact .inr (List.mem_cons_of_mem _ h)
      · rcases List.mem_cons.1 h with h | h
        · exact .inr (h ▸ List.mem_cons_self)
        · rcases ih h with h | h
          · exact .inl h
          · exact .inr (List.mem_cons_of_mem _ h)

theorem sorted_put (key : String) (value : α) {m : Keyed α} (hm : Sorted m) :
    Sorted (put key value m) := by
  induction m with
  | nil => simp [put, Sorted]
  | cons b m ih =>
    obtain ⟨k, v⟩ := b
    obtain ⟨hb, hm'⟩ := List.pairwise_cons.1 hm
    simp only [put]
    split
    · rename_i hk
      refine List.pairwise_cons.2 ⟨fun c hc => ?_, hm⟩
      rcases List.mem_cons.1 hc with rfl | hc
      · exact hk
      · exact String.lt_trans hk (hb c hc)
    · split
      · rename_i hk
        subst hk
        exact List.pairwise_cons.2 ⟨hb, hm'⟩
      · rename_i h1 h2
        refine List.pairwise_cons.2 ⟨fun c hc => ?_, ih hm'⟩
        rcases mem_put hc with rfl | hc
        · rcases lt_or_eq_or_gt key k with h | h | h
          · exact absurd h h1
          · exact absurd h h2
          · exact h
        · exact hb c hc

theorem sorted_erase (key : String) {m : Keyed α} (hm : Sorted m) : Sorted (erase key m) :=
  List.Pairwise.filter _ hm

theorem sorted_ofList (bindings : List (String × α)) : Sorted (ofList bindings) := by
  suffices h : ∀ m : Keyed α, Sorted m → Sorted (bindings.foldl (fun m b => put b.1 b.2 m) m) from
    h [] sorted_nil
  induction bindings with
  | nil => exact fun _ h => h
  | cons b bs ih => exact fun m hm => ih _ (sorted_put _ _ hm)

theorem sorted_mapValues (f : α → β) {m : Keyed α} (hm : Sorted m) : Sorted (mapValues f m) := by
  rw [Sorted, mapValues, List.pairwise_map]
  exact hm

/-- An ordered list is determined by what it answers. -/
theorem ext {m n : Keyed α} (hm : Sorted m) (hn : Sorted n)
    (h : ∀ key, get? key m = get? key n) : m = n := by
  induction m generalizing n with
  | nil =>
    cases n with
    | nil => rfl
    | cons b n => simpa [get?] using h b.1
  | cons b m ih =>
    obtain ⟨k, v⟩ := b
    obtain ⟨hb, hm'⟩ := List.pairwise_cons.1 hm
    cases n with
    | nil => simpa [get?] using h k
    | cons c n =>
      obtain ⟨k', v'⟩ := c
      obtain ⟨hc, hn'⟩ := List.pairwise_cons.1 hn
      -- the smaller of two first keys would be missing from the other list
      have hk : k = k' := by
        rcases lt_or_eq_or_gt k k' with hlt | heq | hgt
        · have hmem := mem_of_get? ((h k).symm.trans (by simp [get?]) : get? k _ = some v)
          rcases List.mem_cons.1 hmem with he | hin
          · exact congrArg Prod.fst he
          · exact absurd (String.lt_trans hlt (hc _ hin)) (String.lt_irrefl _)
        · exact heq
        · have hmem := mem_of_get? ((h k').trans (by simp [get?]) : get? k' _ = some v')
          rcases List.mem_cons.1 hmem with he | hin
          · exact (congrArg Prod.fst he).symm
          · exact absurd (String.lt_trans hgt (hb _ hin)) (String.lt_irrefl _)
      subst hk
      have hv : v = v' := by simpa [get?] using h k
      subst hv
      rw [ih hm' hn' fun key => ?_]
      have hkey := h key
      rw [get?_cons, get?_cons] at hkey
      split at hkey
      · rename_i heq
        subst heq
        rw [get?_eq_none_iff.2 fun b hb' e => String.lt_irrefl k (by simpa [e] using hb b hb'),
          get?_eq_none_iff.2 fun b hb' e => String.lt_irrefl k (by simpa [e] using hc b hb')]
      · exact hkey

end Keyed

end EditGate
