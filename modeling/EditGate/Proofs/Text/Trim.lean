import EditGate.Text.Blank

/-!
# Trimmed texts

A text is what trimming leaves of it with blanks around that. The start of a trimmed text and its
end are not blank, and a text of that kind is what trimming makes of it with any blanks around it.
-/

namespace EditGate.Text

variable {p : Char → Bool} {s t : List Char}

/-- Nothing but blanks. -/
def Blanks (s : List Char) : Prop := ∀ c ∈ s, isBlank c = true

/-- Starts, if at all, with a character that is not blank. -/
def StartsBare (s : List Char) : Prop := ∀ c ∈ s.head?, isBlank c = false

/-- No visible character of ASCII is blank. -/
theorem isBlank_of_visible {c : Char} (h : 0x20 < c.toNat) (h' : c.toNat < 0x85) :
    isBlank c = false := by
  simp only [isBlank, Bool.or_eq_false_iff, Bool.and_eq_false_iff, decide_eq_false_iff_not,
    beq_eq_false_iff_ne]
  omega

theorem isBlank_of_isLower {c : Char} (h : c.isLower = true) : isBlank c = false := by
  have hrange : (decide (c.val ≥ 'a'.val) && decide (c.val ≤ 'z'.val)) = true := h
  simp only [Bool.and_eq_true, decide_eq_true_eq, ge_iff_le, UInt32.le_iff_toNat_le] at hrange
  have ha : ('a'.val.toNat) = 97 := rfl
  have hz : ('z'.val.toNat) = 122 := rfl
  have hc : c.toNat = c.val.toNat := rfl
  exact isBlank_of_visible (by omega) (by omega)

theorem blanks_nil : Blanks [] := fun _ h => absurd h List.not_mem_nil

theorem blanks_append_iff : Blanks (s ++ t) ↔ Blanks s ∧ Blanks t := List.forall_mem_append

theorem Blanks.append (hs : Blanks s) (ht : Blanks t) : Blanks (s ++ t) :=
  blanks_append_iff.mpr ⟨hs, ht⟩

theorem all_isBlank_iff : s.all isBlank = true ↔ Blanks s := List.all_eq_true

theorem startsBare_nil : StartsBare [] := fun _ h => by simp at h

theorem startsBare_cons_iff {c : Char} : StartsBare (c :: s) ↔ isBlank c = false := by
  simp [StartsBare]

/-! ## At the start -/

theorem exists_blanks_trimStart (s : List Char) :
    ∃ a, Blanks a ∧ s = a ++ trimStart s ∧ StartsBare (trimStart s) := by
  refine ⟨s.takeWhile isBlank, fun c hc => ?_, List.takeWhile_append_dropWhile.symm, ?_⟩
  · exact List.all_eq_true.mp List.all_takeWhile c hc
  · intro c hc
    have := List.head?_dropWhile_not isBlank s
    rw [trimStart, Option.mem_def] at hc
    rw [hc] at this
    simpa using this

theorem trimStart_blanks_append (hs : Blanks s) : trimStart (s ++ t) = trimStart t :=
  List.dropWhile_append_of_pos hs

theorem trimStart_of_startsBare (h : StartsBare s) : trimStart s = s := by
  cases s with
  | nil => rfl
  | cons c s => rw [trimStart, List.dropWhile_cons_of_neg (by simp [startsBare_cons_iff.mp h])]

theorem trimStart_eq (hs : Blanks s) (ht : StartsBare t) : trimStart (s ++ t) = t := by
  rw [trimStart_blanks_append hs, trimStart_of_startsBare ht]

theorem trimStart_of_blanks (hs : Blanks s) : trimStart s = [] := by
  simpa using trimStart_eq hs startsBare_nil

theorem startsBare_trimStart (s : List Char) : StartsBare (trimStart s) :=
  (exists_blanks_trimStart s).choose_spec.2.2

/-! ## At the end -/

theorem exists_dropEndWhile (p : Char → Bool) (s : List Char) :
    ∃ b, (∀ c ∈ b, p c = true) ∧ s = dropEndWhile p s ++ b := by
  refine ⟨(s.reverse.takeWhile p).reverse, fun c hc => ?_, ?_⟩
  · exact List.all_eq_true.mp List.all_takeWhile c (List.mem_reverse.mp hc)
  · rw [dropEndWhile, ← List.reverse_append, List.takeWhile_append_dropWhile,
      List.reverse_reverse]

theorem dropEndWhile_append_of_all (ht : ∀ c ∈ t, p c = true) :
    dropEndWhile p (s ++ t) = dropEndWhile p s := by
  rw [dropEndWhile, List.reverse_append,
    List.dropWhile_append_of_pos fun c hc => ht c (List.mem_reverse.mp hc), dropEndWhile]

theorem dropEndWhile_concat_of_neg {c : Char} (hc : p c = false) :
    dropEndWhile p (s ++ [c]) = s ++ [c] := by
  simp [dropEndWhile, hc]

/-- A run at the end does not reach beyond a character that is not of its kind. -/
theorem dropEndWhile_append_of_exists (h : ∃ c ∈ t, p c = false) :
    dropEndWhile p (s ++ t) = s ++ dropEndWhile p t := by
  obtain ⟨c, hc, hp⟩ := h
  obtain ⟨b, hb, ht⟩ := exists_dropEndWhile p t
  have hne : dropEndWhile p t ≠ [] := by
    intro he
    rw [he, List.nil_append] at ht
    exact absurd (hb c (ht ▸ hc)) (by simp [hp])
  rw [dropEndWhile, dropEndWhile, List.reverse_append, List.dropWhile_append]
  have : (List.dropWhile p t.reverse).isEmpty = false := by
    rw [dropEndWhile, Ne, List.reverse_eq_nil_iff] at hne
    simpa using hne
  simp [this]

theorem dropEndWhile_append_of_last {z : Char} (hz : p z = false) :
    dropEndWhile p (s ++ [z] ++ t) = s ++ [z] ++ dropEndWhile p t := by
  obtain ⟨b, hb, ht⟩ := exists_dropEndWhile p t
  by_cases h : dropEndWhile p t = []
  · rw [h, List.nil_append] at ht
    rw [h, List.append_nil, ht, dropEndWhile_append_of_all hb, dropEndWhile_concat_of_neg hz]
  · refine dropEndWhile_append_of_exists (Classical.byContradiction fun hall => h ?_)
    have : ∀ c ∈ t, p c = true := fun c hc => by
      cases hp : p c with
      | true => rfl
      | false => exact absurd ⟨c, hc, hp⟩ hall
    simpa [dropEndWhile] using @dropEndWhile_append_of_all p [] t this

theorem exists_blanks_trimEnd (s : List Char) : ∃ b, Blanks b ∧ s = trimEnd s ++ b :=
  exists_dropEndWhile isBlank s

theorem trimEnd_append_blanks (ht : Blanks t) : trimEnd (s ++ t) = trimEnd s :=
  dropEndWhile_append_of_all ht

/-! ## At both ends -/

theorem exists_blanks_trim (s : List Char) :
    ∃ a b, Blanks a ∧ Blanks b ∧ s = a ++ trim s ++ b := by
  obtain ⟨a, ha, hs, -⟩ := exists_blanks_trimStart s
  obtain ⟨b, hb, ht⟩ := exists_blanks_trimEnd (trimStart s)
  refine ⟨a, b, ha, hb, ?_⟩
  rw [List.append_assoc, trim, ← ht, ← hs]

theorem startsBare_trim (s : List Char) : StartsBare (trim s) := by
  obtain ⟨b, -, hs⟩ := exists_blanks_trimEnd (trimStart s)
  have hb := startsBare_trimStart s
  intro c hc
  refine hb c ?_
  rw [hs, List.head?_append, Option.mem_def, ← trim, Option.mem_def.mp hc]
  rfl

end EditGate.Text
