import EditGate.Text.Blank

/-!
# Words

The words of a text are the pieces between its blanks that are not empty (`words_eq`). Words with
single spaces between them are read back as they are (`words_spaced`), so a text whose blanks are
squeezed to single spaces has the same words and is not changed by that any more
(`singleSpaced_spaced`).
-/

namespace EditGate.Text

variable {s word : List Char} {ws : List (List Char)}

/-- The words of a text with single spaces between them. -/
def singleSpaced (s : List Char) : List Char :=
  [' '].intercalate ((s.splitOnP isBlank).filter (· ≠ []))

/-- Words with single spaces between them. -/
def spaced (ws : List (List Char)) : List Char := [' '].intercalate ws

/-- Not empty, and without blanks. -/
def IsWord (word : List Char) : Prop := word ≠ [] ∧ ∀ c ∈ word, isBlank c = false

/-! ## Reading words -/

/-- What is read with a word begun is the pieces with that before the first of them. -/
theorem wordsFrom_eq (begun s : List Char) :
    wordsFrom begun s =
      ((s.splitOnP isBlank).modifyHead (begun.reverse ++ ·)).filter (· ≠ []) := by
  induction s generalizing begun with
  | nil => cases begun <;> simp [wordsFrom]
  | cons c s ih =>
    rw [wordsFrom, List.splitOnP_cons_eq_if_modifyHead]
    split
    · have hrest : wordsFrom [] s = (s.splitOnP isBlank).filter (· ≠ []) := by
        rw [ih]
        cases s.splitOnP isBlank <;> simp
      cases begun <;> simp [hrest]
    · rw [ih, List.modifyHead_modifyHead]
      simp [Function.comp_def]

theorem words_eq (s : List Char) : words s = (s.splitOnP isBlank).filter (· ≠ []) := by
  rw [words, wordsFrom_eq]
  cases s.splitOnP isBlank <;> simp

theorem singleSpaced_eq (s : List Char) : singleSpaced s = spaced (words s) := by
  rw [words_eq, singleSpaced, spaced]

/-- No piece between blanks has a blank. -/
theorem not_isBlank_of_mem_splitOnP (h : word ∈ s.splitOnP isBlank) :
    ∀ c ∈ word, isBlank c = false := by
  induction s generalizing word with
  | nil => simp_all
  | cons c s ih =>
    rw [List.splitOnP_cons_eq_if_modifyHead] at h
    split at h
    · rcases List.mem_cons.mp h with rfl | h
      · simp
      · exact ih h
    · rename_i hc
      cases hs : s.splitOnP isBlank with
      | nil => exact absurd hs (List.splitOnP_ne_nil _ _)
      | cons piece pieces =>
        rw [hs] at h ih
        rcases List.mem_cons.mp h with rfl | h
        · exact List.forall_mem_cons.mpr ⟨by simpa using hc, ih List.mem_cons_self⟩
        · exact ih (List.mem_cons_of_mem _ h)

theorem isWord_of_mem_words (h : word ∈ words s) : IsWord word := by
  rw [words_eq, List.mem_filter] at h
  exact ⟨by simpa using h.2, not_isBlank_of_mem_splitOnP h.1⟩

/-! ## Words with spaces between them -/

@[simp] theorem spaced_nil : spaced [] = [] := rfl

theorem spaced_singleton (word : List Char) : spaced [word] = word :=
  List.intercalate_singleton

theorem spaced_cons (word : List Char) (h : ws ≠ []) :
    spaced (word :: ws) = word ++ ' ' :: spaced ws := by
  rw [spaced, List.intercalate_cons_of_ne_nil h, List.append_assoc, List.singleton_append, spaced]

theorem spaced_append {ws' : List (List Char)} (h : ws ≠ []) (h' : ws' ≠ []) :
    spaced (ws ++ ws') = spaced ws ++ ' ' :: spaced ws' := by
  induction ws with
  | nil => exact absurd rfl h
  | cons word ws ih =>
    cases ws with
    | nil => rw [List.singleton_append, spaced_cons word h', spaced_singleton]
    | cons next ws =>
      rw [List.cons_append, spaced_cons word (by simp), ih (List.cons_ne_nil _ _),
        spaced_cons word (List.cons_ne_nil _ _), List.append_assoc, List.cons_append]

/-- Words with single spaces between them are the words of that text. -/
theorem words_spaced (h : ∀ word ∈ ws, IsWord word) : words (spaced ws) = ws := by
  rw [words_eq]
  induction ws with
  | nil => simp
  | cons word ws ih =>
    obtain ⟨⟨hne, hword⟩, hws⟩ := List.forall_mem_cons.mp h
    have hone : word.splitOnP isBlank = [word] := List.splitOnP_eq_singleton hword
    cases ws with
    | nil => simp [spaced_singleton, hone, hne]
    | cons next ws =>
      rw [spaced_cons word (List.cons_ne_nil _ _), List.splitOnP_append_cons _ _ (by decide), hone,
        List.singleton_append, List.filter_cons_of_pos (by simpa using hne), ih hws]

theorem singleSpaced_spaced (h : ∀ word ∈ ws, IsWord word) :
    singleSpaced (spaced ws) = spaced ws := by
  rw [singleSpaced_eq, words_spaced h]

/-- The only blanks between words are the spaces. -/
theorem eq_space_of_mem_spaced {c : Char} (h : ∀ word ∈ ws, IsWord word) (hc : c ∈ spaced ws)
    (hblank : isBlank c = true) : c = ' ' := by
  induction ws with
  | nil => exact absurd hc List.not_mem_nil
  | cons word ws ih =>
    obtain ⟨⟨-, hword⟩, hws⟩ := List.forall_mem_cons.mp h
    have hnot : c ∉ word := fun hm => by simp [hword c hm] at hblank
    cases ws with
    | nil => exact absurd (spaced_singleton word ▸ hc) hnot
    | cons next ws =>
      rw [spaced_cons word (List.cons_ne_nil _ _), List.mem_append, List.mem_cons] at hc
      rcases hc with hc | hc | hc
      · exact absurd hc hnot
      · exact hc
      · exact ih hws hc

/-- Words do not end with a blank, nor does a text of them. -/
theorem exists_last_spaced (hne : ws ≠ []) (h : ∀ word ∈ ws, IsWord word) :
    ∃ front z, spaced ws = front ++ [z] ∧ isBlank z = false := by
  induction ws with
  | nil => exact absurd rfl hne
  | cons word ws ih =>
    obtain ⟨⟨hword, hbare⟩, hws⟩ := List.forall_mem_cons.mp h
    cases ws with
    | nil =>
      refine ⟨word.dropLast, word.getLast hword, ?_, hbare _ (List.getLast_mem hword)⟩
      rw [spaced_singleton, List.dropLast_concat_getLast]
    | cons next ws =>
      obtain ⟨front, z, hfront, hz⟩ := ih (List.cons_ne_nil _ _) hws
      refine ⟨word ++ ' ' :: front, z, ?_, hz⟩
      rw [spaced_cons word (List.cons_ne_nil _ _), hfront, List.append_assoc, List.cons_append]

end EditGate.Text
