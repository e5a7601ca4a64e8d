import EditGate.Metadata.Block

/-!
# First occurrences and lines

What the cuts of `EditGate.Text` say about the text that they cut. A cut at a pattern is a cut at
its first occurrence, and that is decided by what stands up to the end of that occurrence: whatever
follows may be replaced (`cutAt?_replace`). Cutting at newlines is undone by `joinLines`, and a list
of lines without newlines is what its joined text is cut into (`splitOn_joinLines`).
-/

namespace EditGate.Text

/-! ## A pattern at the start -/

theorem dropText?_eq_none_iff {pat s : List Char} : dropText? pat s = none ↔ ¬ pat <+: s := by
  constructor
  · rintro h ⟨rest, rfl⟩
    rw [dropText?_append] at h
    exact absurd h (by simp)
  · intro h
    cases hd : dropText? pat s with
    | none => rfl
    | some rest => exact absurd ⟨rest, (eq_append_of_dropText? hd).symm⟩ h

/-! ## The first occurrence -/

theorem cutAt?_eq_none_iff {pat s : List Char} : cutAt? pat s = none ↔ ¬ pat <:+: s := by
  induction s with
  | nil => simp [cutAt?, dropText?_eq_none_iff]
  | cons c s ih =>
    rw [cutAt?, List.infix_cons_iff]
    cases h : dropText? pat (c :: s) with
    | some rest =>
      have hpre : pat <+: c :: s := ⟨rest, (eq_append_of_dropText? h).symm⟩
      simp [hpre]
    | none =>
      have hpre := dropText?_eq_none_iff.mp h
      simp [hpre, ih]

/-- The part before a cut ends at the first occurrence: no other one ends within the pattern. -/
theorem first_of_cutAt? {pat s before after : List Char} (hp : pat ≠ [])
    (h : cutAt? pat s = some (before, after)) : ¬ pat <:+: before ++ pat.dropLast := by
  have hpos := List.length_pos_iff.mpr hp
  induction s generalizing before with
  | nil =>
    have := eq_append_of_cutAt? h
    simp_all
  | cons c s ih =>
    have hs := eq_append_of_cutAt? h
    rw [cutAt?] at h
    cases hd : dropText? pat (c :: s) with
    | some rest =>
      rw [hd] at h
      obtain ⟨rfl, rfl⟩ := by simpa using h
      intro hin
      have := hin.length_le
      rw [List.nil_append, List.length_dropLast] at this
      omega
    | none =>
      rw [hd] at h
      obtain ⟨⟨a, b⟩, hab, he⟩ := Option.map_eq_some_iff.mp h
      obtain ⟨rfl, rfl⟩ := by simpa using he
      rw [List.cons_append, List.infix_cons_iff]
      rintro (hpre | hin)
      · refine dropText?_eq_none_iff.mp hd (hpre.trans ?_)
        rw [hs, List.append_assoc, List.cons_append, List.cons_prefix_cons]
        exact ⟨rfl, List.prefix_append_right_inj _ |>.mpr
          ((List.dropLast_prefix pat).trans (List.prefix_append _ _))⟩
      · exact ih hab hin

theorem cutAt?_of_first {pat before after : List Char} (hp : pat ≠ [])
    (h : ¬ pat <:+: before ++ pat.dropLast) :
    cutAt? pat (before ++ pat ++ after) = some (before, after) := by
  have hpos := List.length_pos_iff.mpr hp
  induction before with
  | nil =>
    obtain ⟨p, ps, rfl⟩ := List.exists_cons_of_ne_nil hp
    rw [List.nil_append, List.cons_append, cutAt?, ← List.cons_append, dropText?_append]
  | cons c before ih =>
    rw [List.cons_append, List.infix_cons_iff, not_or] at h
    have hd : dropText? pat (c :: (before ++ pat ++ after)) = none := by
      refine dropText?_eq_none_iff.mpr fun hpre => h.1 ?_
      have hpat : pat.dropLast ++ pat.getLast hp :: after = pat ++ after := by
        rw [List.append_cons, List.dropLast_concat_getLast hp]
      -- the pattern is no longer than what stands before its last character
      refine List.prefix_of_prefix_length_le hpre ⟨pat.getLast hp :: after, ?_⟩ ?_
      · rw [List.cons_append, List.append_assoc, hpat, List.append_assoc]
      · simp only [List.length_cons, List.length_append, List.length_dropLast]
        omega
    rw [List.cons_append, List.cons_append, cutAt?, hd, ih h.2]
    rfl

/-- Where a text is cut does not depend on what follows the cut. -/
theorem cutAt?_replace {pat s before after after' : List Char} (hp : pat ≠ [])
    (h : cutAt? pat s = some (before, after)) :
    cutAt? pat (before ++ pat ++ after') = some (before, after') :=
  cutAt?_of_first hp (first_of_cutAt? hp h)

/-- A text is cut no later than at a place where the pattern stands. -/
theorem prefix_of_cutAt? {pat s t before after : List Char} (hp : pat ≠ [])
    (h : cutAt? pat (s ++ pat ++ t) = some (before, after)) : before <+: s := by
  induction s generalizing before with
  | nil =>
    have hfirst : ¬ pat <:+: [] ++ pat.dropLast := fun hin => by
      have hle := hin.length_le
      have hpos := List.length_pos_iff.mpr hp
      rw [List.nil_append, List.length_dropLast] at hle
      omega
    rw [cutAt?_of_first hp hfirst] at h
    obtain ⟨rfl, -⟩ := by simpa using h
    exact List.prefix_refl _
  | cons c s ih =>
    rw [List.cons_append, List.cons_append, cutAt?] at h
    split at h
    · obtain ⟨rfl, -⟩ := by simpa using h
      exact List.nil_prefix
    · obtain ⟨⟨a, b⟩, hab, he⟩ := Option.map_eq_some_iff.mp h
      obtain ⟨rfl, rfl⟩ := by simpa using he
      exact (List.prefix_cons_inj c).mpr (ih hab)

theorem isSome_cutAt?_iff {pat s : List Char} : (cutAt? pat s).isSome ↔ pat <:+: s := by
  rw [Option.isSome_iff_ne_none, Ne, cutAt?_eq_none_iff, Decidable.not_not]

/-! ## Lines -/

/-- Lines put together again. -/
def joinLines : List (List Char) → List Char
  | [] => []
  | line :: lines => line ++ Block.unlines lines

@[simp] theorem unlines_nil : Block.unlines [] = [] := rfl

@[simp] theorem unlines_cons (line : List Char) (lines : List (List Char)) :
    Block.unlines (line :: lines) = '\n' :: line ++ Block.unlines lines := by
  simp [Block.unlines]

@[simp] theorem unlines_append (xs ys : List (List Char)) :
    Block.unlines (xs ++ ys) = Block.unlines xs ++ Block.unlines ys := by
  simp [Block.unlines]

theorem joinLines_splitOn (s : List Char) : joinLines (splitOn '\n' s) = s := by
  cases h : splitOn '\n' s with
  | nil => exact absurd h (splitOn_ne_nil _ _)
  | cons line lines => exact (eq_of_splitOn h).symm

theorem splitOn_append (sep : Char) (s t : List Char) :
    splitOn sep (s ++ sep :: t) = splitOn sep s ++ splitOn sep t := by
  induction s with
  | nil => simp [splitOn]
  | cons c s ih =>
    simp only [List.cons_append, splitOn, ih]
    split
    · rfl
    · cases h : splitOn sep s with
      | nil => exact absurd h (splitOn_ne_nil _ _)
      | cons piece pieces => rfl

theorem splitOn_append_of_notMem {sep : Char} {s t piece : List Char} {pieces : List (List Char)}
    (h : sep ∉ s) (ht : splitOn sep t = piece :: pieces) :
    splitOn sep (s ++ t) = (s ++ piece) :: pieces := by
  induction s with
  | nil => simpa using ht
  | cons c s ih =>
    rw [List.mem_cons, not_or] at h
    rw [List.cons_append, splitOn, if_neg (Ne.symm h.1), ih h.2, List.cons_append]

theorem splitOn_of_notMem {sep : Char} {s : List Char} (h : sep ∉ s) : splitOn sep s = [s] := by
  induction s with
  | nil => rfl
  | cons c s ih =>
    rw [List.mem_cons, not_or] at h
    simp [splitOn, Ne.symm h.1, ih h.2]

theorem notMem_of_mem_splitOn {sep : Char} {s piece : List Char} (h : piece ∈ splitOn sep s) :
    sep ∉ piece := by
  induction s generalizing piece with
  | nil => simp_all [splitOn]
  | cons c s ih =>
    cases hs : splitOn sep s with
    | nil => exact absurd hs (splitOn_ne_nil _ _)
    | cons p ps =>
      simp only [splitOn, hs] at h ih
      split at h
      · rcases List.mem_cons.mp h with rfl | h
        · simp
        · exact ih h
      · rename_i hc
        rcases List.mem_cons.mp h with rfl | h
        · simpa [Ne.symm hc] using ih (List.mem_cons_self ..)
        · exact ih (List.mem_cons_of_mem _ h)

/-- The pieces of a text that goes on are its own pieces, but the last one goes on too. -/
theorem exists_splitOn_append (sep : Char) (s t : List Char) :
    ∃ front last first rest, splitOn sep s = front ++ [last] ∧
      splitOn sep (s ++ t) = front ++ (last ++ first) :: rest := by
  induction s with
  | nil =>
    obtain ⟨first, rest, ht⟩ := List.exists_cons_of_ne_nil (splitOn_ne_nil sep t)
    exact ⟨[], [], first, rest, rfl, by rw [List.nil_append, ht, List.nil_append, List.nil_append]⟩
  | cons c s ih =>
    obtain ⟨front, last, first, rest, hs, hst⟩ := ih
    rw [List.cons_append, splitOn, splitOn, hs, hst]
    split
    · exact ⟨[] :: front, last, first, rest, rfl, rfl⟩
    · cases front with
      | nil => exact ⟨[], c :: last, first, rest, rfl, rfl⟩
      | cons piece front => exact ⟨(c :: piece) :: front, last, first, rest, rfl, rfl⟩

/-- Pieces without the separator are what their joined text is cut into. -/
theorem splitOn_intercalate {sep : Char} {pieces : List (List Char)} (hne : pieces ≠ [])
    (h : ∀ piece ∈ pieces, sep ∉ piece) : splitOn sep ([sep].intercalate pieces) = pieces := by
  induction pieces with
  | nil => exact absurd rfl hne
  | cons piece pieces ih =>
    have hpiece := h piece List.mem_cons_self
    cases pieces with
    | nil => rw [List.intercalate_singleton, splitOn_of_notMem hpiece]
    | cons next pieces =>
      have hrest := ih (List.cons_ne_nil _ _) fun x hx => h x (List.mem_cons_of_mem _ hx)
      rw [List.intercalate_cons_cons, List.append_assoc, List.singleton_append, splitOn_append,
        splitOn_of_notMem hpiece, hrest, List.singleton_append]

/-- A text is its pieces with the separator between them. -/
theorem intercalate_splitOn (sep : Char) (s : List Char) :
    [sep].intercalate (splitOn sep s) = s := by
  induction s with
  | nil => rfl
  | cons c s ih =>
    obtain ⟨piece, pieces, hs⟩ := List.exists_cons_of_ne_nil (splitOn_ne_nil sep s)
    rw [hs] at ih
    rw [splitOn, hs]
    split
    · rename_i hc
      rw [List.intercalate_cons_cons, ih, hc]
      rfl
    · cases pieces with
      | nil =>
        rw [List.intercalate_singleton] at ih ⊢
        rw [ih]
      | cons next pieces =>
        rw [List.intercalate_cons_cons, List.append_assoc] at ih ⊢
        rw [List.cons_append, ih]

/-- What is in a joined text is in one of the pieces or in what stands between them. -/
theorem mem_intercalate_cases {c : Char} {sep : List Char} {pieces : List (List Char)}
    (h : c ∈ sep.intercalate pieces) : c ∈ sep ∨ ∃ piece ∈ pieces, c ∈ piece := by
  induction pieces with
  | nil => exact absurd h List.not_mem_nil
  | cons piece pieces ih =>
    by_cases hne : pieces = []
    · rw [hne, List.intercalate_singleton] at h
      exact .inr ⟨piece, List.mem_cons_self, h⟩
    · rw [List.intercalate_cons_of_ne_nil hne, List.mem_append, List.mem_append] at h
      rcases h with (h | h) | h
      · exact .inr ⟨piece, List.mem_cons_self, h⟩
      · exact .inl h
      · rcases ih h with h | ⟨other, hother, hc⟩
        · exact .inl h
        · exact .inr ⟨other, List.mem_cons_of_mem _ hother, hc⟩

theorem mem_intercalate_of_mem {c : Char} {sep piece : List Char} {pieces : List (List Char)}
    (hpiece : piece ∈ pieces) (hc : c ∈ piece) : c ∈ sep.intercalate pieces := by
  induction pieces with
  | nil => exact absurd hpiece List.not_mem_nil
  | cons first pieces ih =>
    by_cases hne : pieces = []
    · rw [hne, List.mem_singleton] at hpiece
      rw [hne, List.intercalate_singleton, ← hpiece]
      exact hc
    · rw [List.intercalate_cons_of_ne_nil hne, List.mem_append, List.mem_append]
      rcases List.mem_cons.mp hpiece with rfl | hpiece
      · exact .inl (.inl hc)
      · exact .inr (ih hpiece)

/-- Pieces have no characters but those of the text. -/
theorem subset_of_mem_splitOn {sep : Char} {s piece : List Char} (h : piece ∈ splitOn sep s) :
    piece ⊆ s := fun _ hc => by
  rw [← intercalate_splitOn sep s]
  exact mem_intercalate_of_mem h hc

theorem joinLines_eq_intercalate (lines : List (List Char)) :
    joinLines lines = ['\n'].intercalate lines := by
  induction lines with
  | nil => rfl
  | cons line lines ih =>
    cases lines with
    | nil => simp [joinLines]
    | cons next lines =>
      rw [List.intercalate_cons_cons, ← ih, joinLines, unlines_cons, joinLines]
      simp

theorem splitOn_joinLines {lines : List (List Char)} (hne : lines ≠ [])
    (h : ∀ line ∈ lines, '\n' ∉ line) : splitOn '\n' (joinLines lines) = lines := by
  rw [joinLines_eq_intercalate, splitOn_intercalate hne h]

/-! ## The last line -/

theorem ne_newline_of_notMem {s : List Char} (h : '\n' ∉ s) :
    ∀ c ∈ s.reverse, (c != '\n') = true := by
  intro c hc
  rw [bne_iff_ne]
  rintro rfl
  exact h (List.mem_reverse.mp hc)

theorem cutLastLine_of_notMem {s : List Char} (h : '\n' ∉ s) : cutLastLine s = ([], s) := by
  have hd := @List.dropWhile_append_of_pos _ _ _ [] (ne_newline_of_notMem h)
  have ht := @List.takeWhile_append_of_pos _ _ _ [] (ne_newline_of_notMem h)
  rw [List.append_nil] at hd ht
  simp [cutLastLine, hd, ht]

theorem cutLastLine_append_newline {s last : List Char} (h : '\n' ∉ last) :
    cutLastLine (s ++ '\n' :: last) = (s ++ ['\n'], last) := by
  have hall := ne_newline_of_notMem h
  simp [cutLastLine, List.dropWhile_append_of_pos hall, List.takeWhile_append_of_pos hall]

/-- A text either is one line, or has a line before its last one. -/
theorem cutLastLine_cases (s : List Char) :
    ('\n' ∉ s ∧ cutLastLine s = ([], s)) ∨
      ∃ front last, '\n' ∉ last ∧ s = front ++ '\n' :: last ∧
        cutLastLine s = (front ++ ['\n'], last) := by
  by_cases h : '\n' ∈ s
  · obtain ⟨last, front, he, hn⟩ := List.eq_append_cons_of_mem (List.mem_reverse.mpr h)
    have hs : s = front.reverse ++ '\n' :: last.reverse := by
      rw [← List.reverse_reverse s, he]
      simp
    have hn' : '\n' ∉ last.reverse := fun hm => hn (List.mem_reverse.mp hm)
    exact .inr ⟨front.reverse, last.reverse, hn', hs, hs ▸ cutLastLine_append_newline hn'⟩
  · exact .inl ⟨h, cutLastLine_of_notMem h⟩

/-- Behind a newline only what follows it is cut. -/
theorem cutLastLine_newline_append (s t : List Char) :
    cutLastLine (s ++ '\n' :: t) = (s ++ '\n' :: (cutLastLine t).1, (cutLastLine t).2) := by
  rcases cutLastLine_cases t with ⟨hn, hcut⟩ | ⟨front, last, hn, rfl, hcut⟩
  · rw [hcut, cutLastLine_append_newline hn]
  · rw [hcut, ← List.cons_append, ← List.append_assoc, cutLastLine_append_newline hn]
    simp only [List.append_assoc, List.cons_append]

end EditGate.Text
