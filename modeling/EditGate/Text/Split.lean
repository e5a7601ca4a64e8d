/-!
# Cutting texts

A text is cut at a single character or at the first place where a given text occurs. Each cut
says where the pieces lie: put together with what was cut out they give the text back.
-/

namespace EditGate.Text

/-- The pieces between the occurrences of `sep`; there is always at least one. -/
def splitOn (sep : Char) : List Char → List (List Char)
  | [] => [[]]
  | c :: s =>
    if c = sep then [] :: splitOn sep s
    else
      match splitOn sep s with
      | [] => [[c]]
      | piece :: pieces => (c :: piece) :: pieces

/-- What follows `pat` when the text starts with it. -/
def dropText? : (pat s : List Char) → Option (List Char)
  | [], s => some s
  | _ :: _, [] => none
  | p :: pat, c :: s => if p = c then dropText? pat s else none

/-- What precedes `pat` when the text ends with it. -/
def dropEndText? (pat s : List Char) : Option (List Char) :=
  (dropText? pat.reverse s.reverse).map List.reverse

/-- The texts before and after the first occurrence of `pat`. -/
def cutAt? (pat : List Char) : List Char → Option (List Char × List Char)
  | [] => (dropText? pat []).map ([], ·)
  | c :: s =>
    match dropText? pat (c :: s) with
    | some rest => some ([], rest)
    | none => (cutAt? pat s).map fun r => (c :: r.1, r.2)

/-- Everything up to and including the last newline, and what follows it. -/
def cutLastLine (s : List Char) : List Char × List Char :=
  ((s.reverse.dropWhile (· != '\n')).reverse, (s.reverse.takeWhile (· != '\n')).reverse)

/-- The text with every `old` character replaced by `new`. -/
def replaceChar (old new : Char) (s : List Char) : List Char :=
  s.map fun c => if c = old then new else c

/-- The number of bytes that the text takes in UTF-8. -/
def utf8Length : List Char → Nat
  | [] => 0
  | c :: s => c.utf8Size + utf8Length s

@[simp] theorem utf8Length_append (s t : List Char) :
    utf8Length (s ++ t) = utf8Length s + utf8Length t := by
  induction s with
  | nil => simp [utf8Length]
  | cons c s ih => simp [utf8Length, ih, Nat.add_assoc]

/-! ## What the cuts keep -/

theorem eq_append_of_dropText? {pat s rest : List Char} (h : dropText? pat s = some rest) :
    s = pat ++ rest := by
  induction pat generalizing s with
  | nil => simpa [dropText?] using h
  | cons p pat ih =>
    cases s with
    | nil => simp [dropText?] at h
    | cons c s =>
      simp only [dropText?] at h
      split at h
      · rename_i hp
        rw [ih h, hp, List.cons_append]
      · simp at h

theorem dropText?_append (pat rest : List Char) : dropText? pat (pat ++ rest) = some rest := by
  induction pat with
  | nil => rfl
  | cons p pat ih => simp [dropText?, ih]

theorem splitOn_ne_nil (sep : Char) (s : List Char) : splitOn sep s ≠ [] := by
  cases s with
  | nil => simp [splitOn]
  | cons c s =>
    simp only [splitOn]
    split
    · simp
    · split <;> simp

/-- The pieces with the separators between them are the whole. -/
theorem eq_of_splitOn {sep : Char} {s piece : List Char} {pieces : List (List Char)}
    (h : splitOn sep s = piece :: pieces) : s = piece ++ pieces.flatMap (sep :: ·) := by
  induction s generalizing piece pieces with
  | nil => simp_all [splitOn]
  | cons c s ih =>
    cases hs : splitOn sep s with
    | nil => exact absurd hs (splitOn_ne_nil sep s)
    | cons p ps =>
      have := ih hs
      simp only [splitOn, hs] at h
      split at h
      · obtain ⟨rfl, rfl⟩ := by simpa using h
        simp_all
      · obtain ⟨rfl, rfl⟩ := by simpa using h
        simp_all

/-- The two parts of a cut and the text between them are the whole. -/
theorem eq_append_of_cutAt? {pat s before after : List Char}
    (h : cutAt? pat s = some (before, after)) : s = before ++ pat ++ after := by
  induction s generalizing before with
  | nil =>
    simp only [cutAt?, Option.map_eq_some_iff] at h
    obtain ⟨rest, hr, he⟩ := h
    have := eq_append_of_dropText? hr
    simp_all
  | cons c s ih =>
    simp only [cutAt?] at h
    split at h
    · rename_i rest hr
      obtain ⟨rfl, rfl⟩ := by simpa using h
      simpa using eq_append_of_dropText? hr
    · simp only [Option.map_eq_some_iff] at h
      obtain ⟨⟨b, a⟩, hb, he⟩ := h
      obtain ⟨rfl, rfl⟩ := by simpa using he
      simpa using ih hb

theorem cutLastLine_append (s : List Char) : (cutLastLine s).1 ++ (cutLastLine s).2 = s := by
  rw [cutLastLine, ← List.reverse_append, List.takeWhile_append_dropWhile, List.reverse_reverse]

end EditGate.Text
