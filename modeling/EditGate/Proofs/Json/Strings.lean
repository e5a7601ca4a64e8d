import EditGate.Json.Print
import EditGate.Json.Text

/-!
# Printed strings read back

A character is printed as itself, as a letter after a backslash, or as a numbered unit, and each of
these forms is read as one piece (`readPieces_escapeChar`). The pieces of a whole string give its
characters (`characters?_pieces`), so what is read of a printed string is the string.
-/

namespace EditGate.Json

/-- The piece that the printed form of a character is read as. -/
def pieceOf (c : Char) : Piece :=
  if c.toNat < 0x20 ∧ c ∉ ['\x08', '\x0c', '\n', '\r', '\t'] then .unit c.toNat else .char c

theorem hexDigit?_hexChar {n : Nat} (h : n < 16) : hexDigit? (hexChar n) = some n := by
  have hall : ∀ n < 16, hexDigit? (hexChar n) = some n := by decide
  exact hall n h

/-- A control is written with two digits after two zeros. -/
theorem unit?_control {n : Nat} (h : n < 0x20) :
    unit? '0' '0' (hexChar (n / 16)) (hexChar (n % 16)) = some n := by
  have hzero : hexDigit? '0' = some 0 := rfl
  rw [unit?, hzero, hexDigit?_hexChar (by omega), hexDigit?_hexChar (Nat.mod_lt n (by omega))]
  simp only [Option.bind_eq_bind, Option.bind_some, Option.pure_def, Option.some.injEq]
  omega

theorem readPieces_char {c : Char} {s : List Char} (hquote : c ≠ '"') (hslash : c ≠ '\\')
    (h : ¬c.toNat < 0x20) :
    readPieces (c :: s) = (readPieces s).map fun r => (.char c :: r.1, r.2) := by
  rw [readPieces.eq_def]
  split
  · simp_all
  · simp_all
  · simp_all
  · simp_all
  · rename_i hcons
    obtain ⟨rfl, rfl⟩ := List.cons.inj hcons
    rw [if_neg (by simp [h, hslash])]
    cases readPieces s <;> rfl

theorem readPieces_escape {e c : Char} {s : List Char} (hu : e ≠ 'u') (h : escape? e = some c) :
    readPieces ('\\' :: e :: s) = (readPieces s).map fun r => (.char c :: r.1, r.2) := by
  rw [readPieces.eq_def]
  split
  · simp_all
  · simp_all
  · simp_all
  · rename_i hcons
    simp only [List.cons.injEq, true_and] at hcons
    obtain ⟨rfl, rfl⟩ := hcons
    rw [h]
    cases readPieces s <;> rfl
  · rename_i hne hcons
    obtain ⟨rfl, rfl⟩ := List.cons.inj hcons
    exact (hne e s rfl rfl).elim

theorem readPieces_unit {a b c d : Char} {n : Nat} {s : List Char}
    (h : unit? a b c d = some n) :
    readPieces ('\\' :: 'u' :: a :: b :: c :: d :: s) =
      (readPieces s).map fun r => (.unit n :: r.1, r.2) := by
  rw [readPieces, h]
  cases readPieces s <;> rfl

/-- The printed form of a character is one piece. -/
theorem readPieces_escapeChar (c : Char) (s : List Char) :
    readPieces (escapeChar c ++ s) = (readPieces s).map fun r => (pieceOf c :: r.1, r.2) := by
  unfold escapeChar
  split
  · rename_i hc
    subst hc
    exact readPieces_escape (by decide) rfl
  · split
    · rename_i hc
      subst hc
      exact readPieces_escape (by decide) rfl
    · split
      · -- the controls, five of which have a letter
        rename_i hcontrol
        split
        · exact readPieces_escape (by decide) rfl
        · exact readPieces_escape (by decide) rfl
        · exact readPieces_escape (by decide) rfl
        · exact readPieces_escape (by decide) rfl
        · exact readPieces_escape (by decide) rfl
        · have hpiece : pieceOf c = .unit c.toNat := if_pos ⟨hcontrol, by simp_all⟩
          rw [hpiece]
          exact readPieces_unit (unit?_control hcontrol)
      · rename_i hquote hslash hcontrol
        have hpiece : pieceOf c = .char c := if_neg fun h => hcontrol h.1
        rw [hpiece]
        exact readPieces_char hquote hslash hcontrol

/-- The characters of a string and a closing quote are read up to the quote. -/
theorem readPieces_printed (s rest : List Char) :
    readPieces (s.flatMap escapeChar ++ '"' :: rest) = some (s.map pieceOf, rest) := by
  induction s with
  | nil => rfl
  | cons c s ih =>
    rw [List.flatMap_cons, List.append_assoc, readPieces_escapeChar, ih]
    rfl

theorem not_isHighUnit_of_control {n : Nat} (h : n < 0x20) : isHighUnit n = false := by
  simp only [isHighUnit, Bool.and_eq_false_iff, decide_eq_false_iff_not]
  omega

theorem not_isLowUnit_of_control {n : Nat} (h : n < 0x20) : isLowUnit n = false := by
  simp only [isLowUnit, Bool.and_eq_false_iff, decide_eq_false_iff_not]
  omega

/-- A unit that is a control stands for the control, whatever follows. -/
theorem characters?_control {c : Char} (h : c.toNat < 0x20) (s : List Piece) :
    characters? (.unit c.toNat :: s) = (characters? s).map (c :: ·) := by
  have hhigh := not_isHighUnit_of_control h
  have hlow := not_isLowUnit_of_control h
  cases s with
  | nil => simp [characters?, hhigh, hlow]
  | cons p s =>
    cases p with
    | char d => simp [characters?, hhigh, hlow]
    | unit n => simp [characters?, hhigh, hlow]

theorem characters?_pieces (s : List Char) : characters? (s.map pieceOf) = some s := by
  induction s with
  | nil => rfl
  | cons c s ih =>
    rw [List.map_cons, pieceOf]
    split
    · rename_i hc
      rw [characters?_control hc.1, ih]
      rfl
    · rw [characters?, ih]
      rfl

theorem string?_pieces (s : String) : string? (s.toList.map pieceOf) = some s := by
  rw [string?, characters?_pieces, Option.map_some, String.ofList_toList]

end EditGate.Json
