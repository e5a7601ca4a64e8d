import EditGate.Json.Print
import EditGate.Json.Text

/-!
# Printed numbers read back

A reader of numbers stops at the first character that no number goes on with, so what follows a
number does not change how it is read (`readNumeral_append`). The digits of a natural number are
read as that number, and a printed integer of 64 bits is read as itself. A printed double need not
be, since reading rounds more than once; but it starts with a sign or a digit as every number does
(`printDouble_eq`).
-/

namespace EditGate.Json

open Decimal (Double Numeral)

variable {s rest : List Char}

/-- What may follow a value in an indented text. -/
def Ends (rest : List Char) : Prop :=
  ∀ c ∈ rest.head?, c = ',' ∨ c = '\n' ∨ c = ']' ∨ c = '\x7d'

theorem ends_nil : Ends [] := fun c h => by simp at h

theorem ends_cons {c : Char} (h : c = ',' ∨ c = '\n' ∨ c = ']' ∨ c = '\x7d') :
    Ends (c :: rest) := by
  intro d hd
  rw [List.head?_cons, Option.mem_def, Option.some.injEq] at hd
  exact hd ▸ h

/-- What follows a value starts with nothing that a number goes on with. -/
theorem Ends.ne (h : Ends rest) {c : Char} {t : List Char} (hc : rest = c :: t) :
    c.isDigit = false ∧ c ≠ '.' ∧ c ≠ 'e' ∧ c ≠ 'E' ∧ c ≠ '+' ∧ c ≠ '-' := by
  have := h c (by rw [hc]; rfl)
  rcases this with rfl | rfl | rfl | rfl <;> decide

/-! ## Numbers in context -/

theorem readDigits_append (h : Ends rest) (s : List Char) :
    readDigits (s ++ rest) = ((readDigits s).1, (readDigits s).2 ++ rest) := by
  have htake : rest.takeWhile Char.isDigit = [] := by
    cases rest with
    | nil => rfl
    | cons c t => rw [List.takeWhile_cons_of_neg (by simp [(h.ne rfl).1])]
  have hdrop : rest.dropWhile Char.isDigit = rest := by
    cases rest with
    | nil => rfl
    | cons c t => rw [List.dropWhile_cons_of_neg (by simp [(h.ne rfl).1])]
  simp only [readDigits, List.takeWhile_append, List.dropWhile_append, htake, hdrop,
    List.append_nil]
  have hsplit := List.takeWhile_append_dropWhile (p := Char.isDigit) (l := s)
  by_cases hall : (s.takeWhile Char.isDigit).length = s.length
  · have hnil : s.dropWhile Char.isDigit = [] := by
      have := congrArg List.length hsplit
      rw [List.length_append] at this
      exact List.length_eq_zero_iff.mp (by omega)
    rw [hnil, List.append_nil] at hsplit
    simp [hnil, hsplit]
  · have hne : (s.dropWhile Char.isDigit).isEmpty = false := by
      have := congrArg List.length hsplit
      rw [List.length_append] at this
      rw [List.isEmpty_eq_false_iff]
      intro hnil
      rw [hnil] at this
      exact hall (by simpa using this)
    simp [hall, hne]

theorem readFraction_append (h : Ends rest) (s : List Char) :
    readFraction (s ++ rest) = (readFraction s).map fun r => (r.1, r.2 ++ rest) := by
  cases s with
  | nil =>
    cases rest with
    | nil => rfl
    | cons c t =>
      have hc := (h.ne rfl).2.1
      simp [readFraction, hc]
  | cons c s =>
    by_cases hc : c = '.'
    · subst hc
      rw [List.cons_append, readFraction, readFraction, readDigits_append h]
      simp only
      split <;> simp_all
    · simp [readFraction, hc]

theorem readExponentSign_append (h : Ends rest) (s : List Char) :
    readExponentSign (s ++ rest) = ((readExponentSign s).1, (readExponentSign s).2 ++ rest) := by
  cases s with
  | nil =>
    cases rest with
    | nil => rfl
    | cons c t =>
      obtain ⟨-, -, -, -, hplus, hminus⟩ := h.ne rfl
      simp [readExponentSign, hplus, hminus]
  | cons c s =>
    rw [List.cons_append]
    unfold readExponentSign
    split <;> simp_all

theorem readExponent_append (h : Ends rest) (s : List Char) :
    readExponent (s ++ rest) = (readExponent s).map fun r => (r.1, r.2 ++ rest) := by
  cases s with
  | nil =>
    cases rest with
    | nil => rfl
    | cons c t =>
      obtain ⟨-, -, he, hE, -, -⟩ := h.ne rfl
      simp [readExponent, he, hE]
  | cons c s =>
    rw [List.cons_append, readExponent, readExponent]
    split
    · simp only [readExponentSign_append h, readDigits_append h]
      split <;> simp
    · simp

theorem readNumeral_append (h : Ends rest) (negative : Bool) (s : List Char) :
    readNumeral negative (s ++ rest) =
      (readNumeral negative s).map fun r => (r.1, r.2 ++ rest) := by
  simp only [readNumeral, readDigits_append h]
  split
  · rfl
  · rw [readFraction_append h]
    cases readFraction (readDigits s).2 with
    | none => rfl
    | some r =>
      simp only [Option.map_some, Option.bind_eq_bind, Option.bind_some, readExponent_append h]
      cases readExponent r.2 <;> rfl

/-! ## Integers -/

theorem isDigit_of_mem_digits {n : Nat} {c : Char} (h : c ∈ digits n) : c.isDigit = true :=
  Nat.isDigit_of_mem_toDigits (by omega) (by omega) h

theorem digits_ne_nil (n : Nat) : digits n ≠ [] := Nat.toDigits_ne_nil

/-- The digits of a number are read as the number. -/
theorem natural_digits (n : Nat) :
    Numeral.natural ((digits n).map fun c => c.toNat - 0x30) = n := by
  rw [digits, Nat.toDigits_eq_if (by omega)]
  split
  · rename_i h
    simp [Numeral.natural, Nat.toNat_digitChar_sub_48_of_lt_ten h]
  · have ih := natural_digits (n / 10)
    rw [Numeral.natural, digits] at ih
    have hlast := Nat.toNat_digitChar_sub_48_of_lt_ten (Nat.mod_lt n (show 10 > 0 by omega))
    simp only [Numeral.natural, List.map_append, List.foldl_append, List.map_cons, List.map_nil,
      List.foldl_cons, List.foldl_nil, ih, hlast]
    omega
termination_by n
decreasing_by omega

/-- The digits of a number do not start with a zero, but for zero. -/
theorem head_digits {n : Nat} {c : Char} {t : List Char} (h : digits n = c :: t) :
    c ≠ '0' ∨ n = 0 := by
  rw [digits, Nat.toDigits_eq_if (by omega)] at h
  split at h
  · rw [List.cons.injEq] at h
    by_cases hn : n = 0
    · exact .inr hn
    · exact .inl fun hc => hn (Nat.digitChar_eq_zero.mp (h.1.trans hc))
  · obtain ⟨d, u, hd⟩ := List.exists_cons_of_ne_nil (digits_ne_nil (n / 10))
    rw [digits] at hd
    rw [hd, List.cons_append, List.cons.injEq] at h
    rcases head_digits hd with hz | hz
    · exact .inl (h.1 ▸ hz)
    · omega
termination_by n
decreasing_by omega

/-- The numeral that an integer is written as. -/
def integerNumeral (negative : Bool) (n : Nat) : Numeral :=
  ⟨negative, (digits n).map fun c => c.toNat - 0x30, none, none⟩

theorem readNumeral_digits (h : Ends rest) (negative : Bool) (n : Nat) :
    readNumeral negative (digits n ++ rest) = some (integerNumeral negative n, rest) := by
  have hdigits : ∀ c ∈ digits n, c.isDigit = true := fun c hc => isDigit_of_mem_digits hc
  have htake : (digits n).takeWhile Char.isDigit = digits n := by
    simpa using @List.takeWhile_append_of_pos _ _ _ [] hdigits
  have hdrop : (digits n).dropWhile Char.isDigit = [] := by
    simpa using @List.dropWhile_append_of_pos _ _ _ [] hdigits
  have hzero : ((((digits n).map fun c => c.toNat - 0x30).isEmpty ||
      (((digits n).map fun c => c.toNat - 0x30).head? == some 0 &&
        decide (((digits n).map fun c => c.toNat - 0x30).length > 1)))) = false := by
    obtain ⟨c, t, hct⟩ := List.exists_cons_of_ne_nil (digits_ne_nil n)
    have hdigit : c.isDigit = true := isDigit_of_mem_digits (by rw [hct]; simp)
    rcases head_digits hct with hc | rfl
    · have : c.toNat - 0x30 ≠ 0 := by
        simp only [Char.isDigit, Bool.and_eq_true, decide_eq_true_eq,
          UInt32.le_iff_toNat_le] at hdigit
        have h0 : ('0'.val.toNat) = 48 := rfl
        have hval : c.toNat = c.val.toNat := rfl
        have hne : c.toNat ≠ 48 := fun he => hc (Char.toNat_inj.mp he)
        omega
      simp [hct, this]
    · have : digits 0 = ['0'] := rfl
      simp [this]
  rw [readNumeral_append h]
  simp only [readNumeral, readDigits, htake, hdrop, hzero]
  rfl

/-- An integer that a 64-bit word holds, with or without sign. -/
def IsWord (n : Int) : Prop := -0x8000000000000000 ≤ n ∧ n ≤ 0xffffffffffffffff

theorem toInt?_integerNumeral {n : Int} (h : IsWord n) :
    (integerNumeral (decide (n < 0)) n.natAbs).toInt? = some n := by
  obtain ⟨hlow, hhigh⟩ := h
  simp only [Numeral.toInt?, integerNumeral, natural_digits, Numeral.isInteger, Numeral.wordMax]
  by_cases hn : n < 0
  · simp only [hn, decide_true, Option.isNone_none, Bool.and_self, Bool.not_true,
      Bool.false_eq_true, if_false, if_true]
    rw [if_pos (by simp; omega)]
    congr 1
    omega
  · simp only [hn, decide_false, Option.isNone_none, Bool.and_self, Bool.not_true,
      Bool.false_eq_true, if_false]
    rw [if_pos (by omega)]
    congr 1
    omega

/-! ## The start of a number -/

/-- Starts with a digit. -/
def StartsWithDigit (s : List Char) : Prop := ∃ c t, s = c :: t ∧ c.isDigit = true

theorem StartsWithDigit.append (h : StartsWithDigit s) (t : List Char) :
    StartsWithDigit (s ++ t) := by
  obtain ⟨c, u, rfl, hc⟩ := h
  exact ⟨c, u ++ t, rfl, hc⟩

theorem startsWithDigit_digits (n : Nat) : StartsWithDigit (digits n) := by
  obtain ⟨c, t, hct⟩ := List.exists_cons_of_ne_nil (digits_ne_nil n)
  exact ⟨c, t, hct, isDigit_of_mem_digits (by rw [hct]; exact List.mem_cons_self)⟩

theorem startsWithDigit_printPositional (c : Nat) (p : Int) :
    StartsWithDigit (printPositional c p) := by
  unfold printPositional
  simp only
  split
  · exact ((startsWithDigit_digits c).append _).append _
  · split
    · rename_i hpoint
      -- at least one digit stands before the point
      obtain ⟨d, t, hd, hdigit⟩ := startsWithDigit_digits c
      rw [hd] at hpoint ⊢
      obtain ⟨k, hk⟩ : ∃ k, (((d :: t).length : Int) + p).toNat = k + 1 :=
        ⟨(((d :: t).length : Int) + p).toNat - 1, by omega⟩
      rw [hk, List.take_succ_cons]
      exact ⟨d, _, rfl, hdigit⟩
    · exact ⟨'0', _, rfl, by decide⟩

theorem startsWithDigit_printScientific (c : Nat) (p : Int) :
    StartsWithDigit (printScientific c p) := by
  obtain ⟨d, t, hd, hdigit⟩ := startsWithDigit_digits c
  simp only [printScientific, hd]
  split
  · exact ⟨d, _, rfl, hdigit⟩
  · exact ⟨d, _, rfl, hdigit⟩

theorem startsWithDigit_printMagnitude (layout : DoubleLayout) (c : Nat) (p : Int) :
    StartsWithDigit (printMagnitude layout c p) := by
  unfold printMagnitude
  simp only
  split
  · exact startsWithDigit_printPositional c p
  · exact startsWithDigit_printScientific c p

/-- A printed double is a magnitude, which a sign may precede. -/
theorem printDouble_eq (d : Double) :
    ∃ s, StartsWithDigit s ∧ (printDouble d = s ∨ printDouble d = '-' :: s) := by
  refine ⟨_, startsWithDigit_printMagnitude doubleLayout d.shortest.1 d.shortest.2, ?_⟩
  unfold printDouble
  simp only
  split
  · exact .inr rfl
  · exact .inl rfl

/-- A printed integer is the digits of its magnitude, which a sign may precede. -/
theorem printInt_eq (n : Int) :
    printInt n = digits n.natAbs ∧ ¬n < 0 ∨ printInt n = '-' :: digits n.natAbs ∧ n < 0 := by
  unfold printInt
  by_cases hn : n < 0
  · exact .inr ⟨if_pos hn, hn⟩
  · exact .inl ⟨if_neg hn, hn⟩

end EditGate.Json
