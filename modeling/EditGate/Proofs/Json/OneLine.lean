import EditGate.Proofs.Json.Numbers

/-!
# A value on one line

The compact layout writes no control character: blanks are left out, strings escape the controls,
and a number is digits and signs (`noControl_print`). So what is printed never breaks the line that
it stands on.
-/

namespace EditGate.Json

open Decimal (Double)

variable {s t : List Char} {c : Char}

/-- Every character is at least a space. -/
def NoControl (s : List Char) : Prop := ∀ c ∈ s, 0x20 ≤ c.toNat

theorem NoControl.newline_notMem (h : NoControl s) : '\n' ∉ s := fun hmem =>
  absurd (h '\n' hmem) (by decide)

@[simp] theorem noControl_nil : NoControl [] := fun _ h => absurd h List.not_mem_nil

@[simp] theorem noControl_cons : NoControl (c :: s) ↔ 0x20 ≤ c.toNat ∧ NoControl s :=
  List.forall_mem_cons

@[simp] theorem noControl_append : NoControl (s ++ t) ↔ NoControl s ∧ NoControl t :=
  List.forall_mem_append

theorem NoControl.mono (h : NoControl s) (hsub : t ⊆ s) : NoControl t := fun c hc => h c (hsub hc)

/-! ## Numbers -/

theorem le_toNat_of_isDigit (h : c.isDigit = true) : 0x20 ≤ c.toNat := by
  obtain ⟨hle, -⟩ := Char.isDigit_iff_toNat.mp h
  exact Nat.le_trans (by decide) hle

theorem noControl_digits (n : Nat) : NoControl (digits n) := fun _ hc =>
  le_toNat_of_isDigit (isDigit_of_mem_digits hc)

theorem noControl_zeros (n : Nat) : NoControl (List.replicate n '0') := fun c hc => by
  rw [List.eq_of_mem_replicate hc]
  decide

theorem noControl_printInt (n : Int) : NoControl (printInt n) := by
  have hdigits := noControl_digits n.natAbs
  rcases printInt_eq n with ⟨h, -⟩ | ⟨h, -⟩
  · rw [h]
    exact hdigits
  · rw [h]
    exact noControl_cons.mpr ⟨by decide, hdigits⟩

theorem noControl_printPositional (c : Nat) (p : Int) : NoControl (printPositional c p) := by
  have hdigits := noControl_digits c
  simp only [printPositional]
  split
  · simp [hdigits, noControl_zeros]
  · split
    · have htake := hdigits.mono (List.take_subset ((digits c).length + p).toNat _)
      have hdrop := hdigits.mono (List.drop_subset ((digits c).length + p).toNat _)
      simp [htake, hdrop]
    · simp [hdigits, noControl_zeros]

theorem noControl_printScientific (c : Nat) (p : Int) : NoControl (printScientific c p) := by
  have hdigits := noControl_digits c
  unfold printScientific
  split
  · exact noControl_nil
  · rename_i d ds heq
    obtain ⟨hd, hds⟩ := noControl_cons.mp (heq ▸ hdigits)
    have hmantissa : NoControl (if ds.isEmpty then [d] else d :: '.' :: ds) := by
      split
      · simp [hd]
      · simp [hd, hds]
    have hexponent : NoControl (printExponent (ds.length + p)) := by
      unfold printExponent
      split
      · exact noControl_printInt _
      · exact noControl_cons.mpr ⟨by decide, noControl_printInt _⟩
    exact noControl_append.mpr ⟨hmantissa, noControl_cons.mpr ⟨by decide, hexponent⟩⟩

theorem noControl_printDouble (d : Double) : NoControl (printDouble d) := by
  have hbody : ∀ c p, NoControl (printMagnitude doubleLayout c p) := by
    intro c p
    simp only [printMagnitude]
    split
    · exact noControl_printPositional c p
    · exact noControl_printScientific c p
  simp only [printDouble]
  split
  · exact noControl_cons.mpr ⟨by decide, hbody _ _⟩
  · exact hbody _ _

/-! ## Strings -/

theorem le_toNat_hexChar {n : Nat} (h : n < 16) : 0x20 ≤ (hexChar n).toNat := by
  have hall : ∀ n < 16, 0x20 ≤ (hexChar n).toNat := by decide
  exact hall n h

theorem noControl_escapeChar (c : Char) : NoControl (escapeChar c) := by
  unfold escapeChar
  split
  · simp
  · split
    · simp
    · split
      · rename_i hcontrol
        have hhigh := le_toNat_hexChar (n := c.toNat / 16) (by omega)
        have hlow := le_toNat_hexChar (n := c.toNat % 16) (by omega)
        split
        all_goals simp [hhigh, hlow]
      · rename_i hcontrol
        simpa using hcontrol

theorem noControl_printString (s : String) : NoControl (printString s) := by
  have hchars : NoControl (s.toList.flatMap escapeChar) := by
    intro c hc
    obtain ⟨c', -, hc'⟩ := List.mem_flatMap.mp hc
    exact noControl_escapeChar c' c hc'
  simp [printString, hchars]

/-! ## Values -/

mutual

theorem noControl_print (v : Json) : NoControl v.print := by
  cases v with
  | null => simp [print]
  | bool b => cases b <;> simp [print, printBool]
  | int n => exact noControl_printInt n
  | double d => exact noControl_printDouble d
  | str s => exact noControl_printString s
  | arr items => simp [print, noControl_printItems items]
  | obj members => simp [print, noControl_printMembers members]

theorem noControl_printItems (items : List Json) : NoControl (printItems items) := by
  match items with
  | [] => exact noControl_nil
  | [v] => exact noControl_print v
  | v :: w :: vs => simp [printItems, noControl_print v, noControl_printItems (w :: vs)]

theorem noControl_printMembers (members : List (String × Json)) :
    NoControl (printMembers members) := by
  match members with
  | [] => exact noControl_nil
  | [(k, v)] => simp [printMembers, noControl_printString k, noControl_print v]
  | (k, v) :: m :: ms =>
    simp [printMembers, noControl_printString k, noControl_print v, noControl_printMembers (m :: ms)]

end

end EditGate.Json
