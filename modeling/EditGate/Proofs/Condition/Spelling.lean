import EditGate.Condition.Lexeme
import EditGate.Proofs.Text.Trim
import Mathlib.Data.List.Basic

/-!
# How tokens are written

Tokens can be written in many ways: with any blanks between them, with two or three signs for a
comparison. `Spaced ts s` says that `s` is one of them. Blanks are only needed between tokens that
would merge, since a lexeme goes on as long as it can. However tokens are written, these and no
others are read back (`exists_scan_of_spaced`). Words have to be names, and a text may have any
characters, with a backslash before each double quote and each backslash.
-/

namespace EditGate.Condition

open Text (Blanks isBlank)

/-! ## Names -/

/-- A letter, an underscore or a dollar sign. -/
def IsLetter (c : Char) : Prop := ('A' ≤ c ∧ c ≤ 'Z') ∨ ('a' ≤ c ∧ c ≤ 'z') ∨ c = '_' ∨ c = '$'

def IsDigit (c : Char) : Prop := '0' ≤ c ∧ c ≤ '9'

/-- Begins with a letter, and has only letters and digits. -/
def IsName (w : String) : Prop :=
  (∃ c ∈ w.toList.head?, IsLetter c) ∧ ∀ c ∈ w.toList, IsLetter c ∨ IsDigit c

theorem IsName.exists_toList {w : String} (h : IsName w) :
    ∃ c cs, w.toList = c :: cs ∧ IsLetter c ∧ ∀ d ∈ cs, IsLetter d ∨ IsDigit d := by
  obtain ⟨⟨c, hhead, hc⟩, hall⟩ := h
  obtain ⟨cs, hcs⟩ := List.head?_eq_some_iff.mp hhead
  rw [hcs] at hall
  exact ⟨c, cs, hcs, hc, fun d hd => hall d (.tail c hd)⟩

theorem isWordStart_iff {c : Char} : isWordStart c = true ↔ IsLetter c := by
  have halpha : c.isAlpha = (decide (c.val ≥ 'A'.val ∧ c.val ≤ 'Z'.val) ||
      (decide (c.val ≥ 'a'.val) && decide (c.val ≤ 'z'.val))) := rfl
  simp only [isWordStart, IsLetter, halpha, Bool.or_eq_true, Bool.and_eq_true, decide_eq_true_eq,
    beq_iff_eq, Char.le_def, ge_iff_le, or_assoc]

theorem isDigit_iff {c : Char} : c.isDigit = true ↔ IsDigit c := by
  simp only [Char.isDigit, IsDigit, Bool.and_eq_true, decide_eq_true_eq, Char.le_def, ge_iff_le]

theorem isWordChar_iff {c : Char} : isWordChar c = true ↔ IsLetter c ∨ IsDigit c := by
  rw [← isWordStart_iff, ← isDigit_iff]
  simp only [isWordChar, isWordStart, Char.isAlphanum, Bool.or_eq_true]
  grind

instance (c : Char) : Decidable (IsLetter c) := decidable_of_iff _ isWordStart_iff

instance (c : Char) : Decidable (IsDigit c) := decidable_of_iff _ isDigit_iff

theorem isName_iff {w : String} :
    (w.toList.head?.any isWordStart && w.toList.all isWordChar) = true ↔ IsName w := by
  simp only [IsName, Bool.and_eq_true, Option.any_eq_true, List.all_eq_true, isWordStart_iff,
    isWordChar_iff, Option.mem_def]

instance (w : String) : Decidable (IsName w) := decidable_of_iff _ isName_iff

theorem isBlank_of_isWordChar {c : Char} (h : isWordChar c = true) : isBlank c = false := by
  have hc : c.toNat = c.val.toNat := rfl
  rw [isWordChar_iff] at h
  simp only [IsLetter, IsDigit, Char.le_def, UInt32.le_iff_toNat_le] at h
  rcases h with (hupper | hlower | rfl | rfl) | hdigit
  · change 65 ≤ c.val.toNat ∧ c.val.toNat ≤ 90 at hupper
    exact Text.isBlank_of_visible (by omega) (by omega)
  · change 97 ≤ c.val.toNat ∧ c.val.toNat ≤ 122 at hlower
    exact Text.isBlank_of_visible (by omega) (by omega)
  · decide
  · decide
  · change 48 ≤ c.val.toNat ∧ c.val.toNat ≤ 57 at hdigit
    exact Text.isBlank_of_visible (by omega) (by omega)

/-! ## Spellings -/

/-- The characters of a text as they stand between double quotes. -/
def escaped (s : List Char) : List Char :=
  s.flatMap fun c => if c = '\\' ∨ c = '"' then ['\\', c] else [c]

/-- How a token may be spelled. -/
def Token.spellings : Token → List (List Char)
  | word w => [w.toList]
  | text s => ['"' :: (escaped s.toList ++ ['"'])]
  | openParen => [['(']]
  | closeParen => [[')']]
  | comma => [[',']]
  | dot => [['.']]
  | bothOf => [['&', '&']]
  | eitherOf => [['|', '|']]
  | bang => [['!']]
  | same => [['=', '='], ['=', '=', '=']]
  | different => [['!', '='], ['!', '=', '=']]

/-- Whether two tokens may be read as others if nothing is between them. -/
def Token.merges : Token → Token → Bool
  | word _, word _ => true
  | bang, same | same, same | different, same => true
  | _, _ => false

/-- A text that has the tokens in order, each in one of its spellings, with any blanks around them
and with some between two that merge. -/
inductive Spaced : List Token → List Char → Prop where
  | nil {gap : List Char} : Blanks gap → Spaced [] gap
  | cons {t : Token} {ts : List Token} {gap x s : List Char} :
    Blanks gap → x ∈ t.spellings → Spaced ts s →
    (∀ u ∈ ts.head?, t.merges u = true → ∃ c ∈ s.head?, isBlank c = true) →
    Spaced (t :: ts) (gap ++ (x ++ s))

/-- A word is a name. -/
def Token.Legible (t : Token) : Prop := ∀ w, t = word w → IsName w

/-! ## One lexeme -/

/-- Whether a text that follows a token would be read as a part of it. -/
def Token.goesOn : Token → List Char → Bool
  | word _, s => continuesWord s
  | bang, '=' :: _ | same, '=' :: _ | different, '=' :: _ => true
  | _, _ => false

/-- The characters that begin a lexeme other than a word or a text. -/
def signs : List Char := ['(', ')', ',', '.', '&', '|', '=', '!']

variable {place : Nat} {c : Char} {s x : List Char} {t u : Token} {ts : List Token}

theorem scan_of_notMem_signs (h : c ∉ signs) :
    scan place (c :: s) =
      if isBlank c then scan (place + c.utf8Size) s
      else if c = '"' ∨ c = '\x27' then scanText place c [] (place + 1) s
      else if isWordStart c then
        if continuesWord s then scanWord place [c] (place + 1) s
        else withLexeme place (.word (String.singleton c)) (scan (place + 1) s)
      else .error (.unexpectedChar c place) := by
  rw [scan.eq_def]
  split
  case h_1 heq => cases heq
  case h_13 heq =>
    cases heq
    rfl
  all_goals
    rename_i heq
    cases heq
    exact absurd h (by decide)

theorem scan_bang (h : Token.bang.goesOn s = false) :
    scan place ('!' :: s) = withLexeme place .bang (scan (place + 1) s) := by
  rw [scan.eq_def]
  split
  case h_12 heq =>
    cases heq
    rfl
  case h_10 heq | h_11 heq =>
    cases heq
    cases h
  case h_13 hbang heq =>
    cases heq
    exact (hbang rfl).elim
  all_goals
    rename_i heq
    cases heq

theorem scan_same (h : Token.same.goesOn s = false) :
    scan place ('=' :: '=' :: s) = withLexeme place .same (scan (place + 2) s) := by
  rw [scan.eq_def]
  split
  case h_9 heq =>
    cases heq
    rfl
  case h_8 heq =>
    cases heq
    cases h
  case h_13 hsame _ _ _ heq =>
    cases heq
    exact (hsame s rfl rfl).elim
  all_goals
    rename_i heq
    cases heq

theorem scan_different (h : Token.different.goesOn s = false) :
    scan place ('!' :: '=' :: s) = withLexeme place .different (scan (place + 2) s) := by
  rw [scan.eq_def]
  split
  case h_11 heq =>
    cases heq
    rfl
  case h_10 heq =>
    cases heq
    cases h
  case h_12 hdifferent heq =>
    cases heq
    exact (hdifferent s rfl).elim
  case h_13 hbang heq =>
    cases heq
    exact (hbang rfl).elim
  all_goals
    rename_i heq
    cases heq

theorem notMem_signs_of_isBlank (h : isBlank c = true) : c ∉ signs := by
  intro hc
  have hall : signs.all (!isBlank ·) = true := by decide
  have hsign := List.all_eq_true.mp hall c hc
  rw [h] at hsign
  cases hsign

theorem notMem_signs_of_isWordChar (h : isWordChar c = true) : c ∉ signs := by
  intro hc
  have hall : signs.all (!isWordChar ·) = true := by decide
  have hsign := List.all_eq_true.mp hall c hc
  rw [h] at hsign
  cases hsign

theorem scan_blank (h : isBlank c = true) : scan place (c :: s) = scan (place + c.utf8Size) s := by
  rw [scan_of_notMem_signs (notMem_signs_of_isBlank h), if_pos h]

theorem exists_scan_blanks {gap : List Char} (h : Blanks gap) (place : Nat) (s : List Char) :
    ∃ place', scan place (gap ++ s) = scan place' s := by
  induction gap generalizing place with
  | nil => exact ⟨place, rfl⟩
  | cons c gap ih =>
    rw [List.cons_append, scan_blank (h c List.mem_cons_self)]
    exact ih (fun d hd => h d (.tail c hd)) _

/-- The rest of a word is read up to its end. -/
theorem exists_scanWord {start : Nat} {read cs : List Char} (hcs : ∀ d ∈ cs, isWordChar d = true)
    (hs : continuesWord s = false) (place : Nat) (c : Char) :
    ∃ place', scanWord start read place (c :: (cs ++ s)) =
      withLexeme start (.word (String.ofList (read.reverse ++ c :: cs))) (scan place' s) := by
  induction cs generalizing read place c with
  | nil =>
    refine ⟨place + 1, ?_⟩
    rw [List.nil_append, scanWord, hs, if_neg Bool.false_ne_true, List.reverse_cons]
  | cons d cs ih =>
    have hd : continuesWord (d :: (cs ++ s)) = true := hcs d List.mem_cons_self
    obtain ⟨place', h⟩ := ih (fun e he => hcs e (.tail d he)) (place + 1) d
    refine ⟨place', ?_⟩
    rw [List.cons_append, scanWord, if_pos hd, h, List.reverse_cons, List.append_assoc]
    rfl

theorem exists_scan_name {w : String} (hw : IsName w) (hs : continuesWord s = false) (place : Nat) :
    ∃ place', scan place (w.toList ++ s) = withLexeme place (.word w) (scan place' s) := by
  obtain ⟨c, cs, htoList, hc, hcs⟩ := hw.exists_toList
  have hstart : isWordStart c = true := isWordStart_iff.mpr hc
  have hchar : isWordChar c = true := isWordChar_iff.mpr (.inl hc)
  have hquote : ¬(c = '"' ∨ c = '\x27') := by
    rintro (rfl | rfl) <;> exact absurd hstart (by decide)
  have hw : w = String.ofList (c :: cs) := by rw [← htoList, String.ofList_toList]
  rw [htoList, List.cons_append, scan_of_notMem_signs (notMem_signs_of_isWordChar hchar),
    if_neg (Bool.eq_false_iff.mp (isBlank_of_isWordChar hchar)), if_neg hquote, if_pos hstart]
  cases cs with
  | nil =>
    refine ⟨place + 1, ?_⟩
    rw [List.nil_append, hs, if_neg Bool.false_ne_true, hw]
    rfl
  | cons d cs =>
    have hcs : ∀ e ∈ d :: cs, isWordChar e = true := fun e he => isWordChar_iff.mpr (hcs e he)
    have hd : continuesWord (d :: cs ++ s) = true := hcs d List.mem_cons_self
    rw [if_pos hd, hw]
    exact exists_scanWord (fun e he => hcs e (.tail d he)) hs (place + 1) d

/-- A text is read up to the quote that ends it. -/
theorem exists_scanText (start : Nat) (read cs s : List Char) (place : Nat) :
    ∃ place', scanText start '"' read place (escaped cs ++ '"' :: s) =
      withLexeme start (.text (String.ofList (read.reverse ++ cs))) (scan place' s) := by
  induction cs generalizing read place with
  | nil =>
    refine ⟨place + 1, ?_⟩
    rw [List.append_nil]
    change scanText start '"' read place ('"' :: s) = _
    rw [scanText] <;> simp
  | cons c cs ih =>
    have hread : (c :: read).reverse ++ cs = read.reverse ++ c :: cs := by simp
    -- only a quote and a backslash are written with a backslash before them
    by_cases hc : c = '\\' ∨ c = '"'
    · obtain ⟨place', h⟩ := ih (c :: read) (place + 1 + c.utf8Size)
      refine ⟨place', ?_⟩
      have hescaped : escaped (c :: cs) = '\\' :: c :: escaped cs := by
        rw [escaped, List.flatMap_cons, if_pos hc]
        rfl
      rw [hescaped, List.cons_append, List.cons_append, scanText, h, hread]
    · obtain ⟨place', h⟩ := ih (c :: read) (place + c.utf8Size)
      refine ⟨place', ?_⟩
      have hescaped : escaped (c :: cs) = c :: escaped cs := by
        rw [escaped, List.flatMap_cons, if_neg hc]
        rfl
      rw [not_or] at hc
      rw [hescaped, List.cons_append, scanText, if_neg hc.2, h, hread]
      · exact fun h _ => hc.1 h
      · exact fun d t h _ => hc.1 h

/-- A token in one of its spellings is read as this token, unless it goes on. -/
theorem exists_scan_spelling (ht : t.Legible) (hx : x ∈ t.spellings) (hs : t.goesOn s = false)
    (place : Nat) : ∃ place', scan place (x ++ s) = withLexeme place t (scan place' s) := by
  cases t with
  | word w =>
    obtain rfl := List.mem_singleton.mp hx
    exact exists_scan_name (ht w rfl) hs place
  | text str =>
    obtain rfl := List.mem_singleton.mp hx
    obtain ⟨place', h⟩ := exists_scanText place [] str.toList s (place + 1)
    refine ⟨place', ?_⟩
    have hquote : '"' ∉ signs := by decide
    rw [List.cons_append, scan_of_notMem_signs hquote, if_neg (by decide), if_pos (.inl rfl),
      List.append_assoc]
    change scanText place '"' [] (place + 1) (escaped str.toList ++ '"' :: s) = _
    rw [h, List.reverse_nil, List.nil_append, String.ofList_toList]
  | bang =>
    obtain rfl := List.mem_singleton.mp hx
    exact ⟨place + 1, scan_bang hs⟩
  | same =>
    rcases List.mem_pair.mp hx with rfl | rfl
    · exact ⟨place + 2, scan_same hs⟩
    · exact ⟨place + 3, rfl⟩
  | different =>
    rcases List.mem_pair.mp hx with rfl | rfl
    · exact ⟨place + 2, scan_different hs⟩
    · exact ⟨place + 3, rfl⟩
  | bothOf =>
    obtain rfl := List.mem_singleton.mp hx
    exact ⟨place + 2, rfl⟩
  | eitherOf =>
    obtain rfl := List.mem_singleton.mp hx
    exact ⟨place + 2, rfl⟩
  | _ =>
    obtain rfl := List.mem_singleton.mp hx
    exact ⟨place + 1, rfl⟩

/-! ## Many lexemes -/

/-- A spelling begins with no blank; only a word begins like one, and only one token begins with an
equals sign. -/
theorem head_of_mem_spellings (ht : t.Legible) (hx : x ∈ t.spellings) :
    ∃ c y, x = c :: y ∧ isBlank c = false ∧ (isWordChar c = true → ∃ w, t = .word w) ∧
      (c = '=' → t = .same) := by
  cases t with
  | word w =>
    obtain rfl := List.mem_singleton.mp hx
    obtain ⟨c, cs, h, hc, -⟩ := (ht w rfl).exists_toList
    refine ⟨c, cs, h, isBlank_of_isWordChar (isWordChar_iff.mpr (.inl hc)), fun _ => ⟨w, rfl⟩, ?_⟩
    rintro rfl
    exact absurd hc (by decide)
  | same =>
    rcases List.mem_pair.mp hx with rfl | rfl
    · exact ⟨_, _, rfl, by decide, fun h => absurd h (by decide), fun _ => rfl⟩
    · exact ⟨_, _, rfl, by decide, fun h => absurd h (by decide), fun _ => rfl⟩
  | different =>
    rcases List.mem_pair.mp hx with rfl | rfl
    · exact ⟨_, _, rfl, by decide, fun h => absurd h (by decide), fun h => absurd h (by decide)⟩
    · exact ⟨_, _, rfl, by decide, fun h => absurd h (by decide), fun h => absurd h (by decide)⟩
  | _ =>
    obtain rfl := List.mem_singleton.mp hx
    exact ⟨_, _, rfl, by decide, fun h => absurd h (by decide), fun h => absurd h (by decide)⟩

/-- A token does not go on where a blank follows. -/
theorem goesOn_of_isBlank (t : Token) (h : isBlank c = true) : t.goesOn (c :: s) = false := by
  have hequals : c ≠ '=' := by
    rintro rfl
    exact absurd h (by decide)
  cases t with
  | word w =>
    refine Bool.eq_false_iff.mpr fun hchar => ?_
    exact Bool.noConfusion (h.symm.trans (isBlank_of_isWordChar hchar))
  | _ => simp [Token.goesOn, hequals]

/-- A token does not go on where one follows that it does not merge with. -/
theorem goesOn_of_not_merges (hu : u.Legible) (hx : x ∈ u.spellings) (h : t.merges u = false) :
    t.goesOn (x ++ s) = false := by
  obtain ⟨c, y, rfl, -, hword, hequals⟩ := head_of_mem_spellings hu hx
  cases t with
  | word w =>
    refine Bool.eq_false_iff.mpr fun hchar => ?_
    obtain ⟨w', rfl⟩ := hword hchar
    cases h
  | bang =>
    have hc : c ≠ '=' := fun hc => by cases hequals hc; cases h
    simp [Token.goesOn, hc]
  | same =>
    have hc : c ≠ '=' := fun hc => by cases hequals hc; cases h
    simp [Token.goesOn, hc]
  | different =>
    have hc : c ≠ '=' := fun hc => by cases hequals hc; cases h
    simp [Token.goesOn, hc]
  | _ => rfl

/-- Where tokens are written behind another one, this one does not go on. -/
theorem goesOn_of_spaced (hts : ∀ u ∈ ts, u.Legible) (h : Spaced ts s)
    (hmerges : ∀ u ∈ ts.head?, t.merges u = true → ∃ c ∈ s.head?, isBlank c = true) :
    t.goesOn s = false := by
  have hgap : ∀ {gap r}, Blanks gap → gap ≠ [] → t.goesOn (gap ++ r) = false := by
    intro gap r hgap hne
    obtain ⟨c, gap, rfl⟩ := List.exists_cons_of_ne_nil hne
    exact goesOn_of_isBlank t (hgap c List.mem_cons_self)
  cases h with
  | @nil gap hblanks =>
    by_cases hne : s = []
    · subst hne
      cases t <;> rfl
    · rw [← List.append_nil s]
      exact hgap hblanks hne
  | @cons u ts gap x r hblanks hx hr hblank =>
    by_cases hne : gap = []
    · subst hne
      have hu := hts u List.mem_cons_self
      rw [List.nil_append] at hmerges ⊢
      -- with nothing between them, the next token must be one that this one does not merge with
      refine goesOn_of_not_merges hu hx (Bool.eq_false_iff.mpr fun hm => ?_)
      obtain ⟨c, hc, hcblank⟩ := hmerges u rfl hm
      obtain ⟨d, y, rfl, hd, -⟩ := head_of_mem_spellings hu hx
      cases hc
      exact Bool.noConfusion (hcblank.symm.trans hd)
    · exact hgap hblanks hne

theorem spellings_ne_nil (t : Token) : t.spellings ≠ [] := by
  cases t <;> exact List.cons_ne_nil _ _

theorem Spaced.blank (h : Spaced ts s) (hc : isBlank c = true) : Spaced ts (c :: s) := by
  have hblanks : ∀ {gap}, Blanks gap → Blanks (c :: gap) := fun hgap =>
    List.forall_mem_cons.mpr ⟨hc, hgap⟩
  cases h with
  | nil hgap => exact .nil (hblanks hgap)
  | cons hgap hx hs hmerges => exact .cons (hblanks hgap) hx hs hmerges

/-- All tokens can be written, with a blank behind each. -/
theorem exists_spaced (ts : List Token) : ∃ s, Spaced ts s := by
  induction ts with
  | nil => exact ⟨[], .nil Text.blanks_nil⟩
  | cons t ts ih =>
    obtain ⟨s, hs⟩ := ih
    obtain ⟨x, hx⟩ := List.exists_mem_of_ne_nil _ (spellings_ne_nil t)
    have hspace : isBlank ' ' = true := by decide
    refine ⟨[] ++ (x ++ ' ' :: s), .cons Text.blanks_nil hx (hs.blank hspace) fun u _ _ => ?_⟩
    exact ⟨' ', rfl, hspace⟩

/-- However tokens are written, they are read back. -/
theorem exists_scan_of_spaced (hts : ∀ t ∈ ts, t.Legible) (h : Spaced ts s) (place : Nat) :
    ∃ ls, scan place s = .ok ls ∧ ls.map Lexeme.token = ts := by
  induction h generalizing place with
  | nil hblanks =>
    obtain ⟨place', h⟩ := exists_scan_blanks hblanks place []
    rw [List.append_nil] at h
    exact ⟨[], h.trans rfl, rfl⟩
  | @cons t ts gap x s hblanks hx hs hmerges ih =>
    have hrest : ∀ u ∈ ts, u.Legible := fun u hu => hts u (.tail t hu)
    obtain ⟨start, hgap⟩ := exists_scan_blanks hblanks place (x ++ s)
    obtain ⟨place', htoken⟩ := exists_scan_spelling (hts t List.mem_cons_self) hx
      (goesOn_of_spaced hrest hs hmerges) start
    obtain ⟨ls, hls, htokens⟩ := ih hrest place'
    refine ⟨⟨start, t⟩ :: ls, ?_, by rw [List.map_cons, htokens]⟩
    rw [hgap, htoken, hls]
    rfl

end EditGate.Condition
