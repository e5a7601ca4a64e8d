import EditGate.Proofs.Json.ReadBack

/-!
# Escapes

Between quotes a character stands for itself unless it is a quote, a backslash or a control. An
escape is longer than what it stands for, and this is already seen by counting backslashes and the
letter of the numbered units (`marks`): no reading has more of these than what is read, and if it
has as many, there was no escape (`Spells.marks_le`). So if all that was counted in a text is found
in the names of an object read from it, the names stand there as they are (`readMembers_marks`).
-/

namespace EditGate.Json

variable {s t raw rest : List Char} {pieces : List Piece}

/-! ## The end of what is read -/

theorem skipSpace_suffix (s : List Char) : skipSpace s <:+ s := List.dropWhile_suffix _

theorem readDigits_suffix (s : List Char) : (readDigits s).2 <:+ s := List.dropWhile_suffix _

theorem readFraction_suffix {digits : Option (List Nat)} (h : readFraction s = some (digits, rest)) :
    rest <:+ s := by
  unfold readFraction at h
  split at h
  · simp only [Option.ite_none_left_eq_some, Option.some.injEq, Prod.mk.injEq] at h
    obtain ⟨-, -, rfl⟩ := h
    exact (readDigits_suffix _).trans (List.suffix_cons _ _)
  · obtain ⟨-, rfl⟩ := Prod.mk.inj (Option.some.inj h)
    exact List.suffix_refl _

theorem readExponentSign_suffix (s : List Char) : (readExponentSign s).2 <:+ s := by
  unfold readExponentSign
  split
  · exact List.suffix_cons _ _
  · exact List.suffix_cons _ _
  · exact List.suffix_refl _

theorem readExponent_suffix {exponent : Option (Bool × List Nat)}
    (h : readExponent s = some (exponent, rest)) : rest <:+ s := by
  unfold readExponent at h
  split at h
  · obtain ⟨-, rfl⟩ := Prod.mk.inj (Option.some.inj h)
    exact List.suffix_refl _
  · split at h
    · simp only [Option.ite_none_left_eq_some, Option.some.injEq, Prod.mk.injEq] at h
      obtain ⟨-, -, rfl⟩ := h
      exact ((readDigits_suffix _).trans (readExponentSign_suffix _)).trans (List.suffix_cons _ _)
    · obtain ⟨-, rfl⟩ := Prod.mk.inj (Option.some.inj h)
      exact List.suffix_refl _

theorem readNumeral_suffix {negative : Bool} {n : Decimal.Numeral}
    (h : readNumeral negative s = some (n, rest)) : rest <:+ s := by
  unfold readNumeral at h
  simp only [Option.ite_none_left_eq_some, Option.bind_eq_bind, Option.bind_eq_some_iff,
    Option.pure_def, Option.some.injEq, Prod.mk.injEq] at h
  obtain ⟨-, ⟨fraction, s₁⟩, hfraction, ⟨exponent, s₂⟩, hexponent, -, rfl⟩ := h
  exact ((readExponent_suffix hexponent).trans (readFraction_suffix hfraction)).trans
    (readDigits_suffix s)

theorem readWord_suffix {word : List Char} (h : readWord word s = some rest) : rest <:+ s := by
  induction word generalizing s with
  | nil =>
    obtain rfl := Option.some.inj h
    exact List.suffix_refl _
  | cons w word ih =>
    cases s with
    | nil => simp [readWord] at h
    | cons c s =>
      rw [readWord] at h
      split at h
      · exact (ih h).trans (List.suffix_cons _ _)
      · exact absurd h (by simp)

/-! ## Strings -/

/-- A character that stands for itself between quotes. -/
def IsLiteral (c : Char) : Prop := c ≠ '"' ∧ c ≠ '\\' ∧ 0x20 ≤ c.toNat

instance : DecidablePred IsLiteral := fun c =>
  inferInstanceAs (Decidable (c ≠ '"' ∧ c ≠ '\\' ∧ 0x20 ≤ c.toNat))

/-- What is written between the quotes of a string, and the pieces that it is read as. -/
inductive Spells : List Char → List Piece → Prop where
  | nil : Spells [] []
  | literal {c : Char} {raw : List Char} {pieces : List Piece} : IsLiteral c → Spells raw pieces →
      Spells (c :: raw) (.char c :: pieces)
  | escape {e c : Char} {raw : List Char} {pieces : List Piece} : escape? e = some c →
      Spells raw pieces → Spells ('\\' :: e :: raw) (.char c :: pieces)
  | unit {a b c d : Char} {n : Nat} {raw : List Char} {pieces : List Piece} :
      unit? a b c d = some n → Spells raw pieces →
      Spells ('\\' :: 'u' :: a :: b :: c :: d :: raw) (.unit n :: pieces)

/-- A string is read up to a quote. -/
theorem exists_spells (h : readPieces s = some (pieces, rest)) :
    ∃ raw, s = raw ++ '"' :: rest ∧ Spells raw pieces := by
  induction s using readPieces.induct generalizing pieces with
  | case1 => simp [readPieces] at h
  | case2 s =>
    obtain ⟨rfl, rfl⟩ := Prod.mk.inj (Option.some.inj h)
    exact ⟨[], rfl, .nil⟩
  | case3 a b c d s ih =>
    -- the four digits of a numbered unit
    rw [readPieces] at h
    simp only [Option.bind_eq_bind, Option.bind_eq_some_iff] at h
    obtain ⟨n, hn, ⟨tail, rest'⟩, htail, hh⟩ := h
    obtain ⟨rfl, rfl⟩ := Prod.mk.inj (Option.some.inj hh)
    obtain ⟨raw, rfl, hraw⟩ := ih htail
    exact ⟨_, rfl, .unit hn hraw⟩
  | case4 e s hunit ih =>
    rw [readPieces.eq_4 _ _ hunit] at h
    simp only [Option.bind_eq_bind, Option.bind_eq_some_iff] at h
    obtain ⟨c, hc, ⟨tail, rest'⟩, htail, hh⟩ := h
    obtain ⟨rfl, rfl⟩ := Prod.mk.inj (Option.some.inj hh)
    obtain ⟨raw, rfl, hraw⟩ := ih htail
    exact ⟨_, rfl, .escape hc hraw⟩
  | case5 c s hquote hunit hescape hbad =>
    -- a control character is not read
    rw [readPieces.eq_5 _ _ hquote hunit hescape, if_pos hbad] at h
    exact absurd h (by simp)
  | case6 c s hquote hunit hescape hgood ih =>
    rw [readPieces.eq_5 _ _ hquote hunit hescape, if_neg hgood] at h
    simp only [Option.bind_eq_bind, Option.bind_eq_some_iff] at h
    obtain ⟨⟨tail, rest'⟩, htail, hh⟩ := h
    obtain ⟨rfl, rfl⟩ := Prod.mk.inj (Option.some.inj hh)
    obtain ⟨raw, rfl, hraw⟩ := ih htail
    have hliteral : IsLiteral c := by
      simp only [Bool.or_eq_true, decide_eq_true_eq, not_or, Nat.not_lt] at hgood
      exact ⟨hquote, hgood.2, hgood.1⟩
    exact ⟨_, rfl, .literal hliteral hraw⟩

/-- A text of literal characters is read as it is, up to the quote behind it. -/
theorem readPieces_literal (h : ∀ c ∈ s, IsLiteral c) (rest : List Char) :
    readPieces (s ++ '"' :: rest) = some (s.map .char, rest) := by
  induction s with
  | nil => rfl
  | cons c s ih =>
    obtain ⟨⟨hquote, hslash, hcontrol⟩, hs⟩ := List.forall_mem_cons.mp h
    rw [List.cons_append, readPieces_char hquote hslash (Nat.not_lt.mpr hcontrol), ih hs,
      Option.map_some, List.map_cons]

/-! ## Counting -/

/-- The number of backslashes and of the letter of numbered units. -/
def marks (s : List Char) : Nat := s.countP fun c => c = '\\' ∨ c = 'u'

theorem marks_append (s t : List Char) : marks (s ++ t) = marks s + marks t := List.countP_append

theorem marks_cons (c : Char) (s : List Char) : marks (c :: s) = marks [c] + marks s := by
  rw [← List.singleton_append, marks_append]

theorem marks_singleton_le (c : Char) : marks [c] ≤ 1 := List.countP_le_length

/-- The number of characters among some pieces that are counted, where any unit may be one. -/
def pieceMarks : List Piece → Nat
  | [] => 0
  | .char c :: pieces => marks [c] + pieceMarks pieces
  | .unit _ :: pieces => 1 + pieceMarks pieces

theorem marks_escape {e c : Char} (h : escape? e = some c) : marks [c] < marks ['\\', e] := by
  unfold escape? at h
  split at h <;> first | (obtain rfl := Option.some.inj h; decide) | exact absurd h (by simp)

/-- Pieces have no more that is counted than what they are read from, and less if there was an
escape. -/
theorem Spells.marks_le (h : Spells raw pieces) :
    pieceMarks pieces ≤ marks raw ∧
      (pieceMarks pieces = marks raw → pieces = raw.map .char ∧ ∀ c ∈ raw, IsLiteral c) := by
  induction h with
  | nil => exact ⟨Nat.le_refl _, fun _ => ⟨rfl, fun c hc => absurd hc List.not_mem_nil⟩⟩
  | @literal c raw pieces hc _ ih =>
    have hraw := marks_cons c raw
    rw [pieceMarks, hraw]
    refine ⟨Nat.add_le_add_left ih.1 _, fun heq => ?_⟩
    obtain ⟨rfl, hliteral⟩ := ih.2 (Nat.add_left_cancel heq)
    exact ⟨rfl, List.forall_mem_cons.mpr ⟨hc, hliteral⟩⟩
  | @escape e c raw pieces he _ ih =>
    have hlt := marks_escape he
    have hraw : marks ('\\' :: e :: raw) = marks ['\\', e] + marks raw :=
      marks_append ['\\', e] raw
    rw [pieceMarks, hraw]
    omega
  | @unit a b c d n raw pieces _ _ ih =>
    have hraw : marks ('\\' :: 'u' :: a :: b :: c :: d :: raw) =
        marks ['\\', 'u'] + (marks [a, b, c, d] + marks raw) := by
      rw [← marks_append, ← marks_append]
      rfl
    have htwo : marks ['\\', 'u'] = 2 := by decide
    rw [pieceMarks, hraw]
    omega

theorem marks_cons_le (c : Char) (s : List Char) : marks (c :: s) ≤ 1 + marks s := by
  have hle := marks_singleton_le c
  have hcons := marks_cons c s
  omega

/-- Characters have no more that is counted than their pieces. -/
theorem marks_le_of_characters? {cs : List Char} (h : characters? pieces = some cs) :
    marks cs ≤ pieceMarks pieces := by
  induction pieces using characters?.induct generalizing cs with
  | case1 =>
    obtain rfl := Option.some.inj h
    exact Nat.le_refl _
  | case2 c s ih =>
    rw [characters?] at h
    obtain ⟨tail, htail, rfl⟩ := Option.map_eq_some_iff.mp h
    have hcons := marks_cons c tail
    rw [pieceMarks, hcons]
    exact Nat.add_le_add_left (ih htail) _
  | case3 a b s hhigh hlow ih =>
    -- two halves are one character, and one of them counts for it
    rw [characters?, if_pos hhigh, if_pos hlow] at h
    obtain ⟨tail, htail, rfl⟩ := Option.map_eq_some_iff.mp h
    refine Nat.le_trans (marks_cons_le _ _) ?_
    rw [pieceMarks, pieceMarks]
    exact Nat.add_le_add_left (Nat.le_trans (ih htail) (Nat.le_add_left _ _)) _
  | case4 a b s hhigh hlow =>
    rw [characters?, if_pos hhigh, if_neg hlow] at h
    exact absurd h (by simp)
  | case5 a b s hhigh hlow =>
    rw [characters?, if_neg hhigh, if_pos hlow] at h
    exact absurd h (by simp)
  | case6 a b s hhigh hlow ih =>
    -- a unit that is no half is a character of its own
    rw [characters?, if_neg hhigh, if_neg hlow] at h
    obtain ⟨tail, htail, rfl⟩ := Option.map_eq_some_iff.mp h
    rw [pieceMarks]
    exact Nat.le_trans (marks_cons_le _ _) (Nat.add_le_add_left (ih htail) _)
  | case7 a s hnext hhalf =>
    rw [characters?.eq_4 _ _ hnext, if_pos hhalf] at h
    exact absurd h (by simp)
  | case8 a s hnext hhalf ih =>
    rw [characters?.eq_4 _ _ hnext, if_neg hhalf] at h
    obtain ⟨tail, htail, rfl⟩ := Option.map_eq_some_iff.mp h
    rw [pieceMarks]
    exact Nat.le_trans (marks_cons_le _ _) (Nat.add_le_add_left (ih htail) _)

theorem characters?_map_char (s : List Char) : characters? (s.map .char) = some s := by
  induction s with
  | nil => rfl
  | cons c s ih =>
    rw [List.map_cons, characters?, ih]
    rfl

/-- A string has no more that is counted than what is written for it, and if it has as much, it is
written as it is. -/
theorem Spells.string_marks_le {name : String} (h : Spells raw pieces)
    (hname : string? pieces = some name) :
    marks name.toList ≤ marks raw ∧
      (marks name.toList = marks raw → name.toList = raw ∧ ∀ c ∈ raw, IsLiteral c) := by
  obtain ⟨cs, hcs, rfl⟩ := Option.map_eq_some_iff.mp hname
  rw [String.toList_ofList]
  have hle := marks_le_of_characters? hcs
  obtain ⟨hpieces, hequal⟩ := h.marks_le
  refine ⟨Nat.le_trans hle hpieces, fun heq => ?_⟩
  obtain ⟨rfl, hliteral⟩ := hequal (by omega)
  rw [characters?_map_char] at hcs
  exact ⟨(Option.some.inj hcs).symm, hliteral⟩

/-! ## Values -/

theorem readPieces_suffix (h : readPieces s = some (pieces, rest)) : rest <:+ s := by
  obtain ⟨raw, rfl, -⟩ := exists_spells h
  exact ⟨raw ++ ['"'], by simp⟩

theorem suffix_of_skipSpace {c : Char} (h : skipSpace s = c :: t) (ht : rest <:+ t) : rest <:+ s :=
  (ht.trans (List.suffix_cons c t)).trans (h ▸ skipSpace_suffix s)

/-- What a reader leaves is left too when its value is only wrapped. -/
theorem exists_of_wrapped {α β : Type} {found : Option (α × List Char)}
    {wrap : α × List Char → Option (β × List Char)} {value : β}
    (hwrap : ∀ x, (wrap x).map Prod.snd = some x.2)
    (h : (found >>= wrap) = some (value, rest)) : ∃ a, found = some (a, rest) := by
  obtain ⟨⟨a, r⟩, hfound, hvalue⟩ := Option.bind_eq_some_iff.mp h
  have hrest : rest = r := by simpa [hvalue] using hwrap (a, r)
  exact ⟨a, hrest ▸ hfound⟩

/-- An object is read behind its brace. -/
theorem readTree_object_cases {fuel : Nat} {members : List (List Piece × Tree)}
    (h : readTree (fuel + 1) s = some (.object members, rest)) :
    ∃ t, skipSpace s = '\x7b' :: t ∧
      (members = [] ∨ readMembers fuel (skipSpace t) = some (members, rest)) := by
  rw [readTree] at h
  split at h
  · exact absurd h (by simp)
  · split at h
    · simp at h
    · simp [Option.bind_eq_some_iff] at h
  · rename_i t heq
    refine ⟨t, heq, ?_⟩
    split at h
    · obtain ⟨hmembers, -⟩ := Prod.mk.inj (Option.some.inj h)
      exact .inl (Tree.object.inj hmembers).symm
    · simp only [Option.bind_eq_bind, Option.bind_eq_some_iff] at h
      obtain ⟨⟨ms, r⟩, hread, hh⟩ := h
      obtain ⟨hmembers, rfl⟩ := Prod.mk.inj (Option.some.inj hh)
      exact .inr ((Tree.object.inj hmembers) ▸ hread)
  · simp [Option.bind_eq_some_iff] at h
  · simp [Option.bind_eq_some_iff] at h
  · split at h
    · simp [Option.bind_eq_some_iff] at h
    · split at h
      · simp at h
      · split at h
        · simp at h
        · split at h
          · simp at h
          · simp at h

/-- An object has a first member, and then either others behind a comma or its end. -/
theorem readMembers_cases {fuel : Nat} {members : List (List Piece × Tree)}
    (h : readMembers (fuel + 1) s = some (members, rest)) :
    ∃ t name r value item r', skipSpace s = '"' :: t ∧ readPieces t = some (name, r) ∧
      skipSpace r = ':' :: value ∧ readTree fuel value = some (item, r') ∧
      ((∃ next more, skipSpace r' = ',' :: next ∧ readMembers fuel next = some (more, rest) ∧
          members = (name, item) :: more) ∨
        (skipSpace r' = '\x7d' :: rest ∧ members = [(name, item)])) := by
  rw [readMembers] at h
  split at h
  · rename_i t hquote
    simp only [Option.bind_eq_bind, Option.bind_eq_some_iff] at h
    obtain ⟨⟨name, r⟩, hname, h⟩ := h
    split at h
    · rename_i value hcolon
      simp only [Option.bind_eq_some_iff] at h
      obtain ⟨⟨item, r'⟩, hitem, h⟩ := h
      refine ⟨t, name, r, value, item, r', hquote, hname, hcolon, hitem, ?_⟩
      split at h
      · rename_i next hcomma
        simp only [Option.bind_eq_some_iff] at h
        obtain ⟨⟨more, r''⟩, hmore, hh⟩ := h
        obtain ⟨rfl, rfl⟩ := Prod.mk.inj (Option.some.inj hh)
        exact .inl ⟨next, more, hcomma, hmore, rfl⟩
      · rename_i next hbrace
        obtain ⟨rfl, rfl⟩ := Prod.mk.inj (Option.some.inj h)
        exact .inr ⟨hbrace, rfl⟩
      · exact absurd h (by simp)
    · exact absurd h (by simp)
  · exact absurd h (by simp)

section

variable {fuel : Nat}
  (hitems : ∀ {s rest items}, readItems fuel s = some (items, rest) → rest <:+ s)
  (hmembers : ∀ {s rest members}, readMembers fuel s = some (members, rest) → rest <:+ s)
  (htree : ∀ {s rest tree}, readTree fuel s = some (tree, rest) → rest <:+ s)

include hitems hmembers in
theorem readTree_suffix_step {tree : Tree} (h : readTree (fuel + 1) s = some (tree, rest)) :
    rest <:+ s := by
  rw [readTree] at h
  split at h
  · exact absurd h (by simp)
  · rename_i t heq
    refine suffix_of_skipSpace heq ?_
    split at h
    · rename_i hclose
      obtain ⟨-, rfl⟩ := Prod.mk.inj (Option.some.inj h)
      exact suffix_of_skipSpace hclose (List.suffix_refl _)
    · obtain ⟨_, hread⟩ := exists_of_wrapped (fun _ => rfl) h
      exact (hitems hread).trans (skipSpace_suffix t)
  · rename_i t heq
    refine suffix_of_skipSpace heq ?_
    split at h
    · rename_i hclose
      obtain ⟨-, rfl⟩ := Prod.mk.inj (Option.some.inj h)
      exact suffix_of_skipSpace hclose (List.suffix_refl _)
    · obtain ⟨_, hread⟩ := exists_of_wrapped (fun _ => rfl) h
      exact (hmembers hread).trans (skipSpace_suffix t)
  · rename_i t heq
    obtain ⟨_, hread⟩ := exists_of_wrapped (fun _ => rfl) h
    exact suffix_of_skipSpace heq (readPieces_suffix hread)
  · rename_i t heq
    obtain ⟨_, hread⟩ := exists_of_wrapped (fun _ => rfl) h
    exact suffix_of_skipSpace heq (readNumeral_suffix hread)
  · rename_i c t hbracket hbrace hquote hminus heq
    split at h
    · obtain ⟨_, hread⟩ := exists_of_wrapped (fun _ => rfl) h
      exact (readNumeral_suffix hread).trans (heq ▸ skipSpace_suffix s)
    · -- the words
      have hword : ∀ {word : List Char} {value : Tree},
          (readWord word t).map (value, ·) = some (tree, rest) → rest <:+ t := by
        intro word value hmap
        obtain ⟨r, hread, hh⟩ := Option.map_eq_some_iff.mp hmap
        obtain ⟨-, rfl⟩ := Prod.mk.inj hh
        exact readWord_suffix hread
      refine suffix_of_skipSpace heq ?_
      split at h
      · exact hword h
      · split at h
        · exact hword h
        · split at h
          · exact hword h
          · exact absurd h (by simp)

include hitems htree in
theorem readItems_suffix_step {items : List Tree}
    (h : readItems (fuel + 1) s = some (items, rest)) : rest <:+ s := by
  rw [readItems] at h
  simp only [Option.bind_eq_bind, Option.bind_eq_some_iff] at h
  obtain ⟨⟨item, r⟩, hread, h⟩ := h
  refine List.IsSuffix.trans ?_ (htree hread)
  split at h
  · rename_i hcomma
    obtain ⟨_, hmore⟩ := exists_of_wrapped (fun _ => rfl) h
    exact suffix_of_skipSpace hcomma (hitems hmore)
  · rename_i hclose
    obtain ⟨-, rfl⟩ := Prod.mk.inj (Option.some.inj h)
    exact suffix_of_skipSpace hclose (List.suffix_refl _)
  · exact absurd h (by simp)

include hmembers htree in
theorem readMembers_suffix_step {members : List (List Piece × Tree)}
    (h : readMembers (fuel + 1) s = some (members, rest)) : rest <:+ s := by
  obtain ⟨t, name, r, value, item, r', hquote, hname, hcolon, hitem, hend⟩ := readMembers_cases h
  have hrest : rest <:+ r' := by
    rcases hend with ⟨next, more, hcomma, hmore, -⟩ | ⟨hbrace, -⟩
    · exact suffix_of_skipSpace hcomma (hmembers hmore)
    · exact suffix_of_skipSpace hbrace (List.suffix_refl _)
  have hvalue : rest <:+ r := suffix_of_skipSpace hcolon (hrest.trans (htree hitem))
  exact suffix_of_skipSpace hquote (hvalue.trans (readPieces_suffix hname))

end

/-- What is left after reading is the end of the text. -/
theorem read_suffix (fuel : Nat) :
    (∀ {s rest tree}, readTree fuel s = some (tree, rest) → rest <:+ s) ∧
      (∀ {s rest items}, readItems fuel s = some (items, rest) → rest <:+ s) ∧
      ∀ {s rest members}, readMembers fuel s = some (members, rest) → rest <:+ s := by
  induction fuel with
  | zero =>
    refine ⟨fun h => ?_, fun h => ?_, fun h => ?_⟩
    · simp [readTree] at h
    · simp [readItems] at h
    · simp [readMembers] at h
  | succ fuel ih =>
    obtain ⟨htree, hitems, hmembers⟩ := ih
    exact ⟨readTree_suffix_step hitems hmembers, readItems_suffix_step hitems htree,
      readMembers_suffix_step hmembers htree⟩

theorem marks_le_of_suffix (h : s <:+ t) : marks s ≤ marks t := h.sublist.countP_le

/-! ## Names of members -/

/-- How much is counted in some names. -/
def nameMarks : List String → Nat
  | [] => 0
  | name :: names => marks name.toList + nameMarks names

/-- The name of a member and what is left after its value have no more that is counted than the text
that they are read from; if they have as much, the name stands there as it is. -/
theorem member_marks {fuel : Nat} {r r' value : List Char} {item : Tree} {name : String}
    (hquote : skipSpace s = '"' :: t) (hpieces : readPieces t = some (pieces, r))
    (hname : string? pieces = some name) (hcolon : skipSpace r = ':' :: value)
    (hitem : readTree fuel value = some (item, r')) :
    r' <:+ s ∧ marks name.toList + marks r' ≤ marks s ∧
      (marks name.toList + marks r' = marks s →
        ∀ c ∈ name.toList, c ∈ s ∧ IsLiteral c) := by
  obtain ⟨raw, rfl, hspells⟩ := exists_spells hpieces
  obtain ⟨hle, hequal⟩ := hspells.string_marks_le hname
  have hopen : '"' :: (raw ++ '"' :: r) <:+ s := hquote ▸ skipSpace_suffix s
  have hvalue : r' <:+ r := suffix_of_skipSpace hcolon ((read_suffix fuel).1 hitem)
  have hafter : r <:+ '"' :: (raw ++ '"' :: r) := ⟨'"' :: raw ++ ['"'], by simp⟩
  -- what is counted of the text, part by part
  have hs : marks raw + marks r ≤ marks s := by
    refine Nat.le_trans ?_ (marks_le_of_suffix hopen)
    have hclose := marks_cons '"' r
    have hall := marks_cons '"' (raw ++ '"' :: r)
    rw [marks_append] at hall
    omega
  have hr := marks_le_of_suffix hvalue
  refine ⟨(hvalue.trans hafter).trans hopen, by omega, fun heq c hc => ?_⟩
  obtain ⟨hsame, hliteral⟩ := hequal (by omega)
  rw [hsame] at hc
  exact ⟨hopen.subset (by simp [hc]), hliteral c hc⟩

/-- The names of members have no more that is counted than the text that the members are read from.
If they have as much, they stand in the text as they are. -/
theorem readMembers_marks {fuel : Nat} {members : List (List Piece × Tree)} {names : List String}
    (h : readMembers fuel s = some (members, rest))
    (hnames : members.map (fun m => string? m.1) = names.map some) :
    nameMarks names + marks rest ≤ marks s ∧
      (nameMarks names + marks rest = marks s →
        ∀ name ∈ names, ∀ c ∈ name.toList, c ∈ s ∧ IsLiteral c) := by
  induction fuel generalizing s members names with
  | zero => simp [readMembers] at h
  | succ fuel ih =>
    obtain ⟨t, pieces, r, value, item, r', hquote, hpieces, hcolon, hitem, hend⟩ :=
      readMembers_cases h
    rcases hend with ⟨next, more, hcomma, hmore, rfl⟩ | ⟨hbrace, rfl⟩
    · -- a member before others
      obtain ⟨name, names, rfl⟩ : ∃ name names', names = name :: names' :=
        List.exists_cons_of_ne_nil (by rintro rfl; simp at hnames)
      obtain ⟨hname, hnames⟩ := List.cons.inj hnames
      obtain ⟨hsuffix, hle, hequal⟩ := member_marks hquote hpieces hname hcolon hitem
      obtain ⟨hle', hequal'⟩ := ih hmore hnames
      have hnext : next <:+ r' := suffix_of_skipSpace hcomma (List.suffix_refl _)
      have hmarks := marks_le_of_suffix hnext
      rw [nameMarks]
      -- if as much is counted in all, then so it is in this name and in the others
      refine ⟨by omega, fun heq => List.forall_mem_cons.mpr ⟨hequal (by omega), ?_⟩⟩
      intro n hn c hc
      obtain ⟨hmem, hliteral⟩ := hequal' (by omega) n hn c hc
      exact ⟨(hnext.trans hsuffix).subset hmem, hliteral⟩
    · -- the last member
      obtain ⟨name, hone⟩ : ∃ name, names = [name] :=
        List.length_eq_one_iff.mp (by simpa using (congrArg List.length hnames).symm)
      rw [hone] at hnames ⊢
      obtain ⟨-, hle, hequal⟩ :=
        member_marks hquote hpieces (List.cons.inj hnames).1 hcolon hitem
      have hmarks : marks rest ≤ marks r' :=
        marks_le_of_suffix (suffix_of_skipSpace hbrace (List.suffix_refl _))
      rw [nameMarks, nameMarks]
      refine ⟨by omega, fun heq n hn => ?_⟩
      rw [List.mem_singleton.mp hn]
      exact hequal (by omega)

end EditGate.Json
