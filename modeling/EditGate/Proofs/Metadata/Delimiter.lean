import EditGate.Proofs.Metadata.Edit

/-!
# Where an edited block ends

A block between delimiters ends at the first closing delimiter, a block of line comments at the
first line without its leader. An edit brings in no closing delimiter but those of the value that is
set (`Edit.closing_iff`): a value stands behind a colon or a blank, and no slash comes after it, so
none is made with the texts around it. The lines that an edit brings in start with the leader
(`Edit.continues`).
-/

namespace EditGate

open Text Cell

variable {b : Block} {f : Field} {s t v top top' : List Char} {more more' : List (List Char)}

/-! ## Closing delimiters -/

theorem slash_mem_of_closing (h : closing <:+: s) : '/' ∈ s := List.IsInfix.mem (by decide) h

/-- A delimiter in two texts is in one of them, unless they share it. -/
theorem closing_infix_append_iff (h : s.getLast? ≠ some '*' ∨ t.head? ≠ some '/') :
    closing <:+: s ++ t ↔ closing <:+: s ∨ closing <:+: t := by
  have hnil : ¬ closing <:+: ([] : List Char) := by decide
  induction s with
  | nil => simp [hnil]
  | cons c s ih =>
    have hs : s.getLast? ≠ some '*' ∨ t.head? ≠ some '/' := by
      refine h.imp_left fun hc hl => hc ?_
      rw [List.getLast?_cons, hl, Option.getD_some]
    have hpre : closing <+: c :: (s ++ t) ↔ closing <+: c :: s := by
      rw [closing, List.cons_prefix_cons, List.cons_prefix_cons]
      cases s with
      | nil =>
        refine and_congr_right fun hc => ?_
        subst hc
        cases t with
        | nil => simp
        | cons d t =>
          have : d ≠ '/' := by simpa using h
          simp [Ne.symm this]
      | cons d s => simp
    rw [List.cons_append, List.infix_cons_iff, hpre, List.infix_cons_iff, or_assoc]
    exact or_congr_right (ih hs)

/-- A value makes no delimiter with what stands around it, if that does not end with a star before
it and start with a slash after it. -/
theorem closing_infix_around_iff {s t : List Char} (hlast : s.getLast? ≠ some '*')
    (hhead : t.head? ≠ some '/') (hs : ¬ closing <:+: s) (ht : ¬ closing <:+: t) :
    closing <:+: s ++ v ++ t ↔ closing <:+: v := by
  rw [List.append_assoc, closing_infix_append_iff (.inl hlast),
    closing_infix_append_iff (.inr hhead)]
  simp [hs, ht]

theorem getLast?_ne_star_of_isBlank {c : Char} (hc : isBlank c = true) (s : List Char) :
    (s ++ [c]).getLast? ≠ some '*' := by
  rw [List.getLast?_concat, Ne, Option.some.injEq]
  rintro rfl
  exact absurd hc (by decide)

/-- A colon or a blank stands before a value. -/
theorem Cell.Opening.getLast?_ne_star {l : Option (List Char)} {front : List Char}
    (h : Opening l f front) (s : List Char) : (s ++ front).getLast? ≠ some '*' := by
  obtain @⟨P, b, pad, -, -, hpad⟩ := h
  rcases List.eq_nil_or_concat pad with rfl | ⟨pad, c, rfl⟩
  · rw [← List.append_assoc, ← List.append_assoc, ← List.append_assoc, List.getLast?_concat]
    decide
  · have hline : s ++ (P ++ (f.keyText ++ (b ++ ':' :: pad.concat c))) =
        (s ++ (P ++ (f.keyText ++ (b ++ ':' :: pad)))) ++ [c] := by simp
    rw [hline]
    exact getLast?_ne_star_of_isBlank (hpad c (by simp)) _

/-- No slash stands behind a value. -/
theorem Cell.Tail.head?_ne_slash {back : List Char} (h : Tail back) (lines : List (List Char)) :
    (back ++ Block.unlines lines).head? ≠ some '/' := by
  have hblank : ∀ {a s : List Char}, Blanks a → s.head? ≠ some '/' →
      (a ++ s).head? ≠ some '/' := by
    intro a s ha hs
    cases a with
    | nil => exact hs
    | cons c a =>
      rw [List.cons_append, List.head?_cons, Ne, Option.some.injEq]
      rintro rfl
      exact absurd (ha _ List.mem_cons_self) (by decide)
  cases h with
  | blanks hb =>
    refine hblank hb ?_
    cases lines <;> simp
  | delimiter ha hb =>
    rw [List.append_assoc, List.append_assoc]
    exact hblank ha (by simp [closing])

/-- The start of an inserted line holds no delimiter. -/
theorem not_closing_opening (hlead : '/' ∉ b.lead) (f : Field) (hs : ¬ closing <:+: s) :
    ¬ closing <:+: s ++ '\n' :: (b.lead ++ '@' :: f.keyText ++ [':', ' ']) := by
  rw [closing_infix_append_iff (.inr (by simp))]
  rintro (h | h)
  · exact hs h
  · have := slash_mem_of_closing h
    simp [hlead, f.slash_notMem_keyText] at this

theorem not_closing_left (h : ¬ closing <:+: s ++ t) : ¬ closing <:+: s := fun hs =>
  h (List.infix_append_of_infix_left hs)

theorem not_closing_right (h : ¬ closing <:+: s ++ t) : ¬ closing <:+: t := fun ht =>
  h (List.infix_append_of_infix_right ht)

/-- An inserted line holds no delimiter but those of its value. -/
theorem closing_infix_inserted_iff (hlead : '/' ∉ b.lead) (hs : ¬ closing <:+: s)
    (hhead : t.head? ≠ some '/') (ht : ¬ closing <:+: t) :
    closing <:+: s ++ '\n' :: b.fieldLine f v ++ t ↔ closing <:+: v := by
  have hopen := not_closing_opening hlead f hs
  have hlast : (s ++ '\n' :: (b.lead ++ '@' :: f.keyText ++ [':', ' '])).getLast? ≠ some '*' := by
    have hline : s ++ '\n' :: (b.lead ++ '@' :: f.keyText ++ [':', ' ']) =
        (s ++ '\n' :: (b.lead ++ '@' :: f.keyText ++ [':'])) ++ [' '] := by simp
    rw [hline]
    exact getLast?_ne_star_of_isBlank (by decide) _
  have hiff := closing_infix_around_iff (v := v) hlast hhead hopen ht
  rwa [List.append_assoc s, List.cons_append, ← fieldLine_eq] at hiff

/-- Every delimiter in an edited block is one of the value, if a line that is inserted for a field
that is not there brings in none. -/
theorem Edit.closing_iff (hlead : Lacks b.lineLeader f more → '/' ∉ b.lead)
    (hin : ¬ closing <:+: top ++ Block.unlines more) (h : Edit b f v top more top' more') :
    closing <:+: top' ++ Block.unlines more' ↔ closing <:+: v := by
  have hbreak : ¬ closing <:+: ['\n'] := by decide
  -- in every case the value, or a line with it, stands between two pieces of the old block
  cases h with
  | @inPlace _ front value back L₁ L₂ hlacks hopen htail hbare =>
    have hold : top ++ Block.unlines (L₁ ++ (front ++ value ++ back) :: L₂) =
        (top ++ Block.unlines L₁ ++ '\n' :: front) ++ (value ++ (back ++ Block.unlines L₂)) := by
      simp
    have hnew : top ++ Block.unlines (L₁ ++ (front ++ v ++ back) :: L₂) =
        (top ++ Block.unlines L₁ ++ '\n' :: front) ++ v ++ (back ++ Block.unlines L₂) := by
      simp
    have hlast := hopen.getLast?_ne_star (top ++ Block.unlines L₁ ++ ['\n'])
    rw [List.append_assoc, List.singleton_append] at hlast
    rw [hold] at hin
    rw [hnew]
    exact closing_infix_around_iff hlast (htail.head?_ne_slash L₂) (not_closing_left hin)
      (not_closing_right (not_closing_right hin))
  | @aboveLast _ last L hc hlacks hlast =>
    have hold : top ++ Block.unlines (L ++ [last]) = (top ++ Block.unlines L) ++ '\n' :: last := by
      simp
    have hnew : top ++ Block.unlines (L ++ [b.fieldLine f v, last]) =
        (top ++ Block.unlines L) ++ '\n' :: b.fieldLine f v ++ '\n' :: last := by
      simp
    rw [hold] at hin
    rw [hnew]
    exact closing_infix_inserted_iff (hlead hlacks) (not_closing_left hin) (by simp)
      (not_closing_right hin)
  | @belowLast _ kept pad L hc hlacks hkept hpad =>
    have hold : top ++ Block.unlines (L ++ [kept ++ pad]) =
        (top ++ Block.unlines L ++ '\n' :: kept) ++ pad := by
      simp
    have hnew : top ++ Block.unlines (L ++ [kept, b.fieldLine f v, []]) =
        (top ++ Block.unlines L ++ '\n' :: kept) ++ '\n' :: b.fieldLine f v ++ ['\n'] := by
      simp
    rw [hold] at hin
    rw [hnew]
    exact closing_infix_inserted_iff (hlead hlacks) (not_closing_left hin) (by simp) hbreak
  | @belowTop _ pad hc hpad =>
    have hnew : top' ++ Block.unlines [b.fieldLine f v, []] =
        top' ++ '\n' :: b.fieldLine f v ++ ['\n'] := by
      simp
    rw [unlines_nil, List.append_nil] at hin
    rw [hnew]
    exact closing_infix_inserted_iff (hlead lacks_nil) (not_closing_left hin) (by simp) hbreak
  | atEnd hc hlacks =>
    have hnew : top ++ Block.unlines (more ++ [b.fieldLine f v]) =
        (top ++ Block.unlines more) ++ '\n' :: b.fieldLine f v ++ [] := by
      simp
    rw [hnew]
    exact closing_infix_inserted_iff (hlead hlacks) hin (by simp) (by decide)

/-! ## Line comments -/

/-- An edited block of line comments has its leader on every line. -/
theorem Edit.continues {leader : List Char} (hleader : b.lineLeader = some leader)
    (hl : Distinct b.lineLeader) (hlead : Leads b) (hc : b.closed = false)
    (hmore : ∀ line ∈ more, Block.continues leader line = true)
    (h : Edit b f v top more top' more') :
    top' = top ∧ ∀ line ∈ more', Block.continues leader line = true := by
  have hopening := hlead.opening f
  rw [hleader] at hl hopening
  cases h with
  | inPlace hlacks hopen htail hbare =>
    rw [hleader] at hopen
    refine ⟨rfl, fun line hline => ?_⟩
    rcases List.mem_append.mp hline with hm | hm
    · exact hmore line (List.mem_append_left _ hm)
    · rcases List.mem_cons.mp hm with rfl | hm
      · rw [List.append_assoc]
        exact hopen.continues hl
      · exact hmore line (List.mem_append_right _ (List.mem_cons_of_mem _ hm))
  | atEnd _ hlacks =>
    refine ⟨rfl, fun line hline => ?_⟩
    rcases List.mem_append.mp hline with hm | hm
    · exact hmore line hm
    · rw [List.mem_singleton.mp hm, fieldLine_eq]
      exact hopening.continues hl
  | aboveLast h _ _ => simp [hc] at h
  | belowLast h _ _ _ => simp [hc] at h
  | belowTop h _ => simp [hc] at h

/-! ## Line breaks -/

/-- An edit brings in no line breaks but those between its lines. -/
theorem Edit.newline_notMem (hlead : '\n' ∉ b.lead) (hv : '\n' ∉ v) (htop : '\n' ∉ top)
    (hmore : ∀ line ∈ more, '\n' ∉ line) (h : Edit b f v top more top' more') :
    '\n' ∉ top' ∧ ∀ line ∈ more', '\n' ∉ line := by
  have hkey : '\n' ∉ f.keyText := fun hm => by
    have := (Field.of_mem_keyText hm).1
    exact absurd this (by decide)
  have hnew : '\n' ∉ b.fieldLine f v := by simp [fieldLine_eq, hlead, hkey, hv]
  cases h with
  | inPlace hlacks hopen htail hbare =>
    simp only [List.forall_mem_append, List.forall_mem_cons] at hmore ⊢
    simp only [List.mem_append, not_or] at hmore ⊢
    exact ⟨htop, hmore.1, ⟨⟨hmore.2.1.1.1, hv⟩, hmore.2.1.2⟩, hmore.2.2⟩
  | aboveLast hc hlacks hlast =>
    simp only [List.forall_mem_append, List.forall_mem_cons] at hmore ⊢
    exact ⟨htop, hmore.1, hnew, hmore.2⟩
  | belowLast hc hlacks hkept hpad =>
    simp only [List.forall_mem_append, List.forall_mem_cons] at hmore ⊢
    simp only [List.mem_append, not_or] at hmore ⊢
    exact ⟨htop, hmore.1, hmore.2.1.1, hnew, by simp⟩
  | belowTop hc hpad =>
    rw [List.mem_append, not_or] at htop
    simp only [List.forall_mem_cons]
    exact ⟨htop.1, hnew, by simp⟩
  | atEnd hc hlacks =>
    simp only [List.forall_mem_append, List.forall_mem_cons]
    exact ⟨htop, hmore, hnew, by simp⟩

end EditGate
