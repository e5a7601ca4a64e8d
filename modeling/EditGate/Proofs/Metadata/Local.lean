import EditGate.Proofs.Metadata.Reapply

/-!
# Blocks in their surroundings

Only the first block of a text is read and changed. If it ends within a part of the text that starts
on the marker's line, and no marker stands before that part, the text around it makes no difference
(`Inset`): the part is cut as it would be cut alone, so it has the same metadata, and a field is set
within it. The block still ends within it then, although a value with a delimiter or a line break
may end it sooner (`Inset.setField`). So the same goes for any number of fields, one after the other
(`Inset.setFields`).
-/

namespace EditGate

open Text Cell

variable {B pre post lead rest : List Char}

/-! ## The first marker -/

/-- A pattern without a character does not reach over it. -/
theorem prefix_of_prefix_append_cons {pat s t : List Char} {c : Char} (hc : c ∉ pat)
    (h : pat <+: s ++ c :: t) : pat <+: s := by
  have hs : s ++ [c] <+: s ++ c :: t := ⟨t, by rw [List.append_assoc, List.singleton_append]⟩
  rcases List.prefix_or_prefix_of_prefix h hs with hpre | hpre
  · rcases List.prefix_concat_iff.mp hpre with he | hpre
    · exact absurd (by simp [he]) hc
    · exact hpre
  · exact absurd (hpre.subset (by simp)) hc

theorem infix_of_infix_append_cons {pat s t : List Char} {c : Char} (hc : c ∉ pat)
    (h : pat <:+: s ++ c :: t) : pat <:+: s ∨ pat <:+: t := by
  induction s with
  | nil =>
    rcases List.infix_cons_iff.mp h with hpre | hin
    · exact .inl (prefix_of_prefix_append_cons (s := []) hc hpre).isInfix
    · exact .inr hin
  | cons a s ih =>
    rcases List.infix_cons_iff.mp h with hpre | hin
    · exact .inl (prefix_of_prefix_append_cons (s := a :: s) hc hpre).isInfix
    · exact (ih hin).imp_left fun h => List.infix_cons h

/-- Behind lines without a marker, the first marker is where it would be alone. -/
theorem Marked.within (h : Marked B [] lead rest) (hpre : ¬ marker <:+: pre)
    (hline : pre = [] ∨ pre.getLast? = some '\n') (post : List Char) :
    Marked (pre ++ B ++ post) pre lead (rest ++ post) := by
  have hfirst : ¬ marker <:+: lead ++ marker.dropLast := first_of_cutAt? (by decide) h.cut
  have hB : pre ++ B ++ post = pre ++ lead ++ marker ++ (rest ++ post) := by
    rw [h.eq]
    simp only [List.nil_append, List.append_assoc]
  rw [hB]
  rcases hline with rfl | hline
  · exact ⟨cutAt?_of_first (by decide) hfirst, h.line⟩
  · obtain ⟨front, rfl⟩ := List.getLast?_eq_some_iff.mp hline
    refine ⟨cutAt?_of_first (by decide) fun hin => ?_, ?_⟩
    · rw [List.append_assoc, List.append_assoc, List.singleton_append] at hin
      rcases infix_of_infix_append_cons (by decide) hin with hin | hin
      · exact hpre (List.infix_append_of_infix_left hin)
      · exact hfirst hin
    · rw [List.append_assoc, List.singleton_append]
      exact cutLastLine_append_newline h.newline_notMem

/-! ## Where the block ends -/

/-- A text that does not go on with a line of a block of line comments. -/
def Stops (leader post : List Char) : Prop :=
  post = [] ∨ ∃ s line lines, post = '\n' :: s ∧ splitOn '\n' s = line :: lines ∧
    Block.continues leader line = false

theorem while_append_cons {α : Type} {p : α → Bool} {a : α} (ha : p a = false) (xs ys : List α) :
    (xs ++ a :: ys).takeWhile p = xs.takeWhile p ∧
      (xs ++ a :: ys).dropWhile p = xs.dropWhile p ++ a :: ys := by
  induction xs with
  | nil => simp [ha]
  | cons x xs ih =>
    cases hx : p x with
    | true => simpa [hx] using ih
    | false => simp [hx]

/-- A block of line comments ends before a text that stops it. -/
theorem cutLineComments_append_stops {leader : List Char} (h : Stops leader post)
    (rest : List Char) :
    Block.cutLineComments leader (rest ++ post) =
      ((Block.cutLineComments leader rest).1, (Block.cutLineComments leader rest).2 ++ post) := by
  rcases h with rfl | ⟨s, line, lines, rfl, hs, hstop⟩
  · simp only [List.append_nil]
  · obtain ⟨top, more, hrest⟩ := List.exists_cons_of_ne_nil (splitOn_ne_nil '\n' rest)
    have hlines : splitOn '\n' (rest ++ '\n' :: s) = top :: (more ++ line :: lines) := by
      rw [splitOn_append, hrest, hs, List.cons_append]
    have hpost : Block.unlines (line :: lines) = '\n' :: s := by
      rw [unlines_cons, List.cons_append, unlines_of_splitOn hs]
    obtain ⟨htake, hdrop⟩ := while_append_cons hstop more lines
    rw [Block.cutLineComments, Block.cutLineComments, hlines, hrest]
    simp only [htake, hdrop, unlines_append, hpost]

/-- The block of a marker ends within what follows the marker, whatever comes after that: it is
closed there, or the text after it stops it. -/
def EndsWithin (lead rest post : List Char) : Prop :=
  if Block.isStarred (trim lead) = true then closing <:+: rest else Stops (trim lead) post

/-- A block that ends within a text has the same body if the text stands in another one. -/
theorem ofParts_within (h : EndsWithin lead rest post) (pre : List Char) :
    Block.ofParts pre lead (rest ++ post) =
      { Block.ofParts [] lead rest with
        before := pre, after := (Block.ofParts [] lead rest).after ++ post } := by
  rw [EndsWithin] at h
  split at h
  · next hs =>
    obtain ⟨⟨inner, after⟩, hcut⟩ := Option.isSome_iff_exists.mp (isSome_cutAt?_iff.mpr h)
    have hwhole : cutAt? closing (rest ++ post) = some (inner, after ++ post) := by
      rw [eq_append_of_cutAt? hcut, List.append_assoc]
      exact cutAt?_replace (by decide) hcut
    rw [ofParts_of_closing hs hcut, ofParts_of_closing hs hwhole, ← List.append_assoc]
  · next hs =>
    rw [Bool.not_eq_true] at hs
    obtain ⟨inner, after, hcut⟩ : ∃ inner after, Block.cutLineComments (trim lead) rest =
        (inner, after) := ⟨_, _, rfl⟩
    have hwhole := cutLineComments_append_stops h rest
    rw [hcut] at hwhole
    rw [ofParts_of_lines hs hcut, ofParts_of_lines hs hwhole]

/-! ## Parts of a text -/

/-- A part of a text that starts on the line of the first marker, and that has the block. -/
inductive Inset (pre B post : List Char) : Prop where
  | mk (lead rest : List Char) (alone : Marked B [] lead rest)
      (whole : Marked (pre ++ B ++ post) pre lead (rest ++ post)) (plain : IsPlainLead lead)
      (ends : EndsWithin lead rest post)

/-- The part is cut around its block as it is cut in the text. -/
theorem Inset.locate? (h : Inset pre B post) :
    ∃ b, Block.locate? B = some b ∧
      Block.locate? (pre ++ B ++ post) = some { b with before := pre, after := b.after ++ post } := by
  obtain ⟨lead, rest, alone, whole, -, ends⟩ := h
  refine ⟨_, alone.locate?, ?_⟩
  rw [whole.locate?, ofParts_within ends pre]

/-- The part has the metadata of the text. -/
theorem Inset.extractWith (h : Inset pre B post) (subject : Option String) :
    Metadata.extractWith (pre ++ B ++ post) subject = Metadata.extractWith B subject := by
  obtain ⟨b, hB, hwhole⟩ := h.locate?
  rw [Metadata.extractWith, hwhole, Metadata.extractWith, hB]
  rfl

/-- A field of the text is set in the part, and the part still has the block. -/
theorem Inset.setField (h : Inset pre B post) (f : Field) (v : List Char) :
    EditGate.setField (pre ++ B ++ post) f v = pre ++ EditGate.setField B f v ++ post ∧
      Inset pre (EditGate.setField B f v) post := by
  obtain ⟨lead, rest, alone, whole, plain, ends⟩ := h
  obtain ⟨inner, hbody⟩ := exists_body_ofParts [] lead rest
  obtain ⟨top, more, hsplit⟩ := List.exists_cons_of_ne_nil (splitOn_ne_nil '\n' inner)
  have hclear := (editable_ofParts plain alone.newline_notMem [] rest).toClear
  obtain ⟨top', more', -, hset⟩ := hclear.exists_edit alone.newline_notMem hbody hsplit f v
  -- the marker's line up to the marker stays, and what follows the marker in the part is this
  have hpart : EditGate.setField B f v = [] ++ lead ++ marker ++
      (top' ++ Block.unlines more' ++ (Block.ofParts [] lead rest).after) := by
    rw [EditGate.setField, alone.locate?]
    refine set_eq (before_ofParts [] lead rest) ?_
    rw [hset, List.append_assoc (lead ++ marker)]
  have htext : EditGate.setField (pre ++ B ++ post) f v =
      pre ++ EditGate.setField B f v ++ post := by
    rw [EditGate.setField, whole.locate?, ofParts_within ends pre, EditGate.setField,
      alone.locate?]
    show pre ++ (Block.ofParts [] lead rest).setBody f v ++
      ((Block.ofParts [] lead rest).after ++ post) =
        pre ++ (Block.ofParts [] lead rest).set f v ++ post
    rw [Block.set, before_ofParts]
    simp only [List.nil_append, List.append_assoc]
  refine ⟨htext, .mk lead (top' ++ Block.unlines more' ++ (Block.ofParts [] lead rest).after)
    ?_ ?_ plain ?_⟩
  · rw [hpart]
    exact alone.replace _
  · have hwhole : pre ++ EditGate.setField B f v ++ post = pre ++ lead ++ marker ++
        (top' ++ Block.unlines more' ++ (Block.ofParts [] lead rest).after ++ post) := by
      rw [hpart]
      simp only [List.nil_append, List.append_assoc]
    rw [hwhole]
    exact whole.replace _
  · rw [EndsWithin] at ends ⊢
    split at ends
    · next hs =>
      -- the delimiter that closed the block is behind its body as before
      obtain ⟨⟨inner', after⟩, hcut⟩ := Option.isSome_iff_exists.mp (isSome_cutAt?_iff.mpr ends)
      rw [if_pos hs, ofParts_of_closing hs hcut]
      exact List.infix_append_of_infix_right (List.prefix_append closing after).isInfix
    · next hs =>
      rw [if_neg hs]
      exact ends

/-- Fields of the text are set in the part. -/
theorem Inset.setFields (h : Inset pre B post) (es : List (Field × String)) :
    Metadata.setFields (pre ++ B ++ post) es = pre ++ Metadata.setFields B es ++ post := by
  induction es generalizing B with
  | nil => rfl
  | cons e es ih =>
    obtain ⟨hstep, hinset⟩ := h.setField e.1 e.2.toList
    rw [Metadata.setFields, List.foldl_cons, hstep]
    exact ih hinset

/-- An update of the text is one of the part. -/
theorem Inset.update (h : Inset pre B post) (p : Metadata.Patch) (time : String) :
    Metadata.update (pre ++ B ++ post) p time = pre ++ Metadata.update B p time ++ post := by
  obtain ⟨b, hB, hwhole⟩ := h.locate?
  rw [Metadata.update_of_locate? hwhole, Metadata.update_of_locate? hB, h.setFields]

/-! ## The main result -/

/-- A text from the start of a marker's line to the end of the marker's block: to the delimiter that
closes it, or through the last of the lines that have the leader of the block, if what follows does
not go on with one. -/
inductive BlockText (B post : List Char) : Prop where
  | closed {lead inner : List Char} (marked : Marked B [] lead (inner ++ closing))
      (comment : IsCommentLead lead) (first : ¬ closing <:+: inner)
  | lines {lead rest : List Char} (marked : Marked B [] lead rest)
      (lines : Block.isStarred (trim lead) = false)
      (continues : ∀ line ∈ (splitOn '\n' rest).tail, Block.continues (trim lead) line = true)
      (stops : Stops (trim lead) post)

theorem BlockText.inset (h : BlockText B post) (hpre : ¬ marker <:+: pre)
    (hline : pre = [] ∨ pre.getLast? = some '\n') : Inset pre B post := by
  cases h with
  | @closed lead inner hmarked hcomment hfirst =>
    refine .mk lead _ hmarked (hmarked.within hpre hline post) hcomment.isPlainLead ?_
    rw [EndsWithin, if_pos hcomment.isStarred]
    exact List.infix_append_of_infix_right (List.infix_refl closing)
  | @lines lead rest hmarked hlines _ hstops =>
    refine .mk lead rest hmarked (hmarked.within hpre hline post) (isPlainLead_of_lines hlines) ?_
    rw [EndsWithin, if_neg (by simp [hlines])]
    exact hstops

/-- Reading and updating are local to the first block. -/
theorem Metadata.local_to_block (hB : BlockText B post) (hpre : ¬ marker <:+: pre)
    (hline : pre = [] ∨ pre.getLast? = some '\n') :
    (∀ subject, Metadata.extractWith (pre ++ B ++ post) subject =
      Metadata.extractWith B subject) ∧
    ∀ p time, Metadata.update (pre ++ B ++ post) p time =
      pre ++ Metadata.update B p time ++ post := by
  have hinset := hB.inset hpre hline
  exact ⟨hinset.extractWith, hinset.update⟩

/-- What stands before and behind a block between delimiters is left as it is, whatever is set, and
even if a value ends the block sooner; a field that stands behind a block of line comments is not
read. -/
theorem Metadata.local_to_block_sample :
    (let pre := "x\n/**\n".toList
     let B := " * @ai-metadata\n */".toList
     let post := " @ai-metadata\n@tests: [] */".toList
     let p : Patch := { aiContext := some "a */ b" }
     update (pre ++ B ++ post) p "0Z" = pre ++ update B p "0Z" ++ post) ∧
    (let B := "# @ai-metadata\n# @tests: []".toList
     let post := "\n@stability: stable".toList
     extractWith ([] ++ B ++ post) none = extractWith B none) := by
  have hclosed : BlockText " * @ai-metadata\n */".toList " @ai-metadata\n@tests: [] */".toList :=
    @BlockText.closed _ _ " * ".toList "\n ".toList ⟨by decide, by decide⟩
      (.inr (.inr (by decide))) (by decide)
  have hlines : BlockText "# @ai-metadata\n# @tests: []".toList "\n@stability: stable".toList :=
    @BlockText.lines _ _ "# ".toList "\n# @tests: []".toList ⟨by decide, by decide⟩ (by decide)
      (by decide) (.inr ⟨"@stability: stable".toList, _, _, by decide, rfl, by decide⟩)
  have hcomment := @local_to_block _ "x\n/**\n".toList _ hclosed (by decide) (.inr (by decide))
  have hlead := @local_to_block _ [] _ hlines (by decide) (.inl rfl)
  exact ⟨hcomment.2 _ _, hlead.1 none⟩

end EditGate
