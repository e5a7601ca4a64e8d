import EditGate.Proofs.Metadata.Local

/-!
# Comment styles

A block may be written in line comments with any leader, or between delimiters with a star on each
line. The two are cut and searched in different ways, but the lines after the marker's have the same
values in either, and metadata and notices depend on these values alone (`ofBlock_congr`). So the
style makes no difference (`style_irrelevant`), as long as no value holds a line break or the
delimiter that ends the comment.
-/

namespace EditGate

open Text Cell

variable {L post : List Char} {es : List (Field × String)}

/-! ## The styles -/

/-- A leader that blocks of line comments are told by. -/
structure IsLineLeader (L : List Char) : Prop where
  ne_nil : L ≠ []
  trim : Text.trim L = L
  newline_notMem : '\n' ∉ L
  not_marker : ¬ marker <:+: L
  not_star : ¬ ['*'] <+: L
  not_opening : ¬ ['/', '*'] <+: L

/-- Fields in line comments. -/
def lineBlock (L : List Char) (es : List (Field × String)) : List Char :=
  L ++ ' ' :: marker ++ Block.unlines (fieldLines (L ++ [' ', '@']) es)

/-- Fields in a comment between delimiters. -/
def starBlock (es : List (Field × String)) : List Char :=
  "/**\n * ".toList ++ marker ++ Block.unlines (fieldLines " * @".toList es) ++ "\n */".toList

/-- Metadata and notices depend on the values of the fields. -/
theorem ofBlock_congr {b b' : Block} (h : ∀ f, b.raw? f = b'.raw? f) (subject : Option String) :
    Metadata.ofBlock b subject = Metadata.ofBlock b' subject := by
  have hscalar : Metadata.scalar? b = Metadata.scalar? b' :=
    funext fun f => by rw [Metadata.scalar?, Metadata.scalar?, h]
  have henumerated : ∀ (α : Type) [Enumerated α] (f : Field),
      Metadata.enumerated α b subject f = Metadata.enumerated α b' subject f := by
    intro α _ f
    rw [Metadata.enumerated, Metadata.enumerated, hscalar]
  have hpermissions : Metadata.permissions b subject = Metadata.permissions b' subject := by
    rw [Metadata.permissions, Metadata.permissions, h]
  have hentry : Metadata.claimedEntry b = Metadata.claimedEntry b' :=
    funext fun slot => by rw [Metadata.claimedEntry, Metadata.claimedEntry, hscalar]
  have hclaims : Metadata.claims b = Metadata.claims b' :=
    funext fun slot => by rw [Metadata.claims, Metadata.claims, h, h, h]
  have happrovals : Metadata.claimedApprovals b = Metadata.claimedApprovals b' := by
    rw [Metadata.claimedApprovals, Metadata.claimedApprovals, hclaims, hentry]
  simp only [Metadata.ofBlock, henumerated, hpermissions, hscalar, happrovals, h]

namespace IsLineLeader

theorem isStarred (h : IsLineLeader L) : Block.isStarred L = false := by
  cases hs : Block.isStarred L with
  | false => rfl
  | true =>
    rcases starred_cases hs with hnil | ⟨t, rfl⟩ | hopen
    · exact absurd hnil h.ne_nil
    · exact absurd ⟨t, rfl⟩ h.not_star
    · exact absurd hopen h.not_opening

theorem startsBare (h : IsLineLeader L) : StartsBare L := h.trim ▸ startsBare_trim L

theorem distinct (h : IsLineLeader L) : Distinct (some L) := by
  rintro leader ⟨rfl⟩
  exact ⟨h.ne_nil, h.startsBare⟩

/-- What stands before the marker, without blanks, is the leader. -/
theorem trim_lead (h : IsLineLeader L) : Text.trim (L ++ [' ']) = L := by
  have hlead : StartsBare (L ++ [' ']) := by
    obtain ⟨c, t, rfl⟩ := List.exists_cons_of_ne_nil h.ne_nil
    exact startsBare_cons_iff.mpr (startsBare_cons_iff.mp h.startsBare)
  have htrim := h.trim
  rw [Text.trim, trimStart_of_startsBare h.startsBare] at htrim
  rw [Text.trim, trimStart_of_startsBare hlead, trimEnd_append_blanks blanks_space, htrim]

/-- What stands before keys may start field lines. -/
theorem margin (L : List Char) : Margin (some L) (L ++ [' ', '@']) := by
  have := @Margin.mk (some L) [] L [' '] [] ['@'] blanks_nil rfl blanks_space (.inl rfl) (.inr rfl)
  simpa using this

theorem newline_notMem_margin (h : IsLineLeader L) : '\n' ∉ L ++ [' ', '@'] := by
  simp [h.newline_notMem]

/-- A leader has no part of the marker behind it. -/
theorem marked (h : IsLineLeader L) (rest : List Char) :
    Marked (L ++ [' '] ++ marker ++ rest) [] (L ++ [' ']) rest := by
  have hfirst : ¬ marker <:+: L ++ [' '] ++ marker.dropLast := by
    intro hin
    rw [List.append_assoc, List.singleton_append] at hin
    rcases infix_of_infix_append_cons (by decide) hin with hin | hin
    · exact h.not_marker hin
    · exact absurd hin.length_le (by decide)
  have hn : '\n' ∉ L ++ [' '] := by simp [h.newline_notMem]
  exact ⟨cutAt?_of_first (by decide) hfirst, cutLastLine_of_notMem hn⟩

end IsLineLeader

/-! ## Line comments -/

/-- The lines of the fields belong to the block. -/
theorem continues_fieldLines (h : IsLineLeader L) (es : List (Field × String)) :
    ∀ line ∈ fieldLines (L ++ [' ', '@']) es, Block.continues L line = true := by
  intro line hline
  obtain ⟨e, -, rfl⟩ := List.mem_map.mp hline
  rw [List.append_assoc, List.append_assoc]
  exact continues_of_margin h.distinct (IsLineLeader.margin L)

theorem splitOn_unlines {lines : List (List Char)} (h : ∀ line ∈ lines, '\n' ∉ line) :
    splitOn '\n' (Block.unlines lines) = [] :: lines :=
  splitOn_joinLines (List.cons_ne_nil [] lines)
    (List.forall_mem_cons.mpr ⟨List.not_mem_nil, h⟩)

section

variable (h : IsLineLeader L)
include h

theorem marked_lineBlock (es : List (Field × String)) :
    Marked (lineBlock L es) [] (L ++ [' ']) (Block.unlines (fieldLines (L ++ [' ', '@']) es)) := by
  have heq : lineBlock L es =
      L ++ [' '] ++ marker ++ Block.unlines (fieldLines (L ++ [' ', '@']) es) := by
    simp only [lineBlock, List.append_assoc, List.cons_append, List.nil_append]
  rw [heq]
  exact h.marked _

variable (hes : ∀ e ∈ es, '\n' ∉ e.2.toList)
include hes

theorem blockText_lineBlock (hpost : Stops L post) : BlockText (lineBlock L es) post := by
  have hlines := newline_notMem_fieldLines h.newline_notMem_margin hes
  refine .lines (marked_lineBlock h es) ?_ ?_ ?_
  · rw [h.trim_lead]
    exact h.isStarred
  · rw [h.trim_lead, splitOn_unlines hlines]
    exact continues_fieldLines h es
  · rwa [h.trim_lead]

/-- Line comments have the values that are written on them. -/
theorem raw?_lineBlock (g : Field) :
    (Block.ofParts [] (L ++ [' ']) (Block.unlines (fieldLines (L ++ [' ', '@']) es))).raw? g =
      (entryValue es g).map fun v => bare (trimStart v) := by
  have hlines := newline_notMem_fieldLines h.newline_notMem_margin hes
  have hn : '\n' ∉ L ++ [' '] := by simp [h.newline_notMem]
  have hs : Block.isStarred (trim (L ++ [' '])) = false := by
    rw [h.trim_lead]
    exact h.isStarred
  have hcut : Block.cutLineComments (trim (L ++ [' ']))
      (Block.unlines (fieldLines (L ++ [' ', '@']) es)) =
        (Block.unlines (fieldLines (L ++ [' ', '@']) es), []) := by
    have := @cutLineComments_unlines [] (fieldLines (L ++ [' ', '@']) es) L []
      List.not_mem_nil hlines (fun _ hmem => absurd hmem List.not_mem_nil)
      (continues_fieldLines h es) rfl
    rw [unlines_nil, List.append_nil, List.nil_append] at this
    rw [h.trim_lead, this]
  have hfirst : ∀ s, written? (some L) g.keyText (L ++ [' '] ++ marker ++ s) = none := by
    have := (editable_ofParts (isPlainLead_of_lines hs) hn [] []).first g
    rwa [lineLeader_ofParts, if_neg (by simp [hs]), h.trim_lead] at this
  rw [ofParts_of_lines hs hcut, h.trim_lead, ← valueIn_fieldLines h.distinct (IsLineLeader.margin L)]
  exact raw?_of_body hfirst hn rfl (splitOn_unlines hlines)

end

/-! ## The main result -/

theorem starBlock_eq (es : List (Field × String)) (post : List Char) :
    starBlock es ++ post = "/**\n".toList ++ " * ".toList ++ marker ++
      (Block.unlines (newLines es ++ [[' ']]) ++ closing ++ post) := by
  have hstart : "/**\n * ".toList = "/**\n".toList ++ " * ".toList := by decide
  have hend : "\n */".toList = Block.unlines [[' ']] ++ closing := by decide
  unfold starBlock newLines
  simp only [hstart, hend, unlines_append, List.append_assoc]

/-- Fields have the same metadata and the same notices in line comments with any leader as in a
comment between delimiters, whatever follows the comments. -/
theorem Metadata.style_irrelevant (hL : IsLineLeader L)
    (hes : ∀ e ∈ es, '\n' ∉ e.2.toList ∧ ¬ closing <:+: e.2.toList) (hpost : Stops L post)
    (post' : List Char) (subject : Option String) :
    extractWith (lineBlock L es ++ post) subject = extractWith (starBlock es ++ post') subject := by
  have hlines : ∀ e ∈ es, '\n' ∉ e.2.toList := fun e he => (hes e he).1
  have hinset : Inset [] (lineBlock L es) post :=
    (blockText_lineBlock hL hlines hpost).inset (by decide) (.inl rfl)
  have hvalues : ∀ f, Block.raw? (Block.ofParts [] (L ++ [' '])
      (Block.unlines (fieldLines (L ++ [' ', '@']) es))) f =
        (Block.ofParts "/**\n".toList " * ".toList
          (Block.unlines (newLines es ++ [[' ']]) ++ closing ++ post')).raw? f := by
    intro f
    rw [raw?_lineBlock hL hlines, raw?_newBlock hes]
  rw [← List.nil_append (lineBlock L es), hinset.extractWith, starBlock_eq, extractWith,
    (marked_lineBlock hL es).locate?, extractWith, (marked_newBlock _).locate?]
  simp only [ofBlock_congr hvalues subject]

/-- A leader that ends in a sign, a value that is no map, and a field that is written twice. -/
theorem Metadata.style_irrelevant_sample :
    let es := [(Field.methodPermissions, "none"), (.stability, " stable "), (.stability, "frozen")]
    extractWith (lineBlock ['-', '.', '*', '@'] es ++ []) none =
      extractWith (starBlock es ++ ['x']) none := by
  intro es
  have hL : IsLineLeader ['-', '.', '*', '@'] := {
    ne_nil := by decide
    trim := by decide
    newline_notMem := by decide
    not_marker := by decide
    not_star := by decide
    not_opening := by decide }
  have hes : ∀ e ∈ es, '\n' ∉ e.2.toList ∧ '/' ∉ e.2.toList := by decide
  have hfree : ∀ e ∈ es, '\n' ∉ e.2.toList ∧ ¬ closing <:+: e.2.toList := fun e he =>
    ⟨(hes e he).1, fun hin => (hes e he).2 (slash_mem_of_closing hin)⟩
  exact style_irrelevant hL hfree (.inl rfl) ['x'] none

end EditGate
