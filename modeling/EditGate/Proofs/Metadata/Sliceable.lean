import EditGate.Proofs.Metadata.Offsets

/-!
# Sliceable offsets

Where the offsets of a block lie. Its span starts at the start of a line and goes on behind its
marker, the first of the text, to the closing delimiter, to the end of a line, or to the end of the
text (`Span.Fits`); the range of a value is within the span and cuts exactly that value out of the
text (`Found.Fits`). All these offsets are between characters. So nothing that is done with them
asks for a slice that is not there (`offsets_sliceable`).
-/

namespace EditGate

open Text

variable {text before lead rest : List Char} {b : Block}

/-- What holds of the span of a block in its text, with the marker at `m`. -/
structure Span.Fits (text : List Char) (b : Span) (m : Nat) : Prop where
  /-- It starts with the text or behind a newline. -/
  lineStart : b.start = 0 ∨ ∃ n, b.start = n + 1 ∧ slice? text n b.start = some ['\n']
  start_le : b.start ≤ m
  marker : FirstFrom EditGate.marker text 0 m
  behind_le : m + utf8Length EditGate.marker ≤ b.stop
  stop_le : b.stop ≤ utf8Length text
  /-- A closing delimiter is the first one behind the marker, and ends the span. -/
  close : ∀ c ∈ b.close,
    c = b.stop ∧ FirstFrom closing text (m + utf8Length EditGate.marker) c
  /-- Line comments go on to a newline or to the end of the text. -/
  lineEnd : b.lineLeader.isSome →
    b.stop = utf8Length text ∨ slice? text b.stop (b.stop + 1) = some ['\n']
  /-- The places are between characters. -/
  between : ∀ n ∈ [b.start, m, m + utf8Length EditGate.marker, b.stop],
    String.Pos.Raw.IsValid (String.ofList text) ⟨n⟩

/-- What holds of a value that is found in the block of a text. -/
structure Found.Fits (text : List Char) (b : Span) (r : Found) : Prop where
  start_le : b.start ≤ r.start
  stop_le : r.stop ≤ b.stop
  slice : slice? text r.start r.stop = some r.raw
  between : ∀ n ∈ [r.start, r.stop], String.Pos.Raw.IsValid (String.ofList text) ⟨n⟩

/-! ## Spans -/

theorem Marked.lineStart (h : Marked text before lead rest) :
    utf8Length before = 0 ∨
      ∃ n, utf8Length before = n + 1 ∧ slice? text n (utf8Length before) = some ['\n'] := by
  rcases cutLastLine_cases (before ++ lead) with ⟨-, hcut⟩ | ⟨front, last, -, -, hcut⟩
  · obtain ⟨rfl, -⟩ := Prod.mk.inj (h.line.symm.trans hcut)
    exact .inl rfl
  · obtain ⟨rfl, -⟩ := Prod.mk.inj (h.line.symm.trans hcut)
    refine .inr ⟨utf8Length front, utf8Length_newline front, ?_⟩
    exact slice?_eq (by rw [h.eq, List.append_assoc, List.append_assoc]) rfl rfl

/-- A closed block ends at the first closing delimiter behind its marker. -/
theorem Marked.firstFrom_closing (h : Marked text before lead rest)
    (hc : (Block.ofParts before lead rest).closed = true) :
    FirstFrom closing text (utf8Length (before ++ lead ++ marker))
      (Block.ofParts before lead rest).span.stop := by
  cases hs : Block.isStarred (trim lead) with
  | true =>
    cases hcut : cutAt? closing rest with
    | none =>
      rw [ofParts_of_open hs hcut] at hc
      exact absurd hc Bool.false_ne_true
    | some cut =>
      have hfirst := firstFrom_of_cutAt? (before ++ lead ++ marker) (by decide) hcut
      rw [← h.eq] at hfirst
      rw [ofParts_of_closing hs hcut]
      simpa only [Block.span, List.append_assoc] using hfirst
  | false =>
    rw [ofParts_of_lines hs rfl] at hc
    exact absurd hc Bool.false_ne_true

theorem cutLineComments_snd_cases (leader rest : List Char) :
    (Block.cutLineComments leader rest).2 = [] ∨
      ∃ s, (Block.cutLineComments leader rest).2 = '\n' :: s := by
  unfold Block.cutLineComments
  split
  · exact .inl rfl
  · rename_i line lines _
    cases lines.dropWhile (Block.continues leader) with
    | nil => exact .inl rfl
    | cons next more => exact .inr ⟨_, unlines_cons next more⟩

/-- A block of line comments ends at a newline or with the text. -/
theorem after_ofParts_of_isSome (hl : (Block.ofParts before lead rest).lineLeader.isSome) :
    (Block.ofParts before lead rest).after = [] ∨
      ∃ s, (Block.ofParts before lead rest).after = '\n' :: s := by
  cases hs : Block.isStarred (trim lead) with
  | true =>
    rw [lineLeader_ofParts, if_pos hs] at hl
    exact absurd hl Bool.false_ne_true
  | false =>
    have hcut : Block.cutLineComments (trim lead) rest = (_, _) := rfl
    rw [ofParts_of_lines hs hcut]
    exact cutLineComments_snd_cases (trim lead) rest

/-- The span of a block fits its text, whatever stands before and behind the marker. -/
theorem Marked.fits (h : Marked text before lead rest) :
    (Block.ofParts before lead rest).span.Fits text (utf8Length (before ++ lead)) := by
  obtain ⟨inner, hbody⟩ := exists_body_ofParts before lead rest
  have hclosing := h.firstFrom_closing
  have hafter := @after_ofParts_of_isSome before lead rest
  have htext := Block.text_of_locate? h.locate?
  have hbefore := before_ofParts before lead rest
  -- from here on only the pieces count, not the kind of comment that they were cut from
  generalize Block.ofParts before lead rest = b at *
  have hstart : b.span.start = utf8Length before := by rw [Block.span, hbefore]
  have hstop : b.span.stop = utf8Length (before ++ lead ++ marker ++ inner) := by
    simp only [Block.span, hbefore, hbody, List.append_assoc]
  have hparts : before ++ lead ++ marker ++ inner ++ b.after = text := by
    rw [← htext, Block.text, hbefore, hbody]
    simp only [List.append_assoc]
  have hbehind : utf8Length (before ++ lead) + utf8Length marker =
      utf8Length (before ++ lead ++ marker) := (utf8Length_append _ _).symm
  refine ⟨?lineStart, ?start_le, ?marker, ?behind_le, ?stop_le, ?close, ?lineEnd, ?between⟩
  case lineStart => exact hstart ▸ h.lineStart
  case start_le => rw [hstart, utf8Length_append]; exact Nat.le_add_right _ _
  case marker => exact firstFrom_of_cutAt? [] (by decide) h.cut
  case behind_le => rw [hstop, hbehind, utf8Length_append _ inner]; exact Nat.le_add_right _ _
  case stop_le => rw [hstop, ← hparts, utf8Length_append _ b.after]; exact Nat.le_add_right _ _
  case close =>
    intro c hc
    simp only [Block.span] at hc
    split at hc
    · rename_i hclosed
      obtain rfl := Option.some.inj hc
      exact ⟨rfl, hbehind ▸ hclosing hclosed⟩
    · exact absurd hc (by simp)
  case lineEnd =>
    intro hl
    rw [hstop]
    rcases hafter hl with hnil | ⟨s, hs⟩
    · left
      rw [← hparts, hnil, List.append_nil]
    · right
      exact slice?_eq (b := s) (by rw [← hparts, hs]; simp) rfl (utf8Length_newline _).symm
  case between =>
    have hvalid : ∀ s, s <+: before ++ lead ++ marker ++ inner →
        String.Pos.Raw.IsValid (String.ofList text) ⟨utf8Length s⟩ := fun s hs =>
      isValid_iff.mpr ⟨s, hs.trans ⟨b.after, hparts⟩, rfl⟩
    simp only [List.forall_mem_cons, hstart, hstop, hbehind]
    exact ⟨hvalid _ (by simp), hvalid _ (by simp), hvalid _ (by simp),
      hvalid _ (List.prefix_refl _), by simp⟩

/-! ## Values -/

/-- A value of a block lies within its span, and is what the text has there. -/
theorem Block.fits_found {c : Cell} (h : b.text = text) (hc : c.text = b.body) :
    (b.found c).Fits text b.span := by
  have hslice : slice? text (b.found c).start (b.found c).stop = some c.value :=
    slice?_eq (text_around h hc).symm rfl rfl
  have hsome : (slice? text (b.found c).start (b.found c).stop).isSome := by
    rw [hslice]
    rfl
  obtain ⟨-, hstart, hstop⟩ := isSome_slice?_iff.mp hsome
  refine ⟨?start_le, ?stop_le, hslice, ?between⟩
  case start_le =>
    simp only [Block.found, Block.span, utf8Length_append]
    exact Nat.le_add_right _ _
  case stop_le =>
    simp only [Block.found, Block.span, ← hc, Cell.text, utf8Length_append]
    omega
  case between => exact List.forall_mem_cons.mpr ⟨hstart, by simpa using hstop⟩

/-! ## The main result -/

/-- Blocks can be handled by offsets, in every text. The span that is located fits the text, and the
ranges of values fit the span. Every slice that is taken to locate a block, to look a field up, to
set it, to set the time, and to extract the metadata is there, and the results are those of cutting
the block out. -/
theorem offsets_sliceable (text : List Char) :
    Span.locate? text = some ((Block.locate? text).map Block.span) ∧
      (∀ b ∈ Block.locate? text, (∃ m, b.span.Fits text m) ∧
        (∀ key, ∃ found, Span.lookup? text b.span key = some found ∧
          ∀ r ∈ found, r.Fits text b.span) ∧
        ∀ f : Field, (Span.lookup? text b.span f.keyText).map (Option.map Found.raw) =
          some (b.raw? f)) ∧
      (∀ f v, Span.set? text f v = some (setField text f v)) ∧
      (∀ time, Span.touch? text time = some (Metadata.touch text time)) ∧
      Span.extract? text = some (Metadata.extract text) := by
  refine ⟨Span.locate?_eq text, fun b hb => ?_, Span.set?_eq text, Span.touch?_eq text,
    Span.extract?_eq text⟩
  have htext := Block.text_of_locate? hb
  obtain ⟨before, lead, rest, hm, rfl⟩ := exists_marked hb
  refine ⟨⟨_, hm.fits⟩, fun key => ⟨_, Span.lookup?_eq htext key, fun r hr => ?_⟩, fun f => ?_⟩
  · obtain ⟨c, hc, rfl⟩ := Option.map_eq_some_iff.mp hr
    exact Block.fits_found htext (Cell.text_of_splitOn hc)
  · rw [Span.lookup?_eq htext, Option.map_some, Option.map_map]
    rfl

/-- A block of line comments with carriage returns and characters of two bytes, and without a
newline at its end. -/
theorem offsets_sliceable_sample :
    let text := "ä\r\n# @ai-metadata\r\n# @tests: ß \r".toList
    let span : Span := ⟨4, 34, none, ['#', ' '], some ['#']⟩
    Span.locate? text = some (some span) ∧ (∃ m, span.Fits text m) ∧
      Span.lookup? text span Field.tests.keyText = some (some ⟨30, 32, ['ß']⟩) ∧
      Found.Fits text span ⟨30, 32, ['ß']⟩ ∧
      Span.set? text .tests ['ü'] = some "ä\r\n# @ai-metadata\r\n# @tests: ü \r".toList := by
  intro text span
  obtain ⟨b, hb, hspan⟩ : ∃ b, Block.locate? text = some b ∧ b.span = span :=
    Option.map_eq_some_iff.mp (by decide +kernel)
  have hlookup : Span.lookup? text span Field.tests.keyText = some (some ⟨30, 32, ['ß']⟩) := by
    decide +kernel
  obtain ⟨hlocate, hblock, hset, -⟩ := offsets_sliceable text
  obtain ⟨hfits, hvalues, -⟩ := hblock b hb
  rw [hspan] at hfits hvalues
  obtain ⟨found, hfound, hvalue⟩ := hvalues Field.tests.keyText
  obtain rfl := Option.some.inj (hlookup.symm.trans hfound)
  refine ⟨?_, hfits, hlookup, hvalue _ rfl, ?_⟩
  · rw [hlocate, hb, Option.map_some, hspan]
  · rw [hset]
    decide +kernel

end EditGate
