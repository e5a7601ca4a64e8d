import EditGate.Text.Blank
import EditGate.Text.Split

/-!
# Metadata blocks

A text carries its metadata in the comment around the first marker. `Block.locate?` cuts the text
in three: what stands before the line of the marker, the body of the block, and the rest. A block
between comment delimiters runs to the closing one; a block of line comments runs on while lines
start with the leader that stands before the marker.

The three pieces put together are the text again (`text_of_locate?`).
-/

namespace EditGate

/-- The text that marks a metadata block. -/
def marker : List Char := "@ai-metadata".toList

/-- The delimiter that closes a comment. -/
def closing : List Char := ['*', '/']

/-- A text cut around its metadata block. -/
structure Block where
  /-- What stands before the line of the marker. -/
  before : List Char
  /-- From the start of that line to the end of the block. -/
  body : List Char
  /-- What follows, beginning with the closing delimiter if there is one. -/
  after : List Char
  /-- Whether the block ends at a closing delimiter. -/
  closed : Bool
  /-- What an inserted field line starts with. -/
  lead : List Char
  /-- The leader of a block of line comments. -/
  lineLeader : Option (List Char)
deriving DecidableEq, Repr

namespace Block

/-- The whole text. -/
def text (b : Block) : List Char := b.before ++ b.body ++ b.after

/-- Whether what precedes the marker on its line, without blanks, belongs to a comment between
delimiters: nothing, an opening delimiter, or a star. -/
def isStarred (leader : List Char) : Bool :=
  match leader with
  | [] => true
  | '*' :: _ => true
  | '/' :: '*' :: _ => true
  | _ => false

/-- What inserted lines of a block between delimiters start with. -/
def starLead (lead : List Char) : List Char :=
  match Text.trim lead with
  | '/' :: '*' :: _ => [' ', '*', ' ']
  | _ => lead

/-- Lines, each after a newline. -/
def unlines (lines : List (List Char)) : List Char := lines.flatMap ('\n' :: ·)

/-- Whether a line belongs to a block of line comments with that leader. -/
def continues (leader line : List Char) : Bool :=
  (Text.dropText? leader (Text.trimStart line)).isSome

/-- Cuts what follows the marker at the end of a block of line comments. -/
def cutLineComments (leader rest : List Char) : List Char × List Char :=
  match Text.splitOn '\n' rest with
  | [] => ([], [])
  | line :: lines =>
    (line ++ unlines (lines.takeWhile (continues leader)),
      unlines (lines.dropWhile (continues leader)))

/-- The block that starts on the line of the marker, given the text before that line, the line up
to the marker, and what follows the marker. -/
def ofParts (before lead rest : List Char) : Block :=
  let leader := Text.trim lead
  if isStarred leader then
    match Text.cutAt? closing rest with
    | some (inner, after) =>
      ⟨before, lead ++ marker ++ inner, closing ++ after, true, starLead lead, none⟩
    | none => ⟨before, lead ++ marker ++ rest, [], false, starLead lead, none⟩
  else
    let (inner, after) := cutLineComments leader rest
    ⟨before, lead ++ marker ++ inner, after, false, lead, some leader⟩

/-- Cuts a text around its first metadata block. -/
def locate? (text : List Char) : Option Block :=
  (Text.cutAt? marker text).map fun (upTo, rest) =>
    let (before, lead) := Text.cutLastLine upTo
    Block.ofParts before lead rest

/-! ## What the cut keeps -/

theorem cutLineComments_append (leader rest : List Char) :
    (cutLineComments leader rest).1 ++ (cutLineComments leader rest).2 = rest := by
  unfold cutLineComments
  split
  · rename_i h
    exact absurd h (Text.splitOn_ne_nil _ _)
  · rename_i line lines h
    rw [Text.eq_of_splitOn h, List.append_assoc, unlines, unlines, ← List.flatMap_append,
      List.takeWhile_append_dropWhile]

/-- The pieces of a block are the parts that it was made of. -/
theorem text_ofParts (before lead rest : List Char) :
    (ofParts before lead rest).text = before ++ lead ++ marker ++ rest := by
  by_cases hs : isStarred (Text.trim lead)
  · cases hc : Text.cutAt? closing rest with
    | none => simp [ofParts, hs, hc, text, List.append_assoc]
    | some cut =>
      obtain ⟨inner, after⟩ := cut
      have h := Text.eq_append_of_cutAt? hc
      simp only [ofParts, hs, hc, text, if_true]
      simp [h, List.append_assoc]
  · have h := cutLineComments_append (Text.trim lead) rest
    simp [ofParts, hs, text, List.append_assoc, h]

/-- The three pieces of a text are the text. -/
theorem text_of_locate? {text : List Char} {b : Block} (h : locate? text = some b) :
    b.text = text := by
  simp only [locate?, Option.map_eq_some_iff] at h
  obtain ⟨⟨upTo, rest⟩, hcut, rfl⟩ := h
  rw [text_ofParts, Text.cutLastLine_append]
  exact (Text.eq_append_of_cutAt? hcut).symm

end Block

end EditGate
