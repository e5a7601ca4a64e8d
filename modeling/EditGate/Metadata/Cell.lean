import EditGate.Metadata.Block
import EditGate.Metadata.Field

/-!
# Fields in a block

A field is a line of the body of a block: leader, optional dash, optional `@`, key, colon, value.
Looking a field up cuts the body around its value, so replacing a value touches nothing else. The
pieces put together are the body again (`Block.text_of_cell?`).
-/

namespace EditGate

/-! ## Field lines -/

/-- A text cut around the value of a field. -/
structure Cell where
  front : List Char
  value : List Char
  back : List Char
deriving DecidableEq, Repr

namespace Cell

/-- The whole text. -/
def text (c : Cell) : List Char := c.front ++ c.value ++ c.back

/-- What follows the leader that a field line between delimiters may have. -/
def dropStarLeader : List Char → List Char
  | '*' :: s => s
  | '/' :: '/' :: s => s
  | '#' :: s => s
  | '-' :: '-' :: s => s
  | s => s

/-- What follows the leader of a field line. -/
def dropLeader? (lineLeader : Option (List Char)) (s : List Char) : Option (List Char) :=
  match lineLeader with
  | some leader => Text.dropText? leader s
  | none => some (dropStarLeader s)

def dropDash : List Char → List Char
  | '-' :: s => Text.trimStart s
  | s => s

def dropSign : List Char → List Char
  | '@' :: s => s
  | s => s

/-- What follows the colon and blanks after it. -/
def dropColon? : List Char → Option (List Char)
  | ':' :: s => some (Text.trimStart s)
  | _ => none

/-- What follows the key and colon on a line that holds the field of that key. -/
def written? (lineLeader : Option (List Char)) (key line : List Char) : Option (List Char) := do
  let s ← dropLeader? lineLeader (Text.trimStart line)
  let s ← Text.dropText? key (dropSign (dropDash (Text.trimStart s)))
  dropColon? (Text.trimStart s)

/-- A written value without blanks at its end and without a delimiter there. -/
def bare (written : List Char) : List Char :=
  let s := Text.trimEnd written
  match Text.dropEndText? closing s with
  | some s => Text.trimEnd s
  | none => s

/-- Cuts a line around the value of the field of that key. -/
def ofLine? (lineLeader : Option (List Char)) (key line : List Char) : Option Cell :=
  (written? lineLeader key line).map fun s =>
    let value := bare s
    ⟨line.take (line.length - s.length), value, s.drop value.length⟩

/-- Cuts lines, joined by newlines, around the value on the first line that holds the field. -/
def ofLines? (lineLeader : Option (List Char)) (key : List Char) : List (List Char) → Option Cell
  | [] => none
  | line :: lines =>
    match ofLine? lineLeader key line with
    | some c => some { c with back := c.back ++ Block.unlines lines }
    | none =>
      (ofLines? lineLeader key lines).map fun c => { c with front := line ++ '\n' :: c.front }

/-! ## What the cuts keep -/

theorem dropStarLeader_suffix (s : List Char) : dropStarLeader s <:+ s := by
  unfold dropStarLeader
  split
  · exact List.suffix_cons _ _
  · exact List.suffix_append [_, _] _
  · exact List.suffix_cons _ _
  · exact List.suffix_append [_, _] _
  · exact List.suffix_refl _

theorem dropText?_suffix {pat s rest : List Char} (h : Text.dropText? pat s = some rest) :
    rest <:+ s := ⟨pat, (Text.eq_append_of_dropText? h).symm⟩

theorem dropLeader?_suffix {leader : Option (List Char)} {s rest : List Char}
    (h : dropLeader? leader s = some rest) : rest <:+ s := by
  cases leader with
  | none =>
    obtain rfl := Option.some.inj h
    exact dropStarLeader_suffix s
  | some leader => exact dropText?_suffix h

theorem trimStart_suffix (s : List Char) : Text.trimStart s <:+ s := List.dropWhile_suffix _

theorem dropDash_suffix (s : List Char) : dropDash s <:+ s := by
  unfold dropDash
  split
  · exact (trimStart_suffix _).trans (List.suffix_cons _ _)
  · exact List.suffix_refl _

theorem dropSign_suffix (s : List Char) : dropSign s <:+ s := by
  unfold dropSign
  split
  · exact List.suffix_cons _ _
  · exact List.suffix_refl _

theorem dropColon?_suffix {s rest : List Char} (h : dropColon? s = some rest) : rest <:+ s := by
  unfold dropColon? at h
  split at h
  · obtain rfl := Option.some.inj h
    exact (trimStart_suffix _).trans (List.suffix_cons _ _)
  · simp at h

/-- What is written after the colon ends the line. -/
theorem written?_suffix {leader : Option (List Char)} {key line s : List Char}
    (h : written? leader key line = some s) : s <:+ line := by
  simp only [written?, Option.bind_eq_bind, Option.bind_eq_some_iff] at h
  obtain ⟨a, ha, b, hb, hc⟩ := h
  have h₁ := (dropLeader?_suffix ha).trans (trimStart_suffix line)
  have h₂ := (dropDash_suffix _).trans ((trimStart_suffix a).trans h₁)
  have h₃ := (dropText?_suffix hb).trans ((dropSign_suffix _).trans h₂)
  exact (dropColon?_suffix hc).trans ((trimStart_suffix b).trans h₃)

/-- A bare value starts what is written. -/
theorem bare_append_drop (s : List Char) : bare s ++ s.drop (bare s).length = s := by
  have hend : ∀ t : List Char, Text.trimEnd t <+: t := fun t => by
    have := List.dropWhile_suffix (p := Text.isBlank) (l := t.reverse)
    simpa [Text.trimEnd, Text.dropEndWhile] using List.reverse_prefix.2 this
  have h : bare s <+: s := by
    unfold bare
    simp only
    split
    · rename_i t ht
      refine (hend t).trans (List.IsPrefix.trans ?_ (hend s))
      simp only [Text.dropEndText?, Option.map_eq_some_iff] at ht
      obtain ⟨u, hu, rfl⟩ := ht
      have := Text.eq_append_of_dropText? hu
      exact ⟨closing, by rw [← List.reverse_reverse (Text.trimEnd s), this]; simp⟩
    · exact hend s
  exact List.prefix_iff_eq_append.1 h

theorem text_of_ofLine? {leader : Option (List Char)} {key line : List Char} {c : Cell}
    (h : ofLine? leader key line = some c) : c.text = line := by
  simp only [ofLine?, Option.map_eq_some_iff] at h
  obtain ⟨s, hs, rfl⟩ := h
  obtain ⟨front, rfl⟩ := written?_suffix hs
  simp [text, List.append_assoc, bare_append_drop]

theorem text_of_ofLines? {leader : Option (List Char)} {key : List Char} {line : List Char}
    {lines : List (List Char)} {c : Cell} (h : ofLines? leader key (line :: lines) = some c) :
    c.text = line ++ Block.unlines lines := by
  induction lines generalizing line c with
  | nil =>
    simp only [ofLines?] at h
    split at h
    · rename_i d hd
      obtain rfl := Option.some.inj h
      simpa [text, Block.unlines, List.append_assoc] using text_of_ofLine? hd
    · simp at h
  | cons next lines ih =>
    rw [ofLines?] at h
    split at h
    · rename_i d hd
      obtain rfl := Option.some.inj h
      have := text_of_ofLine? hd
      simp only [text, List.append_assoc] at this ⊢
      rw [← List.append_assoc d.value, ← List.append_assoc d.front, this]
    · obtain ⟨d, hd, rfl⟩ := Option.map_eq_some_iff.1 h
      have := ih hd
      simp only [text, List.append_assoc, List.cons_append] at this ⊢
      rw [this]
      simp [Block.unlines]

theorem text_of_splitOn {leader : Option (List Char)} {key s : List Char} {c : Cell}
    (h : ofLines? leader key (Text.splitOn '\n' s) = some c) : c.text = s := by
  cases hs : Text.splitOn '\n' s with
  | nil => exact absurd hs (Text.splitOn_ne_nil _ _)
  | cons line lines =>
    rw [hs] at h
    rw [text_of_ofLines? h, Text.eq_of_splitOn hs]
    rfl

end Cell

namespace Block

/-- Cuts the body of a block around the value of a field. -/
def cell? (b : Block) (f : Field) : Option Cell :=
  Cell.ofLines? b.lineLeader f.keyText (Text.splitOn '\n' b.body)

/-- The value of a field, as it stands in the block. -/
def raw? (b : Block) (f : Field) : Option (List Char) := (b.cell? f).map Cell.value

/-- The pieces around a value are the body. -/
theorem text_of_cell? {b : Block} {f : Field} {c : Cell} (h : b.cell? f = some c) :
    c.text = b.body := Cell.text_of_splitOn h

/-! ## Setting a field -/

/-- The line that is inserted for a field. -/
def fieldLine (b : Block) (f : Field) (value : List Char) : List Char :=
  b.lead ++ '@' :: f.keyText ++ ':' :: ' ' :: value

/-- A blank that may stand before a closing delimiter. -/
def isPadding (c : Char) : Bool := c == ' ' || c == '\t'

/-- The body with a line added at its end. A closing delimiter on a line of its own stays there;
one that shares its line moves to the next. -/
def addLine (b : Block) (line : List Char) : List Char :=
  if b.closed then
    let (upTo, last) := Text.cutLastLine b.body
    if !upTo.isEmpty && last.all Text.isBlank then upTo ++ line ++ '\n' :: last
    else Text.dropEndWhile isPadding b.body ++ '\n' :: line ++ ['\n']
  else b.body ++ '\n' :: line

/-- The body with a field set to a value: in place if it has the field, on a new line if not. -/
def setBody (b : Block) (f : Field) (value : List Char) : List Char :=
  match b.cell? f with
  | some c => c.front ++ value ++ c.back
  | none => b.addLine (b.fieldLine f value)

/-- The text with a field of the block set to a value. -/
def set (b : Block) (f : Field) (value : List Char) : List Char :=
  b.before ++ b.setBody f value ++ b.after

end Block

/-- The text with a field of its metadata block set to a value; without a block it stays. -/
def setField (text : List Char) (f : Field) (value : List Char) : List Char :=
  match Block.locate? text with
  | some b => b.set f value
  | none => text

end EditGate
