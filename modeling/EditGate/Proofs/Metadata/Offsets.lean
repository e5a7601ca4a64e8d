import EditGate.Proofs.Metadata.Cells
import EditGate.Proofs.Text.Slice
import Mathlib.Data.List.Infix

/-!
# Blocks by offsets

A block need not be cut out of its text: it can be kept as a span of byte offsets into the text, and
values can be looked up and set by slicing the text at offsets that are found by searches, forward
for the marker and the ends of lines, backward for their starts, and added up. Such a slice is there
only between characters and in order, so each operation here may give nothing. None does: whatever
the text, the span that is located is that of the block that is cut out (`Span.locate?_eq`), a field
has the same value at the offsets that a lookup adds up (`Span.lookup?_eq`), and setting and
extracting by slices give what the block gives (`Span.set?_eq`, `Span.extract?_eq`).
-/

namespace EditGate

open Text

/-- Where a block lies in its text, by byte offsets. -/
structure Span where
  /-- The start of the line of the marker. -/
  start : Nat
  /-- The end of the block. -/
  stop : Nat
  /-- The start of the closing delimiter, if there is one. -/
  close : Option Nat
  /-- What an inserted field line starts with. -/
  lead : List Char
  /-- The leader of a block of line comments. -/
  lineLeader : Option (List Char)
deriving DecidableEq, Repr

/-- A value that is found in a text: where it lies, and what it is. -/
structure Found where
  start : Nat
  stop : Nat
  raw : List Char
deriving DecidableEq, Repr

namespace Span

/-! ## Locating a block

Each operation gives nothing if one of its slices is not there. -/

/-- The end of the line that goes on at an offset. -/
def lineEnd? (text : List Char) (n : Nat) : Option Nat :=
  (slice? text n (utf8Length text)).map fun rest =>
    ((find? ['\n'] rest).map (n + ·)).getD (utf8Length text)

theorem lt_of_lineEnd? {text : List Char} {n stop : Nat} (hn : n < utf8Length text)
    (h : lineEnd? text (n + 1) = some stop) : utf8Length text - stop < utf8Length text - n := by
  obtain ⟨rest, -, rfl⟩ := Option.map_eq_some_iff.mp h
  cases find? ['\n'] rest with
  | none =>
    simp only [Option.map_none, Option.getD_none]
    omega
  | some k =>
    simp only [Option.map_some, Option.getD_some]
    omega

/-- The end of a block of line comments, from the end of one of its lines on: it goes on while the
next line has the leader. -/
def extend? (text leader : List Char) (stop : Nat) : Option Nat :=
  if _ : stop < utf8Length text then
    match hnext : lineEnd? text (stop + 1) with
    | none => none
    | some next => (slice? text (stop + 1) next).bind fun line =>
      if Block.continues leader line = true then extend? text leader next else some stop
  else some stop
termination_by utf8Length text - stop
decreasing_by exact lt_of_lineEnd? ‹_› hnext

/-- The span of the first block of a text. -/
def locate? (text : List Char) : Option (Option Span) :=
  match find? marker text with
  | none => some none
  | some n => do
    let upTo ← slice? text 0 n
    let start := lineStart upTo
    let lead ← slice? text start n
    let behind := n + utf8Length marker
    let rest ← slice? text behind (utf8Length text)
    if Block.isStarred (trim lead) = true then
      match find? closing rest with
      | some k => some (some ⟨start, behind + k, some (behind + k), Block.starLead lead, none⟩)
      | none => some (some ⟨start, utf8Length text, none, Block.starLead lead, none⟩)
    else
      let first ← lineEnd? text behind
      let stop ← extend? text (trim lead) first
      some (some ⟨start, stop, none, lead, some (trim lead)⟩)

/-! ## Looking fields up -/

/-- What is written behind the opening of the first line that holds the field of a key, with its
offset; `n` is that of the lines. -/
def written? (l : Option (List Char)) (key : List Char) :
    Nat → List (List Char) → Option (Nat × List Char)
  | _, [] => none
  | n, line :: lines =>
    match Cell.written? l key line with
    | some s => some (n + (utf8Length line - utf8Length s), s)
    | none => written? l key (n + utf8Length line + 1) lines

/-- The value among what is written at an offset of a block that starts at another one. -/
def valueAt (start : Nat) (r : Nat × List Char) : Found :=
  let raw := Cell.bare (trimStart r.2)
  let first := start + r.1 + (utf8Length r.2 - utf8Length (trimStart r.2))
  ⟨first, first + utf8Length raw, raw⟩

/-- The value of the field of a key. -/
def lookup? (text : List Char) (b : Span) (key : List Char) : Option (Option Found) :=
  (slice? text b.start b.stop).map fun body =>
    (written? b.lineLeader key 0 (splitOn '\n' body)).map (valueAt b.start)

/-! ## Setting and reading -/

/-- A text with a line added at the end of a block. -/
def addLine? (text : List Char) (b : Span) (line : List Char) : Option (List Char) :=
  match b.close with
  | some close => do
    let upTo ← slice? text 0 close
    let last ← slice? text (lineStart upTo) close
    if b.start < lineStart upTo ∧ last.all isBlank = true then
      let front ← slice? text 0 (lineStart upTo)
      let back ← slice? text (lineStart upTo) (utf8Length text)
      some (front ++ line ++ '\n' :: back)
    else
      let back ← slice? text close (utf8Length text)
      some (dropEndWhile Block.isPadding upTo ++ '\n' :: line ++ '\n' :: back)
  | none => do
    let front ← slice? text 0 b.stop
    let back ← slice? text b.stop (utf8Length text)
    some (front ++ '\n' :: line ++ back)

/-- A text with a field of its block set to a value. -/
def set? (text : List Char) (f : Field) (v : List Char) : Option (List Char) := do
  match ← locate? text with
  | none => some text
  | some b =>
    match ← lookup? text b f.keyText with
    | some r =>
      let front ← slice? text 0 r.start
      let back ← slice? text r.stop (utf8Length text)
      some (front ++ v ++ back)
    | none => addLine? text b (b.lead ++ '@' :: f.keyText ++ ':' :: ' ' :: v)

/-- A text with the time of its block set, if it has a block. -/
def touch? (text : List Char) (time : String) : Option (Option (List Char)) := do
  match ← locate? text with
  | none => some none
  | some _ => (set? text .lastModified time.toList).map some

/-- The values of some fields. -/
def values? (text : List Char) (b : Span) : List Field → Option (List (Field × List Char))
  | [] => some []
  | f :: fs => do
    let found ← lookup? text b f.keyText
    let rest ← values? text b fs
    some ((found.map fun r => (f, r.raw)).toList ++ rest)

/-- The metadata that the fields of a text declare, if it has a block. -/
def extract? (text : List Char) : Option (Option Metadata) := do
  match ← locate? text with
  | none => some none
  | some b =>
    let values ← values? text b Field.all
    some (some (Metadata.declared fun f => values.lookup f))

end Span

/-! ## The span of a block -/

namespace Block

/-- Where a block lies in the text that it was cut out of. -/
def span (b : Block) : Span where
  start := utf8Length b.before
  stop := utf8Length (b.before ++ b.body)
  close := if b.closed = true then some (utf8Length (b.before ++ b.body)) else none
  lead := b.lead
  lineLeader := b.lineLeader

/-- Where a value lies in the text of the block that it was cut out of. -/
def found (b : Block) (c : Cell) : Found where
  start := utf8Length (b.before ++ c.front)
  stop := utf8Length (b.before ++ c.front ++ c.value)
  raw := c.value

/-- The pieces of a text around a value of its block. -/
theorem text_around {text : List Char} {b : Block} {c : Cell} (h : b.text = text)
    (hc : c.text = b.body) : (b.before ++ c.front) ++ c.value ++ (c.back ++ b.after) = text := by
  rw [← h, Block.text, ← hc, Cell.text]
  simp only [List.append_assoc]

end Block

namespace Span

variable {text front line before lead rest v : List Char} {lines : List (List Char)} {b : Block}
  {l : Option (List Char)}

theorem cutAt?_newline_of_notMem (h : '\n' ∉ line) : cutAt? ['\n'] line = none := by
  rwa [cutAt?_eq_none_iff, List.singleton_infix_iff]

/-- A line goes on to its newline, or to the end of the text. -/
theorem lineEnd?_eq (h : '\n' ∉ line) (lines : List (List Char)) :
    lineEnd? (front ++ (line ++ Block.unlines lines)) (utf8Length front) =
      some (utf8Length (front ++ line)) := by
  rw [lineEnd?, slice?_rest, Option.map_some, find?_eq]
  cases lines with
  | nil => rw [unlines_nil, List.append_nil, cutAt?_newline_of_notMem h]; rfl
  | cons next lines =>
    have hfirst : ¬ ['\n'] <:+: line ++ ['\n'].dropLast := by
      rwa [List.dropLast_singleton, List.append_nil, List.singleton_infix_iff]
    have hcut := @cutAt?_of_first ['\n'] line (next ++ Block.unlines lines) (by decide) hfirst
    rw [List.append_assoc, List.singleton_append] at hcut
    rw [unlines_cons, List.cons_append, hcut]
    simp only [Option.map_some, Option.getD_some, utf8Length_append]

/-- A block of line comments ends behind the lines that have the leader. -/
theorem extend?_eq (front leader : List Char) (h : ∀ line ∈ lines, '\n' ∉ line) :
    extend? (front ++ Block.unlines lines) leader (utf8Length front) =
      some (utf8Length (front ++ Block.unlines (lines.takeWhile (Block.continues leader)))) := by
  induction lines generalizing front with
  | nil => rw [extend?, dif_neg (by simp)]; simp
  | cons line lines ih =>
    obtain ⟨hline, hlines⟩ := List.forall_mem_cons.mp h
    have htext : front ++ Block.unlines (line :: lines) =
        (front ++ ['\n']) ++ (line ++ Block.unlines lines) := by simp
    have hnext : utf8Length front + 1 = utf8Length (front ++ ['\n']) := (utf8Length_newline _).symm
    have hlt : utf8Length front <
        utf8Length ((front ++ ['\n']) ++ (line ++ Block.unlines lines)) := by
      rw [utf8Length_append, ← hnext]
      omega
    have hslice : slice? ((front ++ ['\n']) ++ (line ++ Block.unlines lines))
        (utf8Length (front ++ ['\n'])) (utf8Length (front ++ ['\n'] ++ line)) = some line :=
      slice?_eq (b := Block.unlines lines) (by simp only [List.append_assoc]) rfl rfl
    rw [htext, extend?, dif_pos hlt]
    -- the next line is there, so the search goes on with it or stops before it
    split
    · rename_i hnone
      rw [hnext, lineEnd?_eq hline] at hnone
      exact absurd hnone (by simp)
    · rename_i next hsome
      rw [hnext, lineEnd?_eq hline] at hsome
      obtain rfl := Option.some.inj hsome
      rw [hnext, hslice, Option.bind_some]
      by_cases hc : Block.continues leader line = true
      · rw [if_pos hc, List.takeWhile_cons_of_pos hc, unlines_cons, ← List.append_assoc,
          ih _ hlines]
        simp
      · rw [if_neg hc, List.takeWhile_cons_of_neg hc, unlines_nil, List.append_nil]

/-- The end of a block of line comments, from behind its marker on. -/
theorem lineComments_eq (front leader rest : List Char) :
    ((lineEnd? (front ++ rest) (utf8Length front)).bind (extend? (front ++ rest) leader)) =
      some (utf8Length (front ++ (Block.cutLineComments leader rest).1)) := by
  obtain ⟨line, lines, hsplit⟩ := List.exists_cons_of_ne_nil (splitOn_ne_nil '\n' rest)
  have hlines : ∀ l ∈ line :: lines, '\n' ∉ l := fun l hl => notMem_of_mem_splitOn (hsplit ▸ hl)
  obtain ⟨hline, hlines⟩ := List.forall_mem_cons.mp hlines
  have hrest := unlines_of_splitOn hsplit
  have hend := extend?_eq (front ++ line) leader hlines
  rw [List.append_assoc, hrest] at hend
  rw [← hrest, lineEnd?_eq hline, hrest, Option.bind_some, hend, Block.cutLineComments, hsplit]
  simp only [List.append_assoc]

theorem locate?_of_marked (h : Marked text before lead rest) :
    locate? text = some (some (Block.ofParts before lead rest).span) := by
  -- up to the marker's end nothing depends on the kind of comment
  have htext : text = (before ++ lead) ++ (marker ++ rest) := by rw [h.eq, List.append_assoc]
  have hfind : find? marker text = some (utf8Length (before ++ lead)) := by
    rw [find?_eq, h.cut, Option.map_some]
  have hupTo : slice? text 0 (utf8Length (before ++ lead)) = some (before ++ lead) :=
    htext ▸ slice?_upTo _ _
  have hstart : lineStart (before ++ lead) = utf8Length before := by rw [lineStart_eq, h.line]
  have hlead : slice? text (utf8Length before) (utf8Length (before ++ lead)) = some lead :=
    slice?_eq htext rfl rfl
  have hbehind : utf8Length (before ++ lead) + utf8Length marker =
      utf8Length (before ++ lead ++ marker) := (utf8Length_append _ _).symm
  have hrest : slice? text (utf8Length (before ++ lead ++ marker)) (utf8Length text) =
      some rest := by
    rw [h.eq]
    exact slice?_rest _ _
  simp only [locate?, hfind, hupTo, hstart, hlead, hbehind, hrest, Option.bind_eq_bind,
    Option.bind_some]
  by_cases hs : Block.isStarred (trim lead) = true
  · simp only [Block.ofParts, hs, if_true, find?_eq]
    cases hc : cutAt? closing rest with
    | none =>
      simp only [Option.map_none, Block.span, h.eq, List.append_assoc]
      rfl
    | some cut => simp [Block.span, Nat.add_assoc]
  · have hend := lineComments_eq (before ++ lead ++ marker) (trim lead) rest
    rw [← h.eq] at hend
    obtain ⟨first, hfirst, hstop⟩ := Option.bind_eq_some_iff.mp hend
    simp only [hs, hfirst, hstop, Option.bind_some]
    simp [Block.ofParts, hs, Block.span]

/-- The span that is located is that of the block. -/
theorem locate?_eq (text : List Char) :
    locate? text = some ((Block.locate? text).map Block.span) := by
  cases hb : Block.locate? text with
  | none =>
    have hfind : find? marker text = none := by
      rw [find?_eq, Option.map_eq_none_iff, cutAt?_eq_none_iff]
      exact Metadata.locate?_eq_none_iff.mp hb
    rw [locate?, hfind, Option.map_none]
  | some b =>
    obtain ⟨before, lead, rest, hm, rfl⟩ := exists_marked hb
    rw [locate?_of_marked hm, Option.map_some]

/-! ## The offsets of a value -/

/-- What is written behind the opening of a line has no blanks at its start. -/
theorem startsBare_written? {key s : List Char} (h : Cell.written? l key line = some s) :
    StartsBare s := by
  simp only [Cell.written?, Option.bind_eq_bind, Option.bind_eq_some_iff] at h
  obtain ⟨_, _, _, _, hcolon⟩ := h
  obtain ⟨t, -, rfl⟩ := Cell.dropColon?_eq_some_iff.mp hcolon
  exact startsBare_trimStart t

/-- The offsets that are added up over the lines are those of the cut. -/
theorem map_written?_eq (l : Option (List Char)) (key : List Char) (lines : List (List Char))
    (start n : Nat) :
    (written? l key n lines).map (valueAt start) = (Cell.ofLines? l key lines).map fun c =>
      ⟨start + n + utf8Length c.front, start + n + utf8Length c.front + utf8Length c.value,
        c.value⟩ := by
  induction lines generalizing n with
  | nil => rfl
  | cons line lines ih =>
    rw [written?, Cell.ofLines?, Cell.ofLine?]
    cases hw : Cell.written? l key line with
    | none =>
      -- a line without the field is passed together with its newline
      rw [ih, Option.map_none, Option.map_map]
      refine congrArg (Option.map · _) (funext fun c => ?_)
      have hline : start + (n + utf8Length line + 1) + utf8Length c.front =
          start + n + utf8Length (line ++ '\n' :: c.front) := by
        rw [List.append_cons, utf8Length_append, utf8Length_newline]
        omega
      simp only [Function.comp, hline]
    | some s =>
      obtain ⟨front, rfl⟩ := Cell.written?_suffix hw
      have hbare := trimStart_of_startsBare (startsBare_written? hw)
      simp [valueAt, hbare, Nat.add_assoc]

theorem slice?_body (h : b.text = text) :
    slice? text b.span.start b.span.stop = some b.body :=
  slice?_eq h.symm rfl rfl

/-- A field has the same value, at the offsets that are added up. -/
theorem lookup?_eq (h : b.text = text) (key : List Char) :
    lookup? text b.span key =
      some ((Cell.ofLines? b.lineLeader key (splitOn '\n' b.body)).map b.found) := by
  rw [lookup?, slice?_body h, Option.map_some, map_written?_eq]
  refine congrArg (fun found => some (Option.map found _)) (funext fun c => ?_)
  simp only [Block.found, Block.span, Nat.add_zero, utf8Length_append]

/-! ## Setting a field by slices -/

/-- The body of a block starts a line, so its last line is that of the text up to its end. -/
theorem cutLastLine_before_append (hb : Block.locate? text = some b) (s : List Char) :
    cutLastLine (b.before ++ s) = (b.before ++ (cutLastLine s).1, (cutLastLine s).2) := by
  obtain ⟨before, lead, rest, hm, rfl⟩ := exists_marked hb
  rw [before_ofParts]
  rcases cutLastLine_cases (before ++ lead) with ⟨-, hcut⟩ | ⟨front, last, -, -, hcut⟩
  · obtain ⟨rfl, -⟩ := Prod.mk.inj (hm.line.symm.trans hcut)
    rfl
  · obtain ⟨rfl, -⟩ := Prod.mk.inj (hm.line.symm.trans hcut)
    simp only [List.append_assoc, List.singleton_append, cutLastLine_newline_append]

/-- The padding at the end of a block does not reach over its marker. -/
theorem dropEndWhile_before_append (hb : Block.locate? text = some b) :
    dropEndWhile Block.isPadding (b.before ++ b.body) =
      b.before ++ dropEndWhile Block.isPadding b.body := by
  obtain ⟨before, lead, rest, -, rfl⟩ := exists_marked hb
  obtain ⟨inner, hbody⟩ := exists_body_ofParts before lead rest
  refine dropEndWhile_append_of_exists ⟨'@', ?_, by decide⟩
  rw [hbody, List.mem_append, List.mem_append]
  exact .inl (.inr (by decide))

theorem addLine?_eq (hb : Block.locate? text = some b) (line : List Char) :
    addLine? text b.span line = some (b.before ++ b.addLine line ++ b.after) := by
  have htext : (b.before ++ b.body) ++ b.after = text := Block.text_of_locate? hb
  have hupTo : slice? text 0 (utf8Length (b.before ++ b.body)) = some (b.before ++ b.body) :=
    htext ▸ slice?_upTo _ _
  have hback : slice? text (utf8Length (b.before ++ b.body)) (utf8Length text) = some b.after :=
    htext ▸ slice?_rest _ _
  cases hc : b.closed with
  | false =>
    simp only [addLine?, Block.span, Block.addLine, hc, Bool.false_eq_true, if_false, hupTo, hback,
      Option.bind_eq_bind, Option.bind_some, List.append_assoc, List.cons_append]
  | true =>
    -- the body starts a line, so there is a line above the last one just if the body has one
    have hcut := cutLastLine_before_append hb b.body
    have happ := cutLastLine_append b.body
    obtain ⟨upTo, last, hlast⟩ : ∃ upTo last, cutLastLine b.body = (upTo, last) := ⟨_, _, rfl⟩
    rw [hlast] at hcut happ
    have hstart : lineStart (b.before ++ b.body) = utf8Length (b.before ++ upTo) := by
      rw [lineStart_eq, hcut]
    have hparts : (b.before ++ upTo) ++ (last ++ b.after) = text := by
      rw [← htext, ← happ]
      simp only [List.append_assoc]
    have hline : slice? text (utf8Length (b.before ++ upTo)) (utf8Length (b.before ++ b.body)) =
        some last :=
      slice?_eq (b := b.after) (by rw [← hparts, List.append_assoc _ last]) rfl
        (by rw [← happ, List.append_assoc])
    have hfront : slice? text 0 (utf8Length (b.before ++ upTo)) = some (b.before ++ upTo) :=
      hparts ▸ slice?_upTo _ _
    have hrest : slice? text (utf8Length (b.before ++ upTo)) (utf8Length text) =
        some (last ++ b.after) := hparts ▸ slice?_rest _ _
    have hbelow : (utf8Length b.before < utf8Length (b.before ++ upTo) ∧
        last.all isBlank = true) ↔ (!upTo.isEmpty && last.all isBlank) = true := by
      rw [utf8Length_append, Nat.lt_add_right_iff_pos, utf8Length_pos_iff]
      simp
    simp only [addLine?, Block.span, Block.addLine, hc, if_true, hstart, hline, hlast, hupTo, hback,
      hfront, hrest, hbelow, Option.bind_eq_bind, Option.bind_some, dropEndWhile_before_append hb]
    split <;> simp

/-- Setting a field by slices gives the text that the block gives. -/
theorem set?_eq (text : List Char) (f : Field) (v : List Char) :
    set? text f v = some (setField text f v) := by
  cases hb : Block.locate? text with
  | none => simp [set?, setField, locate?_eq, hb]
  | some b =>
    have htext := Block.text_of_locate? hb
    have hlookup : lookup? text b.span f.keyText = some ((b.cell? f).map b.found) :=
      lookup?_eq htext f.keyText
    simp only [set?, setField, locate?_eq, hb, Option.map_some, Option.bind_eq_bind,
      Option.bind_some, hlookup, Block.set, Block.setBody]
    cases hc : b.cell? f with
    | none => exact addLine?_eq hb _
    | some c =>
      have hparts := Block.text_around htext (Block.text_of_cell? hc)
      have hfront : slice? text 0 (b.found c).start = some (b.before ++ c.front) :=
        slice?_eq (a := []) (b := c.value ++ (c.back ++ b.after))
          (by rw [← hparts, List.append_assoc, List.nil_append]) rfl rfl
      have hback : slice? text (b.found c).stop (utf8Length text) = some (c.back ++ b.after) :=
        hparts ▸ slice?_rest _ _
      simp [hfront, hback]

theorem touch?_eq (text : List Char) (time : String) :
    touch? text time = some (Metadata.touch text time) := by
  cases hb : Block.locate? text with
  | none => simp [touch?, Metadata.touch, locate?_eq, hb]
  | some b => simp [touch?, Metadata.touch, locate?_eq, hb, set?_eq, setField]

/-! ## Reading fields by slices -/

/-- The fields that have a value, with it. -/
def listed (raw : Field → Option (List Char)) (fs : List Field) : List (Field × List Char) :=
  fs.flatMap fun f => ((raw f).map fun v => (f, v)).toList

theorem lookup_listed (raw : Field → Option (List Char)) (fs : List Field) (f : Field) :
    (listed raw fs).lookup f = if f ∈ fs then raw f else none := by
  induction fs with
  | nil => rfl
  | cons g fs ih =>
    rw [listed] at ih
    rw [listed, List.flatMap_cons, List.lookup_append, ih]
    by_cases hgf : f = g
    · subst hgf
      cases raw f <;> simp
    · have hne : (f == g) = false := beq_eq_false_iff_ne.mpr hgf
      cases raw g <;> simp [hgf, List.lookup_cons, hne]

theorem values?_eq (h : b.text = text) (fs : List Field) :
    values? text b.span fs = some (listed b.raw? fs) := by
  induction fs with
  | nil => rfl
  | cons f fs ih =>
    have hlookup : lookup? text b.span f.keyText = some ((b.cell? f).map b.found) :=
      lookup?_eq h f.keyText
    simp only [values?, hlookup, ih, Option.bind_eq_bind, Option.bind_some, Option.map_map, listed,
      List.flatMap_cons, Block.raw?]
    rfl

/-- Reading fields by slices gives the metadata of the text. -/
theorem extract?_eq (text : List Char) : extract? text = some (Metadata.extract text) := by
  cases hb : Block.locate? text with
  | none => simp [extract?, locate?_eq, hb, Metadata.extract_of_locate?_eq_none hb]
  | some b =>
    have hvalues := values?_eq (Block.text_of_locate? hb) Field.all
    have hraw : (fun f => (listed b.raw? Field.all).lookup f) = b.raw? := funext fun f => by
      rw [lookup_listed, if_pos f.mem_all]
    simp [extract?, locate?_eq, hb, hvalues, hraw, Metadata.extract_of_locate? hb,
      Metadata.ofBlock_fst]

end Span

end EditGate
