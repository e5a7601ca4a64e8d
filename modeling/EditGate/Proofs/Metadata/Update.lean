import EditGate.Metadata.Extract
import EditGate.Metadata.Patch
import EditGate.Proofs.Metadata.Relocate

/-!
# An update reads back

What is extracted from a text depends on the values of the fields of its block alone, so it is
enough to follow these through an update. Setting one field changes that field's value and no
other (`Located.set`), as long as the field is there or the line that is inserted for it is found
again; a run over several entries sets the fields that it names and leaves the others alone
(`Located.setFields`), and a new block has the fields that it is written with. The values of a patch
without free text and a time stamp are plain: nothing in them is taken off when they are read.
-/

namespace EditGate

open Text Cell

variable {text v : List Char} {f g : Field}

/-! ## Values that can be written -/

/-- A value that stays on its line and in its comment, and that is found there as it is. -/
structure Writable (v : List Char) : Prop where
  firm : Firm v
  not_closing : ¬ closing <:+: v
  newline_notMem : '\n' ∉ v

/-- A value that is found as it is, and that ends neither its line nor its comment. -/
structure IsValue (v : List Char) : Prop where
  ne_nil : v ≠ []
  trim : Text.trim v = v
  not_closing : ¬ closing <:+: v
  newline_notMem : '\n' ∉ v

theorem IsValue.whole (h : IsValue v) : Whole v :=
  ⟨h.ne_nil, h.trim, fun hend => h.not_closing hend.isInfix⟩

theorem Writable.isValue (h : Writable v) : IsValue v :=
  ⟨h.firm.whole.ne_nil, h.firm.whole.trim, h.not_closing, h.newline_notMem⟩

/-- A value without blanks, quotes and parts of delimiters. -/
structure Plain (v : List Char) : Prop where
  ne_nil : v ≠ []
  bare : ∀ c ∈ v, isBlank c = false ∧ Metadata.isQuote c = false ∧ c ≠ '*' ∧ c ≠ '/'

namespace Plain

theorem firm (h : Plain v) : Firm v := by
  constructor
  · obtain ⟨c, t, rfl⟩ := List.exists_cons_of_ne_nil h.ne_nil
    have hc := h.bare c (List.mem_cons_self ..)
    exact ⟨c, t, rfl, hc.1, hc.2.2.2⟩
  · have hz := h.bare _ (List.getLast_mem h.ne_nil)
    exact ⟨v.dropLast, v.getLast h.ne_nil, (List.dropLast_concat_getLast h.ne_nil).symm,
      hz.1, hz.2.2.1, hz.2.2.2⟩

theorem newline_notMem (h : Plain v) : '\n' ∉ v := fun hm =>
  absurd (h.bare _ hm).1 (by decide)

theorem slash_notMem (h : Plain v) : '/' ∉ v := fun hm => (h.bare _ hm).2.2.2 rfl

theorem not_closing (h : Plain v) : ¬ closing <:+: v := fun hin =>
  h.slash_notMem (slash_mem_of_closing hin)

theorem writable (h : Plain v) : Writable v := ⟨h.firm, h.not_closing, h.newline_notMem⟩

theorem trim (h : Plain v) : Text.trim v = v := by
  have hstart : StartsBare (v ++ []) := h.firm.startsBare
  rw [List.append_nil] at hstart
  rw [Text.trim, trimStart_of_startsBare hstart, h.firm.trimEnd]

theorem trimMatches (h : Plain v) : Text.trimMatches Metadata.isQuote v = v := by
  have hstart : v.dropWhile Metadata.isQuote = v := by
    obtain ⟨c, t, rfl⟩ := List.exists_cons_of_ne_nil h.ne_nil
    have hc := (h.bare c (List.mem_cons_self ..)).2.1
    rw [List.dropWhile_cons_of_neg (by simp [hc])]
  have hz := (h.bare _ (List.getLast_mem h.ne_nil)).2.1
  have hend := @dropEndWhile_concat_of_neg _ v.dropLast _ hz
  rw [List.dropLast_concat_getLast h.ne_nil] at hend
  rw [Text.trimMatches, hstart, hend]

/-- A plain value is read as it is written. -/
theorem unquote (h : Plain v) : Metadata.unquote v = v := by
  rw [Metadata.unquote, h.trim, h.trimMatches, h.trim]

end Plain

/-! ## Setting one field -/

theorem Marked.exists_set {before lead rest : List Char} (h : Marked text before lead rest)
    (hc : Clear lead (Block.ofParts before lead rest))
    (hlead : (Block.ofParts before lead rest).raw? f = none →
      Leads (Block.ofParts before lead rest)) (hclosing : ¬ closing <:+: v) (hvn : '\n' ∉ v) :
    ∃ rest', (Block.ofParts before lead rest).set f v = before ++ lead ++ marker ++ rest' ∧
      Block.ofParts before lead rest' =
        { Block.ofParts before lead rest with
          body := (Block.ofParts before lead rest).setBody f v } := by
  cases hs : Block.isStarred (trim lead) with
  | true => exact h.exists_set_of_starred hc hlead hs hclosing
  | false => exact h.exists_set_of_lines hs hvn f

theorem exists_body_ofParts (before lead rest : List Char) :
    ∃ inner, (Block.ofParts before lead rest).body = lead ++ marker ++ inner := by
  unfold Block.ofParts
  simp only
  split
  · split
    · exact ⟨_, rfl⟩
    · exact ⟨_, rfl⟩
  · exact ⟨_, rfl⟩

/-- Setting a field of a clear block sets that field and no other, if the field is there or the line
that is inserted for it is found again. -/
theorem Clear.raw?_set {b : Block} {lead inner : List Char} (hb : Clear lead b) (hn : '\n' ∉ lead)
    (hbody : b.body = lead ++ marker ++ inner) (hlead : b.raw? f = none → Leads b) (hv : Whole v)
    (hvn : '\n' ∉ v) (g : Field) :
    Block.raw? { b with body := b.setBody f v } g = if g = f then some v else b.raw? g := by
  obtain ⟨top, more, top', more', hsplit, he, hset, hsplit'⟩ := hb.exists_edit_lines hn hbody hvn f
  have hleads : Lacks b.lineLeader f more → Leads b := fun hlacks =>
    hlead ((hb.lacks_iff hn hbody hsplit f).mp hlacks)
  have hnew : Block.raw? { b with body := b.setBody f v } g = valueIn b.lineLeader g more' :=
    raw?_of_body (hb.first g) hn hset hsplit'
  rw [hnew, raw?_of_body (hb.first g) hn hbody hsplit]
  by_cases hgf : g = f
  · rw [if_pos hgf, hgf]
    exact he.valueIn_self hb.distinct hleads hv
  · rw [if_neg hgf]
    exact he.valueIn_of_ne hb.distinct hleads (Ne.symm hgf)

/-- The clear block of a text, with what stands before its marker on the line. -/
structure Located (lead text : List Char) (b : Block) : Prop where
  parts : ∃ before rest, Marked text before lead rest ∧ b = Block.ofParts before lead rest
  clear : Clear lead b

theorem Located.locate? {lead : List Char} {b : Block} (h : Located lead text b) :
    Block.locate? text = some b := by
  obtain ⟨before, rest, hm, rfl⟩ := h.parts
  exact hm.locate?

/-- After a field is set, the text has the same block with that field set. -/
theorem Located.set {lead : List Char} {b : Block} (h : Located lead text b)
    (hlead : b.raw? f = none → Leads b) (hv : IsValue v) :
    Located lead (b.set f v) { b with body := b.setBody f v } ∧
      ∀ g, Block.raw? { b with body := b.setBody f v } g = if g = f then some v else b.raw? g := by
  obtain ⟨⟨before, rest, hm, rfl⟩, hclear⟩ := h
  obtain ⟨rest', hset, hparts⟩ := hm.exists_set hclear hlead hv.not_closing hv.newline_notMem
  obtain ⟨inner, hbody⟩ := exists_body_ofParts before lead rest
  refine ⟨⟨⟨before, rest', ?_, hparts.symm⟩, ?_⟩, fun g => ?_⟩
  · rw [hset]
    exact hm.replace rest'
  · exact ⟨hclear.distinct, hclear.newline_notMem, hclear.first⟩
  · exact hclear.raw?_set hm.newline_notMem hbody hlead hv.whole hv.newline_notMem g

/-- The block of a documented text is clear, and its inserted lines are found again. -/
theorem Documented.exists_located {b : Block} (hd : Documented text)
    (h : Block.locate? text = some b) :
    ∃ lead, Located lead text b ∧ IsPlainLead lead ∧ Leads b := by
  obtain ⟨before, lead, rest, hm, rfl⟩ := exists_marked h
  have hlead := hd _ _ _ hm
  have hedit := editable_ofParts hlead hm.newline_notMem before rest
  exact ⟨lead, ⟨⟨before, rest, hm, rfl⟩, hedit.toClear⟩, hlead, hedit.leads⟩

/-- A documented text with a field set is documented, and has that block with that field set. -/
theorem Documented.locate?_set {b : Block} (hd : Documented text)
    (h : Block.locate? text = some b) (hv : Plain v) (f : Field) :
    ∃ b', Block.locate? (b.set f v) = some b' ∧ Documented (b.set f v) ∧
      ∀ g, b'.raw? g = if g = f then some v else b.raw? g := by
  obtain ⟨lead, hloc, hplain, hleads⟩ := hd.exists_located h
  obtain ⟨hloc', hraw⟩ := hloc.set (fun _ => hleads) hv.writable.isValue (f := f)
  obtain ⟨before, rest, hm, -⟩ := hloc'.parts
  exact ⟨_, hloc'.locate?, hm.documented hplain, hraw⟩

/-! ## Setting several fields -/

/-- The value that some entries give a field. -/
def entryValue (entries : List (Field × String)) (g : Field) : Option (List Char) :=
  (entries.find? fun e => e.1 = g).map fun e => e.2.toList

theorem entryValue_cons (e : Field × String) (es : List (Field × String)) (g : Field) :
    entryValue (e :: es) g = if e.1 = g then some e.2.toList else entryValue es g := by
  by_cases h : e.1 = g <;> simp [entryValue, h]

theorem entryValue_eq_none {es : List (Field × String)} (h : g ∉ es.map Prod.fst) :
    entryValue es g = none := by
  induction es with
  | nil => rfl
  | cons e es ih =>
    rw [List.map_cons, List.mem_cons, not_or] at h
    rw [entryValue_cons, if_neg (Ne.symm h.1), ih h.2]

theorem entryValue_of_mem {es : List (Field × String)} (hnodup : (es.map Prod.fst).Nodup)
    {e : Field × String} (he : e ∈ es) : entryValue es e.1 = some e.2.toList := by
  induction es with
  | nil => exact absurd he List.not_mem_nil
  | cons d es ih =>
    rw [List.map_cons, List.nodup_cons] at hnodup
    rw [entryValue_cons]
    rcases List.mem_cons.mp he with rfl | he
    · rw [if_pos rfl]
    · have hne : d.1 ≠ e.1 := fun heq => hnodup.1 (heq ▸ List.mem_map_of_mem he)
      rw [if_neg hne, ih hnodup.2 he]

/-- Entries that set each field once set the fields that they name and no others. -/
theorem Located.setFields {lead : List Char} {es : List (Field × String)} {b : Block}
    (h : Located lead text b) (hlead : ∀ e ∈ es, b.raw? e.1 = none → Leads b)
    (hnodup : (es.map Prod.fst).Nodup) (hes : ∀ e ∈ es, Writable e.2.toList) :
    ∃ b', Located lead (Metadata.setFields text es) b' ∧
      ∀ g, b'.raw? g = (entryValue es g).or (b.raw? g) := by
  induction es generalizing text b with
  | nil => exact ⟨b, h, fun g => rfl⟩
  | cons e es ih =>
    rw [List.map_cons, List.nodup_cons] at hnodup
    obtain ⟨he, hes⟩ := List.forall_mem_cons.mp hes
    obtain ⟨hlead₀, hlead⟩ := List.forall_mem_cons.mp hlead
    obtain ⟨h₁, hraw⟩ := h.set hlead₀ he.isValue
    have hstep : setField text e.1 e.2.toList = b.set e.1 e.2.toList := by
      rw [setField, h.locate?]
    have hlead₁ : ∀ e' ∈ es, Block.raw? { b with body := b.setBody e.1 e.2.toList } e'.1 = none →
        Leads { b with body := b.setBody e.1 e.2.toList } := by
      intro e' he' hnone
      rw [hraw] at hnone
      split at hnone
      · exact absurd hnone (by simp)
      · exact hlead e' he' hnone
    obtain ⟨b', h', hraw'⟩ := ih h₁ hlead₁ hnodup.2 hes
    refine ⟨b', ?_, fun g => ?_⟩
    · rw [Metadata.setFields, List.foldl_cons, hstep]
      exact h'
    · rw [hraw', hraw, entryValue_cons]
      by_cases hg : e.1 = g
      · have hnone : entryValue es g = none := entryValue_eq_none (hg ▸ hnodup.1)
        simp [hnone, hg]
      · simp [hg, Ne.symm hg]

theorem Documented.exists_setFields {es : List (Field × String)} {b : Block}
    (hd : Documented text) (h : Block.locate? text = some b)
    (hnodup : (es.map Prod.fst).Nodup) (hes : ∀ e ∈ es, Writable e.2.toList) :
    ∃ b', Block.locate? (Metadata.setFields text es) = some b' ∧
      ∀ g, b'.raw? g = (entryValue es g).or (b.raw? g) := by
  obtain ⟨lead, hloc, -, hleads⟩ := hd.exists_located h
  obtain ⟨b', hloc', hraw⟩ := hloc.setFields (fun _ _ _ => hleads) hnodup hes
  exact ⟨b', hloc'.locate?, hraw⟩

/-! ## Field lines -/

/-- The lines of some fields, with the same text before each key. -/
def fieldLines (P : List Char) (es : List (Field × String)) : List (List Char) :=
  es.map fun e => P ++ e.1.keyText ++ [':', ' '] ++ e.2.toList

theorem fieldLines_cons (P : List Char) (e : Field × String) (es : List (Field × String)) :
    fieldLines P (e :: es) =
      (P ++ e.1.keyText ++ [':', ' '] ++ e.2.toList) :: fieldLines P es := rfl

/-- Lines have the value of a field on the first line with its key, whatever stands before keys. -/
theorem valueIn_fieldLines {l : Option (List Char)} {P : List Char} (hl : Distinct l)
    (hP : Margin l P) (es : List (Field × String)) (g : Field) :
    valueIn l g (fieldLines P es) = (entryValue es g).map fun v => bare (trimStart v) := by
  induction es with
  | nil => rfl
  | cons e es ih =>
    have hline : P ++ e.1.keyText ++ [':', ' '] ++ e.2.toList =
        P ++ (e.1.keyText ++ ([] ++ ':' :: ' ' :: e.2.toList)) := by
      simp only [List.append_assoc, List.cons_append, List.nil_append]
    rw [fieldLines_cons, entryValue_cons, hline]
    by_cases hg : e.1 = g
    · have hwritten : written? l g.keyText
          (P ++ (e.1.keyText ++ ([] ++ ':' :: ' ' :: e.2.toList))) =
            some (trimStart (' ' :: e.2.toList)) := by
        rw [← hg]
        exact (written?_eq_some_iff hl e.1).mpr ⟨P, [], _, hP, blanks_nil, rfl, rfl⟩
      rw [if_pos hg, valueIn_cons_of_some hwritten]
      rfl
    · have hother : Lacks l g [P ++ (e.1.keyText ++ ([] ++ ':' :: ' ' :: e.2.toList))] :=
        lacks_cons_iff.mpr ⟨written?_of_ne hg hl hP blanks_nil, lacks_nil⟩
      rw [if_neg hg, ← List.singleton_append, valueIn_append_of_lacks hother, ih]

theorem newline_notMem_fieldLines {P : List Char} (hP : '\n' ∉ P) {es : List (Field × String)}
    (hes : ∀ e ∈ es, '\n' ∉ e.2.toList) : ∀ line ∈ fieldLines P es, '\n' ∉ line := by
  intro line hline
  obtain ⟨e, he, rfl⟩ := List.mem_map.mp hline
  have hkey : '\n' ∉ e.1.keyText := fun hm => absurd (Field.of_mem_keyText hm).1 (by decide)
  simp [hP, hes e he, hkey]

/-! ## A new block -/

/-- The lines of a block that is written anew. -/
def newLines (es : List (Field × String)) : List (List Char) := fieldLines " * @".toList es

theorem flatMap_newLine (es : List (Field × String)) :
    '\n' :: es.flatMap Metadata.newLine ++ [' '] = Block.unlines (newLines es ++ [[' ']]) := by
  induction es with
  | nil => rfl
  | cons e es ih =>
    have hline : Metadata.newLine e =
        (" * @".toList ++ e.1.keyText ++ [':', ' '] ++ e.2.toList) ++ ['\n'] := by
      simp [Metadata.newLine]
    have hlines : Block.unlines (newLines (e :: es) ++ [[' ']]) =
        '\n' :: (" * @".toList ++ e.1.keyText ++ [':', ' '] ++ e.2.toList) ++
          Block.unlines (newLines es ++ [[' ']]) := by
      rw [newLines, fieldLines_cons, List.cons_append, unlines_cons, newLines]
    rw [hlines, ← ih, List.flatMap_cons, hline]
    simp only [List.append_assoc, List.cons_append, List.nil_append]

theorem blanks_space : Blanks [' '] := by
  intro c hc
  rw [List.mem_singleton.mp hc]
  decide

/-- What a line of a new block has before its key. -/
theorem margin_newLine : Margin none " * @".toList :=
  @Margin.mk none [' '] ['*'] [' '] [] ['@'] blanks_space (.inr (.inl rfl)) blanks_space
    (.inl rfl) (.inr rfl)

/-- The last line of a new block, up to the delimiter, has no field. -/
theorem valueIn_newLines (es : List (Field × String)) (g : Field) :
    valueIn none g (newLines es ++ [[' ']]) =
      (entryValue es g).map fun v => bare (trimStart v) := by
  have hlast : Lacks none g [[' ']] :=
    lacks_cons_iff.mpr ⟨written?_of_blanks distinct_none blanks_space g, lacks_nil⟩
  rw [valueIn_append_left_of_lacks hlast, newLines,
    valueIn_fieldLines distinct_none margin_newLine]

/-- Entries that can be written are found as they are. -/
theorem map_bare_entryValue {es : List (Field × String)} (hes : ∀ e ∈ es, Writable e.2.toList)
    (g : Field) : ((entryValue es g).map fun v => bare (trimStart v)) = entryValue es g := by
  cases hv : entryValue es g with
  | none => rfl
  | some v =>
    obtain ⟨e, he, rfl⟩ := Option.map_eq_some_iff.mp hv
    have hfirm := (hes e (List.mem_of_find?_eq_some he)).firm
    have hbare : bare (e.2.toList ++ []) = e.2.toList := bare_append hfirm.whole (.blanks blanks_nil)
    have hstart : StartsBare (e.2.toList ++ []) := hfirm.startsBare
    rw [List.append_nil] at hbare hstart
    rw [Option.map_some, trimStart_of_startsBare hstart, hbare]

theorem not_closing_newLines {es : List (Field × String)}
    (hes : ∀ e ∈ es, ¬ closing <:+: e.2.toList) :
    ¬ closing <:+: Block.unlines (newLines es ++ [[' ']]) := by
  induction es with
  | nil => decide
  | cons e es ih =>
    obtain ⟨he, hes⟩ := List.forall_mem_cons.mp hes
    have hkey := e.1.slash_notMem_keyText
    have hopen : ¬ closing <:+: '\n' :: (" * @".toList ++ e.1.keyText ++ [':', ' ']) := fun h =>
      absurd (slash_mem_of_closing h) (by simp [hkey])
    have hline : Block.unlines (newLines (e :: es) ++ [[' ']]) =
        ('\n' :: (" * @".toList ++ e.1.keyText ++ [':', ' '])) ++
          (e.2.toList ++ Block.unlines (newLines es ++ [[' ']])) := by
      rw [newLines, fieldLines_cons, List.cons_append, unlines_cons, newLines]
      simp only [List.append_assoc, List.cons_append]
    have hhead : (Block.unlines (newLines es ++ [[' ']])).head? ≠ some '/' := by
      cases es <;> exact nofun
    have hlast : ('\n' :: (" * @".toList ++ e.1.keyText ++ [':', ' '])).getLast? ≠ some '*' := by
      rw [← List.singleton_append, List.append_cons, ← List.append_assoc, List.getLast?_concat]
      exact nofun
    -- a value starts behind a blank and ends before a line break
    rw [hline, closing_infix_append_iff (.inl hlast), closing_infix_append_iff (.inr hhead)]
    rintro (h | h | h)
    · exact hopen h
    · exact he h
    · exact ih hes h

/-- What stands before the marker of a new block. -/
theorem marked_newBlock (rest : List Char) :
    Marked ("/**\n".toList ++ " * ".toList ++ marker ++ rest) "/**\n".toList " * ".toList rest := by
  have hfirst : ¬ marker <:+: "/**\n".toList ++ " * ".toList ++ marker.dropLast :=
    cutAt?_eq_none_iff.mp (by decide)
  refine ⟨cutAt?_of_first (by decide) hfirst, ?_⟩
  have hline : '\n' ∉ " * ".toList := by decide
  exact @cutLastLine_append_newline "/**".toList _ hline

theorem withNewBlock_eq (es : List (Field × String)) (text : List Char) :
    Metadata.withNewBlock es text = "/**\n".toList ++ " * ".toList ++ marker ++
      (Block.unlines (newLines es ++ [[' ']]) ++ closing ++
        '\n' :: if text.isEmpty then [] else '\n' :: text) := by
  have hstart : "/**\n * ".toList = "/**\n".toList ++ " * ".toList := by decide
  have hend : " */\n".toList = [' '] ++ closing ++ ['\n'] := by decide
  rw [← flatMap_newLine]
  unfold Metadata.withNewBlock
  simp only [hstart, hend, List.append_assoc, List.cons_append, List.nil_append]

theorem splitOn_newLines {es : List (Field × String)} (hes : ∀ e ∈ es, '\n' ∉ e.2.toList) :
    splitOn '\n' (Block.unlines (newLines es ++ [[' ']])) = [] :: (newLines es ++ [[' ']]) := by
  have hnl : ∀ line ∈ newLines es ++ [[' ']], '\n' ∉ line := by
    intro line hline
    rcases List.mem_append.mp hline with h | h
    · exact newline_notMem_fieldLines (by decide) hes line h
    · rw [List.mem_singleton.mp h]
      decide
  exact splitOn_joinLines (List.cons_ne_nil [] _)
    (List.forall_mem_cons.mpr ⟨List.not_mem_nil, hnl⟩)

/-- A block with new lines has the values that are written on them. -/
theorem raw?_newBlock {es : List (Field × String)}
    (hes : ∀ e ∈ es, '\n' ∉ e.2.toList ∧ ¬ closing <:+: e.2.toList) (before after : List Char)
    (g : Field) :
    (Block.ofParts before " * ".toList
      (Block.unlines (newLines es ++ [[' ']]) ++ closing ++ after)).raw? g =
        (entryValue es g).map fun v => bare (trimStart v) := by
  have hn : '\n' ∉ " * ".toList := by decide
  have hstar : Block.isStarred (trim " * ".toList) = true := by decide
  have hlead : IsPlainLead " * ".toList := .inr (.inr (.inl (by decide)))
  have hin := not_closing_newLines fun e he => (hes e he).2
  have hfirst : ∀ s, written? none g.keyText (" * ".toList ++ marker ++ s) = none := by
    have := (editable_ofParts hlead hn [] []).first g
    rwa [lineLeader_ofParts, if_pos hstar] at this
  rw [ofParts_of_closing hstar (cutAt?_closing hin), ← valueIn_newLines es]
  exact raw?_of_body hfirst hn rfl (splitOn_newLines fun e he => (hes e he).1)

/-- A new block has the fields that it is written with. -/
theorem exists_withNewBlock {es : List (Field × String)} (hes : ∀ e ∈ es, Writable e.2.toList)
    (text : List Char) :
    ∃ b, Block.locate? (Metadata.withNewBlock es text) = some b ∧
      ∀ g, b.raw? g = entryValue es g := by
  rw [withNewBlock_eq]
  refine ⟨_, (marked_newBlock _).locate?, fun g => ?_⟩
  rw [raw?_newBlock fun e he => ⟨(hes e he).newline_notMem, (hes e he).not_closing⟩,
    map_bare_entryValue hes]

end EditGate
