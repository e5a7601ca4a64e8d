import EditGate.Proofs.Metadata.Enclosed

/-!
# Updates applied again

An update that is applied a second time changes nothing if it finds its values where the first one
wrote them. A value that takes the place of another one is found there; one on a line that was
inserted is found just if that line starts as field lines may (`Leads`). Inserted lines repeat what
stands before the marker on its line, and behind a star more than a dash is not read over.

Both sides of the equivalence follow the block, with what stands before its marker, through a run
over the entries. If the lead starts field lines or all fields are there, the block has the values
after the run (`Located.setFields`) and a second run sets what is there (`setFields_of_raw?`).
Otherwise some field is missing, stays missing, and gains a line in every run (`Lost.setFields`).
-/

namespace EditGate

open Text Cell

variable {text lead v : List Char} {f g : Field} {b : Block} {es : List (Field × String)}

/-! ## Values that are there -/

/-- Setting a field to the value that it has changes nothing. -/
theorem setField_of_raw? (h : Block.locate? text = some b) (hraw : b.raw? f = some v) :
    setField text f v = text := by
  obtain ⟨c, hc, rfl⟩ := Option.map_eq_some_iff.mp hraw
  have hbody : b.setBody f c.value = b.body := by
    rw [Block.setBody, hc]
    exact Block.text_of_cell? hc
  have hstep : setField text f c.value = b.set f c.value := by rw [setField, h]
  rw [hstep, Block.set, hbody]
  exact Block.text_of_locate? h

theorem setFields_of_raw? (h : Block.locate? text = some b)
    (hraw : ∀ e ∈ es, b.raw? e.1 = some e.2.toList) : Metadata.setFields text es = text := by
  induction es with
  | nil => rfl
  | cons e es ih =>
    obtain ⟨he, hes⟩ := List.forall_mem_cons.mp hraw
    rw [Metadata.setFields, List.foldl_cons, setField_of_raw? h he]
    exact ih hes

/-- Marking the time of a documented text once more changes nothing. -/
theorem Metadata.touch_touch {time : String} {text' : List Char} (hd : Documented text)
    (ht : Metadata.IsStamp time) (h : Metadata.touch text time = some text') :
    Metadata.touch text' time = some text' := by
  obtain ⟨b, c, -, hc, -, hraw⟩ := Metadata.exists_touched hd ht h
  have hsame : setField text' .lastModified time.toList = text' :=
    setField_of_raw? hc (hraw .lastModified)
  simp only [setField, hc] at hsame
  rw [Metadata.touch, hc, Option.map_some, hsame]

/-! ## Lines that are not found again -/

/-- Whether the marker's line holds no field. -/
def Block.MarkerApart (b : Block) : Prop :=
  ∀ f : Field, ∀ line ∈ (splitOn '\n' b.body).head?, written? b.lineLeader f.keyText line = none

/-- The leads that are not plain are those of a star with more behind it. -/
theorem star_of_not_isPlainLead (h : ¬ IsPlainLead lead) :
    Block.isStarred (trim lead) = true ∧ ∃ t, trim lead = '*' :: t := by
  have hs : Block.isStarred (trim lead) = true :=
    (Bool.not_eq_false _).mp fun hno => h (isPlainLead_of_lines hno)
  refine ⟨hs, ?_⟩
  rcases starred_cases hs with hnil | hstar | hopen
  · exact absurd (.inl hnil) h
  · exact hstar
  · exact absurd (.inr (.inl hopen)) h

theorem Marked.located {before rest : List Char} (h : Marked text before lead rest)
    (hapart : (Block.ofParts before lead rest).MarkerApart) :
    Located lead text (Block.ofParts before lead rest) := by
  refine ⟨⟨before, rest, h, rfl⟩, ?_⟩
  by_cases hplain : IsPlainLead lead
  · exact (editable_ofParts hplain h.newline_notMem before rest).toClear
  · obtain ⟨hs, t, hstar⟩ := star_of_not_isPlainLead hplain
    have hleader := lineLeader_ofParts before lead rest
    rw [if_pos hs] at hleader
    obtain ⟨inner, hbody⟩ := exists_body_ofParts before lead rest
    obtain ⟨top, more, hsplit⟩ := List.exists_cons_of_ne_nil (splitOn_ne_nil '\n' inner)
    refine ⟨?_, ?_, fun f s => ?_⟩
    · rw [hleader]
      exact distinct_none
    · rw [lead_ofParts, if_pos hs, starLead_of_star hstar]
      exact h.newline_notMem
    · have hline := hapart f
      rw [hbody, splitOn_body h.newline_notMem hsplit, hleader, List.append_assoc] at hline
      rw [hleader]
      exact written?_marker_of_lead (written?_of_append distinct_none (hline _ rfl)) s

/-- A field that its block lacks, and would not be found where it is inserted. -/
structure Lost (g : Field) (lead text : List Char) (b : Block) : Prop where
  located : Located lead text b
  unled : ¬ Leads b
  missing : b.raw? g = none

theorem Lost.star (h : Lost g lead text b) :
    Block.isStarred (trim lead) = true ∧ ∃ t, trim lead = '*' :: t := by
  obtain ⟨before, rest, hm, rfl⟩ := h.located.parts
  exact star_of_not_isPlainLead fun hplain =>
    h.unled (editable_ofParts hplain hm.newline_notMem before rest).leads

theorem Lost.lead_eq (h : Lost g lead text b) : b.lead = lead ∧ b.lineLeader = none := by
  obtain ⟨before, rest, -, rfl⟩ := h.located.parts
  obtain ⟨hs, t, hstar⟩ := h.star
  rw [lead_ofParts, lineLeader_ofParts, if_pos hs, if_pos hs, starLead_of_star hstar]
  exact ⟨rfl, rfl⟩

/-- No field is found on a line that is inserted. -/
theorem Lost.written?_fieldLine (h : Lost g lead text b) (f : Field) (v : List Char) :
    written? b.lineLeader g.keyText (b.fieldLine f v) = none := by
  obtain ⟨hlead, hleader⟩ := h.lead_eq
  have hfirst := h.located.clear.first g []
  rw [hleader, List.append_nil] at hfirst
  have hkeyed := written?_of_append distinct_none hfirst
  rw [hleader, Block.fieldLine, hlead, List.append_assoc, List.cons_append]
  cases hw : written? none g.keyText (lead ++ '@' :: (f.keyText ++ ':' :: ' ' :: v)) with
  | none => rfl
  | some u =>
    rcases written?_sign (startsWithLetter_keyText f _) hw with ⟨u', hu⟩ | hP
    · rw [hkeyed] at hu
      exact absurd hu (by simp)
    · refine absurd ?_ h.unled
      rwa [Leads, hlead, hleader]

/-- Lines that lack a field still lack it if the text is cut off among them. -/
theorem lacks_of_prefix {l : Option (List Char)} {s t top : List Char}
    {more more' : List (List Char)} {top' : List Char} (hl : Distinct l) (hp : s <+: t)
    (hs : splitOn '\n' s = top :: more) (ht : splitOn '\n' t = top' :: more')
    (h : Lacks l g more') : Lacks l g more := by
  obtain ⟨u, rfl⟩ := hp
  obtain ⟨front, last, first, rest, hcut, hcut'⟩ := exists_splitOn_append '\n' s u
  rw [hs] at hcut
  rw [ht] at hcut'
  cases front with
  | nil =>
    obtain ⟨-, rfl⟩ := List.cons.inj hcut
    exact lacks_nil
  | cons piece front =>
    obtain ⟨-, rfl⟩ := List.cons.inj hcut
    obtain ⟨-, rfl⟩ := List.cons.inj hcut'
    obtain ⟨hfront, hline⟩ := lacks_append_iff.mp h
    refine lacks_append_iff.mpr ⟨hfront, lacks_cons_iff.mpr ⟨?_, lacks_nil⟩⟩
    exact written?_of_append hl (lacks_cons_iff.mp hline).1

/-- What a block between delimiters is cut from. -/
theorem exists_inner (hs : Block.isStarred (trim lead) = true) (before rest : List Char) :
    ∃ inner after, rest = inner ++ after ∧ (after = [] ∨ ∃ t, after = closing ++ t) ∧
      (Block.ofParts before lead rest).before = before ∧
      (Block.ofParts before lead rest).body = lead ++ marker ++ inner ∧
      (Block.ofParts before lead rest).after = after := by
  cases hc : cutAt? closing rest with
  | none =>
    rw [ofParts_of_open hs hc]
    exact ⟨rest, [], by simp, .inl rfl, rfl, rfl, rfl⟩
  | some cut =>
    obtain ⟨inner, t⟩ := cut
    rw [ofParts_of_closing hs hc]
    refine ⟨inner, closing ++ t, ?_, .inr ⟨t, rfl⟩, rfl, rfl, rfl⟩
    rw [← List.append_assoc]
    exact eq_append_of_cutAt? hc

/-- A block between delimiters ends where it ended, or before that. -/
theorem exists_inner_prefix (hs : Block.isStarred (trim lead) = true) (before s : List Char)
    {after : List Char} (h : after = [] ∨ ∃ t, after = closing ++ t) :
    ∃ s', s' <+: s ∧ (Block.ofParts before lead (s ++ after)).body = lead ++ marker ++ s' := by
  cases hc : cutAt? closing (s ++ after) with
  | none =>
    rw [ofParts_of_open hs hc]
    rcases h with rfl | ⟨t, rfl⟩
    · exact ⟨s, List.prefix_refl s, by rw [List.append_nil]⟩
    · exact absurd ⟨s, t, by rw [List.append_assoc]⟩ (cutAt?_eq_none_iff.mp hc)
  | some cut =>
    obtain ⟨s', rest⟩ := cut
    rw [ofParts_of_closing hs hc]
    refine ⟨s', ?_, rfl⟩
    rcases h with rfl | ⟨t, rfl⟩
    · rw [List.append_nil] at hc
      refine ⟨closing ++ rest, ?_⟩
      rw [← List.append_assoc]
      exact (eq_append_of_cutAt? hc).symm
    · rw [← List.append_assoc] at hc
      exact prefix_of_cutAt? (by decide) hc

/-- A text has a line break before each line but the first. -/
theorem breaks_of_splitOn {s top : List Char} {more : List (List Char)}
    (h : splitOn '\n' s = top :: more) : breaks s = more.length := by
  have hlines : ∀ line ∈ top :: more, '\n' ∉ line := fun line hline =>
    notMem_of_mem_splitOn (h ▸ hline)
  obtain ⟨htop, hmore⟩ := List.forall_mem_cons.mp hlines
  rw [← unlines_of_splitOn h, breaks_append, breaks_eq_zero htop, Nat.zero_add]
  clear h hlines
  induction more with
  | nil => rfl
  | cons line more ih =>
    obtain ⟨hline, hmore⟩ := List.forall_mem_cons.mp hmore
    rw [unlines_cons, List.cons_append, breaks_cons_newline, breaks_append, breaks_eq_zero hline,
      ih hmore, List.length_cons]
    omega

/-- A field that is lost stays lost whatever is set. The text keeps its line breaks, and gains some
when that field is set. -/
theorem Lost.set (h : Lost g lead text b) (hv : '\n' ∉ v) (f : Field) :
    ∃ b', Lost g lead (b.set f v) b' ∧ breaks text ≤ breaks (b.set f v) ∧
      (f = g → breaks text < breaks (b.set f v)) := by
  have hclear := h.located.clear
  have hinserted := h.written?_fieldLine f v
  obtain ⟨hs, -⟩ := h.star
  obtain ⟨before, rest, hm, rfl⟩ := h.located.parts
  have hn := hm.newline_notMem
  obtain ⟨inner, after, rfl, hafter, hbefore, hbody, hrest⟩ := exists_inner hs before rest
  obtain ⟨top, more, top', more', hsplit, he, hset, hsplit'⟩ :=
    hclear.exists_edit_lines hn hbody hv f
  have hlacks := hclear.lacks_iff hn hbody hsplit
  have hlacks' := he.lacks hclear.distinct hinserted ((hlacks g).mpr h.missing)
  have htext : (Block.ofParts before lead (inner ++ after)).set f v =
      before ++ lead ++ marker ++ (top' ++ Block.unlines more' ++ after) := by
    refine set_eq hbefore ?_
    rw [hset, hrest]
    simp only [List.append_assoc]
  have hm' := hm.replace (top' ++ Block.unlines more' ++ after)
  rw [← htext] at hm'
  -- lines are read and inserted as before, but an inserted one may close the block
  have hclear' := hclear.replace (top' ++ Block.unlines more' ++ after)
  obtain ⟨hleader, hlead⟩ :=
    ofParts_congr before lead (inner ++ after) (top' ++ Block.unlines more' ++ after)
  obtain ⟨s, hprefix, hbody'⟩ := exists_inner_prefix hs before (top' ++ Block.unlines more') hafter
  obtain ⟨first, lines, hcut⟩ := List.exists_cons_of_ne_nil (splitOn_ne_nil '\n' s)
  have hmissing := (hclear'.lacks_iff hn hbody' hcut g).mp <| by
    rw [hleader]
    exact lacks_of_prefix hclear.distinct hprefix hcut hsplit' hlacks'
  have hunled : ¬ Leads (Block.ofParts before lead (top' ++ Block.unlines more' ++ after)) := by
    rw [Leads, hleader, hlead]
    exact h.unled
  have hcount : breaks text + more'.length =
      breaks ((Block.ofParts before lead (inner ++ after)).set f v) + more.length := by
    rw [htext, ← breaks_of_splitOn hsplit, ← breaks_of_splitOn hsplit', hm.eq]
    simp only [breaks_append]
    omega
  obtain ⟨hle, hlt⟩ := he.length_le hclear.distinct
  refine ⟨_, ⟨⟨⟨before, _, hm', rfl⟩, hclear'⟩, hunled, hmissing⟩, by omega, ?_⟩
  rintro rfl
  have := hlt ((hlacks f).mpr h.missing)
  omega

/-- Entries that set a lost field add lines to the text, and the field is lost as before. -/
theorem Lost.setFields (h : Lost g lead text b) (hes : ∀ e ∈ es, '\n' ∉ e.2.toList) :
    ∃ b', Lost g lead (Metadata.setFields text es) b' ∧
      breaks text ≤ breaks (Metadata.setFields text es) ∧
      (g ∈ es.map Prod.fst → breaks text < breaks (Metadata.setFields text es)) := by
  induction es generalizing text b with
  | nil => exact ⟨b, h, Nat.le_refl _, fun hg => absurd hg List.not_mem_nil⟩
  | cons e es ih =>
    obtain ⟨he, hes⟩ := List.forall_mem_cons.mp hes
    obtain ⟨b₁, h₁, hle₁, hlt₁⟩ := h.set he e.1
    obtain ⟨b', h', hle, hlt⟩ := ih h₁ hes
    have hstep : setField text e.1 e.2.toList = b.set e.1 e.2.toList := by
      rw [setField, h.located.locate?]
    rw [Metadata.setFields, List.foldl_cons, hstep]
    refine ⟨b', h', Nat.le_trans hle₁ hle, fun hg => ?_⟩
    rcases List.mem_cons.mp hg with hg | hg
    · exact Nat.lt_of_lt_of_le (hlt₁ hg.symm) hle
    · exact Nat.lt_of_le_of_lt hle₁ (hlt hg)

/-! ## Updates -/

namespace Metadata

variable {p : Patch} {time : String}

theorem update_of_locate? (h : Block.locate? text = some b) (p : Patch) (time : String) :
    update text p time = setFields text (p.changes time) := by
  unfold update Patch.changes
  split
  · rfl
  · rw [h]

theorem nodup_changes (p : Patch) (time : String) : ((p.changes time).map Prod.fst).Nodup := by
  unfold Patch.changes
  split
  · exact List.nodup_nil
  · exact nodup_entries p time

/-- A patch whose values stay on their lines and in the comment, with the time. -/
theorem writable_changes (ht : IsStamp time)
    (hfree : ∀ e ∈ p.entries, ¬ closing <:+: e.2.toList ∧ '\n' ∉ e.2.toList) :
    ∀ e ∈ p.changes time, Writable e.2.toList := by
  intro e he
  have hfirm := firm_changes p ht e he
  unfold Patch.changes at he
  split at he
  · exact absurd he List.not_mem_nil
  · rcases List.mem_append.mp he with he | he
    · exact ⟨hfirm, (hfree e he).1, (hfree e he).2⟩
    · rw [List.mem_singleton.mp he]
      exact ht.plain.writable

/-- A new block has the values that it is written with, so they are not set again. -/
theorem update_withNewBlock (hne : p.isEmpty = false)
    (hes : ∀ e ∈ p.changes time, Writable e.2.toList) (h : Block.locate? text = none) :
    update (update text p time) p time = update text p time := by
  have hchanges : p.changes time = p.entries ++ [(.lastModified, time)] := by
    simp [Patch.changes, hne]
  have hnew : update text p time = withNewBlock (p.changes time) text := by
    simp [update, hne, h, hchanges]
  obtain ⟨b, hb, hraw⟩ := exists_withNewBlock hes text
  rw [hnew, update_of_locate? hb]
  refine setFields_of_raw? hb fun e he => ?_
  rw [hraw, entryValue_of_mem (nodup_changes p time) he]

/-- Re-applying an update is a no-op just if the text has no block, or the block finds the lines
that are inserted into it, or no line is inserted since all the fields are there. The values are
taken to stay on their lines and in the comment, and the marker to be no part of a value. -/
theorem update_update_iff (text : List Char) (p : Patch) (time : String) (ht : IsStamp time)
    (hfree : ∀ e ∈ p.entries, ¬ closing <:+: e.2.toList ∧ '\n' ∉ e.2.toList)
    (hapart : ∀ b, Block.locate? text = some b → b.MarkerApart) :
    update (update text p time) p time = update text p time ↔
      ∀ b, Block.locate? text = some b →
        Leads b ∨ ∀ e ∈ p.changes time, (b.raw? e.1).isSome = true := by
  have hes := writable_changes ht hfree
  cases hloc : Block.locate? text with
  | none =>
    refine iff_of_true ?_ fun b hb => absurd hb (by simp)
    cases hne : p.isEmpty with
    | false => exact update_withNewBlock hne hes hloc
    | true => simp [update, hne]
  | some b =>
    obtain ⟨before, lead, rest, hm, rfl⟩ := exists_marked hloc
    have h := hm.located (hapart _ hloc)
    rw [update_of_locate? hloc]
    constructor
    · rintro hsame b' ⟨rfl⟩
      refine Classical.or_iff_not_imp_left.mpr fun hunled e he => ?_
      refine Option.isSome_iff_ne_none.mpr fun hmissing => ?_
      have hn : ∀ e ∈ p.changes time, '\n' ∉ e.2.toList := fun e he => (hes e he).newline_notMem
      have hlost : Lost e.1 lead text (Block.ofParts before lead rest) := ⟨h, hunled, hmissing⟩
      obtain ⟨b₁, hlost₁, -, -⟩ := hlost.setFields hn
      obtain ⟨b₂, -, -, hlt⟩ := hlost₁.setFields hn
      -- the second run adds a line for the field once more
      have hgrows := hlt (List.mem_map_of_mem he)
      rw [update_of_locate? hlost₁.located.locate?] at hsame
      rw [hsame] at hgrows
      exact absurd hgrows (Nat.lt_irrefl _)
    · intro hkept
      have hleads : ∀ e ∈ p.changes time, (Block.ofParts before lead rest).raw? e.1 = none →
          Leads (Block.ofParts before lead rest) := by
        intro e he hnone
        rcases hkept _ rfl with hleads | hthere
        · exact hleads
        · exact absurd hnone (Option.isSome_iff_ne_none.mp (hthere e he))
      obtain ⟨b', h', hraw⟩ := h.setFields hleads (nodup_changes p time) hes
      rw [update_of_locate? h'.locate?]
      refine setFields_of_raw? h'.locate? fun e he => ?_
      rw [hraw, entryValue_of_mem (nodup_changes p time) he, Option.some_or]

/-- The block of the sample, where one field is set in place and two are inserted. -/
theorem update_update_sample :
    let p : Patch := { stability := some .deprecated, aiContext := some "two\nlines" }
    IsStamp "12Z" ∧ (∀ e ∈ p.entries, ¬ closing <:+: e.2.toList ∧ '\n' ∉ e.2.toList) ∧
      (∀ b, Block.locate? sampleText = some b → b.MarkerApart) ∧
      update (update sampleText p "12Z") p "12Z" = update sampleText p "12Z" := by
  intro p
  have ht : IsStamp "12Z" := ⟨['1', '2'], rfl, List.all_eq_true.mp (by decide)⟩
  have hfree : ∀ e ∈ p.entries, ¬ closing <:+: e.2.toList ∧ '\n' ∉ e.2.toList := by
    have hall : ∀ e ∈ p.entries, cutAt? closing e.2.toList = none ∧ '\n' ∉ e.2.toList := by decide
    exact fun e he => ⟨cutAt?_eq_none_iff.mp (hall e he).1, (hall e he).2⟩
  have hblock : ∀ b, Block.locate? sampleText = some b → b = sampleBlock := fun b hb =>
    Option.some.inj (hb.symm.trans enclosed_sampleBlock.locate)
  have hapart : ∀ b, Block.locate? sampleText = some b → b.MarkerApart := by
    intro b hb f
    have hfields : ∀ f ∈ Field.all, ∀ line ∈ (splitOn '\n' sampleBlock.body).head?,
        written? sampleBlock.lineLeader f.keyText line = none := by decide +kernel
    rw [hblock b hb]
    exact hfields f (Field.mem_all f)
  refine ⟨ht, hfree, hapart, ?_⟩
  refine (update_update_iff sampleText p "12Z" ht hfree hapart).mpr fun b hb => .inl ?_
  rw [hblock b hb]
  exact @Margin.mk none [' '] ['*'] [' '] [] ['@'] blanks_space (.inr (.inl rfl)) blanks_space
    (.inl rfl) (.inr rfl)

/-- Behind two stars no field is found, so its line is inserted once more. -/
theorem update_update_ne_twoStars :
    let text := "/**\n ** @ai-metadata\n */\n".toList
    let p : Patch := { stability := some .stable }
    IsStamp "1Z" ∧ (∀ e ∈ p.entries, ¬ closing <:+: e.2.toList ∧ '\n' ∉ e.2.toList) ∧
      update (update text p "1Z") p "1Z" ≠ update text p "1Z" := by
  intro text p
  have hall : ∀ e ∈ p.entries, cutAt? closing e.2.toList = none ∧ '\n' ∉ e.2.toList := by decide
  refine ⟨⟨['1'], rfl, List.all_eq_true.mp (by decide)⟩, fun e he => ?_, by decide⟩
  exact ⟨cutAt?_eq_none_iff.mp (hall e he).1, (hall e he).2⟩

end Metadata

end EditGate
