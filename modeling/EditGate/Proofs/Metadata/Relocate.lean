import EditGate.Proofs.Metadata.Delimiter

/-!
# An edited block is found again

A text is *documented* if the marker does not follow a star that starts more than a leader on its
line: every block that a person writes is. In such a text the marker's line holds no field, so an
edit leaves everything up to the marker as it was, and cutting the edited text gives the same block
with the edited body. A block between delimiters admits any value without a closing delimiter
(`Marked.exists_set_of_starred`), one of line comments any value on one line
(`Marked.exists_set_of_lines`).

Of what stands before the marker no more matters than that the marker's line holds no field
(`Clear`). Only where a line is inserted, it must also start as a field line may (`Leads`).
-/

namespace EditGate

open Text Cell

variable {text before lead rest v top top' : List Char} {more more' : List (List Char)} {f : Field}

/-! ## The marker's line -/

/-- Whether what stands before the marker on its line leads a block that may be edited: nothing, an
opening delimiter, a single star, or a leader of line comments. -/
def IsPlainLead (lead : List Char) : Prop :=
  trim lead = [] ∨ ['/', '*'] <+: trim lead ∨ trim lead = ['*'] ∨ ¬ ['*'] <+: trim lead

/-- A text whose first marker stands after `lead` on its line. -/
structure Marked (text before lead rest : List Char) : Prop where
  cut : cutAt? marker text = some (before ++ lead, rest)
  line : cutLastLine (before ++ lead) = (before, lead)

def Documented (text : List Char) : Prop :=
  ∀ before lead rest, Marked text before lead rest → IsPlainLead lead

theorem Marked.eq (h : Marked text before lead rest) : text = before ++ lead ++ marker ++ rest :=
  eq_append_of_cutAt? h.cut

theorem Marked.locate? (h : Marked text before lead rest) :
    Block.locate? text = some (Block.ofParts before lead rest) := by
  simp [Block.locate?, h.cut, h.line]

theorem exists_marked {b : Block} (h : Block.locate? text = some b) :
    ∃ before lead rest, Marked text before lead rest ∧ b = Block.ofParts before lead rest := by
  obtain ⟨⟨upTo, rest⟩, hcut, rfl⟩ := Option.map_eq_some_iff.mp h
  have happ := cutLastLine_append upTo
  refine ⟨(cutLastLine upTo).1, (cutLastLine upTo).2, rest, ⟨?_, ?_⟩, rfl⟩
  · rw [happ, hcut]
  · rw [happ]

/-- The first marker stays where it is whatever follows it. -/
theorem Marked.replace (h : Marked text before lead rest) (rest' : List Char) :
    Marked (before ++ lead ++ marker ++ rest') before lead rest' :=
  ⟨cutAt?_replace (by decide) h.cut, h.line⟩

theorem Marked.unique {before' lead' rest' : List Char} (h : Marked text before lead rest)
    (h' : Marked text before' lead' rest') : before = before' ∧ lead = lead' ∧ rest = rest' := by
  have hcut := Option.some.inj (h.cut.symm.trans h'.cut)
  obtain ⟨hupTo, hrest⟩ := Prod.mk.inj hcut
  have hline := h.line.symm.trans (by rw [hupTo, h'.line])
  obtain ⟨hbefore, hlead⟩ := Prod.mk.inj hline
  exact ⟨hbefore, hlead, hrest⟩

theorem Marked.newline_notMem (h : Marked text before lead rest) : '\n' ∉ lead := by
  rcases cutLastLine_cases (before ++ lead) with ⟨hn, hc⟩ | ⟨front, last, hn, -, hc⟩
  · obtain ⟨-, hlead⟩ := Prod.mk.inj (h.line.symm.trans hc)
    rwa [← hlead] at hn
  · obtain ⟨-, rfl⟩ := Prod.mk.inj (h.line.symm.trans hc)
    exact hn

theorem Marked.documented (h : Marked text before lead rest) (hd : IsPlainLead lead) :
    Documented text := by
  intro before' lead' rest' h'
  exact (h.unique h').2.1 ▸ hd

theorem marker_eq : marker = '@' :: "ai-metadata".toList := by decide

/-- The marker's line starts like a field line, but no key is there. -/
theorem written?_marker {l : Option (List Char)} (hl : Distinct l) (hP : Margin l (lead ++ ['@']))
    (f : Field) (s : List Char) : written? l f.keyText (lead ++ marker ++ s) = none := by
  have hline : lead ++ marker ++ s = (lead ++ ['@']) ++ ("ai-metadata".toList ++ s) := by
    rw [marker_eq]
    simp only [List.append_assoc, List.cons_append, List.nil_append]
  have hletter : StartsWithLetter ("ai-metadata".toList ++ s) := ⟨'a', _, rfl, by decide⟩
  have hkey : dropText? f.keyText ("ai-metadata".toList ++ s) = none := by
    have apart : ∀ f ∈ Field.all, ¬ f.keyText <+: "ai-metadata".toList ∧
        ¬ "ai-metadata".toList <+: f.keyText := by decide +kernel
    refine dropText?_eq_none_iff.mpr fun hpre => ?_
    rcases List.prefix_or_prefix_of_prefix hpre (List.prefix_append _ s) with h | h
    · exact (apart f (Field.mem_all f)).1 h
    · exact (apart f (Field.mem_all f)).2 h
  rw [hline, written?_eq_bind, afterMargin?_append hl hP hletter, Option.bind_some, hkey]
  rfl

/-- The marker's line holds no field if there is none in front of the marker. -/
theorem written?_marker_of_lead (h : written? none f.keyText lead = none) (s : List Char) :
    written? none f.keyText (lead ++ marker ++ s) = none := by
  have hline : lead ++ marker ++ s = lead ++ '@' :: ("ai-metadata".toList ++ s) := by
    rw [marker_eq]
    simp only [List.append_assoc, List.cons_append]
  have hletter : StartsWithLetter ("ai-metadata".toList ++ s) := ⟨'a', _, rfl, by decide⟩
  cases hw : written? none f.keyText (lead ++ marker ++ s) with
  | none => rfl
  | some u =>
    rcases written?_sign hletter (hline ▸ hw) with ⟨u', hu⟩ | hP
    · rw [h] at hu
      exact absurd hu (by simp)
    · rw [written?_marker distinct_none hP] at hw
      exact absurd hw (by simp)

/-- No key is on a line that starts with an opening delimiter. -/
theorem written?_opening (h : ['/', '*'] <+: trim lead) (f : Field) (s : List Char) :
    written? none f.keyText (lead ++ s) = none := by
  obtain ⟨a, c, ha, -, hlead⟩ := exists_blanks_trim lead
  obtain ⟨t, ht⟩ := h
  have hline : lead ++ s = a ++ '/' :: '*' :: (t ++ c ++ s) := by
    rw [hlead, ← ht]
    simp
  obtain ⟨k, ks, hk, hkl⟩ := f.exists_keyText_eq_cons
  have hslash : k ≠ '/' := by
    rintro rfl
    exact absurd hkl (by decide)
  have hbare : ∀ u, StartsBare ('/' :: '*' :: u) := fun u => startsBare_cons_iff.mpr (by decide)
  rw [written?, hline, trimStart_eq ha (hbare _)]
  simp [dropLeader?, dropStarLeader, trimStart_of_startsBare (hbare _), dropDash, dropSign, hk,
    dropText?, hslash]

/-! ## Blocks that may be edited -/

theorem before_ofParts (before lead rest : List Char) :
    (Block.ofParts before lead rest).before = before := by
  unfold Block.ofParts
  simp only
  split
  · split <;> rfl
  · rfl

theorem lineLeader_ofParts (before lead rest : List Char) :
    (Block.ofParts before lead rest).lineLeader =
      if Block.isStarred (trim lead) = true then none else some (trim lead) := by
  unfold Block.ofParts
  simp only
  split
  · split <;> rfl
  · rfl

theorem lead_ofParts (before lead rest : List Char) :
    (Block.ofParts before lead rest).lead =
      if Block.isStarred (trim lead) = true then Block.starLead lead else lead := by
  unfold Block.ofParts
  simp only
  split
  · split <;> rfl
  · rfl

/-- How the lines of a block start is settled in front of its marker. -/
theorem ofParts_congr (before lead rest rest' : List Char) :
    (Block.ofParts before lead rest').lineLeader = (Block.ofParts before lead rest).lineLeader ∧
      (Block.ofParts before lead rest').lead = (Block.ofParts before lead rest).lead := by
  rw [lineLeader_ofParts, lineLeader_ofParts, lead_ofParts, lead_ofParts]
  exact ⟨rfl, rfl⟩

/-- What the edits of a block depend on: its marker, behind `lead`, is on a line without a field. -/
structure Clear (lead : List Char) (b : Block) : Prop where
  distinct : Distinct b.lineLeader
  newline_notMem : '\n' ∉ b.lead
  first : ∀ (f : Field) (s : List Char),
    written? b.lineLeader f.keyText (lead ++ marker ++ s) = none

theorem Clear.replace (h : Clear lead (Block.ofParts before lead rest)) (rest' : List Char) :
    Clear lead (Block.ofParts before lead rest') := by
  obtain ⟨hleader, hlead⟩ := ofParts_congr before lead rest rest'
  refine ⟨?_, ?_, fun f s => ?_⟩
  · rw [hleader]
    exact h.distinct
  · rw [hlead]
    exact h.newline_notMem
  · rw [hleader]
    exact h.first f s

/-- A clear block whose inserted lines are found again. -/
structure Editable (lead : List Char) (b : Block) : Prop extends Clear lead b where
  leads : Leads b

/-- A lead with a leader in it is one that field lines may start with. -/
theorem editable_of_isLeader {b : Block} (hl : Distinct b.lineLeader)
    (hL : IsLeader b.lineLeader (trim lead)) (hb : b.lead = lead) (hn : '\n' ∉ lead) :
    Editable lead b := by
  obtain ⟨a, c, ha, hc, hlead⟩ := exists_blanks_trim lead
  have hP : Margin b.lineLeader (a ++ trim lead ++ c ++ [] ++ ['@']) :=
    .mk ha hL hc (.inl rfl) (.inr rfl)
  rw [List.append_nil, ← hlead] at hP
  exact ⟨⟨hl, by rwa [hb], fun f s => written?_marker hl hP f s⟩, by rwa [Leads, hb]⟩

theorem starLead_of_opening (h : ['/', '*'] <+: trim lead) :
    Block.starLead lead = [' ', '*', ' '] := by
  obtain ⟨t, ht⟩ := h
  rw [Block.starLead, ← ht]
  rfl

theorem starred_cases {leader : List Char} (h : Block.isStarred leader = true) :
    leader = [] ∨ (∃ t, leader = '*' :: t) ∨ ['/', '*'] <+: leader := by
  unfold Block.isStarred at h
  split at h
  · exact .inl rfl
  · exact .inr (.inl ⟨_, rfl⟩)
  · exact .inr (.inr ⟨_, rfl⟩)
  · exact absurd h (by simp)

theorem isPlainLead_of_lines (hs : Block.isStarred (trim lead) = false) : IsPlainLead lead := by
  refine .inr (.inr (.inr ?_))
  rintro ⟨t, ht⟩
  rw [← ht] at hs
  exact absurd hs (by simp [Block.isStarred])

/-- A star leads a plain block only as the whole leader. -/
theorem IsPlainLead.of_starred (hd : IsPlainLead lead)
    (hs : Block.isStarred (trim lead) = true) :
    ['/', '*'] <+: trim lead ∨ (trim lead = [] ∨ trim lead = ['*']) := by
  rcases hd with h | h | h | h
  · exact .inr (.inl h)
  · exact .inl h
  · exact .inr (.inr h)
  · rcases starred_cases hs with hnil | ⟨t, hstar⟩ | hopen
    · exact .inr (.inl hnil)
    · exact absurd ⟨t, hstar.symm⟩ h
    · exact .inl hopen

theorem starLead_of_star {t : List Char} (h : trim lead = '*' :: t) :
    Block.starLead lead = lead := by
  simp [Block.starLead, h]

theorem starLead_of_bare (h : trim lead = [] ∨ trim lead = ['*']) :
    Block.starLead lead = lead := by
  rcases h with h | h
  · simp [Block.starLead, h]
  · exact starLead_of_star h

theorem editable_ofParts (hd : IsPlainLead lead) (hn : '\n' ∉ lead) (before rest : List Char) :
    Editable lead (Block.ofParts before lead rest) := by
  have hleader := lineLeader_ofParts before lead rest
  have hlead := lead_ofParts before lead rest
  by_cases hs : Block.isStarred (trim lead) = true
  · rw [if_pos hs] at hleader hlead
    have hl : Distinct (Block.ofParts before lead rest).lineLeader := by
      rw [hleader]
      exact distinct_none
    rcases hd.of_starred hs with h | h
    · -- the marker follows the opening delimiter, and inserted lines start with a star below it
      rw [starLead_of_opening h] at hlead
      have hblank : Blanks [' '] := by simp [Blanks, isBlank]
      refine ⟨⟨hl, ?_, fun f s => ?_⟩, ?_⟩
      · rw [hlead]
        decide
      · rw [hleader, List.append_assoc]
        exact written?_opening h f _
      · rw [Leads, hleader, hlead]
        exact @Margin.mk none [' '] ['*'] [' '] [] ['@'] hblank (.inr (.inl rfl)) hblank
          (.inl rfl) (.inr rfl)
    · -- inserted lines start as the line of the marker does
      rw [starLead_of_bare h] at hlead
      refine editable_of_isLeader hl ?_ hlead hn
      rw [hleader]
      exact h.imp id .inl
  · -- the leader of line comments is what stands before the marker
    rw [if_neg hs] at hleader hlead
    refine editable_of_isLeader ?_ ?_ hlead hn
    · rw [hleader]
      rintro leader ⟨rfl⟩
      refine ⟨fun hnil => hs (by simp [hnil, Block.isStarred]), startsBare_trim lead⟩
    · rw [hleader]
      rfl

/-- No line that is inserted between delimiters brings in the closing one, if the lines that are
inserted start as field lines may. -/
theorem slash_notMem_lead (hs : Block.isStarred (trim lead) = true)
    (h : Leads (Block.ofParts before lead rest)) :
    '/' ∉ (Block.ofParts before lead rest).lead := by
  rw [Leads, lineLeader_ofParts, lead_ofParts, if_pos hs, if_pos hs] at h
  rw [lead_ofParts, if_pos hs]
  obtain ⟨a, c, ha, hc, hlead⟩ := exists_blanks_trim lead
  have hblank : ∀ {u : List Char}, Blanks u → '/' ∉ u := fun hu hm =>
    absurd (hu _ hm) (by decide)
  rcases starred_cases hs with hnil | ⟨t, hstar⟩ | hopen
  · rw [starLead_of_bare (.inl hnil), hlead, hnil]
    simp [hblank ha, hblank hc]
  · rw [starLead_of_star hstar] at h ⊢
    intro hm
    obtain ⟨u, hu⟩ := h.exists_of_slash (List.mem_append_left _ hm)
    have hbare : StartsBare ('*' :: (t ++ c ++ ['@'])) := startsBare_cons_iff.mpr (by decide)
    have hline : lead ++ ['@'] = a ++ '*' :: (t ++ c ++ ['@']) := by
      rw [hlead, hstar]
      simp
    rw [hline, trimStart_eq ha hbare] at hu
    exact absurd (List.cons.inj hu).1 (by decide)
  · rw [starLead_of_opening hopen]
    decide

/-! ## Finding an edited block -/

theorem newline_notMem_stem (hn : '\n' ∉ lead) : '\n' ∉ lead ++ marker := by
  rw [List.mem_append, not_or]
  exact ⟨hn, by decide⟩

theorem stem_eq (lead : List Char) : lead ++ marker = (lead ++ marker.dropLast) ++ ['a'] := by
  rw [List.append_assoc]
  rfl

theorem splitOn_body {inner : List Char} (hn : '\n' ∉ lead)
    (hinner : splitOn '\n' inner = top :: more) :
    splitOn '\n' (lead ++ marker ++ inner) = (lead ++ marker ++ top) :: more :=
  splitOn_append_of_notMem (newline_notMem_stem hn) hinner

/-- The values of a block whose first line holds no field are those of the lines after it. -/
theorem raw?_of_body {b : Block} {g : Field} {inner : List Char}
    (hfirst : ∀ s, written? b.lineLeader g.keyText (lead ++ marker ++ s) = none)
    (hn : '\n' ∉ lead) (hbody : b.body = lead ++ marker ++ inner)
    (hsplit : splitOn '\n' inner = top :: more) : b.raw? g = valueIn b.lineLeader g more := by
  have hlacks : Lacks b.lineLeader g [lead ++ marker ++ top] :=
    lacks_cons_iff.mpr ⟨hfirst top, lacks_nil⟩
  rw [Block.raw?_eq_valueIn, hbody, splitOn_body hn hsplit, ← List.singleton_append,
    valueIn_append_of_lacks hlacks]

/-- The field of a clear block is on one of the lines after the marker's, if it is there. -/
theorem Clear.lacks_iff {b : Block} {inner : List Char} (hb : Clear lead b) (hn : '\n' ∉ lead)
    (hbody : b.body = lead ++ marker ++ inner) (hinner : splitOn '\n' inner = top :: more)
    (f : Field) : Lacks b.lineLeader f more ↔ b.raw? f = none := by
  rw [raw?_of_body (hb.first f) hn hbody hinner, valueIn_eq_none_iff]

/-- Setting a field of a clear block is an edit of its lines. -/
theorem Clear.exists_edit {b : Block} {inner : List Char} (hb : Clear lead b)
    (hn : '\n' ∉ lead) (hbody : b.body = lead ++ marker ++ inner)
    (hinner : splitOn '\n' inner = top :: more) (f : Field) (v : List Char) :
    ∃ top' more', Edit b f v top more top' more' ∧
      b.setBody f v = lead ++ marker ++ (top' ++ Block.unlines more') := by
  have hsplit : splitOn '\n' b.body = (lead ++ marker.dropLast ++ ['a'] ++ top) :: more := by
    rw [hbody, splitOn_body hn hinner, stem_eq]
  have hfirst := hb.first f top
  rw [stem_eq] at hfirst
  obtain ⟨top', more', hedit, hset⟩ :=
    EditGate.exists_edit hb.distinct hsplit (by decide) hfirst v
  refine ⟨top', more', hedit, ?_⟩
  rw [hset, ← stem_eq]
  simp only [List.append_assoc]

/-- An edit with a value on one line, by the lines before it and after it. -/
theorem Clear.exists_edit_lines {b : Block} {inner : List Char} (hb : Clear lead b)
    (hn : '\n' ∉ lead) (hbody : b.body = lead ++ marker ++ inner) (hv : '\n' ∉ v) (f : Field) :
    ∃ top more top' more', splitOn '\n' inner = top :: more ∧ Edit b f v top more top' more' ∧
      b.setBody f v = lead ++ marker ++ (top' ++ Block.unlines more') ∧
      splitOn '\n' (top' ++ Block.unlines more') = top' :: more' := by
  obtain ⟨top, more, hsplit⟩ := List.exists_cons_of_ne_nil (splitOn_ne_nil '\n' inner)
  obtain ⟨top', more', he, hset⟩ := hb.exists_edit hn hbody hsplit f v
  have hlines : ∀ line ∈ top :: more, '\n' ∉ line := fun line hline =>
    notMem_of_mem_splitOn (hsplit ▸ hline)
  obtain ⟨htop, hmore⟩ := List.forall_mem_cons.mp hlines
  have hlines' : ∀ line ∈ top' :: more', '\n' ∉ line :=
    List.forall_mem_cons.mpr (he.newline_notMem hb.newline_notMem hv htop hmore)
  exact ⟨top, more, top', more', hsplit, he, hset,
    splitOn_joinLines (List.cons_ne_nil _ _) hlines'⟩

theorem set_eq {b : Block} {before rest' : List Char} (hbefore : b.before = before)
    (hset : b.setBody f v ++ b.after = lead ++ marker ++ rest') :
    b.set f v = before ++ lead ++ marker ++ rest' := by
  rw [Block.set, hbefore, List.append_assoc, hset]
  simp only [List.append_assoc]

section

variable {inner after : List Char}

theorem ofParts_of_closing (hs : Block.isStarred (trim lead) = true)
    (hc : cutAt? closing rest = some (inner, after)) :
    Block.ofParts before lead rest =
      ⟨before, lead ++ marker ++ inner, closing ++ after, true, Block.starLead lead, none⟩ := by
  simp [Block.ofParts, hs, hc]

theorem ofParts_of_open (hs : Block.isStarred (trim lead) = true)
    (hc : cutAt? closing rest = none) :
    Block.ofParts before lead rest =
      ⟨before, lead ++ marker ++ rest, [], false, Block.starLead lead, none⟩ := by
  simp [Block.ofParts, hs, hc]

theorem ofParts_of_lines (hs : Block.isStarred (trim lead) = false)
    (hc : Block.cutLineComments (trim lead) rest = (inner, after)) :
    Block.ofParts before lead rest =
      ⟨before, lead ++ marker ++ inner, after, false, lead, some (trim lead)⟩ := by
  simp [Block.ofParts, hs, hc]

theorem not_closing_append_star (h : ¬ closing <:+: inner) : ¬ closing <:+: inner ++ ['*'] := by
  rw [closing_infix_append_iff (.inr (by decide))]
  rintro (hin | hin)
  · exact h hin
  · exact absurd hin (by decide)

theorem cutAt?_closing (h : ¬ closing <:+: inner) :
    cutAt? closing (inner ++ closing ++ after) = some (inner, after) :=
  cutAt?_of_first (by decide) (not_closing_append_star h)

theorem not_closing_of_cutAt? (h : cutAt? closing rest = some (inner, after)) :
    ¬ closing <:+: inner :=
  not_closing_left (first_of_cutAt? (by decide) h)

theorem unlines_of_splitOn {s : List Char} (h : splitOn '\n' s = top :: more) :
    top ++ Block.unlines more = s := by
  rw [← joinLines_splitOn s, h, joinLines]

theorem takeWhile_dropWhile {α : Type} (p : α → Bool) (l : List α) :
    (l.dropWhile p).takeWhile p = [] := by
  induction l with
  | nil => rfl
  | cons a l ih =>
    rw [List.dropWhile_cons]
    split
    · exact ih
    · rename_i ha
      rw [List.takeWhile_cons_of_neg ha]

/-- A block of line comments is found again if its lines still have the leader. -/
theorem cutLineComments_unlines {leader : List Char} {rem : List (List Char)}
    (htop : '\n' ∉ top) (hmore : ∀ line ∈ more, '\n' ∉ line) (hrem : ∀ line ∈ rem, '\n' ∉ line)
    (hcont : ∀ line ∈ more, Block.continues leader line = true)
    (hstop : rem.takeWhile (Block.continues leader) = []) :
    Block.cutLineComments leader (top ++ Block.unlines more ++ Block.unlines rem) =
      (top ++ Block.unlines more, Block.unlines rem) := by
  have hjoin : top ++ Block.unlines more ++ Block.unlines rem = joinLines (top :: (more ++ rem)) := by
    simp [joinLines]
  have hlines : ∀ line ∈ top :: (more ++ rem), '\n' ∉ line := by
    simp only [List.forall_mem_cons, List.forall_mem_append]
    exact ⟨htop, hmore, hrem⟩
  have htake : (more ++ rem).takeWhile (Block.continues leader) = more := by
    rw [List.takeWhile_append_of_pos hcont, hstop, List.append_nil]
  have hdrop : (more ++ rem).dropWhile (Block.continues leader) = rem := by
    have hwhole := List.takeWhile_append_dropWhile (p := Block.continues leader) (l := more ++ rem)
    rw [htake] at hwhole
    exact List.append_cancel_left hwhole
  rw [hjoin, Block.cutLineComments, splitOn_joinLines (by simp) hlines]
  simp only [htake, hdrop]

/-- Setting a field of a clear block brings in a closing delimiter just if the value does, where an
inserted line has none. -/
theorem Clear.exists_setBody_starred {b : Block} (hb : Clear lead b) (hn : '\n' ∉ lead)
    (hbody : b.body = lead ++ marker ++ inner) (hslash : b.raw? f = none → '/' ∉ b.lead)
    (hin : ¬ closing <:+: inner) (v : List Char) :
    ∃ inner', b.setBody f v = lead ++ marker ++ inner' ∧ (closing <:+: inner' ↔ closing <:+: v) := by
  obtain ⟨top, more, hsplit⟩ := List.exists_cons_of_ne_nil (splitOn_ne_nil '\n' inner)
  obtain ⟨top', more', he, hset⟩ := hb.exists_edit hn hbody hsplit f v
  rw [← unlines_of_splitOn hsplit] at hin
  have hlead : Lacks b.lineLeader f more → '/' ∉ b.lead := fun hlacks =>
    hslash ((hb.lacks_iff hn hbody hsplit f).mp hlacks)
  exact ⟨top' ++ Block.unlines more', hset, he.closing_iff hlead hin⟩

end

/-- The edited block between delimiters, if the field is there or may be inserted. -/
theorem Marked.exists_set_of_starred (h : Marked text before lead rest)
    (hb : Clear lead (Block.ofParts before lead rest))
    (hlead : (Block.ofParts before lead rest).raw? f = none →
      Leads (Block.ofParts before lead rest))
    (hs : Block.isStarred (trim lead) = true) (hclosing : ¬ closing <:+: v) :
    ∃ rest', (Block.ofParts before lead rest).set f v = before ++ lead ++ marker ++ rest' ∧
      Block.ofParts before lead rest' =
        { Block.ofParts before lead rest with
          body := (Block.ofParts before lead rest).setBody f v } := by
  have hn := h.newline_notMem
  have hslash : (Block.ofParts before lead rest).raw? f = none →
      '/' ∉ (Block.ofParts before lead rest).lead := fun hraw => slash_notMem_lead hs (hlead hraw)
  cases hc : cutAt? closing rest with
  | some cut =>
    obtain ⟨inner, after⟩ := cut
    rw [ofParts_of_closing hs hc] at hb hslash ⊢
    obtain ⟨inner', hset, hin'⟩ :=
      hb.exists_setBody_starred hn rfl hslash (not_closing_of_cutAt? hc) v
    refine ⟨inner' ++ closing ++ after, set_eq rfl ?_, ?_⟩
    · rw [hset]
      simp only [List.append_assoc]
    · rw [ofParts_of_closing hs (cutAt?_closing (mt hin'.mp hclosing)), hset]
  | none =>
    -- Without a delimiter the block runs to the end of the text, and the edit must bring none in.
    rw [ofParts_of_open hs hc] at hb hslash ⊢
    obtain ⟨inner', hset, hin'⟩ :=
      hb.exists_setBody_starred hn rfl hslash (cutAt?_eq_none_iff.mp hc) v
    refine ⟨inner', set_eq rfl ?_, ?_⟩
    · rw [hset, List.append_nil]
    · rw [ofParts_of_open hs (cutAt?_eq_none_iff.mpr (mt hin'.mp hclosing)), hset]

/-- The edited block of line comments. -/
theorem Marked.exists_set_of_lines (h : Marked text before lead rest)
    (hs : Block.isStarred (trim lead) = false) (hv : '\n' ∉ v) (f : Field) :
    ∃ rest', (Block.ofParts before lead rest).set f v = before ++ lead ++ marker ++ rest' ∧
      Block.ofParts before lead rest' =
        { Block.ofParts before lead rest with
          body := (Block.ofParts before lead rest).setBody f v } := by
  have hn := h.newline_notMem
  have hedit := editable_ofParts (isPlainLead_of_lines hs) hn before rest
  obtain ⟨top, lines, hsplit⟩ := List.exists_cons_of_ne_nil (splitOn_ne_nil '\n' rest)
  have hlines : ∀ line ∈ top :: lines, '\n' ∉ line := fun line hline =>
    notMem_of_mem_splitOn (hsplit ▸ hline)
  obtain ⟨htop, hlines⟩ := List.forall_mem_cons.mp hlines
  have hcut : Block.cutLineComments (trim lead) rest =
      (top ++ Block.unlines (lines.takeWhile (Block.continues (trim lead))),
        Block.unlines (lines.dropWhile (Block.continues (trim lead)))) := by
    rw [Block.cutLineComments, hsplit]
  rw [ofParts_of_lines hs hcut] at hedit ⊢
  have hmore : ∀ line ∈ lines.takeWhile (Block.continues (trim lead)), '\n' ∉ line :=
    fun line hline => hlines line ((List.takeWhile_sublist _).subset hline)
  have hrem : ∀ line ∈ lines.dropWhile (Block.continues (trim lead)), '\n' ∉ line :=
    fun line hline => hlines line ((List.dropWhile_sublist _).subset hline)
  have hinner := splitOn_joinLines (List.cons_ne_nil _ _)
    (List.forall_mem_cons.mpr ⟨htop, hmore⟩)
  obtain ⟨top', more', he, hset⟩ := hedit.exists_edit hn rfl hinner f v
  obtain ⟨rfl, hcont⟩ := he.continues rfl hedit.distinct hedit.leads rfl
    (fun line hline => List.all_eq_true.mp List.all_takeWhile line hline)
  obtain ⟨-, hmore'⟩ := he.newline_notMem hedit.newline_notMem hv htop hmore
  have hstop := takeWhile_dropWhile (Block.continues (trim lead)) lines
  refine ⟨top' ++ Block.unlines more' ++
    Block.unlines (lines.dropWhile (Block.continues (trim lead))), set_eq rfl ?_, ?_⟩
  · rw [hset]
    simp only [List.append_assoc]
  · rw [ofParts_of_lines hs (cutLineComments_unlines htop hmore' hrem hcont hstop), hset]

end EditGate
