import EditGate.Proofs.Metadata.ReadBack

/-!
# Updates of a block between delimiters

What stands behind the delimiter that closes a block is kept by every update. Whether it is still
behind that delimiter depends on the values: one with a closing delimiter in it ends the block
there, and no later entry takes that back (`Enclosed.setFields`). Otherwise the block ends where it
did, and every line that it gains is one of an inserted field, of a delimiter that moves down, or of
a value with line breaks (`Enclosed.breaks_setFields`). So an update stays inside the comment just
if its values are free of closing delimiters, and their line breaks are no more than the entries
that need no line of their own (`stays_iff`).
-/

namespace EditGate

open Text Cell

variable {text v : List Char} {f : Field} {b b' : Block} {es : List (Field × String)}

/-! ## Enclosed blocks -/

/-- What may stand before the marker on its line in a comment between delimiters. -/
def IsCommentLead (lead : List Char) : Prop :=
  trim lead = [] ∨ ['/', '*'] <+: trim lead ∨ trim lead = ['*']

/-- A block that ends at a closing delimiter. -/
structure Enclosed (text : List Char) (b : Block) : Prop where
  locate : Block.locate? text = some b
  closed : b.closed = true
  lead : ∀ before lead rest, Marked text before lead rest → IsCommentLead lead

theorem IsCommentLead.isPlainLead {lead : List Char} (h : IsCommentLead lead) :
    IsPlainLead lead := by
  rcases h with h | h | h
  · exact .inl h
  · exact .inr (.inl h)
  · exact .inr (.inr (.inl h))

theorem IsCommentLead.isStarred {lead : List Char} (h : IsCommentLead lead) :
    Block.isStarred (trim lead) = true := by
  rcases h with h | ⟨t, h⟩ | h
  · rw [h]
    rfl
  · rw [← h]
    rfl
  · rw [h]
    rfl

/-- The parts of an enclosed block, and what its edits depend on. -/
theorem Enclosed.exists_parts (h : Enclosed text b) :
    ∃ before lead inner after, Marked text before lead (inner ++ closing ++ after) ∧
      IsCommentLead lead ∧ ¬ closing <:+: inner ∧
      b = ⟨before, lead ++ marker ++ inner, closing ++ after, true, Block.starLead lead, none⟩ ∧
      Editable lead b ∧ '/' ∉ b.lead := by
  obtain ⟨before, lead, rest, hm, hb⟩ := exists_marked h.locate
  have hlead := h.lead _ _ _ hm
  have hedit := editable_ofParts hlead.isPlainLead hm.newline_notMem before rest
  have hslash : '/' ∉ (Block.ofParts before lead rest).lead :=
    slash_notMem_lead hlead.isStarred hedit.leads
  rw [← hb] at hedit hslash
  cases hc : cutAt? closing rest with
  | none =>
    have hclosed := h.closed
    rw [hb, ofParts_of_open hlead.isStarred hc] at hclosed
    exact absurd hclosed (by simp)
  | some cut =>
    obtain ⟨inner, after⟩ := cut
    rw [ofParts_of_closing hlead.isStarred hc] at hb
    refine ⟨before, lead, inner, after, ?_, hlead, not_closing_of_cutAt? hc, hb, hedit, hslash⟩
    rw [← eq_append_of_cutAt? hc]
    exact hm

theorem enclosed_of_marked {before lead inner after : List Char} (hlead : IsCommentLead lead)
    (hm : Marked text before lead (inner ++ closing ++ after)) (hin : ¬ closing <:+: inner) :
    Enclosed text
      ⟨before, lead ++ marker ++ inner, closing ++ after, true, Block.starLead lead, none⟩ := by
  refine ⟨?_, rfl, fun before' lead' rest' h' => (hm.unique h').2.1 ▸ hlead⟩
  rw [hm.locate?, ofParts_of_closing hlead.isStarred (cutAt?_closing hin)]

/-! ## Where the block ends -/

/-- A text with a delimiter in it is cut at the first one, and the rest is longer by it. -/
theorem exists_cut_of_closing {inner : List Char} (h : closing <:+: inner) (after : List Char) :
    ∃ inner' more, ¬ closing <:+: inner' ∧
      inner ++ closing ++ after = inner' ++ closing ++ (more ++ closing ++ after) := by
  obtain ⟨⟨inner', more⟩, hcut⟩ := Option.isSome_iff_exists.mp (isSome_cutAt?_iff.mpr h)
  refine ⟨inner', more, not_closing_of_cutAt? hcut, ?_⟩
  rw [eq_append_of_cutAt? hcut]
  simp only [List.append_assoc]

/-- A field that is set leaves the block enclosed. What follows it only grows, by what is cut off
at a closing delimiter in the value. -/
theorem Enclosed.set (h : Enclosed text b) (f : Field) (v : List Char) :
    ∃ b' extra, Enclosed (b.set f v) b' ∧ b'.after = extra ++ b.after ∧
      (extra = [] ↔ ¬ closing <:+: v) ∧
      (extra = [] → b' = { b with body := b.setBody f v }) := by
  obtain ⟨before, lead, inner, after, hm, hlead, hin, hb, hedit, hslash⟩ := h.exists_parts
  have hbody : b.body = lead ++ marker ++ inner := by rw [hb]
  obtain ⟨inner', hset, hiff⟩ :=
    hedit.exists_setBody_starred hm.newline_notMem hbody (fun _ => hslash) hin v
  have htext : b.set f v = before ++ lead ++ marker ++ (inner' ++ closing ++ after) := by
    refine set_eq (by rw [hb]) ?_
    rw [hset, hb]
    simp only [List.append_assoc]
  have hm' := hm.replace (inner' ++ closing ++ after)
  rw [← htext] at hm'
  by_cases hcv : closing <:+: v
  · -- The block now ends at the first delimiter of the value, and the rest of it follows.
    obtain ⟨first, rest, hin', hcut⟩ := exists_cut_of_closing (hiff.mpr hcv) after
    rw [hcut] at hm'
    have hne : closing ++ rest ≠ [] := by simp [closing]
    refine ⟨_, closing ++ rest, enclosed_of_marked hlead hm' hin', ?_, ?_, fun he => absurd he hne⟩
    · rw [hb]
      simp only [List.append_assoc]
    · exact ⟨fun he => absurd he hne, fun hno => absurd hcv hno⟩
  · refine ⟨_, [], enclosed_of_marked hlead hm' (mt hiff.mp hcv), ?_, ?_, fun _ => ?_⟩
    · rw [hb, List.nil_append]
    · simp [hcv]
    · rw [hset, hb]

/-- Over a run of entries, too, the block keeps what follows it, and ends where it did just if no
value has a closing delimiter. -/
theorem Enclosed.setFields (h : Enclosed text b) (es : List (Field × String)) :
    ∃ b' extra, Enclosed (Metadata.setFields text es) b' ∧ b'.after = extra ++ b.after ∧
      (extra = [] ↔ ∀ e ∈ es, ¬ closing <:+: e.2.toList) := by
  induction es generalizing text b with
  | nil => exact ⟨b, [], h, rfl, by simp⟩
  | cons e es ih =>
    obtain ⟨b₁, extra₁, h₁, hafter₁, hiff₁, -⟩ := h.set e.1 e.2.toList
    obtain ⟨b₂, extra₂, h₂, hafter₂, hiff₂⟩ := ih h₁
    have hstep : setField text e.1 e.2.toList = b.set e.1 e.2.toList := by
      rw [setField, h.locate]
    refine ⟨b₂, extra₂ ++ extra₁, ?_, ?_, ?_⟩
    · rw [Metadata.setFields, List.foldl_cons, hstep]
      exact h₂
    · rw [hafter₂, hafter₁, List.append_assoc]
    · rw [List.append_eq_nil_iff, hiff₁, hiff₂, List.forall_mem_cons]
      exact And.comm

/-! ## How many lines it has -/

/-- The number of line breaks. -/
def breaks (s : List Char) : Nat := s.count '\n'

theorem breaks_append (s t : List Char) : breaks (s ++ t) = breaks s + breaks t :=
  List.count_append

theorem breaks_eq_zero {s : List Char} (h : '\n' ∉ s) : breaks s = 0 := List.count_eq_zero.mpr h

theorem breaks_cons_newline (s : List Char) : breaks ('\n' :: s) = breaks s + 1 :=
  List.count_cons_self

/-- The number of line breaks in the values of some entries. -/
def entryBreaks : List (Field × String) → Nat
  | [] => 0
  | e :: es => breaks e.2.toList + entryBreaks es

/-- Whether what closes a block stands on a line with anything else before it. -/
def Block.sharesLine (b : Block) : Bool := !(cutLastLine b.body).2.all isBlank

theorem sharesLine_eq_true {s t : List Char} {z : Char} (hbody : b.body = s ++ z :: t)
    (hz : isBlank z = false) (ht : '\n' ∉ t) : b.sharesLine = true := by
  have hzn : z ≠ '\n' := by
    rintro rfl
    exact absurd hz (by decide)
  have hnot : ∀ last, z ∈ last → ¬ Blanks last := fun last hm hb => by
    have := hb z hm
    simp [hz] at this
  have hlast : ¬ Blanks (cutLastLine b.body).2 := by
    rcases cutLastLine_cases b.body with ⟨-, hc⟩ | ⟨front, last, -, hs, hc⟩
    · rw [hc]
      exact hnot _ (by rw [hbody]; simp)
    · rw [hc]
      refine hnot _ ?_
      -- the last newline stands before the character
      rcases List.append_eq_append_iff.mp (hbody.symm.trans hs) with ⟨u, hfront, hu⟩ | ⟨u, -, hu⟩
      · cases u with
        | nil => exact absurd (List.cons.inj hu).1 hzn
        | cons d u =>
          have htu := (List.cons.inj hu).2
          exact absurd (by rw [htu]; simp) ht
      · cases u with
        | nil => exact absurd (List.cons.inj hu).1.symm hzn
        | cons d u =>
          have hlast := (List.cons.inj hu).2
          rw [hlast]
          simp
  rw [← all_isBlank_iff] at hlast
  simpa [Block.sharesLine] using hlast

theorem sharesLine_of_last {s last : List Char} (hbody : b.body = s ++ '\n' :: last)
    (hn : '\n' ∉ last) : b.sharesLine = !last.all isBlank := by
  rw [Block.sharesLine, hbody, cutLastLine_append_newline hn]

theorem breaks_fieldLine (hlead : '\n' ∉ b.lead) (f : Field) (v : List Char) :
    breaks (b.fieldLine f v) = breaks v := by
  have hkey : '\n' ∉ f.keyText := fun hm => absurd (Field.of_mem_keyText hm).1 (by decide)
  have hopen : '\n' ∉ b.lead ++ '@' :: f.keyText ++ [':', ' '] := by simp [hlead, hkey]
  rw [fieldLine_eq, breaks_append, breaks_eq_zero hopen, Nat.zero_add]

section

variable {stem top top' : List Char} {more more' : List (List Char)} {z : Char}

/-- A value in the place of another one leaves the delimiter where it is on its line. -/
theorem sharesLine_inPlace {front value back : List Char} {L₁ L₂ : List (List Char)}
    (hbody : b.body = stem ++ Block.unlines (L₁ ++ (front ++ value ++ back) :: L₂))
    (hbody' : b'.body = stem ++ Block.unlines (L₁ ++ (front ++ v ++ back) :: L₂))
    (hopen : Opening b.lineLeader f front) (hv : Firm v)
    (hlines : ∀ line ∈ L₁ ++ (front ++ value ++ back) :: L₂, '\n' ∉ line) :
    b'.sharesLine = b.sharesLine := by
  rcases List.eq_nil_or_concat L₂ with rfl | ⟨L, last, rfl⟩
  · -- the field is on the line of the delimiter, which it shares before and after
    have hline := hlines _ (List.mem_append_right _ (List.mem_cons_self ..))
    simp only [List.mem_append, not_or] at hline
    obtain ⟨⟨hfront, hvalue⟩, hback⟩ := hline
    obtain ⟨w, y, hwy, hy, -, -⟩ := hv.last
    have hnew : b'.body = (stem ++ Block.unlines L₁ ++ '\n' :: front ++ w) ++ y :: back := by
      rw [hbody', hwy]
      simp
    obtain @⟨P, c, pad, -, -, -⟩ := hopen
    obtain ⟨k, ks, hk, hkl⟩ := f.exists_keyText_eq_cons
    have hold : b.body = (stem ++ Block.unlines L₁ ++ '\n' :: P) ++
        k :: (ks ++ (c ++ ':' :: pad) ++ value ++ back) := by
      rw [hbody, hk]
      simp
    have htail : '\n' ∉ ks ++ (c ++ ':' :: pad) ++ value ++ back := by
      rw [hk] at hfront
      simp only [List.mem_append, List.mem_cons, not_or] at hfront hvalue hback ⊢
      exact ⟨⟨⟨hfront.2.1.2, hfront.2.2⟩, hvalue⟩, hback⟩
    rw [sharesLine_eq_true hnew hy hback, sharesLine_eq_true hold (isBlank_of_isLower hkl) htail]
  · -- the line of the delimiter is another one, and stays as it is
    have hlast : '\n' ∉ last := hlines _ (by simp)
    have hold : b.body = (stem ++ Block.unlines (L₁ ++ (front ++ value ++ back) :: L)) ++
        '\n' :: last := by
      rw [hbody]
      simp
    have hnew : b'.body = (stem ++ Block.unlines (L₁ ++ (front ++ v ++ back) :: L)) ++
        '\n' :: last := by
      rw [hbody']
      simp
    rw [sharesLine_of_last hold hlast, sharesLine_of_last hnew hlast]

/-- A line above an empty last one adds one, and the delimiter stays alone on its line. -/
theorem breaks_aboveLast {s last line : List Char} (hbody : b.body = s ++ '\n' :: last)
    (hbody' : b'.body = (s ++ '\n' :: line) ++ '\n' :: last) (hn : '\n' ∉ last)
    (hlast : Blanks last) :
    breaks b'.body = breaks b.body + breaks line + 1 + (if b.sharesLine = true then 1 else 0) ∧
      b'.sharesLine = false := by
  have hs := sharesLine_of_last hbody hn
  have hs' := sharesLine_of_last hbody' hn
  rw [all_isBlank_iff.mpr hlast, Bool.not_true] at hs hs'
  refine ⟨?_, hs'⟩
  rw [hbody, hbody', hs]
  simp only [breaks_append, breaks_cons_newline, Bool.false_eq_true, if_false]
  omega

/-- A line below a shared last one adds two, and the delimiter moves to a line of its own. -/
theorem breaks_belowShared {s pad line : List Char} (hbody : b.body = s ++ pad)
    (hbody' : b'.body = (s ++ '\n' :: line) ++ '\n' :: []) (hpad : '\n' ∉ pad)
    (hshares : b.sharesLine = true) :
    breaks b'.body = breaks b.body + breaks line + 1 + (if b.sharesLine = true then 1 else 0) ∧
      b'.sharesLine = false := by
  refine ⟨?_, sharesLine_of_last hbody' List.not_mem_nil⟩
  rw [hbody, hbody', hshares, breaks_append s pad, breaks_eq_zero hpad]
  simp only [breaks_append, breaks_cons_newline, breaks_eq_zero List.not_mem_nil, if_true]
  omega

/-- What an edit of a closed block does to its lines: none is added if the field is there, else one
for the field and one for a delimiter that moves down. -/
theorem Edit.breaks_body (hl : Distinct b.lineLeader) (hc : b.closed = true) (hlead : '\n' ∉ b.lead)
    (hv : Firm v) (hz : isBlank z = false) (htop : '\n' ∉ top)
    (hmore : ∀ line ∈ more, '\n' ∉ line)
    (hbody : b.body = stem ++ [z] ++ top ++ Block.unlines more)
    (hbody' : b'.body = stem ++ [z] ++ top' ++ Block.unlines more')
    (h : Edit b f v top more top' more') :
    (¬ Lacks b.lineLeader f more ∧ breaks b'.body = breaks b.body + breaks v ∧
        b'.sharesLine = b.sharesLine) ∨
      (Lacks b.lineLeader f more ∧
        breaks b'.body = breaks b.body + breaks v + 1 +
          (if b.sharesLine = true then 1 else 0) ∧
        b'.sharesLine = false) := by
  have hnew := breaks_fieldLine hlead f v
  cases h with
  | @inPlace _ front value back L₁ L₂ hlacks hopen htail hbare =>
    refine .inl ⟨fun hno => ?_, ?_, sharesLine_inPlace hbody hbody' hopen hv hmore⟩
    · have := (lacks_cons_iff.mp (lacks_append_iff.mp hno).2).1
      rw [List.append_assoc, hopen.written? hl hbare] at this
      exact absurd this (by simp)
    · have hline := hmore _ (List.mem_append_right _ (List.mem_cons_self ..))
      have hvalue : '\n' ∉ value := fun hm => hline (by simp [hm])
      have hzero := breaks_eq_zero hvalue
      rw [hbody, hbody']
      simp only [unlines_append, unlines_cons, breaks_append, List.cons_append,
        breaks_cons_newline, hzero]
      omega
  | @aboveLast _ last L _ hlacks hlast =>
    rw [← hnew]
    exact .inr ⟨hlacks, breaks_aboveLast (s := stem ++ [z] ++ top ++ Block.unlines L)
      (by rw [hbody]; simp) (by rw [hbody']; simp) (hmore _ (by simp)) hlast⟩
  | @belowLast _ kept pad L _ hlacks hkept hpad =>
    have hline : '\n' ∉ kept ++ pad := hmore _ (by simp)
    have hold : b.body = (stem ++ [z] ++ top ++ Block.unlines L) ++ '\n' :: (kept ++ pad) := by
      rw [hbody]
      simp
    have hshares : b.sharesLine = true := by
      rw [sharesLine_of_last hold hline, Bool.not_eq_true', Bool.eq_false_iff, Ne,
        all_isBlank_iff, blanks_append_iff]
      exact fun hb => hkept hb.1
    rw [← hnew]
    exact .inr ⟨hlacks, breaks_belowShared (s := stem ++ [z] ++ top ++ Block.unlines (L ++ [kept]))
      (by rw [hbody]; simp) (by rw [hbody']; simp)
      (fun hm => hline (List.mem_append_right _ hm)) hshares⟩
  | @belowTop _ pad _ hpad =>
    have hshares : b.sharesLine = true :=
      sharesLine_eq_true (s := stem) (t := top' ++ pad) (by rw [hbody]; simp) hz htop
    rw [← hnew]
    exact .inr ⟨lacks_nil, breaks_belowShared (s := stem ++ [z] ++ top') (by rw [hbody]; simp)
      (by rw [hbody']; simp) (fun hm => htop (List.mem_append_right _ hm)) hshares⟩
  | atEnd hopen _ => simp [hc] at hopen

end

/-- The number of entries that take the place of a value that is there when their turn comes. -/
def inPlace : List Char → List (Field × String) → Nat
  | _, [] => 0
  | text, e :: es =>
    (if ((Block.locate? text).bind (·.raw? e.1)).isSome = true then 1 else 0) +
      inPlace (setField text e.1 e.2.toList) es

theorem inPlace_le (text : List Char) (es : List (Field × String)) :
    inPlace text es ≤ es.length := by
  induction es generalizing text with
  | nil => exact Nat.le_refl _
  | cons e es ih =>
    have := ih (setField text e.1 e.2.toList)
    rw [inPlace, List.length_cons]
    split <;> omega

/-- One entry adds a line unless it is set in place, and one more if the delimiter moves down. -/
theorem Enclosed.breaks_set (h : Enclosed text b) (hv : Firm v) (f : Field) :
    ((b.raw? f).isSome = true ∧ breaks (b.setBody f v) = breaks b.body + breaks v ∧
        Block.sharesLine { b with body := b.setBody f v } = b.sharesLine) ∨
      ((b.raw? f).isSome = false ∧
        breaks (b.setBody f v) = breaks b.body + breaks v + 1 +
          (if b.sharesLine = true then 1 else 0) ∧
        Block.sharesLine { b with body := b.setBody f v } = false) := by
  obtain ⟨before, lead, inner, after, hm, -, -, hb, hedit, -⟩ := h.exists_parts
  have hn := hm.newline_notMem
  obtain ⟨top, more, hsplit⟩ := List.exists_cons_of_ne_nil (splitOn_ne_nil '\n' inner)
  have hbody : b.body = lead ++ marker ++ inner := by rw [hb]
  obtain ⟨top', more', he, hset⟩ := hedit.exists_edit hn hbody hsplit f v
  have hlines : ∀ line ∈ top :: more, '\n' ∉ line := fun line hline =>
    notMem_of_mem_splitOn (hsplit ▸ hline)
  obtain ⟨htop, hmore⟩ := List.forall_mem_cons.mp hlines
  have hraw : (b.raw? f).isSome = false ↔ Lacks b.lineLeader f more := by
    rw [raw?_of_body (hedit.first f) hn hbody hsplit, ← valueIn_eq_none_iff,
      Option.isSome_eq_false_iff, Option.isNone_iff_eq_none]
  have hold : b.body = (lead ++ marker.dropLast) ++ ['a'] ++ top ++ Block.unlines more := by
    rw [hbody, ← unlines_of_splitOn hsplit, stem_eq]
    simp only [List.append_assoc]
  have hnew : Block.body { b with body := b.setBody f v } =
      (lead ++ marker.dropLast) ++ ['a'] ++ top' ++ Block.unlines more' := by
    rw [hset, stem_eq]
    simp only [List.append_assoc]
  rcases he.breaks_body hedit.distinct h.closed hedit.newline_notMem hv (by decide) htop hmore
    hold hnew with ⟨hsome, hbreaks, hshares⟩ | ⟨hnone, hbreaks, hshares⟩
  · exact .inl ⟨(Bool.not_eq_false _).mp (mt hraw.mp hsome), hbreaks, hshares⟩
  · exact .inr ⟨hraw.mpr hnone, hbreaks, hshares⟩

/-- Over a run of entries without closing delimiters, each adds its own line breaks and, unless it
is set in place, a line; a delimiter that shares its line moves down with the first of these. -/
theorem Enclosed.breaks_setFields (h : Enclosed text b) (hes : ∀ e ∈ es, Firm e.2.toList)
    (hfree : ∀ e ∈ es, ¬ closing <:+: e.2.toList) :
    ∃ b', Block.locate? (Metadata.setFields text es) = some b' ∧ b'.closed = true ∧
      b'.before = b.before ∧ b'.after = b.after ∧
      breaks b'.body + inPlace text es +
          (if b.sharesLine = true ∧ inPlace text es = es.length then 1 else 0) =
        breaks b.body + entryBreaks es + es.length +
          (if b.sharesLine = true then 1 else 0) := by
  induction es generalizing text b with
  | nil => exact ⟨b, h.locate, h.closed, rfl, rfl, by simp [inPlace, entryBreaks]⟩
  | cons e es ih =>
    have he := hes e (List.mem_cons_self ..)
    obtain ⟨b₁, extra, h₁, -, hiff, hset⟩ := h.set e.1 e.2.toList
    obtain rfl := hset (hiff.mpr (hfree e (List.mem_cons_self ..)))
    obtain ⟨b', hloc, hclosed, hbefore, hafter, hcount⟩ :=
      ih h₁ (fun e' he' => hes e' (List.mem_cons_of_mem _ he'))
        fun e' he' => hfree e' (List.mem_cons_of_mem _ he')
    have hstep : setField text e.1 e.2.toList = b.set e.1 e.2.toList := by
      rw [setField, h.locate]
    refine ⟨b', ?_, hclosed, hbefore, hafter, ?_⟩
    · rw [Metadata.setFields, List.foldl_cons, hstep]
      exact hloc
    · have hle := inPlace_le (b.set e.1 e.2.toList) es
      rw [inPlace, hstep, h.locate, Option.bind_some, entryBreaks, List.length_cons]
      -- an entry that is set in place leaves what the delimiter shares to the others; one that is
      -- not has settled it
      rcases h.breaks_set he e.1 with ⟨hsome, hbreaks, hshares⟩ | ⟨hnone, hbreaks, hshares⟩
      · simp only [hshares, hbreaks] at hcount
        rw [if_pos hsome]
        cases hs : b.sharesLine with
        | false => simp only [hs] at hcount ⊢; simp at hcount ⊢; omega
        | true =>
          simp only [hs, true_and, if_true] at hcount ⊢
          by_cases hall : inPlace (b.set e.1 e.2.toList) es = es.length
          · rw [if_pos hall] at hcount
            rw [if_pos (by omega)]
            omega
          · rw [if_neg hall] at hcount
            rw [if_neg (by omega)]
            omega
      · simp only [hshares, hbreaks, Bool.false_eq_true, false_and, if_false] at hcount
        rw [hnone]
        simp only [Bool.false_eq_true, if_false, Nat.zero_add]
        rw [if_neg (show ¬ (b.sharesLine = true ∧
          inPlace (b.set e.1 e.2.toList) es = es.length + 1) by omega)]
        omega

/-! ## The values of a patch -/

namespace Metadata

variable {p : Patch} {time : String}

theorem firm_of_ends {c z : Char} {s : List Char} (hc : isBlank c = false ∧ c ≠ '/')
    (hz : isBlank z = false ∧ z ≠ '*' ∧ z ≠ '/') : Firm (c :: (s ++ [z])) :=
  ⟨⟨c, s ++ [z], rfl, hc⟩, ⟨c :: s, z, rfl, hz⟩⟩

theorem firm_writePermissions (map : Keyed MethodPermission) :
    Firm (writePermissions map).toList := by
  unfold writePermissions
  split
  · exact firm_of_ends (by decide) (by decide) (s := [])
  · have hopen : "\x7b ".toList = ['\x7b', ' '] := rfl
    have hend : " \x7d".toList = [' ', '\x7d'] := rfl
    have := fun s : List Char => @firm_of_ends '\x7b' '\x7d' (' ' :: s ++ [' ']) (by decide) (by decide)
    simp only [String.toList_append, hopen, hend]
    simpa using this _

theorem firm_inQuotes (s : String) : Firm (inQuotes s).toList := by
  have hquote : "\"".toList = ['"'] := rfl
  have := @firm_of_ends '"' '"' s.toList (by decide) (by decide)
  rw [inQuotes, String.toList_append, String.toList_append, hquote]
  simpa using this

theorem firm_writeList (ss : List String) : Firm (writeList ss).toList := by
  have hopen : "[".toList = ['['] := rfl
  have hend : "]".toList = [']'] := rfl
  have := fun s : List Char => @firm_of_ends '[' ']' s (by decide) (by decide)
  rw [writeList, String.toList_append, String.toList_append, hopen, hend]
  simpa using this _

/-- Every value that a patch writes is firm, whatever texts are in it. -/
theorem firm_entries (p : Patch) (ht : IsStamp time) :
    ∀ e ∈ p.entries ++ [(Field.lastModified, time)], Firm e.2.toList := by
  intro e he
  simp only [Patch.entries, List.mem_append, List.mem_singleton] at he
  rcases he with (((((((he | he) | he) | he) | he) | he) | he) | he) | rfl
  · obtain ⟨x, -, rfl⟩ := mem_entry he
    exact (plain_stability x).firm
  · obtain ⟨x, -, rfl⟩ := mem_entry he
    exact (plain_editPermission x).firm
  · obtain ⟨x, -, rfl⟩ := mem_entry he
    exact firm_writePermissions x
  · obtain ⟨x, -, rfl⟩ := mem_entry he
    exact (plain_riskLevel x).firm
  · obtain ⟨x, -, rfl⟩ := mem_entry he
    exact (plain_writeBool x).firm
  · obtain ⟨x, -, rfl⟩ := mem_entry he
    exact firm_inQuotes _
  · obtain ⟨x, -, rfl⟩ := mem_entry he
    exact firm_writeList x
  · obtain ⟨x, -, rfl⟩ := mem_entry he
    exact firm_writeList x
  · exact ht.plain.firm

/-! ## Updates that stay inside the comment -/

/-- The entries that a patch sets, with the time unless there are none. -/
def Patch.changes (p : Patch) (time : String) : List (Field × String) :=
  if p.isEmpty = true then [] else p.entries ++ [(.lastModified, time)]

/-- The text is cut before the closing delimiter of the block as it was, is still closed there,
and has no more lines before it than one for each change and one for a delimiter that shared its
line. -/
def Stays (b : Block) (changes : Nat) (text : List Char) : Prop :=
  ∃ inside, text = inside ++ b.after ∧
    (∃ b', Block.locate? text = some b' ∧ b'.closed = true ∧ b'.before ++ b'.body = inside) ∧
    breaks inside ≤ breaks (b.before ++ b.body) + changes + if b.sharesLine = true then 1 else 0

theorem update_eq_setFields (h : Enclosed text b) (p : Patch) (time : String) :
    update text p time = setFields text (p.changes time) := by
  unfold update Patch.changes
  split
  · rfl
  · rw [h.locate]

theorem firm_changes (p : Patch) (ht : IsStamp time) :
    ∀ e ∈ p.changes time, Firm e.2.toList := by
  unfold Patch.changes
  split
  · exact fun e he => absurd he List.not_mem_nil
  · exact firm_entries p ht

/-- An update stays inside the comment of its block just if no value that it writes has a closing
delimiter in it, and the line breaks in the values are no more than the entries that take the place
of a value, or one more if all of them do and the delimiter shares its line. -/
theorem stays_iff (text : List Char) (b : Block) (p : Patch) (time : String)
    (h : Enclosed text b) (ht : IsStamp time) :
    Stays b (p.changes time).length (update text p time) ↔
      (∀ e ∈ p.changes time, ¬ closing <:+: e.2.toList) ∧
        entryBreaks (p.changes time) ≤
          inPlace text (p.changes time) +
            if b.sharesLine = true ∧ inPlace text (p.changes time) = (p.changes time).length
              then 1 else 0 := by
  have hfirm := firm_changes p ht
  rw [update_eq_setFields h]
  have hends : Stays b (p.changes time).length (setFields text (p.changes time)) →
      ∀ e ∈ p.changes time, ¬ closing <:+: e.2.toList := by
    rintro ⟨inside, htext, ⟨b', hloc, -, hinside⟩, -⟩
    obtain ⟨b₁, extra, h₁, hafter, hiff⟩ := h.setFields (p.changes time)
    refine hiff.mp ?_
    obtain rfl := Option.some.inj (hloc.symm.trans h₁.locate)
    -- both cuts are of the same text, so they leave the same rest
    have hcut := Block.text_of_locate? hloc
    rw [Block.text, htext, ← hinside] at hcut
    have hrest := List.append_cancel_left hcut
    rw [hafter] at hrest
    exact List.self_eq_append_left.mp hrest.symm
  constructor
  · intro hstays
    have hfree := hends hstays
    refine ⟨hfree, ?_⟩
    obtain ⟨inside, htext, ⟨b', hloc, -, hinside⟩, hle⟩ := hstays
    obtain ⟨b₁, hloc₁, -, hbefore, -, hcount⟩ := h.breaks_setFields hfirm hfree
    obtain rfl := Option.some.inj (hloc.symm.trans hloc₁)
    rw [← hinside, breaks_append, breaks_append, hbefore] at hle
    omega
  · rintro ⟨hfree, hle⟩
    obtain ⟨b', hloc, hclosed, hbefore, hafter, hcount⟩ := h.breaks_setFields hfirm hfree
    refine ⟨b'.before ++ b'.body, ?_, ⟨b', hloc, hclosed, rfl⟩, ?_⟩
    · rw [← hafter]
      exact (Block.text_of_locate? hloc).symm
    · rw [breaks_append, breaks_append, hbefore]
      omega

/-- A comment with one field, its delimiter on a line of its own, and code behind it. -/
def sampleText : List Char := "/*\n * @ai-metadata\n * @stability: stable\n */\nfn main\n".toList

/-- The block of that comment. -/
def sampleBlock : Block where
  before := "/*\n".toList
  body := " * @ai-metadata\n * @stability: stable\n ".toList
  after := "*/\nfn main\n".toList
  closed := true
  lead := " * ".toList
  lineLeader := none

theorem enclosed_sampleBlock : Enclosed sampleText sampleBlock := by
  have hm : Marked sampleText "/*\n".toList " * ".toList
      ("\n * @stability: stable\n ".toList ++ closing ++ "\nfn main\n".toList) :=
    ⟨by decide, by decide⟩
  exact enclosed_of_marked (.inr (.inr (by decide))) hm (cutAt?_eq_none_iff.mp (by decide))

/-- A text with line breaks stays inside the comment: they are written as blanks. -/
theorem stays_sampleBlock :
    let p : Patch := { stability := some .deprecated, aiContext := some "two\nlines" }
    Enclosed sampleText sampleBlock ∧ IsStamp "12Z" ∧
      Stays sampleBlock 3 (update sampleText p "12Z") := by
  intro p
  have ht : IsStamp "12Z" := ⟨['1', '2'], rfl, List.all_eq_true.mp (by decide)⟩
  refine ⟨enclosed_sampleBlock, ht, ?_⟩
  refine (stays_iff sampleText sampleBlock p "12Z" enclosed_sampleBlock ht).mpr ⟨?_, by decide⟩
  intro e he
  have hall : ∀ e ∈ p.changes "12Z", cutAt? closing e.2.toList = none := by decide
  exact cutAt?_eq_none_iff.mp (hall e he)

/-- A path pattern among the tests closes the comment. -/
theorem not_stays_pathPattern :
    let p : Patch := { tests := some ["src/**/*.ts"] }
    Enclosed sampleText sampleBlock ∧ IsStamp "12Z" ∧
      ¬ Stays sampleBlock (p.changes "12Z").length (update sampleText p "12Z") := by
  intro p
  refine ⟨enclosed_sampleBlock, ⟨['1', '2'], rfl, List.all_eq_true.mp (by decide)⟩, ?_⟩
  rintro ⟨inside, htext, ⟨b', hloc, -, hinside⟩, -⟩
  have hafter : (Block.locate? (update sampleText p "12Z")).map Block.after =
      some "*/*.ts\"]\n */\nfn main\n".toList := by decide
  rw [hloc, Option.map_some, Option.some.injEq] at hafter
  have hcut := Block.text_of_locate? hloc
  rw [Block.text, htext, ← hinside] at hcut
  have hsame := List.append_cancel_left hcut
  rw [hafter] at hsame
  exact absurd hsame (by decide)

end Metadata

end EditGate
