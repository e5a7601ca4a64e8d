import EditGate.Proofs.Metadata.Values

/-!
# What setting a field does to the lines of a block

`Block.setBody` either puts a value in the place of another one on the same line, or adds a line:
above a closing delimiter that has a line of its own, below a line that the delimiter shares, or at
the end. `Edit` lists these cases by lines, with the rest of the marker's line apart from the lines
after it, since the marker's line holds no field. `exists_edit` shows that there are no others; what
is true of an edited block is then shown case by case.
-/

namespace EditGate

open Text Cell

variable {b : Block} {f g : Field} {v top top' : List Char} {more more' : List (List Char)}

/-- How the rest of the marker's line and the lines after it change when a field is set. -/
inductive Edit (b : Block) (f : Field) (v : List Char) :
    List Char → List (List Char) → List Char → List (List Char) → Prop where
  | inPlace {top front value back : List Char} {L₁ L₂ : List (List Char)} :
      Lacks b.lineLeader f L₁ → Opening b.lineLeader f front → Tail back →
      StartsBare (value ++ back) →
      Edit b f v top (L₁ ++ (front ++ value ++ back) :: L₂)
        top (L₁ ++ (front ++ v ++ back) :: L₂)
  | aboveLast {top last : List Char} {L : List (List Char)} :
      b.closed = true → Lacks b.lineLeader f (L ++ [last]) → Blanks last →
      Edit b f v top (L ++ [last]) top (L ++ [b.fieldLine f v, last])
  | belowLast {top kept pad : List Char} {L : List (List Char)} :
      b.closed = true → Lacks b.lineLeader f (L ++ [kept ++ pad]) → ¬ Blanks kept →
      (∀ c ∈ pad, Block.isPadding c = true) →
      Edit b f v top (L ++ [kept ++ pad]) top (L ++ [kept, b.fieldLine f v, []])
  | belowTop {kept pad : List Char} :
      b.closed = true → (∀ c ∈ pad, Block.isPadding c = true) →
      Edit b f v (kept ++ pad) [] kept [b.fieldLine f v, []]
  | atEnd {top : List Char} {more : List (List Char)} :
      b.closed = false → Lacks b.lineLeader f more →
      Edit b f v top more top (more ++ [b.fieldLine f v])

/-! ## Every case is listed -/

theorem isBlank_of_isPadding {c : Char} (h : Block.isPadding c = true) : isBlank c = true := by
  simp only [Block.isPadding, Bool.or_eq_true, beq_iff_eq] at h
  rcases h with rfl | rfl <;> decide

theorem exists_isPadding_dropEndWhile (s : List Char) :
    ∃ pad, (∀ c ∈ pad, Block.isPadding c = true) ∧
      s = dropEndWhile Block.isPadding s ++ pad :=
  exists_dropEndWhile ..

/-- A line that is added to a closed block below that of the marker. -/
theorem addLine_single {stem line : List Char} {z : Char} (hc : b.closed = true)
    (hz : isBlank z = false) (hbody : b.body = stem ++ [z] ++ top) (hn : '\n' ∉ b.body) :
    b.addLine line = stem ++ [z] ++ dropEndWhile Block.isPadding top ++ '\n' :: line ++ ['\n'] := by
  have hpad : Block.isPadding z = false := by
    cases hp : Block.isPadding z with
    | false => rfl
    | true => exact absurd (isBlank_of_isPadding hp) (by simp [hz])
  rw [Block.addLine, if_pos hc, cutLastLine_of_notMem hn]
  simp only [List.isEmpty_nil, Bool.not_true, Bool.false_and, Bool.false_eq_true, if_false]
  rw [hbody, dropEndWhile_append_of_last hpad]

/-- A line that is added to a closed block of several lines. -/
theorem addLine_append {front last line : List Char} (hc : b.closed = true)
    (hbody : b.body = front ++ '\n' :: last) (hn : '\n' ∉ last) :
    b.addLine line = if last.all isBlank = true then front ++ '\n' :: line ++ '\n' :: last
      else front ++ '\n' :: dropEndWhile Block.isPadding last ++ '\n' :: line ++ ['\n'] := by
  rw [Block.addLine, if_pos hc, hbody, cutLastLine_append_newline hn]
  have hne : (front ++ ['\n']).isEmpty = false := by simp
  simp only [hne, Bool.not_false, Bool.true_and]
  split
  · simp only [List.append_assoc, List.cons_append, List.nil_append]
  · rename_i hblank
    obtain ⟨c, hc, hcb⟩ : ∃ c ∈ last, Block.isPadding c = false := by
      have : ∃ c ∈ last, isBlank c = false := by simpa using hblank
      obtain ⟨c, hc, hcb⟩ := this
      refine ⟨c, hc, ?_⟩
      cases hp : Block.isPadding c with
      | false => rfl
      | true => exact absurd (isBlank_of_isPadding hp) (by simp [hcb])
    have := @dropEndWhile_append_of_exists Block.isPadding (front ++ ['\n']) last ⟨c, hc, hcb⟩
    rw [List.append_assoc, List.singleton_append] at this
    rw [this]
    simp only [List.append_assoc, List.cons_append, List.nil_append]

section

variable {stem : List Char} {z : Char}

theorem body_eq (hbody : splitOn '\n' b.body = (stem ++ [z] ++ top) :: more) :
    b.body = stem ++ [z] ++ top ++ Block.unlines more := by
  rw [← joinLines_splitOn b.body, hbody, joinLines]

/-- A field that a block has is set on its line. -/
theorem exists_edit_of_some (hl : Distinct b.lineLeader)
    (hbody : splitOn '\n' b.body = (stem ++ [z] ++ top) :: more)
    (hfirst : written? b.lineLeader f.keyText (stem ++ [z] ++ top) = none)
    {c : Cell} (hcell : b.cell? f = some c) (v : List Char) :
    ∃ more', Edit b f v top more top more' ∧
      c.front ++ v ++ c.back = stem ++ [z] ++ top ++ Block.unlines more' := by
  obtain ⟨L₁, front, back, L₂, hlines, hlacks, hopen, htail, hbare, hv⟩ :=
    exists_of_ofLines? hl hcell
  rw [hbody] at hlines
  cases L₁ with
  | nil =>
    -- the marker's line would hold the field
    have hline := (List.cons.inj hlines).1
    rw [List.append_assoc front] at hline
    rw [hline, hopen.written? hl hbare] at hfirst
    exact absurd hfirst (by simp)
  | cons first L₁ =>
    obtain ⟨rfl, rfl⟩ := List.cons.inj hlines
    refine ⟨_, .inPlace (lacks_cons_iff.mp hlacks).2 hopen htail hbare, ?_⟩
    rw [hv v, List.cons_append, joinLines]

/-- A field that a block lacks is set on a line of its own. -/
theorem exists_edit_of_lacks (hbody : splitOn '\n' b.body = (stem ++ [z] ++ top) :: more)
    (hz : isBlank z = false) (hlacks : Lacks b.lineLeader f more) (v : List Char) :
    ∃ top' more', Edit b f v top more top' more' ∧
      b.addLine (b.fieldLine f v) = stem ++ [z] ++ top' ++ Block.unlines more' := by
  have hjoin := body_eq hbody
  have hnl : ∀ line ∈ (stem ++ [z] ++ top) :: more, '\n' ∉ line := fun line hline =>
    notMem_of_mem_splitOn (hbody ▸ hline)
  cases hc : b.closed with
  | false =>
    refine ⟨top, _, .atEnd hc hlacks, ?_⟩
    simp [Block.addLine, hc, hjoin]
  | true =>
    rcases List.eq_nil_or_concat more with rfl | ⟨L, last, rfl⟩
    · -- the block has only the line of the marker
      obtain ⟨pad, hpad, htop⟩ := exists_isPadding_dropEndWhile top
      refine ⟨dropEndWhile Block.isPadding top, [b.fieldLine f v, []], ?_, ?_⟩
      · exact cast (by rw [← htop]) (@Edit.belowTop b f v _ pad hc hpad)
      · rw [unlines_nil, List.append_nil] at hjoin
        have hn : '\n' ∉ b.body := hjoin ▸ hnl _ (List.mem_cons_self ..)
        rw [addLine_single hc hz hjoin hn]
        simp only [unlines_cons, unlines_nil, List.append_assoc, List.cons_append,
          List.append_nil]
    · -- the delimiter stands on the last line, either alone or behind something that is kept
      rw [List.concat_eq_append] at hlacks hjoin hnl ⊢
      have hn : '\n' ∉ last := hnl last (by simp)
      have hfront : b.body = stem ++ [z] ++ top ++ Block.unlines L ++ '\n' :: last := by
        rw [hjoin]
        simp
      simp only [addLine_append hc hfront hn]
      split
      · rename_i hblank
        refine ⟨top, _, .aboveLast hc hlacks (all_isBlank_iff.mp hblank), ?_⟩
        simp
      · rename_i hblank
        obtain ⟨pad, hpad, hlast⟩ := exists_isPadding_dropEndWhile last
        refine ⟨top, L ++ [dropEndWhile Block.isPadding last, b.fieldLine f v, []], ?_, ?_⟩
        · rw [hlast] at hlacks
          have hkept : ¬ Blanks (dropEndWhile Block.isPadding last) := by
            intro hk
            refine hblank (all_isBlank_iff.mpr ?_)
            rw [hlast]
            exact hk.append fun c hc => isBlank_of_isPadding (hpad c hc)
          exact cast (by rw [← hlast]) (@Edit.belowLast b f v top _ pad L hc hlacks hkept hpad)
        · simp

theorem exists_edit (hl : Distinct b.lineLeader)
    (hbody : splitOn '\n' b.body = (stem ++ [z] ++ top) :: more) (hz : isBlank z = false)
    (hfirst : written? b.lineLeader f.keyText (stem ++ [z] ++ top) = none) (v : List Char) :
    ∃ top' more', Edit b f v top more top' more' ∧
      b.setBody f v = stem ++ [z] ++ top' ++ Block.unlines more' := by
  unfold Block.setBody
  cases hcell : b.cell? f with
  | some c => exact ⟨top, exists_edit_of_some hl hbody hfirst hcell v⟩
  | none =>
    refine exists_edit_of_lacks hbody hz ?_ v
    have hraw : b.raw? f = none := by rw [Block.raw?, hcell, Option.map_none]
    rw [Block.raw?_eq_valueIn, hbody, valueIn_eq_none_iff, lacks_cons_iff] at hraw
    exact hraw.2

end

/-! ## Inserted lines -/

/-- A block whose inserted lines start as its field lines may. -/
def Leads (b : Block) : Prop := Margin b.lineLeader (b.lead ++ ['@'])

theorem fieldLine_eq (b : Block) (f : Field) (v : List Char) :
    b.fieldLine f v = (b.lead ++ '@' :: f.keyText ++ [':', ' ']) ++ v := by
  simp [Block.fieldLine]

theorem Leads.opening (h : Leads b) (f : Field) :
    Opening b.lineLeader f (b.lead ++ '@' :: f.keyText ++ [':', ' ']) := by
  have hpad : Blanks [' '] := by
    intro c hc
    rw [List.mem_singleton.mp hc]
    decide
  have := @Opening.mk b.lineLeader f _ [] _ h blanks_nil hpad
  simpa using this

/-! ## Values

What inserted lines start with matters only where one is inserted: a field that is there is set on
its own line.
-/

variable (hl : Distinct b.lineLeader) (hlead : Lacks b.lineLeader f more → Leads b)
include hl hlead

/-- An edit sets its field. -/
theorem Edit.valueIn_self (hv : Whole v) (h : Edit b f v top more top' more') :
    valueIn b.lineLeader f more' = some v := by
  have hset : ∀ {front back : List Char} {L : List (List Char)}, Opening b.lineLeader f front →
      Tail back → valueIn b.lineLeader f ((front ++ v ++ back) :: L) = some v := by
    intro front back L hopen htail
    rw [List.append_assoc, valueIn_cons_of_some (hopen.written? hl hv.startsBare),
      bare_append hv htail]
  have hnew : Leads b → ∀ L, valueIn b.lineLeader f (b.fieldLine f v :: L) = some v := by
    intro hleads L
    have := @hset _ [] L (hleads.opening f) (.blanks blanks_nil)
    rwa [List.append_nil, ← fieldLine_eq] at this
  cases h with
  | inPlace hlacks hopen htail hbare =>
    rw [valueIn_append_of_lacks hlacks]
    exact hset hopen htail
  | aboveLast hc hlacks hlast =>
    rw [valueIn_append_of_lacks (lacks_append_iff.mp hlacks).1]
    exact hnew (hlead hlacks) _
  | @belowLast top kept pad L hc hlacks hkept hpad =>
    have hline := (lacks_append_iff.mp hlacks).2 _ (List.mem_singleton_self _)
    have hk : Lacks b.lineLeader f (L ++ [kept]) := by
      refine lacks_append_iff.mpr ⟨(lacks_append_iff.mp hlacks).1, ?_⟩
      refine lacks_cons_iff.mpr ⟨?_, lacks_nil⟩
      refine (written?_append_blanks hl (fun c hc => isBlank_of_isPadding (hpad c hc)) f).mp ?_
      exact hline
    -- what is cut off the last line is blank, so the line lacks the field without it too
    rw [List.append_cons, valueIn_append_of_lacks hk]
    exact hnew (hlead hlacks) _
  | belowTop hc hpad => exact hnew (hlead lacks_nil) _
  | atEnd hc hlacks =>
    rw [valueIn_append_of_lacks hlacks]
    exact hnew (hlead hlacks) _

/-- An edit leaves the other fields alone. -/
theorem Edit.valueIn_of_ne (hne : f ≠ g) (h : Edit b f v top more top' more') :
    valueIn b.lineLeader g more' = valueIn b.lineLeader g more := by
  have hnew : Leads b → written? b.lineLeader g.keyText (b.fieldLine f v) = none := by
    intro hleads
    rw [fieldLine_eq]
    exact (hleads.opening f).written?_of_ne hl hne
  have hnil : written? b.lineLeader g.keyText [] = none := written?_of_blanks hl blanks_nil g
  cases h with
  | @inPlace top front value back L₁ L₂ hlacks hopen htail hbare =>
    refine valueIn_append_congr ?_
    have hother : ∀ s : List Char, Lacks b.lineLeader g [front ++ s] := fun s =>
      lacks_cons_iff.mpr ⟨hopen.written?_of_ne hl hne, lacks_nil⟩
    rw [← List.singleton_append, ← @List.singleton_append _ (front ++ value ++ back),
      List.append_assoc, List.append_assoc, valueIn_append_of_lacks (hother _),
      valueIn_append_of_lacks (hother _)]
  | aboveLast hc hlacks hlast =>
    refine valueIn_append_congr ?_
    rw [← List.singleton_append]
    exact valueIn_append_of_lacks (lacks_cons_iff.mpr ⟨hnew (hlead hlacks), lacks_nil⟩)
  | @belowLast top kept pad L hc hlacks hkept hpad =>
    refine valueIn_append_congr ?_
    rw [← List.singleton_append, valueIn_append_left_of_lacks]
    · exact (valueIn_append_blanks hl (fun c hc => isBlank_of_isPadding (hpad c hc)) g).symm
    · exact lacks_cons_iff.mpr ⟨hnew (hlead hlacks), lacks_cons_iff.mpr ⟨hnil, lacks_nil⟩⟩
  | belowTop hc hpad =>
    exact valueIn_eq_none_iff.mpr
      (lacks_cons_iff.mpr ⟨hnew (hlead lacks_nil), lacks_cons_iff.mpr ⟨hnil, lacks_nil⟩⟩)
  | atEnd hc hlacks =>
    exact valueIn_append_left_of_lacks (lacks_cons_iff.mpr ⟨hnew (hlead hlacks), lacks_nil⟩)

omit hl hlead

/-! ## Lines -/

/-- An edit keeps the number of lines after the marker's, or adds to them if the field is not
there. -/
theorem Edit.length_le (hl : Distinct b.lineLeader) (h : Edit b f v top more top' more') :
    more.length ≤ more'.length ∧ (Lacks b.lineLeader f more → more.length < more'.length) := by
  cases h with
  | @inPlace top front value back L₁ L₂ hlacks hopen htail hbare =>
    refine ⟨by simp, fun hno => ?_⟩
    have hline := (lacks_cons_iff.mp (lacks_append_iff.mp hno).2).1
    rw [List.append_assoc, hopen.written? hl hbare] at hline
    exact absurd hline (by simp)
  | aboveLast hc hlacks hlast => simp
  | belowLast hc hlacks hkept hpad => simp
  | belowTop hc hpad => simp
  | atEnd hc hlacks => simp

/-- A field that is not there stays away, if it is not found where a line is inserted. -/
theorem Edit.lacks (hl : Distinct b.lineLeader)
    (hnew : written? b.lineLeader g.keyText (b.fieldLine f v) = none)
    (hmore : Lacks b.lineLeader g more) (h : Edit b f v top more top' more') :
    Lacks b.lineLeader g more' := by
  have hnil : written? b.lineLeader g.keyText [] = none := written?_of_blanks hl blanks_nil g
  cases h with
  | @inPlace top front value back L₁ L₂ hlacks hopen htail hbare =>
    obtain ⟨h₁, h₂⟩ := lacks_append_iff.mp hmore
    obtain ⟨hline, h₂⟩ := lacks_cons_iff.mp h₂
    have hne : f ≠ g := by
      rintro rfl
      rw [List.append_assoc, hopen.written? hl hbare] at hline
      exact absurd hline (by simp)
    refine lacks_append_iff.mpr ⟨h₁, lacks_cons_iff.mpr ⟨?_, h₂⟩⟩
    rw [List.append_assoc]
    exact hopen.written?_of_ne hl hne
  | aboveLast hc hlacks hlast =>
    obtain ⟨h₁, h₂⟩ := lacks_append_iff.mp hmore
    exact lacks_append_iff.mpr ⟨h₁, lacks_cons_iff.mpr ⟨hnew, h₂⟩⟩
  | belowLast hc hlacks hkept hpad =>
    obtain ⟨h₁, h₂⟩ := lacks_append_iff.mp hmore
    have hline := written?_of_append hl (lacks_cons_iff.mp h₂).1
    refine lacks_append_iff.mpr ⟨h₁, lacks_cons_iff.mpr ⟨hline, ?_⟩⟩
    exact lacks_cons_iff.mpr ⟨hnew, lacks_cons_iff.mpr ⟨hnil, lacks_nil⟩⟩
  | belowTop hc hpad => exact lacks_cons_iff.mpr ⟨hnew, lacks_cons_iff.mpr ⟨hnil, lacks_nil⟩⟩
  | atEnd hc hlacks => exact lacks_append_iff.mpr ⟨hmore, lacks_cons_iff.mpr ⟨hnew, lacks_nil⟩⟩

end EditGate
