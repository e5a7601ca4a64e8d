import EditGate.Proofs.Metadata.ReadBack

/-!
# Fields as cells

The fields of a block can be written and read one by one, although they all live in the lines of one
comment. A value is put between the same two texts whatever it is, on a line that is there or on one
that is added (`Block.Place`). The first line that holds the field is then that line, so the next
value takes the place of this one (`Block.Place.setBody_setBody`), and the lines of the other fields
are as they were (`Located.set`). What is extracted from a text is a function of its fields one by
one (`declared`), so a value that makes no sense is missing in its own place only
(`fields_independent`).
-/

namespace EditGate

open Text Cell

variable {text lead v front back line : List Char} {f : Field} {b : Block}
  {above below : List (List Char)} {l : Option (List Char)}

/-! ## The place of a value -/

theorem joinLines_append_cons (above below : List (List Char)) (line : List Char) :
    joinLines (above ++ line :: below) =
      above.flatMap (· ++ ['\n']) ++ line ++ Block.unlines below := by
  induction above with
  | nil => rfl
  | cons first above ih =>
    rw [List.cons_append, joinLines, ← newline_joinLines (by simp), ih, List.flatMap_cons]
    simp only [List.append_assoc, List.cons_append, List.nil_append]

/-- Another line below some text. -/
theorem joinLines_splitOn_cons (s line : List Char) (below : List (List Char)) :
    joinLines (splitOn '\n' s ++ line :: below) = s ++ '\n' :: line ++ Block.unlines below := by
  obtain ⟨top, more, hsplit⟩ := List.exists_cons_of_ne_nil (splitOn_ne_nil '\n' s)
  have hs := unlines_of_splitOn hsplit
  rw [hsplit, List.cons_append, joinLines, unlines_append, unlines_cons, ← List.append_assoc top,
    hs, List.append_assoc]

theorem lacks_splitOn_of_prefix {s t : List Char} (hl : Distinct l) (hp : s <+: t)
    (h : Lacks l f (splitOn '\n' t)) : Lacks l f (splitOn '\n' s) := by
  obtain ⟨u, rfl⟩ := hp
  obtain ⟨front, last, first, rest, hcut, hcut'⟩ := exists_splitOn_append '\n' s u
  rw [hcut', lacks_append_iff, lacks_cons_iff] at h
  rw [hcut, lacks_append_iff, lacks_cons_iff]
  exact ⟨h.1, written?_of_append hl h.2.1, lacks_nil⟩

/-- A line is added between the lines of some first part of the body and at most one more. -/
theorem exists_addLine (b : Block) :
    ∃ s below, s <+: b.body ∧ (∀ other ∈ below, '\n' ∉ other) ∧
      ∀ line, b.addLine line = joinLines (splitOn '\n' s ++ line :: below) := by
  -- a delimiter that shares its line moves down, whether that is the line of the marker or not
  have hbelow : ∃ s below, s <+: b.body ∧ (∀ other ∈ below, '\n' ∉ other) ∧
      ∀ line, dropEndWhile Block.isPadding b.body ++ '\n' :: line ++ ['\n'] =
        joinLines (splitOn '\n' s ++ line :: below) := by
    obtain ⟨pad, -, hbody⟩ := exists_isPadding_dropEndWhile b.body
    refine ⟨dropEndWhile Block.isPadding b.body, [[]], ⟨pad, hbody.symm⟩, by simp, fun line => ?_⟩
    rw [joinLines_splitOn_cons]
    rfl
  cases hc : b.closed with
  | false =>
    refine ⟨b.body, [], List.prefix_refl _, by simp, fun line => ?_⟩
    rw [joinLines_splitOn_cons, Block.addLine, hc]
    simp
  | true =>
    rcases cutLastLine_cases b.body with ⟨hn, hcut⟩ | ⟨front, last, hn, hbody, hcut⟩
    · simpa only [Block.addLine, hc, hcut, if_true, List.isEmpty_nil, Bool.not_true,
        Bool.false_and, Bool.false_eq_true, if_false] using hbelow
    · by_cases hlast : last.all isBlank = true
      · refine ⟨front, [last], ⟨'\n' :: last, hbody.symm⟩, by simpa using hn, fun line => ?_⟩
        rw [joinLines_splitOn_cons, addLine_append hc hbody hn, if_pos hlast]
        simp
      · have hshared : ∀ line, b.addLine line =
            dropEndWhile Block.isPadding b.body ++ '\n' :: line ++ ['\n'] := fun line => by
          simp only [Block.addLine, hc, hcut, if_true, hlast, Bool.and_false, Bool.false_eq_true,
            if_false]
        simpa only [hshared] using hbelow

/-- Where a value of a field stands, or is put: behind `front` and before `back` on a line of its
own, below lines that do not hold the field. -/
structure Block.Place (b : Block) (f : Field) (above : List (List Char)) (front back : List Char)
    (below : List (List Char)) : Prop where
  lacks : Lacks b.lineLeader f above
  opening : Opening b.lineLeader f front
  tail : Tail back
  newline_notMem : '\n' ∉ front ++ back
  lines : ∀ line ∈ above ++ below, '\n' ∉ line
  setBody : ∀ v, b.setBody f v = joinLines (above ++ (front ++ v ++ back) :: below)

theorem exists_place (hl : Distinct b.lineLeader) (hn : '\n' ∉ b.lead)
    (hlead : b.raw? f = none → Leads b) :
    ∃ above front back below, b.Place f above front back below := by
  have hlines : ∀ s : List Char, ∀ line ∈ splitOn '\n' s, '\n' ∉ line := fun s line hline =>
    notMem_of_mem_splitOn hline
  cases hcell : b.cell? f with
  | some c =>
    obtain ⟨above, front, back, below, hbody, hlacks, hopen, htail, -, hset⟩ :=
      exists_of_ofLines? hl hcell
    have hall := hlines b.body
    rw [hbody, List.forall_mem_append, List.forall_mem_cons] at hall
    obtain ⟨habove, hline, hbelow⟩ := hall
    refine ⟨above, front, back, below, hlacks, hopen, htail, ?_,
      List.forall_mem_append.mpr ⟨habove, hbelow⟩, fun v => ?_⟩
    · simp only [List.mem_append, not_or] at hline ⊢
      exact ⟨hline.1.1, hline.2⟩
    · rw [Block.setBody, hcell]
      exact hset v
  | none =>
    -- a field that is not there gets a line of its own, with nothing behind its value
    have hraw : b.raw? f = none := by rw [Block.raw?, hcell, Option.map_none]
    have hlacks := hraw
    rw [Block.raw?_eq_valueIn, valueIn_eq_none_iff] at hlacks
    have hkey : '\n' ∉ f.keyText := fun hm => absurd (Field.of_mem_keyText hm).1 (by decide)
    obtain ⟨s, below, hs, hbelow, hadd⟩ := exists_addLine b
    refine ⟨splitOn '\n' s, b.lead ++ '@' :: f.keyText ++ [':', ' '], [], below,
      lacks_splitOn_of_prefix hl hs hlacks, (hlead hraw).opening f, .blanks blanks_nil, ?_,
      List.forall_mem_append.mpr ⟨hlines s, hbelow⟩, fun v => ?_⟩
    · simp [hn, hkey]
    · rw [Block.setBody, hcell, fieldLine_eq, List.append_nil]
      exact hadd _

/-! ## The next value -/

theorem ofLines?_append (hlacks : Lacks l f above) {c : Cell}
    (hline : ofLine? l f.keyText line = some c) :
    ofLines? l f.keyText (above ++ line :: below) =
      some ⟨above.flatMap (· ++ ['\n']) ++ c.front, c.value, c.back ++ Block.unlines below⟩ := by
  induction above with
  | nil => rw [List.nil_append, ofLines?, hline, List.flatMap_nil, List.nil_append]
  | cons first above ih =>
    obtain ⟨hfirst, habove⟩ := lacks_cons_iff.mp hlacks
    have hnone : ofLine? l f.keyText first = none := by rw [ofLine?, hfirst, Option.map_none]
    rw [List.cons_append, ofLines?, hnone, ih habove, Option.map_some]
    simp

/-- A value that was put in its place is replaced there by the next one. -/
theorem Block.Place.setBody_setBody (h : b.Place f above front back below)
    (hl : Distinct b.lineLeader) (hv : Whole v) (hvn : '\n' ∉ v) (v' : List Char) :
    Block.setBody { b with body := b.setBody f v } f v' = b.setBody f v' := by
  have hlines : ∀ line ∈ above ++ (front ++ v ++ back) :: below, '\n' ∉ line := by
    obtain ⟨habove, hbelow⟩ := List.forall_mem_append.mp h.lines
    refine List.forall_mem_append.mpr ⟨habove, List.forall_mem_cons.mpr ⟨?_, hbelow⟩⟩
    have hends := h.newline_notMem
    simp only [List.mem_append, not_or] at hends ⊢
    exact ⟨⟨hends.1, hvn⟩, hends.2⟩
  have hline : ofLine? b.lineLeader f.keyText (front ++ v ++ back) = some ⟨front, v, back⟩ := by
    rw [ofLine?, List.append_assoc, h.opening.written? hl hv.startsBare]
    simp [bare_append hv h.tail]
  have hcell : Block.cell? { b with body := b.setBody f v } f =
      some ⟨above.flatMap (· ++ ['\n']) ++ front, v, back ++ Block.unlines below⟩ := by
    rw [Block.cell?, h.setBody, splitOn_joinLines (by simp) hlines]
    exact ofLines?_append h.lacks hline
  rw [Block.setBody, hcell, h.setBody v', joinLines_append_cons]
  simp only [List.append_assoc]

/-- The last of two values that are set is the one that stays. -/
theorem Located.setField_setField (h : Located lead text b) (hlead : b.raw? f = none → Leads b)
    (hv : IsValue v) (v' : List Char) :
    setField (setField text f v) f v' = setField text f v' := by
  obtain ⟨above, front, back, below, hplace⟩ :=
    exists_place h.clear.distinct h.clear.newline_notMem hlead
  have hset := (h.set hlead hv).1
  have hnext := hplace.setBody_setBody h.clear.distinct hv.whole hv.newline_notMem v'
  have hstep : ∀ w, setField text f w = b.set f w := fun w => by rw [setField, h.locate?]
  rw [hstep, setField, hset.locate?, hstep]
  simp only [Block.set, hnext]

/-! ## What fields declare -/

namespace Metadata

/-- A value without blanks and quotes around it, as a string. -/
def word (v : List Char) : String := String.ofList (unquote v)

/-- The entry of a slot that the values of its fields claim. -/
def entryOf (raw : Field → Option (List Char)) (slot : Approval.Slot) : Approval.Entry where
  approved := (raw (.approved slot)).map word = some "true"
  approvedBy := (raw (.approvedBy slot)).map word
  approvedDate := (raw (.approvedDate slot)).map word

def statusOf (raw : Field → Option (List Char)) : Approval.Status where
  dev := entryOf raw .dev
  codeReview := entryOf raw .codeReview
  qa := entryOf raw .qa

/-- Whether any field of a slot has a value. -/
def claimsAny (raw : Field → Option (List Char)) : Bool :=
  Approval.Slot.all.any fun slot => (raw (.approved slot)).isSome ||
    (raw (.approvedBy slot)).isSome || (raw (.approvedDate slot)).isSome

/-- The metadata that the values of the fields declare. -/
def declared (raw : Field → Option (List Char)) : Metadata where
  stability := (raw .stability).bind fun v => Enumerated.ofWord? (word v)
  editPermissions := (raw .editPermissions).bind fun v => Enumerated.ofWord? (word v)
  methodPermissions := (raw .methodPermissions).bind fun v => (readPermissions v).toOption
  breakingChangesRisk := (raw .breakingChangesRisk).bind fun v => Enumerated.ofWord? (word v)
  reviewRequired := (raw .reviewRequired).map word = some "true"
  aiContext := (raw .aiContext).map word
  lastModified := (raw .lastModified).map word
  dependencies := (raw .dependencies).bind readList?
  tests := (raw .tests).bind readList?
  approvals := if claimsAny raw = true then some (statusOf raw) else none

theorem permissions_fst (b : Block) (subject : Option String) :
    (permissions b subject).1 =
      (b.raw? .methodPermissions).bind fun v => (readPermissions v).toOption := by
  unfold permissions
  cases b.raw? .methodPermissions with
  | none => rfl
  | some v =>
    rw [Option.bind_some]
    dsimp only
    cases readPermissions v <;> rfl

/-- The metadata of a block is what its fields declare. -/
theorem ofBlock_fst (b : Block) (subject : Option String) :
    (ofBlock b subject).1 = declared b.raw? := by
  have hscalar : ∀ f, scalar? b f = (b.raw? f).map word := fun f => rfl
  have henumerated : ∀ (α : Type) [Enumerated α] (f : Field), (enumerated α b subject f).1 =
      (b.raw? f).bind fun v => Enumerated.ofWord? (word v) := fun α _ f => by
    rw [enumerated_fst, hscalar, Option.bind_map]
    rfl
  simp only [ofBlock, henumerated, permissions_fst, hscalar]
  rfl

/-- Metadata with the entry of a slot changed. -/
def withEntry (m : Metadata) (slot : Approval.Slot)
    (change : Approval.Entry → Approval.Entry) : Metadata :=
  let status := m.approvals.getD {}
  { m with approvals := some (status.setEntry slot (change (status.entry slot))) }

/-- Metadata with one field as a value of it declares it. A value that makes no sense leaves the
field out. -/
def withValue (m : Metadata) (f : Field) (v : List Char) : Metadata :=
  match f with
  | .stability => { m with stability := Enumerated.ofWord? (word v) }
  | .editPermissions => { m with editPermissions := Enumerated.ofWord? (word v) }
  | .methodPermissions => { m with methodPermissions := (readPermissions v).toOption }
  | .breakingChangesRisk => { m with breakingChangesRisk := Enumerated.ofWord? (word v) }
  | .reviewRequired => { m with reviewRequired := word v = "true" }
  | .aiContext => { m with aiContext := some (word v) }
  | .lastModified => { m with lastModified := some (word v) }
  | .dependencies => { m with dependencies := readList? v }
  | .tests => { m with tests := readList? v }
  | .approved slot => m.withEntry slot fun e => { e with approved := word v = "true" }
  | .approvedBy slot => m.withEntry slot fun e => { e with approvedBy := some (word v) }
  | .approvedDate slot => m.withEntry slot fun e => { e with approvedDate := some (word v) }

/-- Without a value in any of its fields a slot is empty. -/
theorem getD_approvals_declared (raw : Field → Option (List Char)) :
    (declared raw).approvals.getD {} = statusOf raw := by
  by_cases hclaims : claimsAny raw = true
  · simp only [declared, hclaims, if_true, Option.getD_some]
  · have hnone : ∀ slot, raw (.approved slot) = none ∧ raw (.approvedBy slot) = none ∧
        raw (.approvedDate slot) = none := fun slot => by
      have hany := Bool.not_eq_true _ ▸ hclaims
      rw [claimsAny, List.any_eq_false] at hany
      have hslot := hany slot slot.mem_all
      simpa [and_assoc] using hslot
    simp only [declared, hclaims, if_false, Option.getD_none, Bool.false_eq_true, statusOf, entryOf,
      hnone]
    rfl

/-- A value for one field changes what that field declares. -/
theorem declared_set (raw : Field → Option (List Char)) (f : Field) (v : List Char) :
    declared (fun g => if g = f then some v else raw g) = (declared raw).withValue f v := by
  have hstatus := getD_approvals_declared raw
  cases f with
  | approved slot | approvedBy slot | approvedDate slot =>
    simp only [withValue, withEntry, hstatus]
    cases slot <;>
      simp [declared, claimsAny, Approval.Slot.all, statusOf, entryOf, Approval.Status.setEntry,
        Approval.Status.entry]
  | _ => simp [declared, withValue, claimsAny, statusOf, entryOf]

/-! ## The main result -/

/-- The value of a field of a text, as it stands in its block. -/
def valueOf? (text : List Char) (f : Field) : Option (List Char) :=
  (Block.locate? text).bind (·.raw? f)

/-- The fields of a documented text are independent: a value that is set is found as it is, the
values of the other fields are as before, and of two values that are set one after the other the
last one stays. What is extracted is what was extracted before but for the field that is set, which
is missing if its value makes no sense. -/
theorem fields_independent (text v : List Char) (f : Field) (hd : Documented text)
    (hv : IsValue v) :
    (marker <:+: text → valueOf? (setField text f v) f = some v) ∧
      (∀ g, g ≠ f → valueOf? (setField text f v) g = valueOf? text g) ∧
      (∀ v', setField (setField text f v) f v' = setField text f v') ∧
      extract (setField text f v) = (extract text).map (·.withValue f v) := by
  cases hloc : Block.locate? text with
  | none =>
    have hsame : ∀ w, setField text f w = text := fun w => by rw [setField, hloc]
    have hmissing := locate?_eq_none_iff.mp hloc
    simp only [hsame]
    refine ⟨fun hm => absurd hm hmissing, fun _ _ => trivial, fun _ => trivial, ?_⟩
    rw [extract_of_locate?_eq_none hloc, Option.map_none]
  | some b =>
    obtain ⟨lead, hb, -, hleads⟩ := hd.exists_located hloc
    obtain ⟨hset, hraw⟩ := hb.set (f := f) (fun _ => hleads) hv
    have hstep : setField text f v = b.set f v := by rw [setField, hloc]
    have hfound : ∀ g, valueOf? (setField text f v) g = if g = f then some v else b.raw? g := by
      intro g
      rw [hstep, valueOf?, hset.locate?, Option.bind_some, hraw]
    refine ⟨fun _ => ?_, fun g hne => ?_, fun v' => ?_, ?_⟩
    · rw [hfound, if_pos rfl]
    · rw [hfound, if_neg hne, valueOf?, hloc, Option.bind_some]
    · exact hb.setField_setField (fun _ => hleads) hv v'
    · rw [hstep, extract_of_locate? hset.locate?, extract_of_locate? hloc, Option.map_some,
        ofBlock_fst, ofBlock_fst, funext hraw, declared_set]

/-- A value with a slash at its start and a star at its end, on a line that is added above a
delimiter that shared the line before. It writes no permissions, but the field before it is read. -/
theorem fields_independent_sample :
    let text := "/* x\n * @ai-metadata\n * @stability: stable */\nfn main\n".toList
    let v := "/\x7b generate: read-only *".toList
    let text' := setField text .methodPermissions v
    Documented text ∧ IsValue v ∧ valueOf? text' .methodPermissions = some v ∧
      valueOf? text' .stability = valueOf? text .stability ∧
      setField text' .methodPermissions ['x'] = setField text .methodPermissions ['x'] ∧
      extract text' = some { stability := some .stable } := by
  intro text v text'
  have hm : Marked text "/* x\n".toList " * ".toList
      "\n * @stability: stable */\nfn main\n".toList := ⟨by decide, by decide⟩
  have hd : Documented text := hm.documented (.inr (.inr (.inl (by decide))))
  have hv : IsValue v := ⟨by decide, by decide, cutAt?_eq_none_iff.mp (by decide), by decide⟩
  have hmarker : marker <:+: text := isSome_cutAt?_iff.mp (by decide)
  obtain ⟨hself, hother, hlast, hextract⟩ :=
    fields_independent text v .methodPermissions hd hv
  refine ⟨hd, hv, hself hmarker, hother .stability (by decide), hlast _, ?_⟩
  rw [hextract]
  decide +kernel

end Metadata

end EditGate
