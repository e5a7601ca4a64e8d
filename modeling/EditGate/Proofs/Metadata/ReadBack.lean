import EditGate.Proofs.Metadata.Update

/-!
# Updates without free text

A patch that sets only enumerated fields and the review flag writes plain values, one for each
field. What is extracted from the updated text is therefore what was extracted before with the
patched fields and the time replaced (`update_reads_back`), for documented texts with or without a
block.
-/

namespace EditGate

namespace Metadata

open Text Cell

variable {text : List Char} {time : String} {p : Patch} {b c : Block} {f g : Field}

/-! ## Plain patches -/

/-- A number of seconds with the letter that ends it. -/
def IsStamp (time : String) : Prop :=
  ∃ digits : List Char, time = String.ofList (digits ++ ['Z']) ∧ ∀ c ∈ digits, c.isDigit = true

/-- A patch that sets no free text. -/
structure Patch.IsPlain (p : Patch) : Prop where
  methodPermissions : p.methodPermissions = none
  aiContext : p.aiContext = none
  dependencies : p.dependencies = none
  tests : p.tests = none

/-- Metadata with the fields of a patch and the time. -/
def Patch.applyTo (p : Patch) (time : String) (m : Metadata) : Metadata :=
  { m with
    stability := p.stability.or m.stability
    editPermissions := p.editPermissions.or m.editPermissions
    breakingChangesRisk := p.breakingChangesRisk.or m.breakingChangesRisk
    reviewRequired := p.reviewRequired.getD m.reviewRequired
    lastModified := some time }

theorem plain_of_all {v : List Char} (h : v ≠ []) (hall : v.all (fun c => !isBlank c &&
    !isQuote c && c != '*' && c != '/') = true) : Plain v := by
  refine ⟨h, fun c hc => ?_⟩
  have := List.all_eq_true.mp hall c hc
  simpa [and_assoc] using this

theorem plain_stability (a : Stability) : Plain a.word.toList := by
  cases a <;> exact plain_of_all (by decide) (by decide)

theorem plain_editPermission (a : EditPermission) : Plain a.word.toList := by
  cases a <;> exact plain_of_all (by decide) (by decide)

theorem plain_riskLevel (a : RiskLevel) : Plain a.word.toList := by
  cases a <;> exact plain_of_all (by decide) (by decide)

theorem plain_writeBool (a : Bool) : Plain (writeBool a).toList := by
  cases a <;> exact plain_of_all (by decide) (by decide)

theorem IsStamp.plain (h : IsStamp time) : Plain time.toList := by
  obtain ⟨digits, rfl, hdigits⟩ := h
  rw [String.toList_ofList]
  refine ⟨by simp, fun c hc => ?_⟩
  rcases List.mem_append.mp hc with hc | hc
  · have hd := hdigits c hc
    simp only [Char.isDigit, Bool.and_eq_true, decide_eq_true_eq, UInt32.le_iff_toNat_le] at hd
    have h0 : ('0'.val.toNat) = 48 := rfl
    have h9 : ('9'.val.toNat) = 57 := rfl
    have hval : c.toNat = c.val.toNat := rfl
    have hne : ∀ e : Char, e.toNat < 48 ∨ 57 < e.toNat → c ≠ e := by
      rintro e he rfl
      omega
    refine ⟨?_, ?_, hne _ (by decide), hne _ (by decide)⟩
    · simp only [isBlank, Bool.or_eq_false_iff, Bool.and_eq_false_iff, decide_eq_false_iff_not,
        beq_eq_false_iff_ne]
      omega
    · simp [isQuote, hne '"' (by decide), hne '\x27' (by decide), hne '\x60' (by decide)]
  · rw [List.mem_singleton.mp hc]
    decide

/-! ## Entries -/

theorem map_fst_entry {α : Type} (f : Field) (write : α → String) (a : Option α) :
    ((Patch.entry f write a).map Prod.fst).Sublist [f] := by
  cases a with
  | none => exact List.nil_sublist _
  | some a => exact List.Sublist.refl _

/-- A patch sets each field once. -/
theorem nodup_entries (p : Patch) (time : String) :
    ((p.entries ++ [(Field.lastModified, time)]).map Prod.fst).Nodup := by
  have hsub : ((p.entries ++ [(Field.lastModified, time)]).map Prod.fst).Sublist
      ([.stability] ++ [.editPermissions] ++ [.methodPermissions] ++ [.breakingChangesRisk] ++
        [.reviewRequired] ++ [.aiContext] ++ [.dependencies] ++ [.tests] ++ [.lastModified]) := by
    simp only [Patch.entries, List.map_append]
    repeat' apply List.Sublist.append
    all_goals first
      | exact map_fst_entry _ _ _
      | exact List.Sublist.refl _
  exact hsub.nodup (by decide)

theorem mem_entry {α : Type} {f : Field} {write : α → String} {a : Option α}
    {e : Field × String} (h : e ∈ Patch.entry f write a) : ∃ x, a = some x ∧ e = (f, write x) := by
  cases a with
  | none => simp [Patch.entry] at h
  | some x => exact ⟨x, rfl, by simpa [Patch.entry] using h⟩

theorem Patch.IsPlain.entries (hp : p.IsPlain) (ht : IsStamp time) :
    ∀ e ∈ p.entries ++ [(Field.lastModified, time)], Writable e.2.toList := by
  intro e he
  simp only [Patch.entries, hp.methodPermissions, hp.aiContext, hp.dependencies, hp.tests,
    List.mem_append, List.mem_singleton] at he
  rcases he with (((((((he | he) | he) | he) | he) | he) | he) | he) | rfl
  · obtain ⟨x, -, rfl⟩ := mem_entry he
    exact (plain_stability x).writable
  · obtain ⟨x, -, rfl⟩ := mem_entry he
    exact (plain_editPermission x).writable
  · simp [Patch.entry] at he
  · obtain ⟨x, -, rfl⟩ := mem_entry he
    exact (plain_riskLevel x).writable
  · obtain ⟨x, -, rfl⟩ := mem_entry he
    exact (plain_writeBool x).writable
  · simp [Patch.entry] at he
  · simp [Patch.entry] at he
  · simp [Patch.entry] at he
  · exact ht.plain.writable

theorem entryValue_append (xs ys : List (Field × String)) (g : Field) :
    entryValue (xs ++ ys) g = (entryValue xs g).or (entryValue ys g) := by
  simp [entryValue, List.find?_append, Option.map_or]

theorem entryValue_entry {α : Type} (f : Field) (write : α → String) (a : Option α) (g : Field) :
    entryValue (Patch.entry f write a) g =
      if f = g then a.map fun x => (write x).toList else none := by
  cases a with
  | none => simp [Patch.entry, entryValue]
  | some x => by_cases h : f = g <;> simp [Patch.entry, entryValue, h]

/-! ## Extracted metadata -/

theorem scalar?_congr (h : c.raw? f = b.raw? f) : scalar? c f = scalar? b f := by
  rw [scalar?, h, scalar?]

theorem scalar?_of_plain {v : List Char} (h : c.raw? f = some v) (hv : Plain v) :
    scalar? c f = some (String.ofList v) := by
  rw [scalar?, h, Option.map_some, hv.unquote]

theorem enumerated_fst (α : Type) [Enumerated α] (b : Block) (subject : Option String)
    (f : Field) : (enumerated α b subject f).1 = (scalar? b f).bind Enumerated.ofWord? := by
  unfold enumerated
  cases scalar? b f with
  | none => rfl
  | some s =>
    simp only [Option.bind_some]
    cases h : Enumerated.ofWord? (α := α) s <;> rfl

/-- The subject is for notices only. -/
theorem extractWith_fst (text : List Char) (subject : Option String) :
    (extractWith text subject).1 = extract text := by
  have hpermissions : ∀ b, (permissions b subject).1 = (permissions b none).1 := by
    intro b
    unfold permissions
    cases b.raw? .methodPermissions with
    | none => rfl
    | some raw =>
      dsimp only
      cases readPermissions raw <;> rfl
  rw [extract, extractWith, extractWith]
  cases Block.locate? text with
  | none => rfl
  | some b => simp only [ofBlock, enumerated_fst, hpermissions]

/-- An enumerated field that is set to a value reads as that value. -/
theorem enumerated_or {α : Type} [Enumerated α] {a : Option α} {subject : Option String}
    (hplain : ∀ x : α, Plain (Enumerated.word x).toList)
    (hword : ∀ x : α, Enumerated.ofWord? (Enumerated.word x) = some x)
    (h : c.raw? f = (a.map fun x => (Enumerated.word x).toList).or (b.raw? f)) :
    (enumerated α c subject f).1 = a.or (enumerated α b subject f).1 := by
  rw [enumerated_fst, enumerated_fst]
  cases a with
  | none => rw [scalar?_congr h, Option.none_or]
  | some x =>
    rw [scalar?_of_plain h (hplain x), String.ofList_toList, Option.bind_some, hword,
      Option.some_or]

theorem permissions_congr {subject : Option String}
    (h : c.raw? .methodPermissions = b.raw? .methodPermissions) :
    permissions c subject = permissions b subject := by
  rw [permissions, h, permissions]

theorem claimedApprovals_congr
    (h : ∀ s, c.raw? (.approved s) = b.raw? (.approved s) ∧
      c.raw? (.approvedBy s) = b.raw? (.approvedBy s) ∧
      c.raw? (.approvedDate s) = b.raw? (.approvedDate s)) :
    claimedApprovals c = claimedApprovals b := by
  have hclaims : claims c = claims b := by
    funext s
    rw [claims, (h s).1, (h s).2.1, (h s).2.2, claims]
  have hentry : claimedEntry c = claimedEntry b := by
    funext s
    rw [claimedEntry, scalar?_congr (h s).1, scalar?_congr (h s).2.1, scalar?_congr (h s).2.2,
      claimedEntry]
  rw [claimedApprovals, hclaims, hentry, claimedApprovals]

/-- The flag is set by its word. -/
theorem reviewRequired_or {a : Option Bool}
    (h : c.raw? f = (a.map fun x => (writeBool x).toList).or (b.raw? f)) :
    decide (scalar? c f = some "true") = a.getD (decide (scalar? b f = some "true")) := by
  cases a with
  | none => rw [scalar?_congr h, Option.getD_none]
  | some x =>
    rw [scalar?_of_plain h (plain_writeBool x), String.ofList_toList, Option.getD_some]
    cases x <;> decide

theorem ofWord?_stability (x : Stability) :
    Enumerated.ofWord? (Enumerated.word x) = some x := by
  cases x <;> decide +kernel

theorem ofWord?_editPermission (x : EditPermission) :
    Enumerated.ofWord? (Enumerated.word x) = some x := by
  cases x <;> decide +kernel

theorem ofWord?_riskLevel (x : RiskLevel) :
    Enumerated.ofWord? (Enumerated.word x) = some x := by
  cases x <;> decide +kernel

/-- What a plain patch and a time write, field by field. -/
theorem entryValue_plain (hp : p.IsPlain) (time : String) (g : Field) :
    entryValue (p.entries ++ [(Field.lastModified, time)]) g =
      match g with
      | .stability => p.stability.map fun x => x.word.toList
      | .editPermissions => p.editPermissions.map fun x => x.word.toList
      | .breakingChangesRisk => p.breakingChangesRisk.map fun x => x.word.toList
      | .reviewRequired => p.reviewRequired.map fun x => (writeBool x).toList
      | .lastModified => some time.toList
      | _ => none := by
  have htime : entryValue [(Field.lastModified, time)] g =
      if Field.lastModified = g then some time.toList else none := by
    simp [entryValue]
  rw [entryValue_append, htime]
  cases g <;> simp [Patch.entries, entryValue_append, entryValue_entry, hp.methodPermissions,
    hp.aiContext, hp.dependencies, hp.tests]

/-- A block that has the values of a plain patch, and those of another block besides, declares
the metadata of that block with the patch applied. -/
theorem ofBlock_applyTo (hp : p.IsPlain) (ht : IsStamp time)
    (h : ∀ g, c.raw? g = (entryValue (p.entries ++ [(.lastModified, time)]) g).or (b.raw? g)) :
    (ofBlock c none).1 = p.applyTo time (ofBlock b none).1 := by
  simp only [entryValue_plain hp] at h
  have hmethods : c.raw? .methodPermissions = b.raw? .methodPermissions := h .methodPermissions
  have hcontext : c.raw? .aiContext = b.raw? .aiContext := h .aiContext
  have hdependencies : c.raw? .dependencies = b.raw? .dependencies := h .dependencies
  have htests : c.raw? .tests = b.raw? .tests := h .tests
  have htime : c.raw? .lastModified = some time.toList := h .lastModified
  have happrovals : claimedApprovals c = claimedApprovals b :=
    claimedApprovals_congr fun s => ⟨h (.approved s), h (.approvedBy s), h (.approvedDate s)⟩
  simp only [ofBlock, Patch.applyTo,
    enumerated_or plain_stability ofWord?_stability (h .stability),
    enumerated_or plain_editPermission ofWord?_editPermission (h .editPermissions),
    enumerated_or plain_riskLevel ofWord?_riskLevel (h .breakingChangesRisk),
    permissions_congr hmethods, reviewRequired_or (h .reviewRequired), scalar?_congr hcontext,
    scalar?_of_plain htime ht.plain, hdependencies, htests, happrovals, String.ofList_toList]

/-! ## Updated texts -/

theorem extract_of_locate? (h : Block.locate? text = some b) :
    extract text = some (ofBlock b none).1 := by
  simp [extract, extractWith, h]

theorem extract_of_locate?_eq_none (h : Block.locate? text = none) : extract text = none := by
  simp [extract, extractWith, h]

/-- A block without any field. -/
def emptyBlock : Block := ⟨[], [], [], false, [], none⟩

theorem raw?_emptyBlock (g : Field) : emptyBlock.raw? g = none := by
  have : Lacks none g [[]] :=
    lacks_cons_iff.mpr ⟨written?_of_blanks distinct_none blanks_nil g, lacks_nil⟩
  rw [Block.raw?_eq_valueIn]
  exact valueIn_eq_none_iff.mpr this

theorem ofBlock_emptyBlock : (ofBlock emptyBlock none).1 = {} := by
  have hscalar : ∀ f, scalar? emptyBlock f = none := fun f => by
    rw [scalar?, raw?_emptyBlock, Option.map_none]
  have hclaims : ∀ s, claims emptyBlock s = false := fun s => by
    simp [claims, raw?_emptyBlock]
  simp [ofBlock, enumerated_fst, hscalar, raw?_emptyBlock, permissions, claimedApprovals, hclaims]

theorem locate?_eq_none_iff : Block.locate? text = none ↔ ¬ marker <:+: text := by
  rw [Block.locate?, Option.map_eq_none_iff, cutAt?_eq_none_iff]

/-- After its time is marked a documented text is documented, and has the block that it had with
that time. -/
theorem exists_touched {text' : List Char} (hd : Documented text) (ht : IsStamp time)
    (h : touch text time = some text') :
    ∃ b c, Block.locate? text = some b ∧ Block.locate? text' = some c ∧ Documented text' ∧
      ∀ g, c.raw? g = if g = .lastModified then some time.toList else b.raw? g := by
  obtain ⟨b, hloc, rfl⟩ := Option.map_eq_some_iff.mp h
  obtain ⟨c, hc, hd', hraw⟩ := hd.locate?_set hloc ht.plain .lastModified
  exact ⟨b, c, hloc, hc, hd', hraw⟩

/-- Marking the time of a documented text changes nothing in what is extracted but the time. -/
theorem extract_touch {text' : List Char} (hd : Documented text) (ht : IsStamp time)
    (h : touch text time = some text') :
    ∃ m, extract text = some m ∧ extract text' = some { m with lastModified := some time } := by
  obtain ⟨b, c, hloc, hc, -, hraw⟩ := exists_touched hd ht h
  refine ⟨_, extract_of_locate? hloc, ?_⟩
  -- marking the time is applying the empty patch to the block
  have hempty : ({} : Patch).IsPlain := ⟨rfl, rfl, rfl, rfl⟩
  have hvalues : ∀ g, c.raw? g =
      (entryValue (({} : Patch).entries ++ [(.lastModified, time)]) g).or (b.raw? g) := fun g => by
    rw [hraw, entryValue_plain hempty]
    cases g <;> rfl
  rw [extract_of_locate? hc, ofBlock_applyTo hempty ht hvalues]
  rfl

/-- Updates with plain values read back: in a documented text, a patch without free text changes
what is extracted to just what it says, starting from an empty record if there is no block, and
marking the time changes nothing but the time. -/
theorem update_reads_back (text : List Char) (time : String) :
    (touch text time = none ↔ ¬ marker <:+: text) ∧
      (Documented text → IsStamp time →
        (∀ p : Patch, p.IsPlain → p.isEmpty = false →
          extract (update text p time) = some (p.applyTo time ((extract text).getD {}))) ∧
        ∀ text', touch text time = some text' →
          ∃ m, extract text = some m ∧ extract text' = some { m with lastModified := some time }) := by
  refine ⟨?_, fun hd ht => ⟨fun p hp hne => ?_, fun text' htouch => ?_⟩⟩
  · rw [touch, Option.map_eq_none_iff, locate?_eq_none_iff]
  · have hplain := hp.entries ht
    simp only [update, hne, Bool.false_eq_true, if_false]
    cases hloc : Block.locate? text with
    | none =>
      obtain ⟨c, hc, hraw⟩ := exists_withNewBlock hplain text
      have hdefault : ∀ g, c.raw? g =
          (entryValue (p.entries ++ [(.lastModified, time)]) g).or (emptyBlock.raw? g) := fun g => by
        rw [hraw, raw?_emptyBlock, Option.or_none]
      rw [extract_of_locate? hc, extract_of_locate?_eq_none hloc, ofBlock_applyTo hp ht hdefault,
        ofBlock_emptyBlock]
      rfl
    | some b =>
      obtain ⟨c, hc, hraw⟩ := hd.exists_setFields hloc (nodup_entries p time) hplain
      rw [extract_of_locate? hc, extract_of_locate? hloc, ofBlock_applyTo hp ht hraw]
      rfl
  · exact extract_touch hd ht htouch

/-- A block of line comments in which one field is there and another one is not. -/
theorem update_lineComments_reads_back :
    let text := "// @ai-metadata\n// @stability: stable\nfn main\n".toList
    let p : Patch := { stability := some .deprecated, reviewRequired := some true }
    Documented text ∧ IsStamp "12Z" ∧ p.IsPlain ∧ p.isEmpty = false ∧
      extract (update text p "12Z") = some (p.applyTo "12Z" ((extract text).getD {})) ∧
      (extract (update text p "12Z")).map (·.reviewRequired) = some true ∧
      ∃ text', touch text "12Z" = some text' ∧ ∃ m, extract text = some m ∧
        extract text' = some { m with lastModified := some "12Z" } := by
  intro text p
  have hmarked : Marked text [] "// ".toList "\n// @stability: stable\nfn main\n".toList :=
    ⟨by decide, by decide⟩
  have hd : Documented text := hmarked.documented (.inr (.inr (.inr (by decide))))
  have ht : IsStamp "12Z" := ⟨['1', '2'], rfl, List.all_eq_true.mp (by decide)⟩
  have hp : p.IsPlain := ⟨rfl, rfl, rfl, rfl⟩
  have hne : p.isEmpty = false := rfl
  obtain ⟨-, hdocumented⟩ := update_reads_back text "12Z"
  obtain ⟨hupdate, htouch⟩ := hdocumented hd ht
  have hread := hupdate p hp hne
  refine ⟨hd, ht, hp, hne, hread, by rw [hread]; rfl, _, rfl, htouch _ rfl⟩

end Metadata

end EditGate
