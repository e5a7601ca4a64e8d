import EditGate.Ledger.Approvals
import EditGate.Proofs.Approval.Form
import EditGate.Proofs.Json.ReadBack

/-!
# Documents read back

A document is well-formed (`Document.WellFormed`) if its sections are what they are said to be, and
sound (`Document.Sound`) if a text can hold them as well. What a well-formed document stores gives
the document back (`ofObject_stored`), with the readable and the unreadable approvals apart as they
were, and the text of a sound one is accepted (`classify_body`). Every accepted text holds a sound
document (`sound_ofObject`), and recording the approvals of one file keeps a document sound
(`Sound.record`).
-/

namespace EditGate.Ledger

open Approval (Entry Invalidation Status)
open Json (ReadsBack DoubleReadsBack)

/-! ## Sections that a text can hold -/

theorem readsBack_obj {room : Nat} {m : Keyed Json} (hroom : 0 < room) (hm : Keyed.Sorted m)
    (h : ∀ key v, Keyed.get? key m = some v → ReadsBack (room - 1) v) :
    ReadsBack room (.obj m) :=
  Json.storable_obj_iff.mpr
    ⟨hroom, hm, fun b hb => h b.1 b.2 (Keyed.get?_of_mem hm hb)⟩

theorem ReadsBack.of_get? {room : Nat} {m : Keyed Json} {key : String} {v : Json}
    (h : ReadsBack room (.obj m)) (hv : Keyed.get? key m = some v) : ReadsBack (room - 1) v :=
  (Json.storable_obj_iff.mp h).2.2 (key, v) (Keyed.mem_of_get? hv)

theorem readsBack_entry {room : Nat} (hroom : 0 < room) (e : Entry) : ReadsBack room e.toJson := by
  obtain ⟨approved, who, date⟩ := e
  refine Json.storable_obj_iff.mpr ⟨hroom, ?_, ?_⟩
  · have hsorted : ["approved", "approvedBy", "approvedDate"].Pairwise (· < ·) := by decide
    rw [Keyed.sorted_iff_keys]
    refine hsorted.sublist ?_
    cases who <;> cases date <;> simp [Approval.optionalMember]
  · cases who <;> cases date <;> simp [Approval.optionalMember, Json.Storable]

theorem readsBack_invalidation {room : Nat} (hroom : 0 < room) (i : Invalidation) :
    ReadsBack room i.toJson.canonical := by
  rw [Invalidation.canonical_toJson]
  have hsorted : ["at", "reason"].Pairwise (· < ·) := by decide
  exact Json.storable_obj_iff.mpr
    ⟨hroom, Keyed.sorted_iff_keys.mpr hsorted, by simp [Json.Storable]⟩

/-- The stored form of a status nests one container in another. -/
theorem readsBack_status {room : Nat} (hroom : 1 < room) (s : Status) :
    ReadsBack room s.toJson.canonical := by
  rw [Status.canonical_toJson]
  have hroom' : 0 < room - 1 := by omega
  refine Json.storable_obj_iff.mpr ⟨by omega, ?_, ?_⟩
  · have hsorted : ["codeReview", "dev", "lastInvalidation", "qa"].Pairwise (· < ·) := by decide
    rw [Keyed.sorted_iff_keys]
    refine hsorted.sublist ?_
    cases s.lastInvalidation <;> simp [Approval.optionalMember]
  · cases s.lastInvalidation <;>
      simp [Approval.optionalMember, readsBack_entry hroom', readsBack_invalidation hroom']

/-! ## Entries that can be read and the others -/

/-- The status that a stored entry is read as. -/
def readable? (v : Json) : Option Status := (Status.ofJson v).toOption

/-- A stored entry, if it cannot be read. -/
def unreadable? (v : Json) : Option Json := if (readable? v).isNone then some v else none

theorem readable?_canonical (s : Status) : readable? s.toJson.canonical = some s := by
  rw [readable?, Status.ofJson_canonical]
  rfl

theorem salvageEntries_usable (entries : Keyed Json) :
    (salvageEntries entries).usable =
      entries.filterMap fun b => (readable? b.2).map (b.1, ·) := by
  induction entries with
  | nil => rfl
  | cons b entries ih =>
    obtain ⟨key, v⟩ := b
    rw [salvageEntries, List.filterMap_cons, ← ih, readable?]
    cases Status.ofJson v <;> rfl

theorem salvageEntries_unreadable (entries : Keyed Json) :
    (salvageEntries entries).unreadable =
      entries.filterMap fun b => (unreadable? b.2).map (b.1, ·) := by
  induction entries with
  | nil => rfl
  | cons b entries ih =>
    obtain ⟨key, v⟩ := b
    rw [salvageEntries, List.filterMap_cons, ← ih, unreadable?, readable?]
    cases Status.ofJson v <;> rfl

theorem get?_usable (key : String) {entries : Keyed Json} (h : Keyed.Sorted entries) :
    Keyed.get? key (salvageEntries entries).usable = (Keyed.get? key entries).bind readable? := by
  rw [salvageEntries_usable, Keyed.get?_filterMap readable? key h]

theorem get?_unreadable (key : String) {entries : Keyed Json} (h : Keyed.Sorted entries) :
    Keyed.get? key (salvageEntries entries).unreadable =
      (Keyed.get? key entries).bind unreadable? := by
  rw [salvageEntries_unreadable, Keyed.get?_filterMap unreadable? key h]

theorem sorted_usable {entries : Keyed Json} (h : Keyed.Sorted entries) :
    Keyed.Sorted (salvageEntries entries).usable := by
  rw [salvageEntries_usable]
  exact Keyed.sorted_filterMap readable? h

theorem sorted_unreadable {entries : Keyed Json} (h : Keyed.Sorted entries) :
    Keyed.Sorted (salvageEntries entries).unreadable := by
  rw [salvageEntries_unreadable]
  exact Keyed.sorted_filterMap unreadable? h

/-! ## Well-formed and sound documents -/

/-- Whether a section is one of the three that the gate knows. -/
def IsOwnSection (name : String) : Prop :=
  name = contextSection ∨ name = sessionSection ∨ name = statesSection

/-- The containers that may be nested in a section. -/
def sectionRoom : Nat := Json.maxDepth - 1

/-- The sections are what they are said to be, and no file has an entry of either kind. -/
structure Document.WellFormed (d : Document) : Prop where
  context_object : d.projectContext.isObject = true
  session_object : d.currentSession.isObject = true
  states_sorted : Keyed.Sorted d.approvalStates
  unreadable_sorted : Keyed.Sorted d.unreadableStates
  apart : ∀ key v, Keyed.get? key d.unreadableStates = some v →
    Keyed.get? key d.approvalStates = none
  unreadable_readable : ∀ key v, Keyed.get? key d.unreadableStates = some v → readable? v = none
  extra_sorted : Keyed.Sorted d.extra
  extra_foreign : ∀ name, IsOwnSection name → Keyed.get? name d.extra = none

/-- A well-formed document that a text can hold. -/
structure Document.Sound (d : Document) : Prop extends d.WellFormed where
  context_readsBack : ReadsBack sectionRoom d.projectContext
  session_readsBack : ReadsBack sectionRoom d.currentSession
  unreadable_readsBack : ∀ key v, Keyed.get? key d.unreadableStates = some v →
    ReadsBack (sectionRoom - 1) v
  extra_readsBack : ∀ name v, Keyed.get? name d.extra = some v → ReadsBack sectionRoom v

/-! ## What a document stores -/

/-- The members of the object that a document is stored as. -/
def Document.stored (d : Document) : Keyed Json :=
  Keyed.put statesSection (.obj d.storedStates)
    (Keyed.put sessionSection d.currentSession
      (Keyed.put contextSection d.projectContext d.extra))

theorem Document.toJson_eq (d : Document) : d.toJson = .obj d.stored := rfl

section Sections

variable (d : Document)

theorem get?_stored_states :
    Keyed.get? statesSection d.stored = some (.obj d.storedStates) := by
  rw [Document.stored, Keyed.get?_put, if_pos rfl]

theorem get?_stored_session : Keyed.get? sessionSection d.stored = some d.currentSession := by
  rw [Document.stored, Keyed.get?_put, if_neg (by decide), Keyed.get?_put, if_pos rfl]

theorem get?_stored_context : Keyed.get? contextSection d.stored = some d.projectContext := by
  rw [Document.stored, Keyed.get?_put, if_neg (by decide), Keyed.get?_put, if_neg (by decide),
    Keyed.get?_put, if_pos rfl]

theorem get?_stored_foreign {name : String} (h : ¬IsOwnSection name) :
    Keyed.get? name d.stored = Keyed.get? name d.extra := by
  have hcontext : contextSection ≠ name := fun he => h (.inl he.symm)
  have hsession : sessionSection ≠ name := fun he => h (.inr (.inl he.symm))
  have hstates : statesSection ≠ name := fun he => h (.inr (.inr he.symm))
  rw [Document.stored, Keyed.get?_put, if_neg hstates, Keyed.get?_put, if_neg hsession,
    Keyed.get?_put, if_neg hcontext]

theorem sorted_stored {d : Document} (h : Keyed.Sorted d.extra) : Keyed.Sorted d.stored :=
  Keyed.sorted_put _ _ (Keyed.sorted_put _ _ (Keyed.sorted_put _ _ h))

end Sections

variable {d : Document}

theorem get?_storedStates (h : Keyed.Sorted d.approvalStates) (key : String) :
    Keyed.get? key d.storedStates =
      ((Keyed.get? key d.approvalStates).map fun s => s.toJson.canonical).or
        (Keyed.get? key d.unreadableStates) :=
  Keyed.get?_foldl_put (fun s : Status => s.toJson.canonical) key h d.unreadableStates

theorem sorted_storedStates (h : Keyed.Sorted d.unreadableStates) :
    Keyed.Sorted d.storedStates :=
  Keyed.sorted_foldl_put (fun s : Status => s.toJson.canonical) d.approvalStates h

namespace Document.Sound

theorem readsBack_storedStates (h : d.Sound) : ReadsBack sectionRoom (.obj d.storedStates) := by
  refine readsBack_obj (by decide) (sorted_storedStates h.unreadable_sorted) ?_
  intro key v hv
  rw [get?_storedStates h.states_sorted] at hv
  cases hs : Keyed.get? key d.approvalStates with
  | some s =>
    rw [hs, Option.map_some, Option.some_or, Option.some.injEq] at hv
    rw [← hv]
    exact readsBack_status (by decide) s
  | none =>
    rw [hs, Option.map_none, Option.none_or] at hv
    exact h.unreadable_readsBack key v hv

theorem readsBack_toJson (h : d.Sound) : ReadsBack Json.maxDepth d.toJson := by
  rw [Document.toJson_eq]
  refine readsBack_obj (by decide) (sorted_stored h.extra_sorted) ?_
  intro name v hv
  by_cases hown : IsOwnSection name
  · rcases hown with rfl | rfl | rfl
    · rw [get?_stored_context, Option.some.injEq] at hv
      exact hv ▸ h.context_readsBack
    · rw [get?_stored_session, Option.some.injEq] at hv
      exact hv ▸ h.session_readsBack
    · rw [get?_stored_states, Option.some.injEq] at hv
      exact hv ▸ h.readsBack_storedStates
  · rw [get?_stored_foreign d hown] at hv
    exact h.extra_readsBack name v hv

end Document.Sound

/-! ## Reading back -/

theorem classify_eq_ok_iff {text : List Char} {obj : Keyed Json} :
    classify text = .ok obj ↔
      Json.read? text = some (.obj obj) ∧ (missingSections obj).isEmpty = true := by
  rw [classify]
  split
  · simp_all
  · rename_i members hread
    by_cases hmissing : (missingSections members).isEmpty = true
    · rw [hread, if_pos hmissing]
      constructor
      · intro h
        cases h
        exact ⟨rfl, hmissing⟩
      · rintro ⟨h, -⟩
        cases h
        rfl
    · rw [hread, if_neg hmissing]
      constructor
      · exact fun h => nomatch h
      · rintro ⟨h, hempty⟩
        cases h
        exact absurd hempty hmissing
  · rename_i hnot hread
    constructor
    · exact fun h => nomatch h
    · rintro ⟨h, -⟩
      exact absurd (hread.symm.trans h) (by simpa using hnot obj)

theorem hasObject_eq_true_iff {obj : Keyed Json} {name : String} :
    hasObject obj name = true ↔ ∃ v, Keyed.get? name obj = some v ∧ v.isObject = true := by
  rw [hasObject]
  cases Keyed.get? name obj with
  | none => simp
  | some v => simp

/-- All sections are there exactly if the two mandatory ones are objects and the approvals, if
there are any, are one as well. -/
theorem missingSections_eq_nil_iff {obj : Keyed Json} :
    missingSections obj = [] ↔ hasObject obj contextSection = true ∧
      hasObject obj sessionSection = true ∧
      ∀ v, Keyed.get? statesSection obj = some v → v.isObject = true ∨ v.isNull = true := by
  rw [missingSections, List.append_eq_nil_iff, List.filter_eq_nil_iff]
  simp only [List.forall_mem_cons, Bool.not_eq_true', Bool.not_eq_false, and_assoc, and_congr_right_iff]
  intro _ _
  cases Keyed.get? statesSection obj with
  | none => simp
  | some v => cases hv : v.isObject <;> simp [hv]

theorem missingSections_stored (h : d.WellFormed) : missingSections d.stored = [] := by
  refine missingSections_eq_nil_iff.mpr ⟨?_, ?_, ?_⟩
  · exact hasObject_eq_true_iff.mpr ⟨_, get?_stored_context d, h.context_object⟩
  · exact hasObject_eq_true_iff.mpr ⟨_, get?_stored_session d, h.session_object⟩
  · intro v hv
    rw [get?_stored_states, Option.some.injEq] at hv
    exact .inl (hv ▸ rfl)

/-- The text of a sound document is accepted. -/
theorem classify_body (h : d.Sound) : classify d.body.toList = .ok d.stored := by
  rw [classify_eq_ok_iff, missingSections_stored h.toWellFormed]
  refine ⟨?_, rfl⟩
  rw [Document.body, String.toList_ofList, Json.read?_pretty h.readsBack_toJson,
    Document.toJson_eq]

theorem salvageEntries_storedStates_usable (h : d.WellFormed) :
    (salvageEntries d.storedStates).usable = d.approvalStates := by
  have hsorted := sorted_storedStates h.unreadable_sorted
  refine Keyed.ext (sorted_usable hsorted) h.states_sorted fun key => ?_
  rw [get?_usable key hsorted, get?_storedStates h.states_sorted]
  cases hs : Keyed.get? key d.approvalStates with
  | some s => exact readable?_canonical s
  | none =>
    rw [Option.map_none, Option.none_or]
    cases hv : Keyed.get? key d.unreadableStates with
    | none => rfl
    | some v => exact h.unreadable_readable key v hv

theorem salvageEntries_storedStates_unreadable (h : d.WellFormed) :
    (salvageEntries d.storedStates).unreadable = d.unreadableStates := by
  have hsorted := sorted_storedStates h.unreadable_sorted
  refine Keyed.ext (sorted_unreadable hsorted) h.unreadable_sorted fun key => ?_
  rw [get?_unreadable key hsorted, get?_storedStates h.states_sorted]
  cases hs : Keyed.get? key d.approvalStates with
  | some s =>
    -- a key with a readable entry has no unreadable one beside it
    have hnone : Keyed.get? key d.unreadableStates = none := by
      cases hv : Keyed.get? key d.unreadableStates with
      | none => rfl
      | some v => exact absurd (hs.symm.trans (h.apart key v hv)) (by simp)
    rw [hnone, Option.map_some, Option.some_or, Option.bind_some, unreadable?,
      readable?_canonical]
    rfl
  | none =>
    rw [Option.map_none, Option.none_or]
    cases hv : Keyed.get? key d.unreadableStates with
    | none => rfl
    | some v =>
      rw [Option.bind_some, unreadable?, h.unreadable_readable key v hv]
      rfl

theorem erase_stored (h : d.WellFormed) :
    Keyed.erase statesSection (Keyed.erase sessionSection (Keyed.erase contextSection d.stored)) =
      d.extra := by
  have hsorted := sorted_stored h.extra_sorted
  refine Keyed.ext (Keyed.sorted_erase _ (Keyed.sorted_erase _ (Keyed.sorted_erase _ hsorted)))
    h.extra_sorted fun name => ?_
  rw [Keyed.get?_erase, Keyed.get?_erase, Keyed.get?_erase]
  by_cases hown : IsOwnSection name
  · rw [h.extra_foreign name hown]
    rcases hown with rfl | rfl | rfl <;> simp
  · rw [if_neg fun he => hown (.inr (.inr he.symm)), if_neg fun he => hown (.inr (.inl he.symm)),
      if_neg fun he => hown (.inl he.symm), get?_stored_foreign d hown]

theorem sectionOr_eq {obj : Keyed Json} {name : String} {v : Json}
    (hv : Keyed.get? name obj = some v) (hobject : v.isObject = true) (otherwise : Json) :
    sectionOr obj name otherwise = v := by
  simp only [sectionOr, hv, hobject, if_true]

/-- What a well-formed document stores gives the document, whatever fresh sections there are. -/
theorem ofObject_stored (h : d.WellFormed) (f : Fresh) : (Document.ofObject d.stored f).1 = d := by
  have husable := salvageEntries_storedStates_usable h
  have hunreadable := salvageEntries_storedStates_unreadable h
  simp only [Document.ofObject, get?_stored_states, salvage, husable, hunreadable,
    erase_stored h, sectionOr_eq (get?_stored_context d) h.context_object,
    sectionOr_eq (get?_stored_session d) h.session_object]

/-! ## Where sound documents come from -/

/-- The stored entries of the approvals. -/
def entriesOf (obj : Keyed Json) : Keyed Json :=
  match Keyed.get? statesSection obj with
  | some (.obj entries) => entries
  | _ => []

section Accepted

variable {text : List Char} {obj : Keyed Json}

theorem salvage_eq (obj : Keyed Json) :
    salvage (Keyed.get? statesSection obj) = salvageEntries (entriesOf obj) := by
  unfold salvage
  split
  · rename_i entries h
    rw [entriesOf, h]
  · rename_i h
    have hnil : entriesOf obj = [] := by
      unfold entriesOf
      split
      · rename_i hentries
        exact (h _ hentries).elim
      · rfl
    rw [hnil]
    rfl

/-- The members and the entries of an object that is read are in order. -/
theorem sorted_of_read? (h : Json.read? text = some (.obj obj)) :
    Keyed.Sorted obj ∧ Keyed.Sorted (entriesOf obj) := by
  have hread : Json.Storable (fun _ => True) Json.maxDepth (.obj obj) :=
    Json.storable_of_read? h fun _ _ => trivial
  obtain ⟨-, hsorted, hmembers⟩ := Json.storable_obj_iff.mp hread
  refine ⟨hsorted, ?_⟩
  unfold entriesOf
  split
  · rename_i entries hentries
    exact (Json.storable_obj_iff.mp (hmembers _ (Keyed.mem_of_get? hentries))).2.1
  · exact Keyed.sorted_nil

theorem objectOf_of_classify (h : classify text = .ok obj) : objectOf text = obj := by
  rw [objectOf, (classify_eq_ok_iff.mp h).1]

theorem sorted_of_classify (h : classify text = .ok obj) :
    Keyed.Sorted obj ∧ Keyed.Sorted (entriesOf obj) :=
  sorted_of_read? (classify_eq_ok_iff.mp h).1

theorem approvalStates_ofObject (obj : Keyed Json) (f : Fresh) :
    (Document.ofObject obj f).1.approvalStates =
      (entriesOf obj).filterMap fun b => (readable? b.2).map (b.1, ·) := by
  simp only [Document.ofObject, salvage_eq, salvageEntries_usable]

/-- A file has a status if its stored entry can be read. -/
theorem get?_approvalStates_ofObject (h : classify text = .ok obj) (f : Fresh) (key : String) :
    Keyed.get? key (Document.ofObject obj f).1.approvalStates =
      (Keyed.get? key (entriesOf obj)).bind readable? := by
  simp only [Document.ofObject, salvage_eq, get?_usable key (sorted_of_classify h).2]

theorem get?_unreadableStates_ofObject (h : classify text = .ok obj) (f : Fresh) (key : String) :
    Keyed.get? key (Document.ofObject obj f).1.unreadableStates =
      (Keyed.get? key (entriesOf obj)).bind unreadable? := by
  simp only [Document.ofObject, salvage_eq, get?_unreadable key (sorted_of_classify h).2]

theorem unreadable?_eq_some_iff {v w : Json} :
    unreadable? v = some w ↔ v = w ∧ readable? v = none := by
  rw [unreadable?]
  cases readable? v with
  | none => simp
  | some s => simp

/-- The mandatory sections of an accepted text are the ones of its document. -/
theorem sections_ofObject (h : classify text = .ok obj) (f : Fresh) :
    Keyed.get? contextSection obj = some (Document.ofObject obj f).1.projectContext ∧
      (Document.ofObject obj f).1.projectContext.isObject = true ∧
      Keyed.get? sessionSection obj = some (Document.ofObject obj f).1.currentSession ∧
      (Document.ofObject obj f).1.currentSession.isObject = true := by
  obtain ⟨-, hsections⟩ := classify_eq_ok_iff.mp h
  obtain ⟨hcontext, hsession, -⟩ := missingSections_eq_nil_iff.mp (List.isEmpty_iff.mp hsections)
  obtain ⟨context, hcontext, hcontextObject⟩ := hasObject_eq_true_iff.mp hcontext
  obtain ⟨session, hsession, hsessionObject⟩ := hasObject_eq_true_iff.mp hsession
  simp only [Document.ofObject, sectionOr_eq hcontext hcontextObject,
    sectionOr_eq hsession hsessionObject]
  exact ⟨hcontext, hcontextObject, hsession, hsessionObject⟩

theorem get?_extra_ofObject (obj : Keyed Json) (f : Fresh) {name : String}
    (hname : ¬IsOwnSection name) :
    Keyed.get? name (Document.ofObject obj f).1.extra = Keyed.get? name obj := by
  simp only [Document.ofObject, Keyed.get?_erase]
  rw [if_neg fun he => hname (.inr (.inr he.symm)), if_neg fun he => hname (.inr (.inl he.symm)),
    if_neg fun he => hname (.inl he.symm)]

theorem get?_extra_own (obj : Keyed Json) (f : Fresh) {name : String} (hname : IsOwnSection name) :
    Keyed.get? name (Document.ofObject obj f).1.extra = none := by
  simp only [Document.ofObject, Keyed.get?_erase]
  rcases hname with rfl | rfl | rfl <;> simp

/-- The document of an accepted text does not depend on what a fresh one would hold. -/
theorem ofObject_eq (h : classify text = .ok obj) (f g : Fresh) :
    (Document.ofObject obj f).1 = (Document.ofObject obj g).1 := by
  obtain ⟨hcontext, -, hsession, -⟩ := sections_ofObject h f
  obtain ⟨hcontext', -, hsession', -⟩ := sections_ofObject h g
  have hcontextEq := Option.some.inj (hcontext.symm.trans hcontext')
  have hsessionEq := Option.some.inj (hsession.symm.trans hsession')
  simp only [Document.ofObject] at hcontextEq hsessionEq ⊢
  rw [hcontextEq, hsessionEq]

/-- An object with its members and its entries in order holds a well-formed document, if there are
objects for the mandatory sections. -/
theorem wellFormed_ofObject {f : Fresh} (hsorted : Keyed.Sorted obj)
    (hentries : Keyed.Sorted (entriesOf obj))
    (hcontext : (Document.ofObject obj f).1.projectContext.isObject = true)
    (hsession : (Document.ofObject obj f).1.currentSession.isObject = true) :
    (Document.ofObject obj f).1.WellFormed := by
  have hunreadable : ∀ key v, Keyed.get? key (Document.ofObject obj f).1.unreadableStates =
      some v → Keyed.get? key (entriesOf obj) = some v ∧ readable? v = none := by
    intro key v hv
    simp only [Document.ofObject, salvage_eq, get?_unreadable key hentries] at hv
    obtain ⟨w, hw, hv⟩ := Option.bind_eq_some_iff.mp hv
    obtain ⟨rfl, hnone⟩ := unreadable?_eq_some_iff.mp hv
    exact ⟨hw, hnone⟩
  exact {
    context_object := hcontext
    session_object := hsession
    states_sorted := by
      rw [approvalStates_ofObject]
      exact Keyed.sorted_filterMap readable? hentries
    unreadable_sorted := by
      simp only [Document.ofObject, salvage_eq]
      exact sorted_unreadable hentries
    apart := by
      intro key v hv
      obtain ⟨hentry, hnone⟩ := hunreadable key v hv
      simp only [Document.ofObject, salvage_eq, get?_usable key hentries, hentry]
      exact hnone
    unreadable_readable := fun key v hv => (hunreadable key v hv).2
    extra_sorted := Keyed.sorted_erase _ (Keyed.sorted_erase _ (Keyed.sorted_erase _ hsorted))
    extra_foreign := fun name hown => get?_extra_own obj f hown }

/-- An accepted text holds a sound document, if its doubles read back. -/
theorem sound_ofObject (h : classify text = .ok obj)
    (hdoubles : ∀ x ∈ (Json.obj obj).doubles, DoubleReadsBack x) (f : Fresh) :
    (Document.ofObject obj f).1.Sound := by
  obtain ⟨hsorted, hentries⟩ := sorted_of_classify h
  obtain ⟨hcontext, hcontextObject, hsession, hsessionObject⟩ := sections_ofObject h f
  have hback : ReadsBack Json.maxDepth (.obj obj) :=
    Json.storable_of_read? (classify_eq_ok_iff.mp h).1 hdoubles
  exact {
    toWellFormed := wellFormed_ofObject hsorted hentries hcontextObject hsessionObject
    context_readsBack := ReadsBack.of_get? hback hcontext
    session_readsBack := ReadsBack.of_get? hback hsession
    unreadable_readsBack := by
      intro key v hv
      -- an unreadable entry is kept as it stands in the text, and the text was read
      rw [get?_unreadableStates_ofObject h] at hv
      obtain ⟨u, hu, hv⟩ := Option.bind_eq_some_iff.mp hv
      obtain ⟨rfl, -⟩ := unreadable?_eq_some_iff.mp hv
      unfold entriesOf at hu
      split at hu
      · rename_i entries hstates
        exact ReadsBack.of_get? (ReadsBack.of_get? hback hstates) hu
      · exact nomatch hu
    extra_readsBack := by
      intro name v hv
      by_cases hown : IsOwnSection name
      · rw [get?_extra_own obj f hown] at hv
        exact nomatch hv
      · rw [get?_extra_ofObject obj f hown] at hv
        exact ReadsBack.of_get? hback hv }

end Accepted

/-- The document of a project without a ledger is sound. -/
theorem sound_fresh (root : Path) (time event time' : String) :
    (Document.fresh ⟨freshContext root time, freshSession event time'⟩).Sound where
  context_object := rfl
  context_readsBack := by
    have hsorted : ["createdAt", "root"].Pairwise (· < ·) := by decide
    exact Json.storable_obj_iff.mpr
      ⟨by decide, Keyed.sorted_iff_keys.mpr hsorted, by simp [Json.Storable]⟩
  session_object := rfl
  session_readsBack := by
    have hsorted : ["sessionId", "startedAt"].Pairwise (· < ·) := by decide
    exact Json.storable_obj_iff.mpr
      ⟨by decide, Keyed.sorted_iff_keys.mpr hsorted, by simp [Json.Storable]⟩
  states_sorted := Keyed.sorted_nil
  unreadable_sorted := Keyed.sorted_nil
  apart := fun _ _ h => nomatch h
  unreadable_readable := fun _ _ h => nomatch h
  unreadable_readsBack := fun _ _ h => nomatch h
  extra_sorted := Keyed.sorted_nil
  extra_foreign := fun _ _ => rfl
  extra_readsBack := fun _ _ h => nomatch h

/-! ## Recording approvals -/

/-- The document with the approvals of one file recorded, in place of an entry of either kind. -/
def Document.record (d : Document) (key : String) (s : Status) : Document :=
  { d with approvalStates := Keyed.put key s d.approvalStates
           unreadableStates := Keyed.erase key d.unreadableStates }

theorem Document.Sound.record (h : d.Sound) (key : String) (s : Status) :
    (d.record key s).Sound := by
  have hold : ∀ other v, Keyed.get? other (d.record key s).unreadableStates = some v →
      key ≠ other ∧ Keyed.get? other d.unreadableStates = some v := by
    intro other v hv
    rw [Document.record, Keyed.get?_erase] at hv
    split at hv
    · exact absurd hv (by simp)
    · rename_i hne
      exact ⟨hne, hv⟩
  exact { h with
    states_sorted := Keyed.sorted_put key s h.states_sorted
    unreadable_sorted := Keyed.sorted_erase key h.unreadable_sorted
    apart := by
      intro other v hv
      obtain ⟨hne, hv⟩ := hold other v hv
      rw [Document.record, Keyed.get?_put, if_neg hne]
      exact h.apart other v hv
    unreadable_readable := fun other v hv => h.unreadable_readable other v (hold other v hv).2
    unreadable_readsBack := fun other v hv => h.unreadable_readsBack other v (hold other v hv).2 }

/-- Setting the approvals of a file stores what recording them stores. -/
theorem stored_setStatus (h : d.Sound) (key : String) (s : Status) :
    (d.setStatus key s).stored = (d.record key s).stored := by
  have hstates : (d.setStatus key s).storedStates = (d.record key s).storedStates := by
    have hsorted : Keyed.Sorted (d.setStatus key s).approvalStates :=
      Keyed.sorted_put key s h.states_sorted
    refine Keyed.ext (sorted_storedStates h.unreadable_sorted)
      (sorted_storedStates (h.record key s).unreadable_sorted) fun other => ?_
    rw [get?_storedStates hsorted, get?_storedStates (h.record key s).states_sorted]
    simp only [Document.setStatus, Document.record, Keyed.get?_put, Keyed.get?_erase]
    split
    · rfl
    · rfl
  rw [Document.stored, hstates]
  rfl

theorem body_setStatus (h : d.Sound) (key : String) (s : Status) :
    (d.setStatus key s).body = (d.record key s).body := by
  rw [Document.body, Document.toJson_eq, stored_setStatus h, ← Document.toJson_eq, ← Document.body]

theorem status?_record (d : Document) (key other : String) (s : Status) :
    (d.record key s).status? other = if key = other then some s else d.status? other := by
  rw [Document.status?, Document.record, Keyed.get?_put]
  rfl

end EditGate.Ledger
