import EditGate.Proofs.Ledger.Store

/-!
# What the operations on approvals do

Each operation loads a document first. Whatever is known of loading (`post` in the statements) gives
what the operation answers and leaves: looking at approvals leaves what loading leaves, granting an
approval leaves the ledger showing the loaded document with the grant recorded
(`ends_approve`), and taking approvals back writes only if there is something to take back
(`ends_invalidate`). A cause of the disk is the one failure that is left besides a nameless grant.
-/

namespace EditGate.Ledger

open Approval (Slot Status)
open Run World
open World (Grown)

variable {l : Ledger} {w w' : World} {post : Document → World → Prop}

/-- Loading ends in a later world with a sound document, of which more is known. -/
def LoadsWith (l : Ledger) (w : World) (post : Document → World → Prop) : Prop :=
  Ends w l.load fun d w' => Later w w' ∧ d.Sound ∧ post d w'

theorem ends_status? (hload : l.LoadsWith w post) (path : String) :
    Ends w (l.status? path) fun o w' =>
      Later w w' ∧ ∃ d, post d w' ∧ o = d.status? (l.key path) :=
  hload.bind fun d _ ⟨hlater, _, hpost⟩ => ⟨hlater, d, hpost, rfl⟩

theorem ends_statuses (hload : l.LoadsWith w post) :
    Ends w l.statuses fun m w' => Later w w' ∧ ∃ d, post d w' ∧ m = d.approvalStates :=
  hload.bind fun d _ ⟨hlater, _, hpost⟩ => ⟨hlater, d, hpost, rfl⟩

theorem IsFresh.status?_eq_none {d : Document} (h : l.IsFresh d) (k : String) :
    d.status? k = none := by
  rw [Document.status?, h.approvalStates]
  rfl

/-- Saving a document with new approvals of one file, and then a notice. -/
theorem ends_save_record {α : Type} {d : Document} (hw : w.Calm)
    (hsink : l.sink.Avoids w (l.place w)) (hd : d.Sound) (key : String) (s : Status) (n : Notice)
    (a : α) :
    Trial.Ends w (do l.save (d.setStatus key s); l.sink.record n; return a) fun r w' =>
      (r = .ok a ∧ Later w w' ∧ l.Shows w' (d.record key s)) ∨
      ∃ cause, r = .error (.io cause) ∧ Grown (l.place w) w w' := by
  refine (ends_save hw (hd.record key s) (body_setStatus hd key s)).bind (fun _ w₁ h => ?_) ?_
  · obtain ⟨hlater, hshows⟩ : Later w w₁ ∧ l.Shows w₁ (d.record key s) := by
      rcases h with ⟨-, h⟩ | ⟨cause, h, -⟩
      · exact h
      · exact nomatch h
    have hsink₁ : l.sink.Avoids w₁ (l.place w₁) := by
      rw [hlater.place]
      exact avoids_later hsink hlater
    refine (ends_record hlater.calm hsink₁ n).bind_lift fun _ w₂ h₂ => ?_
    exact .inl ⟨rfl, hlater.trans (later_of_grown hlater.calm h₂), hshows.grown h₂⟩
  · rintro e w₁ (⟨he, -⟩ | ⟨cause, he, hgrown⟩)
    · exact nomatch he
    · cases he
      exact .inr ⟨cause, rfl, hgrown⟩

/-- Granting an approval is refused without a name. With one it is recorded in the document that
was loaded, or fails with a cause of the disk. -/
theorem ends_approve (hsink : l.sink.Avoids w (l.place w)) (hload : l.LoadsWith w post)
    (path : String) (slot : Slot) (approver : String) :
    Trial.Ends w (l.approve path slot approver) fun r w' =>
      ((Text.trimString approver).isEmpty = true ∧ r = .error (.validation .emptyApprover) ∧
        w' = w) ∨
      ((Text.trimString approver).isEmpty = false ∧ ∃ d w₁, post d w₁ ∧ d.Sound ∧ Later w w₁ ∧
        let s := d.granted (l.key path) slot (Text.trimString approver) (stamp w.now)
        ((r = .ok s ∧ Later w w' ∧ l.Shows w' (d.record (l.key path) s)) ∨
          ∃ cause, r = .error (.io cause) ∧ Grown (l.place w₁) w₁ w')) := by
  rw [approve]
  split
  · rename_i hname
    exact .inl ⟨hname, rfl, rfl⟩
  · rename_i hname
    refine Ends.bind_lift hload fun d w₁ ⟨hlater, hd, hpost⟩ => ?_
    refine Trial.ends_timeStamp_bind.mpr ?_
    have hsink₁ := avoids_later hsink hlater
    rw [← hlater.place] at hsink₁
    rw [hlater.now]
    refine (ends_save_record hlater.calm hsink₁ hd _ _ _ _).imp fun r w₂ h => .inr ?_
    refine ⟨by simpa using hname, d, w₁, hpost, hd, hlater, ?_⟩
    rcases h with ⟨hr, hlater₂, hshows⟩ | ⟨cause, hr, hgrown⟩
    · exact .inl ⟨hr, hlater.trans hlater₂, hshows⟩
    · exact .inr ⟨cause, hr, hgrown⟩

/-- Taking approvals back does nothing if there are none. If there are, all slots of the loaded
document are recorded as empty, or it fails with a cause of the disk. -/
theorem ends_invalidate (hsink : l.sink.Avoids w (l.place w)) (hload : l.LoadsWith w post)
    (path reason : String) :
    Trial.Ends w (l.invalidate path reason) fun r w' =>
      ∃ d w₁, post d w₁ ∧ d.Sound ∧ Later w w₁ ∧
        ((d.status? (l.key path) = none ∧ r = .ok () ∧ w' = w₁) ∨
          ((∃ s, d.status? (l.key path) = some s) ∧
            ((r = .ok () ∧ Later w w' ∧
                l.Shows w' (d.record (l.key path) (.invalidate reason (stamp w.now)))) ∨
              ∃ cause, r = .error (.io cause) ∧ Grown (l.place w₁) w₁ w'))) := by
  refine Ends.bind_lift hload fun d w₁ ⟨hlater, hd, hpost⟩ => ?_
  split
  · rename_i hnone
    exact ⟨d, w₁, hpost, hd, hlater, .inl ⟨hnone, rfl, rfl⟩⟩
  · rename_i s hs
    refine Trial.ends_timeStamp_bind.mpr ?_
    have hsink₁ := avoids_later hsink hlater
    rw [← hlater.place] at hsink₁
    rw [hlater.now]
    refine (ends_save_record hlater.calm hsink₁ hd _ _ _ ()).imp fun r w₂ h => ?_
    refine ⟨d, w₁, hpost, hd, hlater, .inr ⟨⟨s, hs⟩, ?_⟩⟩
    rcases h with ⟨hr, hlater₂, hshows⟩ | ⟨cause, hr, hgrown⟩
    · exact .inl ⟨hr, hlater.trans hlater₂, hshows⟩
    · exact .inr ⟨cause, hr, hgrown⟩

end EditGate.Ledger
