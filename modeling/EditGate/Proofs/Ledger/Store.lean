import EditGate.Proofs.Calm
import EditGate.Proofs.Ledger.Document
import EditGate.Proofs.Ledger.Saving

/-!
# Loading and saving

A ledger shows a document if an accepted text that holds the document is read at its path
(`Ledger.Shows`). Loading gives the document that is shown, and a fresh one if there is none
(`ends_load`, `ends_load_absent`). Saving a sound document either leaves the ledger showing it or
fails with a cause of the disk and leaves the file as it was (`ends_save`). Whatever the document
is, a save that succeeds leaves its text and no draft (`ends_save_text`).
-/

namespace EditGate.Ledger

open Run World
open World (Grown Spares Steps)

variable {l : Ledger} {d d' : Document} {w w' : World}

/-- What is read at the path of the ledger. -/
def text? (l : Ledger) (w : World) : Except Disk.Cause String :=
  w.disk.readText w.workingDir l.path

/-- An accepted text that holds the document is read at the path of the ledger. -/
def Shows (l : Ledger) (w : World) (d : Document) : Prop :=
  ∃ text obj, l.text? w = .ok text ∧ classify text.toList = .ok obj ∧
    ∀ f, (Document.ofObject obj f).1 = d

theorem place_grown {P : Place} (h : Grown P w w') : l.place w' = l.place w := h.placeOf l.path

/-- The text of the ledger stays as long as its path leads to its file and nobody writes that. -/
theorem text?_of_spared {text : String} (htext : l.text? w = .ok text)
    (hdir : w'.workingDir = w.workingDir)
    (hnames : w.disk.Names w.workingDir l.path → w'.disk.Names w.workingDir l.path)
    (hfile : ∀ content, w.disk.node? (l.place w) = some (.file content) →
      w'.disk.node? (l.place w) = some (.file content)) : l.text? w' = .ok text := by
  obtain ⟨hnames₀, content, hfile₀, hcontent⟩ := Disk.names_of_readText htext
  have hnames' : w'.disk.Names w'.workingDir l.path := by
    rw [hdir]
    exact hnames hnames₀
  have hfile' : w'.disk.node? (Disk.lexical w'.workingDir l.path) = some (.file content) := by
    rw [hdir]
    exact hfile content hfile₀
  rw [text?, Disk.readText, hnames'.read_eq, hfile']
  simp only [ok_bind, hcontent]
  rfl

/-- Steps beside the ledger leave its text as it is. -/
theorem text?_grown {text : String} (h : Grown (l.place w) w w') (htext : l.text? w = .ok text) :
    l.text? w' = .ok text :=
  text?_of_spared htext h.workingDir (fun hnames => hnames.mono h.disk.directories)
    fun content => (h.disk.file content).mpr

theorem Shows.grown (hshows : l.Shows w d) (h : Grown (l.place w) w w') : l.Shows w' d := by
  obtain ⟨text, obj, htext, hobj, hd⟩ := hshows
  exact ⟨text, obj, text?_grown h htext, hobj, hd⟩

/-- A file with the text of a sound document shows the document. -/
theorem shows_of_file (hd : d.Sound) (hnames : w.disk.Names w.workingDir l.path)
    (hfile : w.disk.node? (l.place w) = some (.file d.body.toUTF8)) : l.Shows w d :=
  ⟨d.body, d.stored, hnames.readText_eq hfile, classify_body hd, ofObject_stored hd.toWellFormed⟩

/-! ## Saving -/

/-- A calm world with the clock and the working directory of another. -/
structure Later (w w' : World) : Prop where
  calm : w'.Calm
  workingDir : w'.workingDir = w.workingDir
  now : w'.now = w.now

theorem Later.refl (hw : w.Calm) : Later w w := ⟨hw, rfl, rfl⟩

theorem Later.trans {w'' : World} (h : Later w w') (h' : Later w' w'') : Later w w'' :=
  ⟨h'.calm, h'.workingDir.trans h.workingDir, h'.now.trans h.now⟩

theorem later_of_grown {P : Place} (hw : w.Calm) (h : Grown P w w') : Later w w' :=
  ⟨h.calm hw, h.workingDir, h.now⟩

theorem later_of_spares {S : Place → Prop} (hw : w.Calm) (h : Spares S w w') : Later w w' :=
  ⟨h.calm hw, h.workingDir, h.now⟩

theorem Later.placeOf (h : Later w w') (path : Path) : w'.placeOf path = w.placeOf path := by
  rw [World.placeOf, h.workingDir, World.placeOf]

theorem Later.place (h : Later w w') : l.place w' = l.place w := h.placeOf l.path

theorem avoids_later {P : Place} (h : l.sink.Avoids w P) (hlater : Later w w') :
    l.sink.Avoids w' P := h.same hlater.workingDir

/-- Saving either leaves the text of the document in the file of the ledger, or fails with a cause
of the disk and leaves the file as it was. -/
theorem ends_save (hw : w.Calm) (hd : d.Sound) (hbody : d'.body = d.body) :
    Trial.Ends w (l.save d') fun r w' =>
      (r = .ok () ∧ Later w w' ∧ l.Shows w' d) ∨
      ∃ cause, r = .error (.io cause) ∧ Grown (l.place w) w w' := by
  refine (ends_save_steps hw.steady d').imp fun r w' h => ?_
  cases h with
  | @failed cause _ hsteps =>
    exact .inr ⟨cause, rfl, hsteps.toSpares.toGrown hw (placeOf_draftPath_ne l w).symm⟩
  | refused _ hlacks => exact nomatch (hbody ▸ hlacks).symm.trans (classify_body hd)
  | saved hsteps _ hholds =>
    obtain ⟨hnames, hfile⟩ := holds_iff.mp hholds
    refine .inl ⟨rfl, later_of_spares hw hsteps.toSpares, shows_of_file hd hnames ?_⟩
    rw [← hbody]
    exact hfile

/-- What is known of the ledger after a save. -/
structure Saved (l : Ledger) (d : Document) (w w' : World) : Prop where
  later : Later w w'
  text : l.text? w' = .ok d.body
  accepted : ∃ obj, classify d.body.toList = .ok obj
  noDraft : w'.disk.node? (w.placeOf l.draftPath) = none

/-- A save that succeeds leaves its text, which is accepted, and no draft, whatever the document. -/
theorem ends_save_text (hw : w.Calm) (d : Document) :
    Trial.Ends w (l.save d) fun r w' => r = .ok () → l.Saved d w w' := by
  refine (ends_save_steps hw.steady d).imp fun r w' h hr => ?_
  cases h with
  | failed => cases hr
  | refused => cases hr
  | @saved obj _ hsteps haccepted hholds hgone =>
    obtain ⟨hnames, hfile⟩ := holds_iff.mp hholds
    exact ⟨later_of_spares hw hsteps.toSpares, hnames.readText_eq hfile, ⟨obj, haccepted⟩, hgone⟩

/-! ## Loading -/

/-- What a project without a ledger starts with. -/
def IsFresh (l : Ledger) (d : Document) : Prop :=
  ∃ time event, d = .fresh ⟨freshContext l.project.root time, freshSession event time⟩

theorem IsFresh.sound (h : l.IsFresh d) : d.Sound := by
  obtain ⟨time, event, rfl⟩ := h
  exact sound_fresh l.project.root time event time

theorem IsFresh.approvalStates (h : l.IsFresh d) : d.approvalStates = [] := by
  obtain ⟨time, event, rfl⟩ := h
  rfl

theorem ends_freshSections_steps (hw : w.Steady) (S : Place → Prop) :
    Ends w l.freshSections fun f w' =>
      Steps S w w' ∧ w'.disk = w.disk ∧ l.IsFresh (.fresh f) :=
  ends_timeStamp_bind.mpr
    ((ends_newEvent_steps hw S).bind fun event _ h => ⟨h.1, h.2, stamp w.now, event, rfl⟩)

theorem ends_freshDocument_steps (hw : w.Steady) (S : Place → Prop) :
    Ends w l.freshDocument fun d w' => l.IsFresh d ∧ Steps S w w' ∧ w'.disk = w.disk :=
  (ends_freshSections_steps hw S).bind fun _ _ ⟨h, hdisk, hfresh⟩ => ⟨hfresh, h, hdisk⟩

theorem ends_freshSections (hw : w.Calm) (P : Place) :
    Ends w l.freshSections fun _ w' => Grown P w w' ∧ w'.disk = w.disk :=
  (ends_freshSections_steps hw.steady (· = P)).imp fun _ _ h => ⟨h.1.toGrown hw rfl, h.2.1⟩

theorem ends_freshDocument (hw : w.Calm) (P : Place) :
    Ends w l.freshDocument fun d w' => Grown P w w' ∧ w'.disk = w.disk ∧ l.IsFresh d :=
  (ends_freshDocument_steps hw.steady (· = P)).imp fun _ _ h => ⟨h.2.1.toGrown hw rfl, h.2.2, h.1⟩

/-- Loading gives the document that the ledger shows. -/
theorem ends_load (hw : w.Calm) (hsink : l.sink.Avoids w (l.place w)) (h : l.Shows w d) :
    Ends w l.load fun d' w' => d' = d ∧ Grown (l.place w) w w' := by
  obtain ⟨text, obj, htext, hobj, hd⟩ := h
  refine (ends_readText hw (l.place w) l.path).bind ?_
  rintro _ w₁ ⟨rfl, -, h₁⟩
  rw [show w.disk.readText w.workingDir l.path = .ok text from htext]
  simp only [hobj]
  refine (ends_freshSections (h₁.calm hw) (l.place w)).bind fun f w₂ ⟨h₂, _⟩ => ?_
  have hgrown := h₁.trans h₂
  refine (ends_recordAll (hgrown.calm hw) (hsink.grown hgrown) _).bind fun _ w₃ h₃ => ?_
  exact ⟨hd f, hgrown.trans h₃⟩

/-- Loading where there is no ledger gives a fresh document and changes nothing on the disk. -/
theorem ends_load_absent (hw : w.Calm) (P : Place) (h : l.text? w = .error .notFound) :
    Ends w l.load fun d w' => l.IsFresh d ∧ Grown P w w' ∧ w'.disk = w.disk := by
  refine (ends_readText hw P l.path).bind ?_
  rintro _ w₁ ⟨rfl, hdisk₁, h₁⟩
  rw [show w.disk.readText w.workingDir l.path = .error .notFound from h]
  refine (ends_freshDocument (h₁.calm hw) P).imp fun d w₂ ⟨h₂, hdisk₂, hfresh⟩ => ?_
  exact ⟨hfresh, h₁.trans h₂, hdisk₂.trans hdisk₁⟩

/-! ## Loading where no file is -/

/-- No file is at the place of the ledger. -/
def HasNoFile (l : Ledger) (w : World) : Prop :=
  ∀ content, w.disk.node? (l.place w) ≠ some (.file content)

theorem HasNoFile.grown (h : l.HasNoFile w) (hgrown : Grown (l.place w) w w') :
    l.HasNoFile w' := by
  intro content hfile
  rw [place_grown hgrown] at hfile
  exact h content ((hgrown.disk.file content).mp hfile)

theorem ends_backupPath (hw : w.Calm) (P : Place) (kind : String) :
    Ends w (l.backupPath kind) fun _ w' => Grown P w w' :=
  ends_timeStamp_bind.mpr ((ends_newEvent hw P).bind fun _ _ h => h.1)

/-- Moving aside what is no file leaves nothing behind, unless it fails. -/
theorem ends_rename_aside (hw : w.Calm) (hnone : l.HasNoFile w)
    (hout : ¬l.place w <+: w.workingDir) (backup : Path) :
    Ends w (rename l.path backup) fun _ w' => Later w w' ∧ l.HasNoFile w' := by
  refine ends_change hw (fun disk plan h hplan => ?_) fun _ _ _ hplan =>
    ⟨⟨⟨hw.tree, hw.home, hplan⟩, rfl, rfl⟩, hnone⟩
  obtain ⟨n, -, -, ⟨-, rfl⟩ | hmoves⟩ := Disk.rename_eq_ok hw.tree hw.home h
  · exact ⟨⟨⟨hw.tree, hw.home, hplan⟩, rfl, rfl⟩, hnone⟩
  · have hhome : disk.node? w.workingDir = some .directory :=
      hmoves.directory hw.tree hw.home hout
    refine ⟨⟨⟨hmoves.tree hw.tree, hhome, hplan⟩, rfl, rfl⟩, fun content hfile => ?_⟩
    have hgone : disk.node? (l.place w) = none := hmoves.source_after
    exact nomatch hgone.symm.trans hfile

theorem ends_recoverCorrupt (hw : w.Calm) (hsink : l.sink.Avoids w (l.place w))
    (hnone : l.HasNoFile w) (hout : ¬l.place w <+: w.workingDir) (reason : String) :
    Ends w (l.recoverCorrupt reason) fun d w' => l.IsFresh d ∧ Later w w' ∧ l.HasNoFile w' := by
  refine (ends_backupPath hw (l.place w) _).bind fun backup w₁ h₁ => ?_
  have hlater₁ := later_of_grown hw h₁
  have hout₁ : ¬l.place w₁ <+: w₁.workingDir := by rwa [hlater₁.place, hlater₁.workingDir]
  refine (ends_rename_aside hlater₁.calm (hnone.grown h₁) hout₁ backup).bind ?_
  rintro r w₂ ⟨hlater₂, hnone₂⟩
  have hsink₂ : l.sink.Avoids w₂ (l.place w₂) := by
    rw [hlater₂.place, hlater₁.place]
    exact avoids_later hsink (hlater₁.trans hlater₂)
  -- whether or not it could be moved aside, a notice is recorded and a new document made
  have hrecord : ∀ n, Ends w₂ (do l.sink.record n; l.freshDocument) fun d w' =>
      l.IsFresh d ∧ Later w w' ∧ l.HasNoFile w' := by
    intro n
    refine (ends_record hlater₂.calm hsink₂ n).bind fun _ w₃ h₃ => ?_
    refine (ends_freshDocument (h₃.calm hlater₂.calm) (l.place w₃)).imp ?_
    rintro d w₄ ⟨h₄, -, hfresh⟩
    have hlater₃ := later_of_grown hlater₂.calm h₃
    exact ⟨hfresh, (hlater₁.trans hlater₂).trans (hlater₃.trans (later_of_grown hlater₃.calm h₄)),
      (hnone₂.grown h₃).grown h₄⟩
  cases r with
  | ok u => exact hrecord _
  | error cause => exact hrecord _

/-- Loading where no file is gives a fresh document. A directory in the place of the ledger may be
moved aside. -/
theorem ends_load_hasNoFile (hw : w.Calm) (hsink : l.sink.Avoids w (l.place w))
    (hnone : l.HasNoFile w) (hout : ¬l.place w <+: w.workingDir) :
    Ends w l.load fun d w' => l.IsFresh d ∧ Later w w' ∧ l.HasNoFile w' := by
  cases htext : l.text? w with
  | ok text =>
    obtain ⟨-, content, hfile, -⟩ := Disk.names_of_readText htext
    exact absurd hfile (hnone content)
  | error cause =>
    by_cases hcause : cause = .notFound
    · subst hcause
      refine (ends_load_absent hw (l.place w) htext).imp ?_
      rintro d w' ⟨hfresh, hgrown, -⟩
      exact ⟨hfresh, later_of_grown hw hgrown, hnone.grown hgrown⟩
    · -- something that is not a file is in the place of the ledger, which counts as corrupt
      refine (ends_readText hw (l.place w) l.path).bind ?_
      rintro _ w₁ ⟨rfl, -, h₁⟩
      have hlater := later_of_grown hw h₁
      have hsink₁ := hsink.grown h₁
      have hout₁ : ¬l.place w₁ <+: w₁.workingDir := by rwa [hlater.place, hlater.workingDir]
      rw [← hlater.place] at hsink₁
      have hrecover := ends_recoverCorrupt hlater.calm hsink₁ (hnone.grown h₁) hout₁
        ("unreadable: " ++ cause.message)
      rw [show w.disk.readText w.workingDir l.path = .error cause from htext]
      simp only
      exact hrecover.imp fun d w' h => ⟨h.1, hlater.trans h.2.1, h.2.2⟩

end EditGate.Ledger
