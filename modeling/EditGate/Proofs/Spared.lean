import EditGate.Proofs.World
import Mathlib.Data.List.Infix

/-!
# Files that runs spare

A world is steady if its disk is a tree with the working directory in it. Disk steps at other places
spare the files at some places (`World.Steps`), whichever failures are planned, and so does
recording notices that go elsewhere (`ends_recordAll_spares`).
-/

namespace EditGate

variable {w w' w'' : World} {S T : Place → Prop} {P : Place} {path : Path} {bytes : ByteArray}

namespace World

/-- The disk is a tree that the working directory is in. -/
structure Steady (w : World) : Prop where
  tree : w.disk.IsTree
  home : w.disk.node? w.workingDir = some .directory

theorem Steady.same (hw : w.Steady) (hdisk : w'.disk = w.disk)
    (hdir : w'.workingDir = w.workingDir) : w'.Steady := by
  refine ⟨hdisk ▸ hw.tree, ?_⟩
  rw [hdisk, hdir]
  exact hw.home

/-- A world from another by runs that spare the files at some places, and all directories. -/
structure Spares (S : Place → Prop) (w w' : World) : Prop where
  tree : w'.disk.IsTree
  directories : Disk.KeepsDirectories w.disk w'.disk
  files : ∀ P, S P → ∀ content,
    w'.disk.node? P = some (.file content) ↔ w.disk.node? P = some (.file content)
  workingDir : w'.workingDir = w.workingDir
  now : w'.now = w.now
  plan : w'.plan <:+ w.plan

/-- A world from another by disk steps that spare the files at some places: no diagnostic is
kept. -/
structure Steps (S : Place → Prop) (w w' : World) : Prop extends Spares S w w' where
  kept : w'.kept = w.kept

namespace Spares

theorem refl (S : Place → Prop) (hw : w.Steady) : Spares S w w :=
  ⟨hw.tree, fun _ h => h, fun _ _ _ => Iff.rfl, rfl, rfl, List.suffix_rfl⟩

theorem trans (h : Spares S w w') (h' : Spares S w' w'') : Spares S w w'' where
  tree := h'.tree
  directories p hp := h'.directories p (h.directories p hp)
  files P hP content := (h'.files P hP content).trans (h.files P hP content)
  workingDir := h'.workingDir.trans h.workingDir
  now := h'.now.trans h.now
  plan := h'.plan.trans h.plan

theorem mono (h : Spares S w w') (hTS : ∀ P, T P → S P) : Spares T w w' :=
  { h with files := fun P hP => h.files P (hTS P hP) }

theorem steady (h : Spares S w w') (hw : w.Steady) : w'.Steady where
  tree := h.tree
  home := by
    rw [h.workingDir]
    exact h.directories _ hw.home

theorem placeOf (h : Spares S w w') (path : Path) : w'.placeOf path = w.placeOf path := by
  rw [World.placeOf, h.workingDir, World.placeOf]

theorem grown (h : Spares S w w') (hP : S P) : Disk.Grown P w.disk w'.disk :=
  ⟨h.tree, h.directories, h.files P hP⟩

/-- The bytes of a file that is spared stay. -/
theorem bytesAt (h : Spares S w w') (hP : S P) : w'.disk.bytesAt P = w.disk.bytesAt P := by
  have hfile := h.files P hP
  unfold Disk.bytesAt
  cases hnode : w.disk.node? P with
  | none =>
    split
    · rename_i content hcontent
      exact nomatch hnode.symm.trans ((hfile content).mp hcontent)
    · rfl
  | some n =>
    cases n with
    | file content => rw [(hfile content).mpr hnode]
    | directory => rw [h.directories P hnode]

end Spares

namespace Steps

theorem refl (S : Place → Prop) (hw : w.Steady) : Steps S w w := ⟨.refl S hw, rfl⟩

theorem trans (h : Steps S w w') (h' : Steps S w' w'') : Steps S w w'' :=
  ⟨h.toSpares.trans h'.toSpares, h'.kept.trans h.kept⟩

theorem mono (h : Steps S w w') (hTS : ∀ P, T P → S P) : Steps T w w' :=
  ⟨h.toSpares.mono hTS, h.kept⟩

/-- A step that fails uses up its part of the plan. -/
theorem of_plan (S : Place → Prop) (hw : w.Steady) {plan : List (Option Disk.Cause)}
    (h : plan <:+ w.plan) : Steps S w { w with plan } :=
  ⟨⟨hw.tree, fun _ h => h, fun _ _ _ => Iff.rfl, rfl, rfl, h⟩, rfl⟩

end Steps

/-! ## Bytes at paths -/

/-- The bytes are read at the path. -/
def Holds (w : World) (path : Path) (bytes : ByteArray) : Prop :=
  w.disk.read w.workingDir path = .ok bytes

instance (w : World) (path : Path) (bytes : ByteArray) : Decidable (w.Holds path bytes) :=
  inferInstanceAs (Decidable (w.disk.read w.workingDir path = .ok bytes))

theorem holds_iff :
    w.Holds path bytes ↔
      w.disk.Names w.workingDir path ∧ w.disk.node? (w.placeOf path) = some (.file bytes) := by
  refine ⟨Disk.names_of_read, fun ⟨hnames, hfile⟩ => ?_⟩
  rw [Holds, hnames.read_eq, ← World.placeOf, hfile]

/-- The bytes of a file that is spared are read where they were. -/
theorem Holds.spares (h : w.Holds path bytes) (hspares : Spares S w w')
    (hplace : S (w.placeOf path)) : w'.Holds path bytes := by
  rw [holds_iff] at h ⊢
  rw [hspares.workingDir, hspares.placeOf]
  exact ⟨h.1.mono hspares.directories, (hspares.files _ hplace bytes).mpr h.2⟩

theorem Holds.bytesAt (h : w.Holds path bytes) : w.disk.bytesAt (w.placeOf path) = bytes := by
  rw [Disk.bytesAt, (holds_iff.mp h).2]

end World

namespace Run

open World (Spares Steps)

/-! ## Steps beside places -/

/-- A change that spares some places when it is carried out spares them. -/
theorem ends_change_steps {f : Disk → Place → Except Disk.Cause Disk} (hw : w.Steady)
    (hgrown : ∀ disk, f w.disk w.workingDir = .ok disk →
      disk.IsTree ∧ Disk.KeepsDirectories w.disk disk ∧ ∀ P, S P → Disk.Grown P w.disk disk) :
    Ends w (change f) fun r w' => Steps S w w' ∧
      ((r = .ok () ∧ f w.disk w.workingDir = .ok w'.disk) ∨
        ∃ cause, r = .error cause ∧ w'.disk = w.disk) := by
  refine ends_change_planned (fun cause plan hplan => ?_) (fun disk hf => ?_) fun cause _ => ?_
  · exact ⟨.of_plan S hw ⟨[_], hplan.symm⟩, .inr ⟨cause, rfl, rfl⟩⟩
  · obtain ⟨htree, hdirectories, hfiles⟩ := hgrown disk hf
    have hspares : Spares S w { w with disk, plan := w.plan.drop 1 } :=
      ⟨htree, hdirectories, fun P hP => (hfiles P hP).file, rfl, rfl, List.drop_suffix 1 w.plan⟩
    exact ⟨⟨hspares, rfl⟩, .inl ⟨rfl, hf⟩⟩
  · exact ⟨.of_plan S hw (List.drop_suffix 1 w.plan), .inr ⟨cause, rfl, rfl⟩⟩

/-- A change at one place spares the others. -/
theorem spares_others {d d' : Disk} {p : Place} (h : ∀ P, p ≠ P → Disk.Grown P d d')
    (hp : ¬S p) : d'.IsTree ∧ Disk.KeepsDirectories d d' ∧ ∀ P, S P → Disk.Grown P d d' := by
  have hbelow : p ≠ p ++ [""] := by simp
  exact ⟨(h _ hbelow).tree, (h _ hbelow).directories, fun P hP => h P fun he => hp (he ▸ hP)⟩

theorem ends_readText_steps (hw : w.Steady) (S : Place → Prop) (path : Path) :
    Ends w (readText path) fun _ w' => Steps S w w' :=
  ends_look_planned (fun _ _ hplan => .of_plan S hw ⟨[_], hplan.symm⟩)
    (.of_plan S hw (List.drop_suffix 1 w.plan))

theorem ends_sync_steps (hw : w.Steady) (S : Place → Prop) :
    Ends w sync fun _ w' => Steps S w w' := by
  refine (ends_change_steps hw ?_).imp fun _ _ h => h.1
  rintro _ ⟨⟩
  exact ⟨hw.tree, fun _ h => h, fun P _ => .refl P hw.tree⟩

theorem ends_makeDirectory_steps (hw : w.Steady) (S : Place → Prop) (path : Path) :
    Ends w (makeDirectory path) fun _ w' => Steps S w w' := by
  refine (ends_change_steps hw fun disk h => ?_).imp fun _ _ h => h.1
  obtain ⟨hopen, hnone, rfl⟩ := Disk.makeDirectory_eq_ok hw.tree hw.home h
  have hgrown (P : Place) := Disk.grown_put_directory (P := P) hw.tree hopen hnone
  exact ⟨(hgrown []).tree, (hgrown []).directories, fun P _ => hgrown P⟩

theorem ends_makeParents_steps (hw : w.Steady) (S : Place → Prop) (path : Path) :
    Ends w (makeParents path) fun _ w' => Steps S w w' :=
  ends_makeParents_of (R := fun w w' => w.Steady → Steps S w w') (C := fun _ => True)
    (fun _ => .refl S) (fun h h' hw => (h hw).trans (h' ((h hw).steady hw))) (fun _ h => h)
    (fun _ {path} _ hw => ends_makeDirectory_steps hw S path) trivial hw

/-- A file that is made is empty. -/
theorem ends_createFile_steps (hw : w.Steady) (hplace : ¬S (w.placeOf path)) :
    Ends w (createFile path) fun r w' => Steps S w w' ∧ (r = .ok () → w'.Holds path .empty) := by
  refine (ends_change_steps hw fun disk h => ?_).imp fun r w' ⟨hsteps, hcases⟩ => ⟨hsteps, ?_⟩
  · obtain ⟨-, hopen, rfl⟩ := Disk.create_eq_ok hw.tree hw.home h
    exact spares_others (fun P hP => Disk.grown_put_file hw.tree hopen hP .empty) hplace
  · rintro rfl
    rcases hcases with ⟨-, h⟩ | ⟨cause, hcause, -⟩
    · obtain ⟨hnames, hopen, hdisk⟩ := Disk.create_eq_ok hw.tree hw.home h
      rw [World.holds_iff, hsteps.placeOf, hsteps.workingDir]
      refine ⟨hnames.mono hsteps.directories, ?_⟩
      rw [hdisk]
      exact Disk.node?_put_self hopen.ne_nil
    · cases hcause

/-- Bytes that are added stand behind those that were there. -/
theorem ends_appendText_steps (hw : w.Steady) (hplace : ¬S (w.placeOf path)) (text : String) :
    Ends w (appendText path text) fun r w' => Steps S w w' ∧
      (r = .ok () → w'.Holds path (w.disk.bytesAt (w.placeOf path) ++ text.toUTF8)) := by
  refine (ends_change_steps hw fun disk h => ?_).imp fun r w' ⟨hsteps, hcases⟩ => ⟨hsteps, ?_⟩
  · obtain ⟨-, hopen, rfl⟩ := Disk.append_eq_ok hw.tree hw.home h
    exact spares_others (fun P hP => Disk.grown_put_file hw.tree hopen hP _) hplace
  · rintro rfl
    rcases hcases with ⟨-, h⟩ | ⟨cause, hcause, -⟩
    · obtain ⟨hnames, hopen, hdisk⟩ := Disk.append_eq_ok hw.tree hw.home h
      rw [World.holds_iff, hsteps.placeOf, hsteps.workingDir]
      refine ⟨hnames.mono hsteps.directories, ?_⟩
      rw [hdisk]
      exact Disk.node?_put_self hopen.ne_nil
    · cases hcause

theorem ends_writeText_steps (hw : w.Steady) (hplace : ¬S (w.placeOf path)) (text : String) :
    Ends w (writeText path text) fun r w' => Steps S w w' ∧
      (r = .ok () → w'.Holds path text.toUTF8) := by
  refine (ends_createFile_steps hw hplace).bind fun r w₁ ⟨h₁, hempty⟩ => ?_
  cases r with
  | error cause => exact ⟨h₁, nofun⟩
  | ok u =>
    have hplace₁ : ¬S (w₁.placeOf path) := by rwa [h₁.placeOf]
    refine (ends_appendText_steps (h₁.steady hw) hplace₁ text).imp fun r w₂ ⟨h₂, hholds⟩ => ?_
    rw [(hempty rfl).bytesAt, ByteArray.empty_append] at hholds
    exact ⟨h₁.trans h₂, hholds⟩

/-- A file that cannot be written is as it was, or empty. -/
theorem ends_writeText_failed (hw : w.Steady) (text : String) :
    Ends w (writeText path text) fun r w' =>
      ∀ cause, r = .error cause → w'.disk = w.disk ∨ w'.Holds path .empty := by
  have hcreate : Ends w (createFile path) fun r w' =>
      Steps (fun _ => False) w w' ∧ (r = .ok () → w'.Holds path .empty) :=
    ends_createFile_steps hw nofun
  refine (hcreate.and (ends_change_failed _ w)).bind fun r w₁ ⟨⟨h₁, hempty⟩, hfailed⟩ => ?_
  cases r with
  | error cause => exact fun _ _ => .inl (hfailed cause rfl)
  | ok u =>
    -- the file is there and empty, and if its text cannot be written it stays so
    have happend : Ends w₁ (appendText path text) fun r w' => Steps (fun _ => False) w₁ w' ∧
        (r = .ok () → w'.Holds path (w₁.disk.bytesAt (w₁.placeOf path) ++ text.toUTF8)) :=
      ends_appendText_steps (h₁.steady hw) nofun text
    refine (happend.and (ends_change_failed _ w₁)).imp ?_
    rintro r w₂ ⟨⟨h₂, -⟩, hfailed₂⟩ cause hcause
    have hholds := hempty rfl
    rw [World.Holds] at hholds ⊢
    rw [h₂.workingDir, hfailed₂ cause hcause]
    exact .inr hholds

theorem ends_removeFile_steps (hw : w.Steady) (hplace : ¬S (w.placeOf path)) :
    Ends w (removeFile path) fun _ w' => Steps S w w' := by
  refine (ends_change_steps hw fun disk h => ?_).imp fun _ _ h => h.1
  obtain ⟨-, content, hfile, rfl⟩ := Disk.removeFile_eq_ok h
  exact spares_others (fun P hP => Disk.grown_remove_file hw.tree hfile hP) hplace

/-- A file is moved, or a step fails and it stays. -/
theorem ends_rename_steps {source target : Path} (hw : w.Steady) (hholds : w.Holds source bytes)
    (hne : w.placeOf source ≠ w.placeOf target) :
    Ends w (rename source target) fun r w' =>
      (r = .ok () ∧ Steps (fun P => P ≠ w.placeOf source ∧ P ≠ w.placeOf target) w w' ∧
        w'.Holds target bytes ∧ w'.disk.node? (w.placeOf source) = none) ∨
      ∃ cause, r = .error cause ∧ Steps (fun _ => True) w w' := by
  refine ends_change_planned (fun cause plan hplan => ?_) (fun disk h => ?_) fun cause _ => ?_
  · exact .inr ⟨cause, rfl, .of_plan _ hw ⟨[_], hplan.symm⟩⟩
  · obtain ⟨n, hn, hnames, hmoves⟩ := Disk.rename_eq_ok hw.tree hw.home h
    obtain rfl : n = .file bytes := Option.some.inj (hn.symm.trans (World.holds_iff.mp hholds).2)
    rcases hmoves with ⟨hsame, -⟩ | hmoves
    · exact absurd hsame hne
    · have hkeeps := hmoves.keepsDirectories hw.tree
      refine .inl ⟨rfl, ⟨⟨hmoves.tree hw.tree, hkeeps, ?_, rfl, rfl, List.drop_suffix 1 w.plan⟩,
        rfl⟩, ?_, hmoves.source_after⟩
      · rintro P ⟨hsource, htarget⟩ content
        rw [hmoves.elsewhere hw.tree hsource htarget]
      · exact World.holds_iff.mpr ⟨(hnames (by simp)).mono hkeeps, hmoves.target_after⟩
  · exact .inr ⟨cause, rfl, .of_plan _ hw (List.drop_suffix 1 w.plan)⟩

theorem ends_newEvent_steps (hw : w.Steady) (S : Place → Prop) :
    Ends w newEvent fun _ w' => Steps S w w' ∧ w'.disk = w.disk :=
  ⟨⟨⟨hw.tree, fun _ h => h, fun _ _ _ => Iff.rfl, rfl, rfl, List.suffix_rfl⟩, rfl⟩, rfl⟩

end Run

/-! ## Recording notices -/

open Run
open World (Spares Steps)

variable {sink : Sink}

/-- Notices do not go to the place, seen from the world. -/
def Sink.Avoids (sink : Sink) (w : World) (P : Place) : Prop :=
  ∀ path, sink = .journal path → w.placeOf path ≠ P

theorem Sink.Avoids.same (h : sink.Avoids w P) (hdir : w'.workingDir = w.workingDir) :
    sink.Avoids w' P := by
  intro path hpath
  rw [World.placeOf, hdir]
  exact h path hpath

theorem Sink.Avoids.spares (h : sink.Avoids w P) (hspares : Spares S w w') :
    sink.Avoids w' P := h.same hspares.workingDir

theorem ends_appendToJournal_steps (hw : w.Steady) (hplace : ¬S (w.placeOf path))
    (d : Diagnostic) : Ends w (appendToJournal path d) fun _ w' => Steps S w w' := by
  refine (ends_makeParents_steps hw S path).bind fun r w₁ h₁ => ?_
  cases r with
  | error cause => exact h₁
  | ok u =>
    have hplace₁ : ¬S (w₁.placeOf path) := by rwa [h₁.placeOf]
    exact (ends_appendText_steps (h₁.steady hw) hplace₁ _).bind fun _ _ h₂ => h₁.trans h₂.1

/-- Recording a notice spares all files that it does not go to. -/
theorem ends_record_spares (hw : w.Steady) (hsink : ∀ P, S P → sink.Avoids w P) (n : Notice) :
    Ends w (sink.record n) fun _ w' => Spares S w w' := by
  refine ends_timeStamp_bind.mpr ?_
  refine (ends_newEvent_steps hw S).bind fun event w₁ ⟨h₁, _⟩ => ?_
  have hw₁ := h₁.steady hw
  cases sink with
  | keep =>
    exact h₁.toSpares.trans
      ⟨hw₁.tree, fun _ h => h, fun _ _ _ => Iff.rfl, rfl, rfl, List.suffix_rfl⟩
  | discard => exact h₁.toSpares
  | journal path =>
    have hplace₁ : ¬S (w₁.placeOf path) := by
      rw [h₁.placeOf]
      exact fun hS => hsink _ hS path rfl rfl
    exact (ends_appendToJournal_steps hw₁ hplace₁ _).imp fun _ _ h₂ => (h₁.trans h₂).toSpares

theorem ends_recordAll_spares (hw : w.Steady) (hsink : ∀ P, S P → sink.Avoids w P)
    (ns : List Notice) : Ends w (sink.recordAll ns) fun _ w' => Spares S w w' := by
  induction ns generalizing w with
  | nil => exact .refl S hw
  | cons n ns ih =>
    refine (ends_record_spares hw hsink n).bind fun _ w₁ h₁ => ?_
    have hsink₁ : ∀ P, S P → sink.Avoids w₁ P := fun P hP => (hsink P hP).spares h₁
    exact (ih (h₁.steady hw) hsink₁).imp fun _ _ h₂ => h₁.trans h₂

/-- Recording keeps all directories, wherever notices go. -/
theorem ends_record_keeps (hw : w.Steady) (sink : Sink) (n : Notice) :
    Ends w (sink.record n) fun _ w' => Spares (fun _ => False) w w' :=
  ends_record_spares hw (fun _ h => h.elim) n

theorem ends_recordAll_keeps (hw : w.Steady) (sink : Sink) (ns : List Notice) :
    Ends w (sink.recordAll ns) fun _ w' => Spares (fun _ => False) w w' :=
  ends_recordAll_spares hw (fun _ h => h.elim) ns

end EditGate
