import EditGate.Proofs.Spared

/-!
# Calm worlds

A world is calm if its disk is a tree with the working directory in it and no step is planned to
fail. Runs that look, make directories, write files beside a place or record notices leave a calm
world with the file at that place as it was (`World.Grown`), and where the disk allows it they
succeed.
-/

namespace EditGate

variable {w w' : World} {S : Place → Prop} {P : Place} {path : Path} {bytes : ByteArray}

namespace World

/-- The disk is a tree that the working directory is in, and no step is planned to fail. -/
structure Calm (w : World) : Prop where
  tree : w.disk.IsTree
  home : w.disk.node? w.workingDir = some .directory
  unplanned : ∀ o ∈ w.plan, o = none

theorem Calm.steady (hw : w.Calm) : w.Steady := ⟨hw.tree, hw.home⟩

theorem Calm.unhindered (hw : w.Calm) : w.Unhindered := fun cause _ h =>
  nomatch hw.unplanned (some cause) (h ▸ List.mem_cons_self)

/-- A calm world from another by steps beside `P`. -/
structure Grown (P : Place) (w w' : World) : Prop where
  disk : Disk.Grown P w.disk w'.disk
  workingDir : w'.workingDir = w.workingDir
  now : w'.now = w.now
  unplanned : ∀ o ∈ w'.plan, o = none

theorem Grown.calm (h : Grown P w w') (hw : w.Calm) : w'.Calm where
  tree := h.disk.tree
  home := by
    rw [h.workingDir]
    exact h.disk.directories _ hw.home
  unplanned := h.unplanned

theorem Grown.refl (P : Place) (hw : w.Calm) : Grown P w w :=
  ⟨.refl P hw.tree, rfl, rfl, hw.unplanned⟩

theorem Grown.trans {w'' : World} (h : Grown P w w') (h' : Grown P w' w'') : Grown P w w'' :=
  ⟨h.disk.trans h'.disk, h'.workingDir.trans h.workingDir, h'.now.trans h.now, h'.unplanned⟩

/-- Sparing the files at some places keeps a world calm. -/
theorem Spares.calm (h : Spares S w w') (hw : w.Calm) : w'.Calm where
  tree := h.tree
  home := (h.steady hw.steady).home
  unplanned o ho := hw.unplanned o (h.plan.subset ho)

/-- Sparing the file at a place is growing beside it. -/
theorem Spares.toGrown (h : Spares S w w') (hw : w.Calm) (hP : S P) : Grown P w w' :=
  ⟨h.grown hP, h.workingDir, h.now, (h.calm hw).unplanned⟩

/-- Bytes are read where they were if the working directory is the same. -/
theorem Spares.holds_iff (h : Spares S w w') :
    w'.Holds path bytes ↔ w'.disk.Names w.workingDir path ∧
      w'.disk.node? (w.placeOf path) = some (.file bytes) := by
  rw [World.holds_iff, h.workingDir, h.placeOf]

theorem Grown.placeOf (h : Grown P w w') (path : Path) : w'.placeOf path = w.placeOf path := by
  rw [World.placeOf, h.workingDir, World.placeOf]

theorem Holds.grown (h : w.Holds path bytes) (hgrown : Grown (w.placeOf path) w w') :
    w'.Holds path bytes := by
  obtain ⟨hnames, hfile⟩ := World.holds_iff.mp h
  rw [World.holds_iff, hgrown.placeOf, hgrown.workingDir]
  exact ⟨hnames.mono hgrown.disk.directories, (hgrown.disk.file bytes).mpr hfile⟩

end World

namespace Run

open World (Grown Calm)

/-! ## Steps -/

/-- A step that changes the disk does so or fails. -/
theorem ends_change {f : Disk → Place → Except Disk.Cause Disk} (hw : w.Calm)
    {post : Except Disk.Cause Unit → World → Prop}
    (hok : ∀ disk plan, f w.disk w.workingDir = .ok disk → (∀ o ∈ plan, o = none) →
      post (.ok ()) { w with disk, plan })
    (herror : ∀ cause plan, f w.disk w.workingDir = .error cause → (∀ o ∈ plan, o = none) →
      post (.error cause) { w with plan }) : Ends w (change f) post := by
  have hplan : ∀ o ∈ w.plan.drop 1, o = none := fun o ho =>
    hw.unplanned o (List.mem_of_mem_drop ho)
  exact ends_change_planned (fun cause plan h => absurd h (hw.unhindered cause plan))
    (fun disk h => hok disk _ h hplan) fun cause h => herror cause _ h hplan

theorem ends_readText (hw : w.Calm) (P : Place) (path : Path) :
    Ends w (readText path) fun r w' =>
      r = w.disk.readText w.workingDir path ∧ w'.disk = w.disk ∧ Grown P w w' := by
  refine ((ends_readText_unhindered hw.unhindered path).and
    (ends_readText_steps hw.steady (· = P) path)).imp ?_
  rintro r w' ⟨⟨hread, rfl⟩, h⟩
  exact ⟨hread, rfl, h.toGrown hw rfl⟩

/-- Making a file leaves it empty where the path leads. -/
theorem ends_createFile (hw : w.Calm) (hP : w.placeOf path ≠ P) :
    Ends w (createFile path) fun r w' => Grown P w w' ∧
      (r = .ok () → w'.disk.Names w.workingDir path ∧
        w'.disk.node? (w.placeOf path) = some (.file .empty)) :=
  (ends_createFile_steps (S := (· = P)) hw.steady hP).imp fun _ _ h =>
    ⟨h.1.toGrown hw rfl, fun hr => h.1.holds_iff.mp (h.2 hr)⟩

/-- Adding a text leaves it behind what was where the path leads. -/
theorem ends_appendText (hw : w.Calm) (hP : w.placeOf path ≠ P) (text : String) :
    Ends w (appendText path text) fun r w' => Grown P w w' ∧
      (r = .ok () → w'.disk.Names w.workingDir path ∧ w'.disk.node? (w.placeOf path) =
        some (.file (w.disk.bytesAt (w.placeOf path) ++ text.toUTF8))) :=
  (ends_appendText_steps (S := (· = P)) hw.steady hP text).imp fun _ _ h =>
    ⟨h.1.toGrown hw rfl, fun hr => h.1.holds_iff.mp (h.2 hr)⟩

theorem ends_sync (hw : w.Calm) (P : Place) : Ends w sync fun r w' =>
    r = .ok () ∧ w'.disk = w.disk ∧ Grown P w w' :=
  ends_change hw
    (fun _ _ h hplan => by cases h; exact ⟨rfl, rfl, .refl P hw.tree, rfl, rfl, hplan⟩)
    fun _ _ h _ => nomatch h

theorem ends_makeParents (hw : w.Calm) (P : Place) (path : Path) :
    Ends w (makeParents path) fun _ w' => Grown P w w' :=
  (ends_makeParents_steps hw.steady (· = P) path).imp fun _ _ h => h.toGrown hw rfl

/-! ## Steps that succeed -/

theorem ends_change_ok {f : Disk → Place → Except Disk.Cause Disk} {disk : Disk} (hw : w.Calm)
    (h : f w.disk w.workingDir = .ok disk) :
    Ends w (change f) fun r w' => r = .ok () ∧ w'.disk = disk := by
  refine ends_change hw (fun disk' plan h' _ => ?_) fun cause plan h' _ => ?_
  · exact ⟨rfl, Except.ok.inj (h'.symm.trans h)⟩
  · exact nomatch h'.symm.trans h

theorem ends_createFile_ok (hw : w.Calm) (hnames : w.disk.Names w.workingDir path)
    (hfree : w.disk.node? (w.placeOf path) ≠ some .directory) :
    Ends w (createFile path) fun r w' =>
      r = .ok () ∧ w'.disk = w.disk.put (w.placeOf path) (.file .empty) :=
  ends_change_ok hw (hnames.create_eq hfree)

theorem ends_appendText_ok (hw : w.Calm) (hnames : w.disk.Names w.workingDir path)
    (hfree : w.disk.node? (w.placeOf path) ≠ some .directory) (text : String) :
    Ends w (appendText path text) fun r w' => r = .ok () ∧ w'.disk =
      w.disk.put (w.placeOf path) (.file (w.disk.bytesAt (w.placeOf path) ++ text.toUTF8)) :=
  ends_change_ok hw (hnames.append_eq hfree text.toUTF8)

theorem ends_writeText_ok (hw : w.Calm) (hnames : w.disk.Names w.workingDir path)
    (hfree : w.disk.node? (w.placeOf path) ≠ some .directory) (text : String) :
    Ends w (writeText path text) fun r _ => r = .ok () := by
  refine ((ends_createFile_steps (S := fun _ => False) hw.steady nofun).and
    (ends_createFile_ok hw hnames hfree)).bind ?_
  rintro _ w₁ ⟨⟨hsteps, hempty⟩, rfl, -⟩
  obtain ⟨hnames₁, hfile₁⟩ := World.holds_iff.mp (hempty rfl)
  have hfree₁ : w₁.disk.node? (w₁.placeOf path) ≠ some .directory := by simp [hfile₁]
  exact (ends_appendText_ok (hsteps.toSpares.calm hw) hnames₁ hfree₁ text).imp fun _ _ h => h.1

/-- A directory that is there need not be made. -/
theorem ends_makeDirectories_ok (hw : w.Calm) (limit : Nat)
    (hdir : w.disk.isDirectory w.workingDir path = true) :
    Ends w (makeDirectories (limit + 1) path) fun r w' => r = .ok () ∧ w'.disk = w.disk := by
  -- making it fails, and then it is found to be there
  obtain ⟨cause, hmake, hcause⟩ := Disk.makeDirectory_of_isDirectory hdir
  have hfails : Ends w (makeDirectory path) fun r w' =>
      r = .error cause ∧ w'.disk = w.disk ∧ w'.workingDir = w.workingDir := by
    refine ends_change hw (fun disk plan h _ => ?_) fun cause' plan h _ => ?_
    · exact nomatch hmake.symm.trans h
    · exact ⟨congrArg _ (Except.error.inj (h.symm.trans hmake)), rfl, rfl⟩
  rw [makeDirectories]
  split
  · exact ⟨rfl, rfl⟩
  · refine hfails.bind ?_
    rintro _ w' ⟨rfl, hdisk, hhome⟩
    have hthere : w'.disk.isDirectory w'.workingDir path = true := by rw [hdisk, hhome, hdir]
    split
    · rename_i hnot
      exact absurd (Except.error.inj hnot) hcause
    · exact (ends_orThere_ok _ hthere).imp fun r w'' h => ⟨h.1, h.2 ▸ hdisk⟩

theorem ends_makeParents_ok (hw : w.Calm) (hdir : ∀ parent, path.parent? = some parent →
      w.disk.isDirectory w.workingDir parent = true) :
    Ends w (makeParents path) fun r w' => r = .ok () ∧ w'.disk = w.disk := by
  rw [makeParents]
  cases hparent : path.parent? with
  | none => exact ⟨rfl, rfl⟩
  | some parent => exact ends_makeDirectories_ok hw _ (hdir parent hparent)

end Run

/-! ## Recording notices -/

open Run
open World (Grown)

theorem ends_newEvent (hw : w.Calm) (P : Place) :
    Ends w newEvent fun _ w' => Grown P w w' ∧ w'.disk = w.disk :=
  (ends_newEvent_steps hw.steady (· = P)).imp fun _ _ h => ⟨h.1.toGrown hw rfl, h.2⟩

theorem Sink.Avoids.grown {sink : Sink} (h : sink.Avoids w P) (hgrown : Grown P w w') :
    sink.Avoids w' P := h.same hgrown.workingDir

theorem ends_record {sink : Sink} (hw : w.Calm) (hsink : sink.Avoids w P) (n : Notice) :
    Ends w (sink.record n) fun _ w' => Grown P w w' :=
  (ends_record_spares (S := (· = P)) hw.steady (fun _ h => h ▸ hsink) n).imp fun _ _ h =>
    h.toGrown hw rfl

theorem ends_recordAll {sink : Sink} (hw : w.Calm) (hsink : sink.Avoids w P) (ns : List Notice) :
    Ends w (sink.recordAll ns) fun _ w' => Grown P w w' :=
  (ends_recordAll_spares (S := (· = P)) hw.steady (fun _ h => h ▸ hsink) ns).imp fun _ _ h =>
    h.toGrown hw rfl

end EditGate
