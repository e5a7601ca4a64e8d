import EditGate.Proofs.Disk.Way
import EditGate.Proofs.Calm

/-!
# What is off the way

Making a directory and those that lead to it touches nothing that the path does not lead through
(`ends_makeParents_off`), and neither does recording notices in a journal touch what is off the way
of the journal (`ends_recordAll_off`): where nothing was, nothing is afterwards.
-/

namespace EditGate

open Run
open World (Grown Steps)

variable {w w' : World} {P : Place} {path : Path} {sink : Sink}

/-! ## Steps off the way -/

/-- A change that leaves what is at `P` when it is carried out leaves it. -/
theorem ends_change_off {f : Disk → Place → Except Disk.Cause Disk}
    (h : ∀ disk, f w.disk w.workingDir = .ok disk → disk.node? P = w.disk.node? P) :
    Ends w (change f) fun _ w' => w'.disk.node? P = w.disk.node? P :=
  ends_change_planned (fun _ _ _ => rfl) h fun _ _ => rfl

/-- Making directories leaves what is off the way. -/
theorem ends_makeParents_off (hw : w.Steady) (hP : P ∉ Disk.way w.workingDir path) :
    Ends w (makeParents path) fun _ w' =>
      Steps (fun _ => True) w w' ∧ w'.disk.node? P = w.disk.node? P := by
  refine ends_makeParents_of
    (R := fun v v' => v.Steady → v.workingDir = w.workingDir →
      Steps (fun _ => True) v v' ∧ v'.disk.node? P = v.disk.node? P)
    (C := fun path => P ∉ Disk.way w.workingDir path)
    (fun _ hv _ => ⟨.refl _ hv, rfl⟩) ?_ ?_ (fun v path hpath hv hdir => ?_) hP hw rfl
  · intro v v' v'' h h' hv hdir
    obtain ⟨hsteps, hnode⟩ := h hv hdir
    obtain ⟨hsteps', hnode'⟩ := h' (hsteps.steady hv) (hsteps.workingDir.trans hdir)
    exact ⟨hsteps.trans hsteps', hnode'.trans hnode⟩
  · intro path parent hparent hpath
    obtain ⟨front, piece, back, -, hp⟩ := Disk.parent_of_parent? hparent w.workingDir
    exact fun hmem => hpath (hp.way_subset hmem)
  · refine (ends_makeDirectory_steps hv _ path).and (ends_change_off fun disk h => ?_)
    obtain ⟨hopen, -, rfl⟩ := Disk.makeDirectory_eq_ok hv.tree hv.home h
    refine Disk.node?_put_of_ne hopen.ne_nil fun he => hpath ?_
    rw [he, hdir]
    exact Disk.lexical_mem_way _ _

theorem ends_appendText_off (hw : w.Steady) (hP : w.placeOf path ≠ P) (text : String) :
    Ends w (appendText path text) fun _ w' => w'.disk.node? P = w.disk.node? P :=
  ends_change_off fun disk h => by
    obtain ⟨-, hopen, rfl⟩ := Disk.append_eq_ok hw.tree hw.home h
    exact Disk.node?_put_of_ne hopen.ne_nil (Ne.symm hP)

/-! ## Notices off the way -/

/-- The way of the journal does not lead through the place. -/
def Sink.PassesBy (sink : Sink) (w : World) (P : Place) : Prop :=
  ∀ path, sink = .journal path → P ∉ Disk.way w.workingDir path

theorem Sink.PassesBy.avoids (h : sink.PassesBy w P) : sink.Avoids w P :=
  fun path hpath he => h path hpath (he ▸ Disk.lexical_mem_way _ _)

theorem Sink.PassesBy.same (h : sink.PassesBy w P) (hdir : w'.workingDir = w.workingDir) :
    sink.PassesBy w' P := by
  intro path hpath
  rw [hdir]
  exact h path hpath

theorem Sink.PassesBy.grown {Q : Place} (h : sink.PassesBy w P) (hgrown : Grown Q w w') :
    sink.PassesBy w' P := h.same hgrown.workingDir

theorem ends_record_off (hw : w.Steady) (hsink : sink.PassesBy w P) (n : Notice) :
    Ends w (sink.record n) fun _ w' => w'.disk.node? P = w.disk.node? P := by
  refine ends_timeStamp_bind.mpr ?_
  refine (ends_newEvent_steps hw fun _ => True).bind fun event w₁ ⟨h₁, hdisk⟩ => ?_
  cases sink with
  | keep => exact congrArg (Disk.node? · P) hdisk
  | discard => exact congrArg (Disk.node? · P) hdisk
  | journal path =>
    have hP : P ∉ Disk.way w₁.workingDir path := hsink.same h₁.workingDir path rfl
    rw [← hdisk]
    refine (ends_makeParents_off (h₁.steady hw) hP).bind fun r w₂ ⟨h₂, hnode₂⟩ => ?_
    cases r with
    | error cause => exact hnode₂
    | ok u =>
      have hw₂ := h₂.steady (h₁.steady hw)
      have hplace : w₂.placeOf path ≠ P := by
        rw [h₂.placeOf]
        exact fun he => hP (he ▸ Disk.lexical_mem_way _ _)
      exact (ends_appendText_off hw₂ hplace _).bind fun _ _ h => h.trans hnode₂

theorem ends_recordAll_off (hw : w.Steady) (hsink : sink.PassesBy w P) (ns : List Notice) :
    Ends w (sink.recordAll ns) fun _ w' => w'.disk.node? P = w.disk.node? P := by
  induction ns generalizing w with
  | nil => exact rfl
  | cons n ns ih =>
    have hrecord := (ends_record_keeps hw sink n).and (ends_record_off hw hsink n)
    refine hrecord.bind fun _ w₁ ⟨h₁, hnode₁⟩ => ?_
    exact (ih (h₁.steady hw) (hsink.same h₁.workingDir)).imp fun _ _ hnode => hnode.trans hnode₁

/-! ## Calm worlds -/

/-- A calm world from another by steps that leave what is at `P`, be it a file or nothing. -/
structure World.Frame (P : Place) (w w' : World) : Prop where
  grown : Grown P w w'
  node : w'.disk.node? P = w.disk.node? P

namespace World

theorem Frame.refl (P : Place) (hw : w.Calm) : Frame P w w := ⟨.refl P hw, rfl⟩

theorem Frame.trans {w'' : World} (h : Frame P w w') (h' : Frame P w' w'') : Frame P w w'' :=
  ⟨h.grown.trans h'.grown, h'.node.trans h.node⟩

theorem Grown.frame (h : Grown P w w') (hdisk : w'.disk = w.disk) : Frame P w w' :=
  ⟨h, by rw [hdisk]⟩

end World

theorem ends_record_way (hw : w.Calm) (hsink : sink.PassesBy w P) (n : Notice) :
    Ends w (sink.record n) fun _ w' => World.Frame P w w' :=
  ((ends_record hw hsink.avoids n).and (ends_record_off hw.steady hsink n)).imp
    fun _ _ h => ⟨h.1, h.2⟩

theorem ends_recordAll_way (hw : w.Calm) (hsink : sink.PassesBy w P) (ns : List Notice) :
    Ends w (sink.recordAll ns) fun _ w' => World.Frame P w w' :=
  ((ends_recordAll hw hsink.avoids ns).and (ends_recordAll_off hw.steady hsink ns)).imp
    fun _ _ h => ⟨h.1, h.2⟩

end EditGate
