import EditGate.Proofs.Disk.Step
import EditGate.World

/-!
# What runs do to a world

`Run.Ends` says of a run from a world how it answers and what it leaves; it is passed through a run
step by step (`Run.Ends.bind`, `Trial.Ends.bind`). A disk step fails as planned, or the disk decides
(`ends_step_planned`). What making one directory does, also where it fails, making all those that a
path leads through does (`ends_makeParents_of`).
-/

namespace EditGate

variable {α β : Type} {w w' : World} {P : Place} {path : Path}

namespace Run

/-- The run from a world ends with an answer and a world as said. -/
def Ends (w : World) (m : Run α) (post : α → World → Prop) : Prop := post (m.run w).1 (m.run w).2

theorem ends_pure {a : α} {post : α → World → Prop} : Ends w (pure a) post ↔ post a w := Iff.rfl

theorem Ends.imp {m : Run α} {post post' : α → World → Prop} (h : Ends w m post)
    (himp : ∀ a w', post a w' → post' a w') : Ends w m post' := himp _ _ h

theorem Ends.and {m : Run α} {post post' : α → World → Prop} (h : Ends w m post)
    (h' : Ends w m post') : Ends w m fun a w' => post a w' ∧ post' a w' := ⟨h, h'⟩

/-- A run in two parts ends as the second part does from where the first ends. -/
theorem Ends.bind {m : Run α} {f : α → Run β} {post : α → World → Prop}
    {post' : β → World → Prop} (h : Ends w m post)
    (hf : ∀ a w', post a w' → Ends w' (f a) post') : Ends w (m >>= f) post' :=
  hf _ _ h

/-- A run in two parts ends as its second part does whatever the first one leaves. -/
theorem ends_bind_of_forall {m : Run α} {f : α → Run β} {post : β → World → Prop}
    (hf : ∀ a w', Ends w' (f a) post) : Ends w (m >>= f) post :=
  hf _ _

/-- A run that starts with a look at the clock. -/
theorem ends_timeStamp_bind {f : String → Run β} {post : β → World → Prop} :
    Ends w (timeStamp >>= f) post ↔ Ends w (f (stamp w.now)) post := Iff.rfl

end Run

namespace Trial

/-- The trial from a world ends with an answer or a failure and a world as said. -/
def Ends (w : World) (m : Trial α) (post : Except Failure α → World → Prop) : Prop :=
  Run.Ends w m.run post

theorem Ends.imp {m : Trial α} {post post' : Except Failure α → World → Prop} (h : Ends w m post)
    (himp : ∀ a w', post a w' → post' a w') : Ends w m post' := himp _ _ h

theorem Ends.and {m : Trial α} {post post' : Except Failure α → World → Prop} (h : Ends w m post)
    (h' : Ends w m post') : Ends w m fun r w' => post r w' ∧ post' r w' := ⟨h, h'⟩

/-- A trial in two parts ends with the failure of the first, or as the second part does. -/
theorem Ends.bind {m : Trial α} {f : α → Trial β} {post : Except Failure α → World → Prop}
    {post' : Except Failure β → World → Prop} (h : Ends w m post)
    (hok : ∀ a w', post (.ok a) w' → Ends w' (f a) post')
    (herror : ∀ e w', post (.error e) w' → post' (.error e) w') : Ends w (m >>= f) post' := by
  have hbind : Ends w (m >>= f) post' ↔ Run.Ends w m.run fun r w' =>
      Run.Ends w' (ExceptT.bindCont f r) post' := Iff.rfl
  rw [hbind]
  refine Run.Ends.imp h fun r w' hr => ?_
  cases r with
  | ok a => exact hok a w' hr
  | error e => exact herror e w' hr

theorem ends_pure {a : α} {post : Except Failure α → World → Prop} :
    Ends w (pure a) post ↔ post (.ok a) w := Iff.rfl

theorem ends_io {m : Run (Except Disk.Cause α)} {post : Except Failure α → World → Prop} :
    Ends w (io m) post ↔ Run.Ends w m fun r w' => post (r.mapError .io) w' := Iff.rfl

theorem ends_timeStamp_bind {f : String → Trial β} {post : Except Failure β → World → Prop} :
    Ends w ((liftM Run.timeStamp : Trial String) >>= f) post ↔ Ends w (f (stamp w.now)) post :=
  Iff.rfl

end Trial

open Trial (io) in
/-- A trial that starts with a run of the disk. -/
theorem Run.Ends.bind_io {m : Run (Except Disk.Cause α)} {f : α → Trial β}
    {post : Except Disk.Cause α → World → Prop} {post' : Except Failure β → World → Prop}
    (h : Run.Ends w m post) (hok : ∀ a w', post (.ok a) w' → Trial.Ends w' (f a) post')
    (herror : ∀ cause w', post (.error cause) w' → post' (.error (.io cause)) w') :
    Trial.Ends w (io m >>= f) post' := by
  have hio : Trial.Ends w (io m) fun r w' =>
      (∃ a, r = .ok a ∧ post (.ok a) w') ∨ ∃ cause, r = .error (.io cause) ∧
        post (.error cause) w' := by
    refine Trial.ends_io.mpr (h.imp fun r w' hr => ?_)
    cases r with
    | ok a => exact .inl ⟨a, rfl, hr⟩
    | error cause => exact .inr ⟨cause, rfl, hr⟩
  refine hio.bind (fun a w' ha => ?_) fun e w' he => ?_
  · rcases ha with ⟨b, hb, hpost⟩ | ⟨cause, hcause, -⟩
    · cases hb
      exact hok a w' hpost
    · exact nomatch hcause
  · rcases he with ⟨b, hb, -⟩ | ⟨cause, hcause, hpost⟩
    · exact nomatch hb
    · cases hcause
      exact herror cause w' hpost

/-- A trial that starts with a run that always answers. -/
theorem Run.Ends.bind_lift {m : Run α} {f : α → Trial β} {post : α → World → Prop}
    {post' : Except Failure β → World → Prop} (h : Run.Ends w m post)
    (hf : ∀ a w', post a w' → Trial.Ends w' (f a) post') :
    Trial.Ends w ((liftM m : Trial α) >>= f) post' := hf _ _ h

/-! ## Worlds -/

namespace World

/-- No failure is planned for the next disk step. -/
def Unhindered (w : World) : Prop := ∀ cause plan, w.plan ≠ some cause :: plan

/-- Where a path leads from the working directory. -/
def placeOf (w : World) (path : Path) : Place := Disk.lexical w.workingDir path

end World

namespace Run

/-! ## Steps on any disk, with any plan -/

/-- A step fails as planned, or the disk decides. -/
theorem ends_step_planned {f : Disk → Place → Except Disk.Cause (α × Disk)}
    {post : Except Disk.Cause α → World → Prop}
    (hplanned : ∀ cause plan, w.plan = some cause :: plan → post (.error cause) { w with plan })
    (hok : ∀ a disk, f w.disk w.workingDir = .ok (a, disk) →
      post (.ok a) { w with disk, plan := w.plan.drop 1 })
    (herror : ∀ cause, f w.disk w.workingDir = .error cause →
      post (.error cause) { w with plan := w.plan.drop 1 }) : Ends w (step f) post := by
  have hstep : Ends w (step f) post ↔ post (step f w).1 (step f w).2 := Iff.rfl
  rw [hstep, step]
  split
  · rename_i cause plan hcause
    exact hplanned cause plan hcause
  · split
    · rename_i a disk hf
      exact hok a disk hf
    · rename_i cause hf
      exact herror cause hf

/-- A look fails as planned, or answers what is there. -/
theorem ends_look_planned {f : Disk → Place → Except Disk.Cause α}
    {post : Except Disk.Cause α → World → Prop}
    (hplanned : ∀ cause plan, w.plan = some cause :: plan → post (.error cause) { w with plan })
    (hlook : post (f w.disk w.workingDir) { w with plan := w.plan.drop 1 }) :
    Ends w (look f) post := by
  refine ends_step_planned hplanned (fun a disk h => ?_) fun cause h => ?_
  · obtain ⟨b, hf, hsame⟩ := map_eq_ok h
    cases hsame
    rwa [hf] at hlook
  · rwa [map_eq_error h] at hlook

/-- A change fails, as planned or as the disk has it, and leaves the disk, or is carried out. -/
theorem ends_change_planned {f : Disk → Place → Except Disk.Cause Disk}
    {post : Except Disk.Cause Unit → World → Prop}
    (hplanned : ∀ cause plan, w.plan = some cause :: plan → post (.error cause) { w with plan })
    (hok : ∀ disk, f w.disk w.workingDir = .ok disk →
      post (.ok ()) { w with disk, plan := w.plan.drop 1 })
    (herror : ∀ cause, f w.disk w.workingDir = .error cause →
      post (.error cause) { w with plan := w.plan.drop 1 }) : Ends w (change f) post := by
  refine ends_step_planned hplanned (fun a disk h => ?_) fun cause h =>
    herror cause (map_eq_error h)
  obtain ⟨b, hf, hsame⟩ := map_eq_ok h
  cases hsame
  exact hok disk hf

/-- A step is carried out on the disk or fails and leaves it as it is. -/
theorem ends_step_any (f : Disk → Place → Except Disk.Cause (α × Disk)) (w : World) :
    Ends w (step f) fun r w' => w'.workingDir = w.workingDir ∧
      ((∃ a, r = .ok a ∧ f w.disk w.workingDir = .ok (a, w'.disk)) ∨
        ∃ cause, r = .error cause ∧ w'.disk = w.disk) :=
  ends_step_planned (fun cause _ _ => ⟨rfl, .inr ⟨cause, rfl, rfl⟩⟩)
    (fun a _ h => ⟨rfl, .inl ⟨a, rfl, h⟩⟩) fun cause _ => ⟨rfl, .inr ⟨cause, rfl, rfl⟩⟩

theorem ends_change_any (f : Disk → Place → Except Disk.Cause Disk) (w : World) :
    Ends w (change f) fun r w' => w'.workingDir = w.workingDir ∧
      (r = .ok () → f w.disk w.workingDir = .ok w'.disk) :=
  ends_change_planned (fun _ _ _ => ⟨rfl, nofun⟩) (fun _ h => ⟨rfl, fun _ => h⟩)
    fun _ _ => ⟨rfl, nofun⟩

/-- What is read is what is there. -/
theorem ends_readText_any (path : Path) (w : World) :
    Ends w (readText path) fun r _ =>
      ∀ text, r = .ok text → w.disk.readText w.workingDir path = .ok text :=
  ends_look_planned (fun _ _ _ => nofun) fun _ h => h

/-- Where no failure is planned, what is read is what is there. -/
theorem ends_readText_unhindered (hnext : w.Unhindered) (path : Path) :
    Ends w (readText path) fun r w' =>
      r = w.disk.readText w.workingDir path ∧ w' = { w with plan := w.plan.drop 1 } :=
  ends_look_planned (fun cause plan h => absurd h (hnext cause plan)) ⟨rfl, rfl⟩

/-- What is read is what is there, unless the step is planned to fail. -/
theorem ends_readText_planned (path : Path) (w : World) :
    Ends w (readText path) fun r w' => (∃ plan, plan <:+ w.plan ∧ w' = { w with plan }) ∧
      (r = w.disk.readText w.workingDir path ∨ ∃ cause, r = .error cause ∧ ¬w.Unhindered) :=
  ends_look_planned
    (fun cause plan hplan =>
      ⟨⟨plan, ⟨[_], hplan.symm⟩, rfl⟩, .inr ⟨cause, rfl, fun hnext => hnext cause plan hplan⟩⟩)
    ⟨⟨_, List.drop_suffix 1 w.plan, rfl⟩, .inl rfl⟩

/-- A change that fails leaves the disk. -/
theorem ends_change_failed (f : Disk → Place → Except Disk.Cause Disk) (w : World) :
    Ends w (change f) fun r w' => ∀ cause, r = .error cause → w'.disk = w.disk :=
  ends_change_planned (fun _ _ _ _ _ => rfl) (fun _ _ => nofun) fun _ _ _ _ => rfl

/-! ## Making directories -/

theorem ends_orThere_error (cause : Disk.Cause) {post : Except Disk.Cause Unit → World → Prop} :
    Ends w (orThere path (.error cause)) post ↔
      Ends w (if w.disk.isDirectory w.workingDir path then pure (.ok ()) else
        pure (.error cause) : Run (Except Disk.Cause Unit)) post := Iff.rfl

theorem ends_orThere (r : Except Disk.Cause Unit) :
    Ends w (orThere path r) fun _ w' => w' = w := by
  cases r with
  | ok u => exact rfl
  | error cause =>
    rw [ends_orThere_error]
    split
    · exact rfl
    · exact rfl

/-- A directory that could not be made is accepted if it is there. -/
theorem ends_orThere_ok (r : Except Disk.Cause Unit)
    (hdir : w.disk.isDirectory w.workingDir path = true) :
    Ends w (orThere path r) fun r' w' => r' = .ok () ∧ w' = w := by
  cases r with
  | ok u => exact ⟨rfl, rfl⟩
  | error cause =>
    rw [ends_orThere_error, if_pos hdir]
    exact ⟨rfl, rfl⟩

/-- What making one directory does, also where it fails, making those that lead to it does. -/
theorem ends_makeDirectories_of {R : World → World → Prop} {C : Path → Prop}
    (hrefl : ∀ w, R w w) (htrans : ∀ {w w' w''}, R w w' → R w' w'' → R w w'')
    (hparent : ∀ {path parent}, path.parent? = some parent → C path → C parent)
    (hstep : ∀ w {path}, C path → Ends w (makeDirectory path) fun _ w' => R w w')
    (limit : Nat) (hpath : C path) : Ends w (makeDirectories limit path) fun _ w' => R w w' := by
  induction limit generalizing w path with
  | zero => exact hrefl w
  | succ limit ih =>
    rw [makeDirectories]
    split
    · exact hrefl w
    · refine (hstep w hpath).bind fun r w₁ h₁ => ?_
      split
      · split
        · exact h₁
        · -- the parents first, then the directory once more
          rename_i parent hsome
          refine (ih (hparent hsome hpath)).bind fun r' w₂ h₂ => ?_
          cases r' with
          | error cause => exact htrans h₁ h₂
          | ok u =>
            refine (hstep w₂ hpath).bind fun r'' w₃ h₃ => ?_
            exact (ends_orThere r'').imp fun _ _ h => h ▸ htrans (htrans h₁ h₂) h₃
      · exact (ends_orThere _).imp fun _ _ h => h ▸ h₁

theorem ends_makeParents_of {R : World → World → Prop} {C : Path → Prop}
    (hrefl : ∀ w, R w w) (htrans : ∀ {w w' w''}, R w w' → R w' w'' → R w w'')
    (hparent : ∀ {path parent}, path.parent? = some parent → C path → C parent)
    (hstep : ∀ w {path}, C path → Ends w (makeDirectory path) fun _ w' => R w w')
    (hpath : C path) : Ends w (makeParents path) fun _ w' => R w w' := by
  rw [makeParents]
  split
  · rename_i parent hsome
    exact ends_makeDirectories_of hrefl htrans hparent hstep _ (hparent hsome hpath)
  · exact hrefl w

end Run

end EditGate
