import EditGate.Proofs.Disk.Make
import EditGate.Proofs.World

/-!
# Two runs at a time

`Run.Both` says of two runs from two worlds how they answer and what they leave, and `Run.Same` that
they answer the same. They are passed through both runs step by step (`Run.Both.bind`,
`Trial.Same.bind`), as long as these take the same steps. In a world where no step is planned to
fail, a step does what it does to the disk (`Run.change_eq`), and directories are made as on the
disk alone (`Run.makeDirectories_eq`).
-/

namespace EditGate

variable {α α' β β' : Type} {w w' : World} {path : Path}

/-! ## Two runs -/

namespace Run

/-- Two runs from two worlds end with answers and worlds as said. -/
def Both (w w' : World) (m : Run α) (m' : Run α') (post : α → α' → World → World → Prop) : Prop :=
  post (m.run w).1 (m'.run w').1 (m.run w).2 (m'.run w').2

theorem Both.imp {m : Run α} {m' : Run α'} {post post' : α → α' → World → World → Prop}
    (h : Both w w' m m' post) (himp : ∀ a a' v v', post a a' v v' → post' a a' v v') :
    Both w w' m m' post' := himp _ _ _ _ h

/-- Runs in two parts end as their second parts do from where the first ones end. -/
theorem Both.bind {m : Run α} {m' : Run α'} {f : α → Run β} {f' : α' → Run β'}
    {post : α → α' → World → World → Prop} {post' : β → β' → World → World → Prop}
    (h : Both w w' m m' post)
    (hf : ∀ a a' v v', post a a' v v' → Both v v' (f a) (f' a') post') :
    Both w w' (m >>= f) (m' >>= f') post' := hf _ _ _ _ h

end Run

/-! ## The same answers -/

variable {R S : World → World → Prop}

namespace Run

/-- Two runs answer the same and leave related worlds. -/
def Same (R : World → World → Prop) (w w' : World) (m m' : Run α) : Prop :=
  Both w w' m m' fun a a' v v' => a' = a ∧ R v v'

/-- From related worlds two runs answer the same and leave related worlds. -/
def Alike (R : World → World → Prop) (m m' : Run α) : Prop := ∀ w w', R w w' → Same R w w' m m'

variable {m m' : Run α} {f f' : α → Run β}

theorem Same.imp (h : Same S w w' m m') (hle : ∀ v v', S v v' → R v v') : Same R w w' m m' :=
  ⟨h.1, hle _ _ h.2⟩

theorem Same.bind (h : Same S w w' m m')
    (hf : ∀ a v v', S v v' → Same R v v' (f a) (f' a)) : Same R w w' (m >>= f) (m' >>= f') := by
  refine Both.bind h ?_
  rintro _ a v v' ⟨rfl, hv⟩
  exact hf a v v' hv

/-- Runs answer the same after a step of which more is known. -/
theorem Both.bind_same {P : α → World → Prop}
    (h : Both w w' m m' fun a a' v v' => a' = a ∧ S v v' ∧ P a v)
    (hf : ∀ a v v', S v v' → P a v → Same R v v' (f a) (f' a)) :
    Same R w w' (m >>= f) (m' >>= f') := by
  refine h.bind ?_
  rintro _ a v v' ⟨rfl, hv, ha⟩
  exact hf a v v' hv ha

theorem alike_pure (a : α) : Alike R (pure a : Run α) (pure a) := fun _ _ h => ⟨rfl, h⟩

theorem Alike.bind (h : Alike R m m') (hf : ∀ a, Alike R (f a) (f' a)) :
    Alike R (m >>= f) (m' >>= f') :=
  fun w w' hw => (h w w' hw).bind fun a v v' hv => hf a v v' hv

end Run

namespace Trial

/-- Two trials answer the same, failures included, and leave related worlds. -/
def Same (R : World → World → Prop) (w w' : World) (m m' : Trial α) : Prop :=
  Run.Same R w w' m.run m'.run

/-- From related worlds two trials answer the same and leave related worlds. -/
def Alike (R : World → World → Prop) (m m' : Trial α) : Prop := ∀ w w', R w w' → Same R w w' m m'

variable {m m' : Trial α} {f f' : α → Trial β}

/-- Trials in two parts fail alike in the first one, or go on alike from where it ends. -/
theorem Same.bind (h : Same S w w' m m') (hle : ∀ v v', S v v' → R v v')
    (hf : ∀ a v v', S v v' → Same R v v' (f a) (f' a)) : Same R w w' (m >>= f) (m' >>= f') := by
  have hbind : ∀ (m : Trial α) (f : α → Trial β), (m >>= f).run = m.run >>= ExceptT.bindCont f :=
    fun _ _ => rfl
  rw [Same, hbind, hbind]
  refine Run.Same.bind h fun r v v' hv => ?_
  cases r with
  | ok a => exact hf a v v' hv
  | error e => exact ⟨rfl, hle v v' hv⟩

theorem same_io {m m' : Run (Except Disk.Cause α)} (h : Run.Same R w w' m m') :
    Same R w w' (io m) (io m') :=
  Run.Same.bind h fun r => Run.alike_pure (r.mapError Failure.io)

/-- Trials answer the same after a step of the disk of which more is known if it succeeds. -/
theorem bind_io_same {m m' : Run (Except Disk.Cause α)} {P : Except Disk.Cause α → World → Prop}
    (h : Run.Both w w' m m' fun a a' v v' => a' = a ∧ S v v' ∧ P a v)
    (hle : ∀ v v', S v v' → R v v')
    (hf : ∀ a v v', S v v' → P (.ok a) v → Same R v v' (f a) (f' a)) :
    Same R w w' (io m >>= f) (io m' >>= f') := by
  have hbind : ∀ (m : Run (Except Disk.Cause α)) (f : α → Trial β),
      (io m >>= f).run = m >>= fun r => ExceptT.bindCont f (r.mapError .io) := fun _ _ => rfl
  rw [Same, hbind, hbind]
  refine h.bind_same fun r v v' hv hr => ?_
  cases r with
  | ok a => exact hf a v v' hv hr
  | error cause => exact ⟨rfl, hle v v' hv⟩

/-- Trials answer the same after a run that always answers, of which more is known. -/
theorem bind_lift_same {m m' : Run α} {P : α → World → Prop}
    (h : Run.Both w w' m m' fun a a' v v' => a' = a ∧ S v v' ∧ P a v)
    (hf : ∀ a v v', S v v' → P a v → Same R v v' (f a) (f' a)) :
    Same R w w' ((liftM m : Trial α) >>= f) ((liftM m' : Trial α) >>= f') := by
  have hbind : ∀ (m : Run α) (f : α → Trial β),
      ((liftM m : Trial α) >>= f).run = m >>= fun a => (f a).run := fun _ _ => rfl
  rw [Same, hbind, hbind]
  exact h.bind_same hf

theorem same_lift_bind {m m' : Run α} (h : Run.Same S w w' m m')
    (hf : ∀ a v v', S v v' → Same R v v' (f a) (f' a)) :
    Same R w w' ((liftM m : Trial α) >>= f) ((liftM m' : Trial α) >>= f') :=
  bind_lift_same (P := fun _ _ => True) ⟨h.1, h.2, trivial⟩ fun a v v' hv _ => hf a v v' hv

theorem alike_pure (a : α) : Alike R (pure a : Trial α) (pure a) := fun _ _ h => ⟨rfl, h⟩

theorem alike_refuse (r : Refusal) : Alike R (refuse r : Trial α) (refuse r) :=
  fun _ _ h => ⟨rfl, h⟩

theorem Alike.bind (h : Alike R m m') (hf : ∀ a, Alike R (f a) (f' a)) :
    Alike R (m >>= f) (m' >>= f') :=
  fun w w' hw => (h w w' hw).bind (fun _ _ hv => hv) fun a v v' hv => hf a v v' hv

theorem alike_lift {m m' : Run α} (h : Run.Alike R m m') :
    Alike R (liftM m : Trial α) (liftM m' : Trial α) :=
  h.bind fun a => Run.alike_pure (Except.ok a)

theorem alike_lift_bind {m m' : Run α} (h : Run.Alike R m m')
    (hf : ∀ a, Alike R (f a) (f' a)) :
    Alike R ((liftM m : Trial α) >>= f) ((liftM m' : Trial α) >>= f') :=
  fun w w' hw => same_lift_bind (h w w' hw) fun a v v' hv => hf a v v' hv

end Trial

/-! ## Steps that are not planned to fail -/

namespace Run

theorem step_eq (h : w.plan = []) (f : Disk → Place → Except Disk.Cause (α × Disk)) :
    (step f).run w =
      match f w.disk w.workingDir with
      | .ok (a, disk) => (.ok a, { w with disk })
      | .error cause => (.error cause, w) := by
  obtain ⟨disk, wd, now, next, kept, plan⟩ := w
  obtain rfl : plan = [] := h
  have hrun : ∀ v, (step f).run v = step f v := fun _ => rfl
  rw [hrun, step]
  cases f disk wd with
  | ok r => rfl
  | error cause => rfl

theorem look_eq (h : w.plan = []) (f : Disk → Place → Except Disk.Cause α) :
    (look f).run w = (f w.disk w.workingDir, w) := by
  rw [look, step_eq h]
  cases f w.disk w.workingDir with
  | ok a => rfl
  | error cause => rfl

theorem change_eq (h : w.plan = []) (f : Disk → Place → Except Disk.Cause Disk) :
    (change f).run w =
      match f w.disk w.workingDir with
      | .ok disk => (.ok (), { w with disk })
      | .error cause => (.error cause, w) := by
  rw [change, step_eq h]
  cases f w.disk w.workingDir with
  | ok disk => rfl
  | error cause => rfl

theorem bind_eq (m : Run α) (f : α → Run β) (w : World) :
    (m >>= f).run w = (f (m.run w).1).run (m.run w).2 := rfl

theorem orThere_error_eq (path : Path) (cause : Disk.Cause) (w : World) :
    (orThere path (.error cause)).run w =
      (if w.disk.isDirectory w.workingDir path then .ok () else .error cause, w) := by
  have hrun : (orThere path (.error cause)).run w =
      (if w.disk.isDirectory w.workingDir path then pure (.ok ()) else pure (.error cause) :
        Run (Except Disk.Cause Unit)).run w := rfl
  rw [hrun]
  split
  · rfl
  · rfl

/-- A directory is made, or accepted as it is there. -/
theorem settle_eq (h : w.plan = []) (path : Path) :
    (makeDirectory path >>= orThere path).run w =
      ((w.disk.settle w.workingDir path).1,
        { w with disk := (w.disk.settle w.workingDir path).2 }) := by
  rw [bind_eq, makeDirectory, change_eq h, Disk.settle]
  cases w.disk.makeDirectory w.workingDir path with
  | ok disk => rfl
  | error cause => exact orThere_error_eq path cause w

/-- Directories are made as on the disk alone. -/
theorem makeDirectories_eq (h : w.plan = []) (limit : Nat) (path : Path) :
    (makeDirectories limit path).run w =
      ((Disk.makeAll limit w.disk w.workingDir path).1,
        { w with disk := (Disk.makeAll limit w.disk w.workingDir path).2 }) := by
  induction limit generalizing path with
  | zero => rfl
  | succ limit ih =>
    by_cases hempty : path = []
    · subst hempty
      rfl
    have hsettle := settle_eq h path
    rw [makeDirectories, if_neg (by simpa using hempty)]
    rw [bind_eq, makeDirectory, change_eq h] at hsettle ⊢
    by_cases hfind : w.disk.find w.workingDir path = .error .notFound
    · rw [Disk.makeAll_of_notFound hempty hfind, Disk.makeDirectory_of_error hfind]
      cases path.parent? with
      | none => rfl
      | some parent =>
        dsimp only
        rw [bind_eq, ih]
        obtain ⟨o, disk⟩ := Disk.makeAll limit w.disk w.workingDir parent
        cases o with
        | error cause => rfl
        | ok u => exact settle_eq (w := { w with disk }) h path
    · -- the directory is made at once, or fails for another cause than that something is missing
      rw [Disk.makeAll_of_ne_notFound hempty hfind, ← hsettle]
      rw [← Disk.makeDirectory_eq_notFound_iff] at hfind
      cases hmake : w.disk.makeDirectory w.workingDir path with
      | ok disk => rfl
      | error cause =>
        dsimp only
        split
        · rename_i hnot
          cases hnot
          exact absurd hmake hfind
        · rfl

theorem makeParents_eq (h : w.plan = []) (path : Path) :
    (makeParents path).run w =
      ((w.disk.makeParents w.workingDir path).1,
        { w with disk := (w.disk.makeParents w.workingDir path).2 }) := by
  rw [makeParents, Disk.makeParents]
  cases path.parent? with
  | none => rfl
  | some parent => exact makeDirectories_eq h _ parent

end Run

end EditGate
