import EditGate.Proofs.Frame
import EditGate.Proofs.Ledger.Atomic
import EditGate.Proofs.Ledger.Backup

/-!
# What becomes of a ledger that is loaded

Loading takes one of three courses: the text of the ledger stays where it is, it is moved aside, or
it is copied aside and the ledger is written anew (`Course`). Loading does not tell which; `follow`
is the same run and does (`load_eq`). The steps of a course fail one by one, so how a course ends is
said for each outcome of its steps (`AsideEnds`, `AnewEnds`), whatever is planned. Notices are
recorded on the way, so all of this is said of a ledger whose notices go elsewhere (`Apart`).
-/

namespace EditGate.Ledger

open Run World
open World (Spares Steps)

variable {l : Ledger} {d : Document} {w w' : World} {bytes : ByteArray} {text : String}

/-! ## Courses -/

/-- What loading does about the text that is stored. -/
inductive Course where
  /-- It stays. -/
  | plain
  | aside (moved : Except Disk.Cause Unit)
  | anew (copied : Except Disk.Cause Unit) (written : Except Failure Unit)
deriving DecidableEq

section Following

variable (l : Ledger)

def asideNotice (reason : String) (backup : Path) : Except Disk.Cause Unit → Notice
  | .ok () => l.notice .error "ledger.corrupt"
      ("ledger unreadable (" ++ reason ++ "); backed up to " ++ String.ofList backup ++
        " and reinitialized")
  | .error cause => l.notice .error "ledger.backup_failed"
      ("ledger unreadable (" ++ reason ++ ") and backup failed: " ++ cause.message)

def uncopiedNotices : Except Disk.Cause Unit → List Notice
  | .ok () => []
  | .error cause => [l.notice .error "ledger.backup_failed"
      ("could not back up incomplete ledger: " ++ cause.message)]

def incompleteNotice (missing : List String) (backup : Path) : Notice :=
  l.notice .warn "ledger.incomplete"
    ("ledger missing or malformed " ++ ", ".intercalate missing ++ "; backed up to " ++
      String.ofList backup ++ " and repaired")

def unwrittenNotices : Except Failure Unit → List Notice
  | .ok () => []
  | .error failure => [l.notice .error "ledger.write_failed"
      ("could not rewrite repaired ledger: " ++ failure.message)]

/-- Moves the text aside and starts afresh. -/
def followCorrupt (reason : String) : Run (Document × Course) := do
  let backup ← l.backupPath "corrupt"
  let moved ← Run.rename l.path backup
  l.sink.record (l.asideNotice reason backup moved)
  return (← l.freshDocument, .aside moved)

def copyAside (content : String) (missing : List String) : Run (Except Disk.Cause Unit) := do
  let backup ← l.backupPath "incomplete"
  let copied ← Run.writeText backup content
  l.sink.recordAll (l.uncopiedNotices copied)
  l.sink.record (l.incompleteNotice missing backup)
  return copied

def writeAnew (content : String) : Run (Document × Except Failure Unit) := do
  let d ← l.fromObject (objectOf content.toList)
  let written ← (l.save d).run
  l.sink.recordAll (l.unwrittenNotices written)
  return (d, written)

/-- Copies the text aside and writes the ledger anew. -/
def followIncomplete (content : String) (missing : List String) : Run (Document × Course) := do
  let copied ← l.copyAside content missing
  let (d, written) ← l.writeAnew content
  return (d, .anew copied written)

/-- Loads the ledger, and tells the course that it takes. -/
def follow : Run (Document × Course) := do
  match ← Run.readText l.path with
  | .error .notFound => return (← l.freshDocument, .plain)
  | .error cause => l.followCorrupt ("unreadable: " ++ cause.message)
  | .ok content =>
    match classify content.toList with
    | .ok obj => return (← l.fromObject obj, .plain)
    | .error (.corrupt reason) => l.followCorrupt reason
    | .error (.incomplete missing) => l.followIncomplete content missing

/-- The course that loading takes from a world. -/
def course (w : World) : Course := ((l.follow).run w).1.2

theorem recoverCorrupt_eq (reason : String) :
    l.recoverCorrupt reason = Prod.fst <$> l.followCorrupt reason := by
  simp only [recoverCorrupt, followCorrupt, map_bind, map_pure]
  refine bind_congr fun backup => bind_congr fun moved => ?_
  cases moved <;> simp [asideNotice]

theorem recoverIncomplete_eq (content : String) (missing : List String) :
    l.recoverIncomplete content missing = Prod.fst <$> l.followIncomplete content missing := by
  simp only [recoverIncomplete, followIncomplete, copyAside, writeAnew, map_bind, map_pure,
    bind_assoc, pure_bind]
  refine bind_congr fun backup => bind_congr fun copied => ?_
  cases copied with
  | ok u =>
    simp only [uncopiedNotices, Sink.recordAll, pure_bind]
    refine bind_congr fun _ => bind_congr fun d => bind_congr fun written => ?_
    cases written <;> simp [unwrittenNotices, Sink.recordAll]
  | error cause =>
    simp only [uncopiedNotices, Sink.recordAll, pure_bind, bind_assoc]
    refine bind_congr fun _ => bind_congr fun _ => bind_congr fun d => bind_congr fun written => ?_
    cases written <;> simp [unwrittenNotices, Sink.recordAll]

/-- Loading is the run that tells its course, without the course. -/
theorem load_eq : l.load = Prod.fst <$> l.follow := by
  simp only [load, follow, map_bind]
  refine bind_congr fun r => ?_
  cases r with
  | error cause =>
    cases cause with
    | notFound => simp
    | _ => exact l.recoverCorrupt_eq _
  | ok content =>
    simp only
    cases classify content.toList with
    | ok obj => simp
    | error fault =>
      cases fault with
      | corrupt reason => exact l.recoverCorrupt_eq reason
      | incomplete missing => exact l.recoverIncomplete_eq content missing

end Following

theorem ends_load_iff {post : Document → World → Prop} :
    Ends w l.load post ↔ Ends w l.follow fun r w' => post r.1 w' := by
  rw [load_eq]
  exact Iff.rfl

/-! ## What is guarded -/

/-- Where a load that starts now puts the ledger aside. -/
def backupNow (l : Ledger) (w : World) (kind : String) : Path :=
  l.backupFor kind w.now w.nextEvent

/-- The ledger, and where a load that starts now puts it aside. -/
def Guards (l : Ledger) (w : World) (P : Place) : Prop :=
  P = l.place w ∨ ∃ kind ∈ backupKinds, P = w.placeOf (l.backupNow w kind)

/-- Notices go neither to the ledger nor to where it is put aside. -/
def Apart (l : Ledger) (w : World) : Prop := ∀ P, l.Guards w P → l.sink.Avoids w P

theorem guards_backupNow {kind : String} (hkind : kind ∈ backupKinds) :
    l.Guards w (w.placeOf (l.backupNow w kind)) := .inr ⟨kind, hkind, rfl⟩

theorem placeOf_backupNow_ne {kind : String} (hkind : kind ∈ backupKinds) :
    w.placeOf (l.backupNow w kind) ≠ l.place w := placeOf_backupFor_ne hkind w.now w.nextEvent

theorem Guards.ne_draft {P : Place} (h : l.Guards w P) : P ≠ w.placeOf l.draftPath := by
  obtain rfl | ⟨kind, hkind, rfl⟩ := h
  · exact (placeOf_draftPath_ne l w).symm
  · exact placeOf_backupFor_ne_draft hkind w.now w.nextEvent

theorem Apart.avoids {S : Place → Prop} (h : l.Apart w) (hspares : Spares S w w') :
    ∀ P, l.Guards w P → l.sink.Avoids w' P := fun P hP => (h P hP).spares hspares

theorem ends_backupPath_steps (hw : w.Steady) (S : Place → Prop) (kind : String) :
    Ends w (l.backupPath kind) fun r w' => r = l.backupNow w kind ∧ Steps S w w' :=
  ⟨rfl, (ends_newEvent_steps hw S).1⟩

/-- The document is what an object holds, with fresh sections for those it has not. -/
def Repaired (l : Ledger) (obj : Keyed Json) (d : Document) : Prop :=
  ∃ f, l.IsFresh (.fresh f) ∧ d = (Document.ofObject obj f).1

theorem ends_fromObject_spares {S : Place → Prop} (hw : w.Steady)
    (hsink : ∀ P, S P → l.sink.Avoids w P) (obj : Keyed Json) :
    Ends w (l.fromObject obj) fun d w' => l.Repaired obj d ∧ Spares S w w' := by
  refine (ends_freshSections_steps hw S).bind fun f w₁ ⟨h₁, _, hfresh⟩ => ?_
  have hsink₁ : ∀ P, S P → l.sink.Avoids w₁ P := fun P hP => (hsink P hP).spares h₁.toSpares
  exact (ends_recordAll_spares (h₁.steady hw) hsink₁ _).bind fun _ _ h₂ =>
    ⟨⟨f, hfresh, rfl⟩, h₁.toSpares.trans h₂⟩

/-! ## Moving aside -/

/-- Nothing is where the path of the ledger leads. -/
structure Absent (l : Ledger) (w : World) : Prop where
  names : w.disk.Names w.workingDir l.path
  node : w.disk.node? (l.place w) = none

/-- How moving aside what is read at the path of the ledger ends. -/
inductive AsideEnds (l : Ledger) (w : World) (bytes : ByteArray) : Document × Course → World → Prop
  | moved {d : Document} {w' : World} (spares : Spares (fun _ => False) w w')
      (fresh : l.IsFresh d) (holds : w'.Holds (l.backupNow w "corrupt") bytes)
      (absent : l.sink.PassesBy w (l.place w) → l.Absent w') :
      AsideEnds l w bytes (d, .aside (.ok ())) w'
  | stayed {d : Document} {cause : Disk.Cause} {w' : World}
      (spares : Spares (fun _ => False) w w') (fresh : l.IsFresh d)
      (holds : w'.Holds l.path bytes) : AsideEnds l w bytes (d, .aside (.error cause)) w'

/-- What is planned says nothing about how it ends. -/
theorem AsideEnds.at_plan {plan : List (Option Disk.Cause)} {r : Document × Course}
    (h : AsideEnds l { w with plan } bytes r w') (hw : w.Steady) (hplan : plan <:+ w.plan) :
    AsideEnds l w bytes r w' := by
  have hsame := (Steps.of_plan (fun _ => False) hw hplan).toSpares
  cases h with
  | moved hspares hfresh hholds habsent =>
    exact .moved (hsame.trans hspares) hfresh hholds habsent
  | stayed hspares hfresh hholds => exact .stayed (hsame.trans hspares) hfresh hholds

theorem ends_followCorrupt (hw : w.Steady) (hsink : l.Apart w) (hholds : w.Holds l.path bytes)
    (reason : String) : Ends w (l.followCorrupt reason) (AsideEnds l w bytes) := by
  have hkind : "corrupt" ∈ backupKinds := by decide
  refine (ends_backupPath_steps hw (fun _ => True) "corrupt").bind ?_
  rintro _ w₁ ⟨rfl, h₁⟩
  have hne : w₁.placeOf l.path ≠ w₁.placeOf (l.backupNow w "corrupt") := by
    rw [h₁.placeOf, h₁.placeOf]
    exact (placeOf_backupNow_ne hkind).symm
  have hholds₁ := hholds.spares h₁.toSpares trivial
  refine (ends_rename_steps (h₁.steady hw) hholds₁ hne).bind fun moved w₂ h₂ => ?_
  have hspares₂ : Spares (fun _ => False) w w₂ := by
    rcases h₂ with ⟨-, h₂, -⟩ | ⟨cause, -, h₂⟩
    · exact (h₁.toSpares.mono nofun).trans (h₂.toSpares.mono nofun)
    · exact (h₁.toSpares.mono nofun).trans (h₂.toSpares.mono nofun)
  have hw₂ := hspares₂.steady hw
  -- the notice and the fresh document leave what is guarded
  have hoff (n : Notice) : Ends w₂ (l.sink.record n) fun _ w' =>
      l.sink.PassesBy w (l.place w) → w'.disk.node? (l.place w) = w₂.disk.node? (l.place w) :=
    fun hpasses => ends_record_off hw₂ (hpasses.same hspares₂.workingDir) n
  refine ((ends_record_spares hw₂ (hsink.avoids hspares₂) _).and (hoff _)).bind ?_
  rintro _ w₃ ⟨h₃, hnode₃⟩
  refine (ends_freshDocument_steps (h₃.steady hw₂) (l.Guards w)).bind ?_
  rintro d w₄ ⟨hfresh, h₄, hdisk₄⟩
  have h₂₄ := h₃.trans h₄.toSpares
  have hspares := hspares₂.trans (h₂₄.mono nofun)
  refine ends_pure.mpr ?_
  rcases h₂ with ⟨rfl, h₂, hbackup, hgone⟩ | ⟨cause, rfl, h₂⟩
  · refine .moved hspares hfresh (hbackup.spares h₂₄ ?_) fun hpasses => ⟨?_, ?_⟩
    · rw [hspares₂.placeOf]
      exact guards_backupNow hkind
    · rw [hspares.workingDir]
      exact (holds_iff.mp hholds).1.mono hspares.directories
    · have hplace : l.place w₄ = l.place w := hspares.placeOf l.path
      rw [hplace, hdisk₄, hnode₃ hpasses]
      rwa [h₁.placeOf] at hgone
  · refine .stayed hspares hfresh ((hholds₁.spares h₂.toSpares trivial).spares h₂₄ ?_)
    rw [hspares₂.placeOf]
    exact .inl rfl

/-! ## Copying aside -/

/-- How copying the text of the ledger aside ends. -/
structure CopyEnds (l : Ledger) (w : World) (text : String) (copied : Except Disk.Cause Unit)
    (w' : World) : Prop where
  spares : Spares (fun P => l.Guards w P ∧ P ≠ w.placeOf (l.backupNow w "incomplete")) w w'
  copy : copied = .ok () → w'.Holds (l.backupNow w "incomplete") text.toUTF8
  /-- A file that cannot be written is as it was, or empty. -/
  uncopied : ∀ cause, copied = .error cause → ∀ content,
    w'.disk.node? (w.placeOf (l.backupNow w "incomplete")) = some (.file content) →
      content = .empty ∨
        w.disk.node? (w.placeOf (l.backupNow w "incomplete")) = some (.file content)

theorem ends_copyAside (hw : w.Steady) (hsink : l.Apart w) (text : String)
    (missing : List String) : Ends w (l.copyAside text missing) (CopyEnds l w text) := by
  have hguards : l.Guards w (w.placeOf (l.backupNow w "incomplete")) :=
    guards_backupNow (by decide)
  refine (ends_backupPath_steps hw (fun _ => True) "incomplete").bind ?_
  rintro _ w₁ ⟨rfl, h₁⟩
  have hplace₁ : ¬w₁.placeOf (l.backupNow w "incomplete") ≠
      w.placeOf (l.backupNow w "incomplete") := by
    rw [h₁.placeOf]
    exact fun h => h rfl
  have hwrite := ends_writeText_steps
    (S := fun P => P ≠ w.placeOf (l.backupNow w "incomplete")) (h₁.steady hw) hplace₁ text
  refine (hwrite.and (ends_writeText_failed (h₁.steady hw) text)).bind ?_
  rintro copied w₂ ⟨⟨h₂, hcopy⟩, hfailed⟩
  have h₁₂ := (h₁.mono fun _ _ => trivial).trans h₂
  have hw₂ := h₁₂.steady hw
  -- from here on only notices are recorded, and these spare the copy
  refine (ends_recordAll_spares hw₂ (hsink.avoids h₁₂.toSpares) _).bind fun _ w₃ h₃ => ?_
  have hsink₃ : ∀ P, l.Guards w P → l.sink.Avoids w₃ P := fun P hP =>
    (hsink.avoids h₁₂.toSpares P hP).spares h₃
  refine (ends_record_spares (h₃.steady hw₂) hsink₃ _).bind fun _ w₄ h₄ => ?_
  have h₂₄ := h₃.trans h₄
  refine ends_pure.mpr ⟨?_, fun hok => ?_, fun cause hcause content hcontent => ?_⟩
  · exact (h₁₂.toSpares.mono fun _ h => h.2).trans (h₂₄.mono fun _ h => h.1)
  · exact (hcopy hok).spares h₂₄ (by rwa [h₁₂.placeOf])
  · have hcontent₂ := (h₂₄.files _ hguards content).mp hcontent
    rcases hfailed cause hcause with hdisk | hempty
    · rw [hdisk] at hcontent₂
      exact .inr ((h₁.files _ trivial content).mp hcontent₂)
    · have hempty₂ := (holds_iff.mp hempty).2
      rw [h₁₂.placeOf, hcontent₂, Option.some.injEq, Node.file.injEq] at hempty₂
      exact .inl hempty₂

/-- How writing the ledger anew from the object in a text ends. -/
structure RewriteEnds (l : Ledger) (S : Place → Prop) (text : String) (w : World)
    (r : Document × Except Failure Unit) (w' : World) : Prop where
  document : l.Repaired (objectOf text.toList) r.1
  spares : Spares (fun P => S P ∧ P ≠ l.place w) w w'
  written : r.2 = .ok () →
    w'.Holds l.path r.1.body.toUTF8 ∧ ∃ obj, classify r.1.body.toList = .ok obj
  unwritten : ∀ failure, r.2 = .error failure → ∀ bytes, w.Holds l.path bytes →
    w'.Holds l.path bytes

theorem ends_writeAnew {S : Place → Prop} (hw : w.Steady) (hsink : ∀ P, S P → l.sink.Avoids w P)
    (hdraft : ∀ P, S P → P ≠ w.placeOf l.draftPath) (hledger : S (l.place w)) (text : String) :
    Ends w (l.writeAnew text) (RewriteEnds l S text w) := by
  refine (ends_fromObject_spares hw hsink _).bind fun d w₁ ⟨hdocument, h₁⟩ => ?_
  have hw₁ := h₁.steady hw
  have hsave : Ends w₁ (l.save d).run (SaveEnds l d w₁) := ends_save_steps hw₁ d
  refine hsave.bind fun written w₂ hsaved => ?_
  have h₂ := hsaved.steps.toSpares
  have hsink₂ : ∀ P, S P → l.sink.Avoids w₂ P := fun P hP => ((hsink P hP).spares h₁).spares h₂
  refine (ends_recordAll_spares (h₂.steady hw₁) hsink₂ _).bind fun _ w₃ h₃ => ?_
  have hplace₂ : S (w₂.placeOf l.path) := by
    rw [h₂.placeOf, h₁.placeOf]
    exact hledger
  -- the save spares what is neither the ledger nor its draft, and no guarded place is the draft
  have hbeside : ∀ P, S P ∧ P ≠ l.place w → l.BesideDraft w₁ P ∧ P ≠ l.place w₁ := by
    rintro P ⟨hP, hne⟩
    rw [BesideDraft, place, h₁.placeOf, h₁.placeOf]
    exact ⟨hdraft P hP, hne⟩
  refine ends_pure.mpr ⟨hdocument, ?_, fun hok => ?_, fun failure hfailure bytes hholds => ?_⟩
  · exact ((h₁.mono fun _ h => h.1).trans (h₂.mono hbeside)).trans (h₃.mono fun _ h => h.1)
  · obtain rfl : written = .ok () := hok
    obtain ⟨hbody, haccepted⟩ := hsaved.of_ok
    exact ⟨hbody.spares h₃ hplace₂, haccepted⟩
  · obtain rfl : written = .error failure := hfailure
    have hkept := (hholds.spares h₁ hledger).spares hsaved.steps_of_error.toSpares
      (placeOf_draftPath_ne l w₁).symm
    exact hkept.spares h₃ hplace₂

/-- How copying the text of the ledger aside and writing the ledger anew ends. -/
structure AnewEnds (l : Ledger) (w : World) (text : String) (copied : Except Disk.Cause Unit)
    (r : Document × Except Failure Unit) (w' : World) : Prop where
  spares : Spares (fun _ => False) w w'
  document : l.Repaired (objectOf text.toList) r.1
  copy : copied = .ok () → w'.Holds (l.backupNow w "incomplete") text.toUTF8
  /-- Without a copy, what is read where the ledger is put aside was there before, or is empty. -/
  uncopied : ∀ cause, copied = .error cause → ∀ kind ∈ backupKinds, ∀ content,
    w'.Holds (l.backupNow w kind) content →
      content = .empty ∨ w.disk.node? (w.placeOf (l.backupNow w kind)) = some (.file content)
  written : r.2 = .ok () →
    w'.Holds l.path r.1.body.toUTF8 ∧ ∃ obj, classify r.1.body.toList = .ok obj
  unwritten : ∀ failure, r.2 = .error failure → w'.Holds l.path text.toUTF8

theorem AnewEnds.at_plan {plan : List (Option Disk.Cause)} {copied : Except Disk.Cause Unit}
    {r : Document × Except Failure Unit} (h : l.AnewEnds { w with plan } text copied r w')
    (hw : w.Steady) (hplan : plan <:+ w.plan) : l.AnewEnds w text copied r w' :=
  ⟨(Steps.of_plan _ hw hplan).toSpares.trans h.spares, h.document, h.copy, h.uncopied, h.written,
    h.unwritten⟩

theorem ends_followIncomplete (hw : w.Steady) (hsink : l.Apart w)
    (hholds : w.Holds l.path text.toUTF8) (missing : List String) :
    Ends w (l.followIncomplete text missing) fun r w' =>
      ∃ copied written, r.2 = .anew copied written ∧ l.AnewEnds w text copied (r.1, written) w' := by
  refine (ends_copyAside hw hsink text missing).bind fun copied w₁ h₁ => ?_
  have hdraft : ∀ P, l.Guards w P → P ≠ w₁.placeOf l.draftPath := by
    intro P hP
    rw [h₁.spares.placeOf]
    exact hP.ne_draft
  have hplace : l.place w₁ = l.place w := h₁.spares.placeOf l.path
  have hledger : l.Guards w (l.place w₁) := .inl hplace
  refine (ends_writeAnew (h₁.spares.steady hw) (hsink.avoids h₁.spares) hdraft hledger text).bind ?_
  rintro r w₂ h₂
  have hbackup : ∀ kind ∈ backupKinds, l.Guards w (w.placeOf (l.backupNow w kind)) ∧
      w.placeOf (l.backupNow w kind) ≠ l.place w₁ := by
    intro kind hkind
    rw [hplace]
    exact ⟨guards_backupNow hkind, placeOf_backupNow_ne hkind⟩
  refine ends_pure.mpr ⟨copied, r.2, rfl, ?_, h₂.document, fun hok => ?_, ?_, h₂.written, ?_⟩
  · exact (h₁.spares.mono nofun).trans (h₂.spares.mono nofun)
  · refine (h₁.copy hok).spares h₂.spares ?_
    rw [h₁.spares.placeOf]
    exact hbackup "incomplete" (by decide)
  · intro cause hcause kind hkind content hcontent
    have hnode := (holds_iff.mp hcontent).2
    rw [h₂.spares.placeOf, h₁.spares.placeOf] at hnode
    have hnode₁ := (h₂.spares.files _ (hbackup kind hkind) content).mp hnode
    -- the copy goes to one of the two backups, and the other one is beside it
    rcases List.mem_pair.mp hkind with rfl | rfl
    · refine .inr ((h₁.spares.files _ ⟨guards_backupNow hkind, ?_⟩ content).mp hnode₁)
      exact placeOf_backupFor_ne_backupFor w.now w.nextEvent
    · exact h₁.uncopied cause hcause content hnode₁
  · intro failure hfailure
    refine h₂.unwritten failure hfailure _ (hholds.spares h₁.spares ⟨.inl rfl, ?_⟩)
    exact (placeOf_backupNow_ne (by decide)).symm

/-! ## Loading -/

/-- How loading ends where bytes are at the path of the ledger. -/
inductive LoadEnds (l : Ledger) (w : World) (bytes : ByteArray) : Document × Course → World → Prop
  /-- The text is accepted. -/
  | read {text : String} {obj : Keyed Json} {d : Document} {w' : World}
      (decodes : String.fromUTF8? bytes = some text) (accepted : classify text.toList = .ok obj)
      (spares : Spares (fun _ => False) w w') (document : l.Repaired obj d)
      (holds : w'.Holds l.path bytes) : LoadEnds l w bytes (d, .plain) w'
  /-- Reading was planned to fail, as if there were no ledger. -/
  | missed {d : Document} {w' : World} (hindered : ¬w.Unhindered)
      (spares : Spares (fun _ => False) w w') (holds : w'.Holds l.path bytes) :
      LoadEnds l w bytes (d, .plain) w'
  /-- The bytes hold no object, or reading was planned to fail. -/
  | aside {r : Document × Course} {w' : World}
      (unread : ¬w.Unhindered ∨ ∀ text, String.fromUTF8? bytes = some text →
        ∃ reason, classify text.toList = .error (.corrupt reason))
      (ends : AsideEnds l w bytes r w') : LoadEnds l w bytes r w'
  /-- The bytes hold an object with sections missing. -/
  | anew {text : String} {missing : List String} {d : Document}
      {copied : Except Disk.Cause Unit} {written : Except Failure Unit} {w' : World}
      (decodes : String.fromUTF8? bytes = some text)
      (lacks : classify text.toList = .error (.incomplete missing))
      (ends : l.AnewEnds w text copied (d, written) w') :
      LoadEnds l w bytes (d, .anew copied written) w'

theorem LoadEnds.spares {r : Document × Course} (h : LoadEnds l w bytes r w') :
    Spares (fun _ => False) w w' := by
  cases h with
  | read _ _ hspares => exact hspares
  | missed _ hspares => exact hspares
  | aside _ hends =>
    cases hends with
    | moved hspares => exact hspares
    | stayed hspares => exact hspares
  | anew _ _ hends => exact hends.spares

/-- What is read at the path of the ledger as text is what the bytes say. -/
theorem text?_of_holds (h : w.Holds l.path bytes) :
    l.text? w = match String.fromUTF8? bytes with
      | some text => .ok text
      | none => .error .notText := by
  rw [text?, Disk.readText, show w.disk.read w.workingDir l.path = .ok bytes from h]
  simp only [ok_bind]
  cases String.fromUTF8? bytes <;> rfl

theorem ends_follow (hw : w.Steady) (hsink : l.Apart w) (hholds : w.Holds l.path bytes) :
    Ends w l.follow (LoadEnds l w bytes) := by
  refine (ends_readText_planned l.path w).bind ?_
  rintro r _ ⟨⟨plan, hplan, rfl⟩, hread⟩
  have h₁ : Steps (fun _ => True) w { w with plan } := .of_plan _ hw hplan
  have hw₁ := h₁.steady hw
  have hholds₁ := hholds.spares h₁.toSpares trivial
  have hsink₁ : l.Apart { w with plan } := hsink
  have hledger : l.Guards { w with plan } (l.place w) := .inl rfl
  -- the ledger is moved aside for three reasons: it was not read, is no text, or has no object in
  -- it
  have haside (hunread : ¬w.Unhindered ∨ ∀ text, String.fromUTF8? bytes = some text →
        ∃ reason, classify text.toList = .error (.corrupt reason)) (reason : String) :
      Ends { w with plan } (l.followCorrupt reason) (LoadEnds l w bytes) :=
    (ends_followCorrupt hw₁ hsink₁ hholds₁ reason).imp fun _ _ h =>
      .aside hunread (h.at_plan hw hplan)
  rcases hread with hread | ⟨cause, rfl, hnext⟩
  · -- the ledger was read, and its bytes decide
    obtain rfl : r = l.text? w := hread
    rw [text?_of_holds hholds]
    cases hdecodes : String.fromUTF8? bytes with
    | none => exact haside (.inr fun text h => nomatch hdecodes.symm.trans h) _
    | some text =>
      simp only
      cases hclass : classify text.toList with
      | ok obj =>
        refine (ends_fromObject_spares hw₁ hsink₁ obj).bind fun d w₂ ⟨hdocument, h₂⟩ => ?_
        exact .read hdecodes hclass ((h₁.toSpares.mono nofun).trans (h₂.mono nofun)) hdocument
          (hholds₁.spares h₂ hledger)
      | error fault =>
        cases fault with
        | corrupt reason =>
          refine haside (.inr fun text' htext' => ⟨reason, ?_⟩) reason
          rw [← Option.some.inj (hdecodes.symm.trans htext'), hclass]
        | incomplete missing =>
          obtain rfl := Disk.toUTF8_of_fromUTF8? hdecodes
          refine (ends_followIncomplete hw₁ hsink₁ hholds₁ missing).imp ?_
          rintro ⟨d, _⟩ w₂ ⟨copied, written, rfl, h₂⟩
          exact .anew hdecodes hclass (h₂.at_plan hw hplan)
  · -- reading was planned to fail, and only a missing ledger is not moved aside
    cases cause with
    | notFound =>
      refine (ends_freshDocument_steps hw₁ (l.Guards { w with plan })).bind ?_
      rintro d w₂ ⟨-, h₂, -⟩
      exact .missed hnext ((h₁.toSpares.mono nofun).trans (h₂.toSpares.mono nofun))
        (hholds₁.spares h₂.toSpares hledger)
    | _ => exact haside (.inl hnext) _

/-- No directory is gone after a load. -/
theorem ends_load_spares (hw : w.Steady) (hsink : l.Apart w) (hholds : w.Holds l.path bytes) :
    Ends w l.load fun _ w' => Spares (fun _ => False) w w' :=
  ends_load_iff.mpr ((ends_follow hw hsink hholds).imp fun _ _ h => h.spares)

end EditGate.Ledger
