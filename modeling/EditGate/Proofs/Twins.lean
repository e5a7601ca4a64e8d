import EditGate.Proofs.Both
import EditGate.Proofs.Disk.Appendable
import EditGate.Proofs.Disk.TwinMake
import EditGate.Proofs.Journal

/-!
# Worlds that differ in where notices went

Two runs take the same steps, but the first one keeps its notices, and the second one sends them
elsewhere. Their worlds are twins (`Twins`): the disks differ at the journal and at the directories
that were made for it, and the journal has lines of what was kept. Each step that runs take leaves
twins and has the same answer on both, if its path stays clear of the journal (`Stage.Reads`,
`Disk.Slack.Clears`), and so does recording a notice (`alike_record`).
-/

namespace EditGate

open Disk (Slack Next)
open Run (Alike Both Same)

variable {w w' : World} {path target : Path}

/-- What is known of two runs from the start: where their disks may differ, the journal of the
second one, and what had been kept and what was in the journal when they began. -/
structure Stage where
  slack : Slack
  workingDir : Place
  journal : Place
  kept : List Diagnostic
  bytes : ByteArray
  home : slack.kept workingDir
  place : slack.file journal ∨ slack.kept journal
  file_of_bare : slack.bare → slack.file journal

variable {c : Stage}

namespace Stage

/-- The journal has lines of what was kept since the start: of some of it, in order, and of all of
it if there is room for the journal. -/
def Told (c : Stage) (kept : List Diagnostic) (disk : Disk) : Prop :=
  ∃ since told, kept = c.kept ++ since ∧ told.Sublist since ∧
    disk.bytesAt c.journal = c.bytes ++ (Diagnostic.lines told).toUTF8 ∧
      (c.slack.bare → told = since)

/-- The path can be read: it leads to a place where the disks agree. -/
structure Reads (c : Stage) (path : Path) : Prop where
  admits : c.slack.Admits c.workingDir path
  spares : c.slack.Spares (Disk.lexical c.workingDir path)

/-- The path is that of the journal. -/
structure Hears (c : Stage) (path : Path) : Prop where
  place : Disk.lexical c.workingDir path = c.journal
  way : ∀ q ∈ Disk.way c.workingDir path, c.slack.directory q ∨ c.slack.file q ∨ c.slack.kept q
  ready : c.slack.bare → Disk.Reachable c.workingDir path ∧
    ∀ q ∈ Disk.way c.workingDir path, q ≠ c.journal → c.slack.directory q ∨ c.slack.kept q

/-- The second run sends its notices there. -/
def Suits (c : Stage) : Sink → Prop
  | .journal path => c.Hears path
  | _ => ¬c.slack.bare

end Stage

/-- Worlds of two runs that differ in where notices went. -/
structure Twins (c : Stage) (w w' : World) : Prop where
  disk : Disk.Twin c.slack w.disk w'.disk
  workingDir : w.workingDir = c.workingDir
  workingDir' : w'.workingDir = c.workingDir
  now : w'.now = w.now
  nextEvent : w'.nextEvent = w.nextEvent
  unplanned : w.plan = []
  unplanned' : w'.plan = []
  told : c.Told w.kept w'.disk
  room : c.slack.bare → w'.disk.node? c.journal ≠ some .directory

namespace Twins

/-- Steps that leave what is at the journal leave twins. -/
theorem next (h : Twins c w w') {d d' : Disk} (hnext : Next c.slack w.disk w'.disk d d') :
    Twins c { w with disk := d } { w' with disk := d' } where
  disk := hnext.twin
  workingDir := h.workingDir
  workingDir' := h.workingDir'
  now := h.now
  nextEvent := h.nextEvent
  unplanned := h.unplanned
  unplanned' := h.unplanned'
  told := by
    have hbytes : d'.bytesAt c.journal = w'.disk.bytesAt c.journal := by
      rw [Disk.bytesAt, Disk.bytesAt]
      rcases c.place with hfile | hkept
      · rw [hnext.own _ hfile]
      · rw [hnext.twin.kept' hkept, h.disk.kept' hkept]
    obtain ⟨since, told, hsince, hsub, htold, hall⟩ := h.told
    exact ⟨since, told, hsince, hsub, hbytes.trans htold, hall⟩
  room := fun hbare => by
    rw [hnext.own _ (c.file_of_bare hbare)]
    exact h.room hbare

/-! ## Steps on both -/

/-- Looking where the disks are alike leaves both worlds as they are. -/
theorem readText (h : Twins c w w')
    (hread : w'.disk.read c.workingDir path = w.disk.read c.workingDir path) :
    Both w w' (Run.readText path) (Run.readText path) fun r r' v v' => r' = r ∧ Twins c v v' ∧
      r = w.disk.readText c.workingDir path ∧ v = w := by
  rw [Both, Run.readText, Run.look_eq h.unplanned, Run.look_eq h.unplanned', h.workingDir,
    h.workingDir', Disk.readText, Disk.readText, hread]
  exact ⟨rfl, h, rfl, rfl⟩

/-- A step that changes both disks alike leaves twins. -/
theorem change (h : Twins c w w') {f : Disk → Place → Except Disk.Cause Disk}
    (halike : Disk.Alike c.slack w.disk w'.disk (f w.disk c.workingDir) (f w'.disk c.workingDir)) :
    Both w w' (Run.change f) (Run.change f) fun r r' v v' => r' = r ∧ Twins c v v' ∧
      (r = .ok () → f w.disk c.workingDir = .ok v.disk) := by
  have hleft : f w.disk w.workingDir = f w.disk c.workingDir := by rw [h.workingDir]
  have hright : f w'.disk w'.workingDir = f w'.disk c.workingDir := by rw [h.workingDir']
  rw [Both, Run.change_eq h.unplanned, Run.change_eq h.unplanned', hleft, hright]
  generalize hr : f w.disk c.workingDir = r at halike
  generalize f w'.disk c.workingDir = r' at halike
  cases halike with
  | ok hnext => exact ⟨rfl, h.next hnext, fun _ => rfl⟩
  | error cause => exact ⟨rfl, h, fun hr => nomatch hr⟩

/-- The directories that lead to a path are made alike. -/
theorem makeParents (h : Twins c w w') (hpath : c.slack.Admits c.workingDir path) :
    Both w w' (Run.makeParents path) (Run.makeParents path) fun r r' v v' =>
      r' = r ∧ Twins c v v' ∧ (r = .ok () → v.disk.Paved c.workingDir path) := by
  obtain ⟨hanswer, hnext, hpaved⟩ := h.disk.makeParents c.home hpath
  have hleft : w.disk.makeParents w.workingDir path = w.disk.makeParents c.workingDir path := by
    rw [h.workingDir]
  have hright : w'.disk.makeParents w'.workingDir path =
      w'.disk.makeParents c.workingDir path := by rw [h.workingDir']
  rw [Both, Run.makeParents_eq h.unplanned, Run.makeParents_eq h.unplanned', hleft, hright]
  exact ⟨hanswer, h.next hnext, hpaved⟩

/-- What is not above what differs is moved alike, where it is found alike. -/
theorem rename (h : Twins c w w') {source target : Path}
    (hsource : w'.disk.find c.workingDir source = w.disk.find c.workingDir source)
    (htarget : ∀ spot, w.disk.find c.workingDir source = .ok spot →
      w'.disk.find c.workingDir target = w.disk.find c.workingDir target)
    (hp : c.slack.Clears (Disk.lexical c.workingDir source))
    (hq : c.slack.Clears (Disk.lexical c.workingDir target)) :
    Same (Twins c) w w' (Run.rename source target) (Run.rename source target) :=
  (h.change (f := fun d wd => d.rename wd source target)
    (h.disk.rename c.home hsource htarget hp hq)).imp fun _ _ _ _ h' => ⟨h'.1, h'.2.1⟩

/-- A path that is paved on the first disk is found alike. -/
theorem find_eq (h : Twins c w w') (hpaved : w.disk.Paved c.workingDir path)
    (hplace : c.slack.Spares (Disk.lexical c.workingDir path)) :
    w'.disk.find c.workingDir path = w.disk.find c.workingDir path :=
  h.disk.find_paved (h.disk.kept _ c.home) hpaved (.inl hplace)

end Twins

theorem alike_timeStamp : Alike (Twins c) Run.timeStamp Run.timeStamp :=
  fun _ _ h => ⟨congrArg stamp h.now, h⟩

theorem alike_newEvent : Alike (Twins c) Run.newEvent Run.newEvent := fun _ _ h =>
  ⟨congrArg eventName h.nextEvent,
    { h with nextEvent := congrArg (· + 1) h.nextEvent }⟩

theorem alike_removeFile (hpath : c.Reads path) :
    Alike (Twins c) (Run.removeFile path) (Run.removeFile path) := fun _ _ h =>
  (h.change (f := fun d wd => d.removeFile wd path)
    (h.disk.removeFile hpath.admits hpath.spares)).imp fun _ _ _ _ h' => ⟨h'.1, h'.2.1⟩

/-! ## Writing where the way is paved -/

/-- Twins on whose disks a path is paved. -/
structure Laid (c : Stage) (path : Path) (w w' : World) : Prop where
  twins : Twins c w w'
  paved : w.disk.Paved c.workingDir path

theorem alike_timeStamp_laid : Alike (Laid c path) Run.timeStamp Run.timeStamp :=
  fun _ _ h => ⟨congrArg stamp h.twins.now, h⟩

namespace Laid

/-- A step that loses no directory leaves the path paved. -/
theorem change (h : Laid c path w w') {f : Disk → Place → Except Disk.Cause Disk}
    (halike : Disk.Alike c.slack w.disk w'.disk (f w.disk c.workingDir) (f w'.disk c.workingDir))
    (hkeep : ∀ d, f w.disk c.workingDir = .ok d → Disk.KeepsDirectories w.disk d) :
    Same (Laid c path) w w' (Run.change f) (Run.change f) := by
  have hleft : f w.disk w.workingDir = f w.disk c.workingDir := by rw [h.twins.workingDir]
  obtain ⟨hanswer, htwins, -⟩ := h.twins.change halike
  refine ⟨hanswer, htwins, ?_⟩
  rw [Run.change_eq h.twins.unplanned, hleft]
  cases hd : f w.disk c.workingDir with
  | ok d => exact h.paved.mono (hkeep d hd)
  | error cause => exact h.paved

theorem createFile (h : Laid c path w w') (hpaved : w.disk.Paved c.workingDir target)
    (hplace : c.slack.Spares (Disk.lexical c.workingDir target)) :
    Same (Laid c path) w w' (Run.createFile target) (Run.createFile target) := by
  refine h.change (f := fun d wd => d.create wd target)
    (h.twins.disk.create c.home (h.twins.find_eq hpaved hplace) hplace) fun d hd => ?_
  obtain ⟨-, hopen, rfl⟩ :=
    Disk.create_eq_ok h.twins.disk.tree (h.twins.disk.kept _ c.home) hd
  exact Disk.keepsDirectories_put hopen.ne_nil hopen.not_directory

theorem append (h : Laid c path w w') (hpaved : w.disk.Paved c.workingDir target)
    (hplace : c.slack.Spares (Disk.lexical c.workingDir target)) (bytes : ByteArray) :
    Same (Laid c path) w w' (Run.change fun d wd => d.append wd target bytes)
      (Run.change fun d wd => d.append wd target bytes) := by
  refine h.change (f := fun d wd => d.append wd target bytes)
    (h.twins.disk.append c.home (h.twins.find_eq hpaved hplace) hplace _) fun d hd => ?_
  obtain ⟨-, hopen, rfl⟩ :=
    Disk.append_eq_ok h.twins.disk.tree (h.twins.disk.kept _ c.home) hd
  exact Disk.keepsDirectories_put hopen.ne_nil hopen.not_directory

/-- A whole file is written alike. -/
theorem writeText (h : Laid c path w w')
    (hplace : c.slack.Spares (Disk.lexical c.workingDir path)) (text : String) :
    Same (Laid c path) w w' (Run.writeText path text) (Run.writeText path text) := by
  refine (h.createFile h.paved hplace).bind fun r v v' hv => ?_
  cases r with
  | error cause => exact ⟨rfl, hv⟩
  | ok u => exact hv.append hv.paved hplace text.toUTF8

theorem sync (h : Laid c path w w') : Same (Laid c path) w w' Run.sync Run.sync :=
  h.change (f := fun d _ => .ok d) (.ok h.twins.disk.next) fun _ hd => Except.ok.inj hd ▸ fun _ hp => hp

theorem readText (h : Laid c path w w') (hpaved : w.disk.Paved c.workingDir target)
    (hplace : c.slack.Spares (Disk.lexical c.workingDir target)) :
    Same (Laid c path) w w' (Run.readText target) (Run.readText target) := by
  have hread := h.twins.disk.read_of_find (h.twins.find_eq hpaved hplace) hplace
  refine (h.twins.readText hread).imp fun r r' v v' h' => ⟨h'.1, h'.2.1, ?_⟩
  rw [h'.2.2.2]
  exact h.paved

theorem removeFile (h : Laid c path w w') (hpaved : w.disk.Paved c.workingDir target)
    (hplace : c.slack.Spares (Disk.lexical c.workingDir target)) :
    Same (Twins c) w w' (Run.removeFile target) (Run.removeFile target) :=
  (h.twins.change (f := fun d wd => d.removeFile wd target)
    (h.twins.disk.removeFile_of_find (h.twins.find_eq hpaved hplace) hplace)).imp
      fun _ _ _ _ h' => ⟨h'.1, h'.2.1⟩

theorem rename (h : Laid c path w w') {source : Path} (hpaved : w.disk.Paved c.workingDir source)
    (hsource : c.slack.Clears (Disk.lexical c.workingDir source))
    (hpath : c.slack.Clears (Disk.lexical c.workingDir path)) :
    Same (Twins c) w w' (Run.rename source path) (Run.rename source path) :=
  h.twins.rename (h.twins.find_eq hpaved hsource.spares)
    (fun _ _ => h.twins.find_eq h.paved hpath.spares) hsource hpath

/-- With another name a path is paved too. -/
theorem withFileName (h : Laid c path w w') {name : List Char} (hne : name ≠ [])
    (hname : '/' ∉ name) : w.disk.Paved c.workingDir (path.withFileName name) :=
  h.paved.withFileName h.twins.disk.tree (h.twins.disk.kept _ c.home) hne hname

end Laid

/-! ## Notices -/

namespace Twins

variable {d : Diagnostic} {e : Disk}

/-- The first run keeps a diagnostic that the journal does not get. -/
theorem kept (h : Twins c w w') (hbare : ¬c.slack.bare) (htwin : Disk.Twin c.slack w.disk e)
    (hbytes : e.bytesAt c.journal = w'.disk.bytesAt c.journal) {kept' : List Diagnostic} :
    Twins c { w with kept := w.kept ++ [d] } { w' with disk := e, kept := kept' } where
  disk := htwin
  workingDir := h.workingDir
  workingDir' := h.workingDir'
  now := h.now
  nextEvent := h.nextEvent
  unplanned := h.unplanned
  unplanned' := h.unplanned'
  told := by
    obtain ⟨since, told, hsince, hsub, htold, -⟩ := h.told
    refine ⟨since ++ [d], told, ?_, hsub.trans (List.sublist_append_left since [d]),
      hbytes.trans htold, fun hb => absurd hb hbare⟩
    rw [← List.append_assoc, ← hsince]
  room := fun hb => absurd hb hbare

/-- The journal gets the diagnostic that the first run keeps. -/
theorem told_line (h : Twins c w w') (htwin : Disk.Twin c.slack w.disk e)
    (hfile : e.node? c.journal =
      some (.file (w'.disk.bytesAt c.journal ++ (Diagnostic.lines [d]).toUTF8))) :
    Twins c { w with kept := w.kept ++ [d] } { w' with disk := e } where
  disk := htwin
  workingDir := h.workingDir
  workingDir' := h.workingDir'
  now := h.now
  nextEvent := h.nextEvent
  unplanned := h.unplanned
  unplanned' := h.unplanned'
  told := by
    obtain ⟨since, told, hsince, hsub, htold, hall⟩ := h.told
    refine ⟨since ++ [d], told ++ [d], ?_, hsub.append (List.Sublist.refl [d]), ?_,
      fun hb => by rw [hall hb]⟩
    · rw [← List.append_assoc, ← hsince]
    · rw [Disk.bytesAt, hfile, htold, Diagnostic.lines_append, String.toUTF8_eq_toByteArray,
        String.toUTF8_eq_toByteArray, String.toUTF8_eq_toByteArray, String.toByteArray_append,
        ByteArray.append_assoc]
  room := fun _ => by simp [hfile]

end Twins

/-- The disk after an attempt to append to a file whose directories are made first. -/
def Disk.tryAppend (d : Disk) (wd : Place) (path : Path) (bytes : ByteArray) : Disk :=
  match d.makeParents wd path with
  | (.error _, e) => e
  | (.ok (), e) =>
    match e.append wd path bytes with
    | .error _ => e
    | .ok e' => e'

theorem run_appendToJournal (h : w'.plan = []) (path : Path) (d : Diagnostic) :
    ((appendToJournal path d).run w').2 =
      { w' with
        disk := w'.disk.tryAppend w'.workingDir path (Diagnostic.lines [d]).toUTF8 } := by
  rw [appendToJournal, Run.bind_eq, Run.makeParents_eq h, Disk.tryAppend]
  obtain ⟨o, e⟩ := w'.disk.makeParents w'.workingDir path
  cases o with
  | error cause => rfl
  | ok u =>
    dsimp only
    rw [Run.bind_eq, Run.appendText, Run.change_eq (w := { w' with disk := e }) h,
      ← Diagnostic.lines_singleton]
    cases e.append w'.workingDir path (Diagnostic.lines [d]).toUTF8 with
    | error cause => rfl
    | ok e' => rfl

/-- Where nothing else is in the way, the journal may be written once the directories are made. -/
theorem Twins.makeParents_ready (h : Twins c w w') (hpath : c.Hears path) (hbare : c.slack.bare) :
    (w'.disk.makeParents c.workingDir path).1 = .ok () ∧
      (w'.disk.makeParents c.workingDir path).2.Names c.workingDir path ∧
      (w'.disk.makeParents c.workingDir path).2.node? c.journal ≠ some .directory := by
  obtain ⟨hreach, hfree⟩ := hpath.ready hbare
  obtain ⟨hok, hnames, hsame⟩ := hreach.makeParents_ok h.disk.tree' (h.disk.kept' c.home)
    fun q hq hne => h.disk.free hbare (hfree q hq (hpath.place ▸ hne))
  rw [hpath.place] at hsame
  exact ⟨hok, hnames, hsame ▸ h.room hbare⟩

/-- What the journal gets of a diagnostic is its line, or nothing if it cannot be written. -/
theorem Twins.appendToJournal (h : Twins c w w') (hpath : c.Hears path) (d : Diagnostic) :
    Twins c { w with kept := w.kept ++ [d] } ((EditGate.appendToJournal path d).run w').2 := by
  have hhome : w'.disk.node? c.workingDir = some .directory := h.disk.kept' c.home
  have htwin := h.disk.makeParents_right c.home hpath.way
  obtain ⟨htree, hkeep, -⟩ := @Disk.makeParents_preserves w'.disk c.workingDir path
    h.disk.tree' hhome
  have hready := h.makeParents_ready hpath
  have hbytes := Disk.bytesAt_makeParents h.disk.tree' hhome path c.journal
  have htried : w'.disk.tryAppend w'.workingDir path (Diagnostic.lines [d]).toUTF8 =
      w'.disk.tryAppend c.workingDir path (Diagnostic.lines [d]).toUTF8 := by rw [h.workingDir']
  rw [run_appendToJournal h.unplanned', htried, Disk.tryAppend]
  revert htwin htree hkeep hready hbytes
  obtain ⟨o, e⟩ := w'.disk.makeParents c.workingDir path
  dsimp only
  intro htwin htree hkeep hready hbytes
  cases o with
  -- where there is room, the directories are made and the line is written
  | error cause => exact h.kept (fun hbare => absurd (hready hbare).1 (by simp)) htwin hbytes
  | ok u =>
    dsimp only
    cases happend : e.append c.workingDir path (Diagnostic.lines [d]).toUTF8 with
    | error cause =>
      refine h.kept (fun hbare => ?_) htwin hbytes
      obtain ⟨-, hnames, hnot⟩ := hready hbare
      rw [← hpath.place] at hnot
      cases happend.symm.trans (hnames.append_eq hnot _)
    | ok e' =>
      obtain ⟨-, hopen, rfl⟩ := Disk.append_eq_ok htree (hkeep _ hhome) happend
      rw [hpath.place] at hopen ⊢
      have hfile : c.slack.file c.journal :=
        c.place.resolve_right fun hkept => hopen.not_directory (htwin.kept' hkept)
      refine h.told_line (htwin.putFile hfile hopen _) ?_
      rw [Disk.node?_put_self hopen.ne_nil, hbytes]

theorem alike_record {sink : Sink} (hsink : c.Suits sink) (n : Notice) :
    Alike (Twins c) (Sink.keep.record n) (sink.record n) := by
  refine alike_timeStamp.bind fun time => alike_newEvent.bind fun event => ?_
  intro w w' h
  cases sink with
  | keep => exact ⟨rfl, h.kept hsink h.disk rfl⟩
  | discard => exact ⟨rfl, h.kept hsink h.disk rfl⟩
  | journal path => exact ⟨rfl, h.appendToJournal hsink _⟩

theorem alike_recordAll {sink : Sink} (hsink : c.Suits sink) (ns : List Notice) :
    Alike (Twins c) (Sink.keep.recordAll ns) (sink.recordAll ns) := by
  induction ns with
  | nil => exact Run.alike_pure ()
  | cons n ns ih => exact (alike_record hsink n).bind fun _ => ih

end EditGate
