import EditGate.Proofs.Disk.Upward
import EditGate.Proofs.Ledger.Beside
import EditGate.Proofs.Ledger.Refines
import EditGate.Proofs.Ledger.Room

/-!
# What taking approvals back leaves

A run is confined if it leaves the files at some places as they were, but for the journal, and makes
directories for the journal only (`Confined`). A ledger is held if nothing is in its place or it
shows a sound document; loading a held ledger gives that document, or a fresh one, and leaves every
file (`ends_load_held`). Taking approvals back from a held ledger has one of two ends (`Withdrawn`):
there is nothing to take back and every file is left, or the document is saved with the approvals of
the file empty, and every file is left but the ledger and its draft (`ends_invalidate_held`).
-/

namespace EditGate

open Disk (KeepsDirectories)
open Run World
open World (Grown Steps)

/-! ## Runs that make no directory -/

namespace Run

variable {w : World} {path : Path}

theorem ends_change_made {f : Disk → Place → Except Disk.Cause Disk}
    (h : ∀ disk, f w.disk w.workingDir = .ok disk → KeepsDirectories disk w.disk) :
    Ends w (change f) fun _ w' => KeepsDirectories w'.disk w.disk :=
  ends_change_planned (fun _ _ _ _ hq => hq) h fun _ _ _ hq => hq

theorem ends_createFile_made (hw : w.Steady) (path : Path) :
    Ends w (createFile path) fun _ w' => w'.Steady ∧ KeepsDirectories w'.disk w.disk :=
  ((ends_createFile_steps (S := fun _ => False) hw nofun).and (ends_change_made fun _ h =>
    Disk.keepsDirectories_of_create hw.tree hw.home h)).imp fun _ _ h => ⟨h.1.1.steady hw, h.2⟩

theorem ends_appendText_made (hw : w.Steady) (path : Path) (text : String) :
    Ends w (appendText path text) fun _ w' => w'.Steady ∧ KeepsDirectories w'.disk w.disk :=
  ((ends_appendText_steps (S := fun _ => False) hw nofun text).and (ends_change_made fun _ h =>
    Disk.keepsDirectories_of_append hw.tree hw.home h)).imp fun _ _ h => ⟨h.1.1.steady hw, h.2⟩

theorem ends_writeText_made (hw : w.Steady) (path : Path) (text : String) :
    Ends w (writeText path text) fun _ w' => KeepsDirectories w'.disk w.disk := by
  refine (ends_createFile_made hw path).bind fun r w₁ ⟨hw₁, h₁⟩ => ?_
  cases r with
  | error cause => exact h₁
  | ok u =>
    exact (ends_appendText_made hw₁ path text).imp fun _ _ h₂ p hp => h₁ p (h₂.2 p hp)

/-- A path with all of its directories in place needs none. -/
theorem ends_makeParents_made {content : ByteArray} (hw : w.Steady)
    (hpaved : w.disk.Paved w.workingDir path)
    (hfile : w.disk.node? (w.placeOf path) = some (.file content)) :
    Ends w (makeParents path) fun _ w' => KeepsDirectories w'.disk w.disk := by
  have hoff : Ends w (makeParents path) fun _ w' =>
      ∀ q, q ∉ Disk.way w.workingDir path → w'.disk.node? q = w.disk.node? q :=
    fun q hq => (ends_makeParents_off hw hq).2
  refine ((ends_makeParents_steps hw (fun _ => True) path).and hoff).imp ?_
  rintro _ w' ⟨hsteps, hsame⟩ q hq
  by_cases hway : q ∈ Disk.way w.workingDir path
  · obtain ⟨fs, ⟨rest, hrest⟩, rfl⟩ := Disk.mem_strides_iff.mp hway
    by_cases hcounts : ∃ x ∈ rest, ¬Disk.Idle x
    · exact hpaved fs rest hrest.symm hcounts
    · -- the path has led to the file, which stays
      have hidle : ∀ x ∈ rest, Disk.Idle x := fun x hx => by_contra fun hx' => hcounts ⟨x, hx, hx'⟩
      have hlex : w.placeOf path = fs.foldl Disk.stride (Disk.startOf w.workingDir path) := by
        rw [World.placeOf, Disk.lexical, ← hrest, List.foldl_append, Disk.foldl_stride_idle hidle]
      rw [← hlex, (hsteps.files _ trivial content).mpr hfile] at hq
      cases hq
  · rwa [hsame q hway] at hq

end Run

namespace Ledger

open Approval (Status)

variable {l : Ledger} {d d' : Document} {w w' w'' : World} {s : Sink} {S T : Place → Prop}
  {P : Place} {path : Path}

theorem ends_writeDraft_made (hw : w.Steady) (path : Path) (text : String) :
    Trial.Ends w (writeDraft path text) fun _ w' => KeepsDirectories w'.disk w.disk := by
  refine (ends_createFile_made hw path).bind_io (fun _ w₁ ⟨hw₁, h₁⟩ => ?_) fun _ _ h => h.2
  refine (ends_appendText_made hw₁ path text).bind_io (fun _ w₂ ⟨_, h₂⟩ => ?_)
    fun _ _ h p hp => h₁ p (h.2 p hp)
  refine Trial.ends_io.mpr ((ends_change_made fun _ h => ?_).imp fun _ _ h₃ p hp =>
    h₁ p (h₂ p (h₃ p hp)))
  cases h
  exact fun _ hp => hp

/-- Saving a ledger that is there makes no directory. -/
theorem ends_save_made {text : String} (hw : w.Calm) (htext : l.text? w = .ok text)
    (d : Document) :
    Trial.Ends w (l.save d) fun _ w' => KeepsDirectories w'.disk w.disk := by
  -- a ledger that was read is in a directory that is there
  obtain ⟨⟨dir, name, hfind, -⟩, content, hfile, -⟩ := Disk.names_of_readText htext
  have hpaved := Disk.paved_of_find hw.tree hw.home hfind
  refine ((ends_makeParents hw (l.place w) l.path).and
    (ends_makeParents_made hw.steady hpaved hfile)).bind_io (fun _ w₁ ⟨h₁, hmade₁⟩ => ?_)
      fun _ _ h => h.2
  have hw₁ := h₁.calm hw
  refine ((ends_writeDraft_steps (S := fun _ => False) hw₁.steady nofun d.body).and
    (ends_writeDraft_made hw₁.steady l.draftPath d.body)).bind (fun _ w₂ h₂ => ?_)
      fun _ _ h p hp => hmade₁ p (h.2 p hp)
  obtain ⟨⟨hsteps₂, hwritten⟩, hmade₂⟩ := h₂
  have hw₂ : w₂.Calm := hsteps₂.toSpares.calm hw₁
  have hholds : w₂.Holds l.draftPath d.body.toUTF8 := by
    rcases hwritten with ⟨-, hholds⟩ | ⟨cause, hcause⟩
    · exact hholds
    · cases hcause
  refine (ends_readText hw₂ (l.place w) l.draftPath).bind_io (fun written w₃ ⟨_, hdisk₃, h₃⟩ => ?_)
    fun _ _ ⟨_, hdisk, _⟩ p hp => hmade₁ p (hmade₂ p (hdisk ▸ hp))
  have hmade₃ : KeepsDirectories w₃.disk w.disk := fun p hp => hmade₁ p (hmade₂ p (hdisk₃ ▸ hp))
  have hw₃ := h₃.calm hw₂
  split
  · have hdraft : w₃.disk.node? (Disk.lexical w₃.workingDir l.draftPath) =
        some (.file d.body.toUTF8) := by
      rw [hdisk₃, h₃.workingDir]
      exact (holds_iff.mp hholds).2
    refine Trial.ends_io.mpr ((ends_change_made fun _ h => ?_).imp fun _ _ h₄ p hp =>
      hmade₃ p (h₄ p hp))
    exact Disk.keepsDirectories_of_rename hw₃.tree hw₃.home hdraft h
  · refine Run.Ends.bind_lift (ends_change_made fun _ h => ?_) fun _ w₄ h₄ p hp =>
      hmade₃ p (h₄ p hp)
    exact Disk.keepsDirectories_of_removeFile h

/-! ## Confined runs -/

/-- A later world in which the files at some places are what they were, unless the journal is
there, and in which no directory is new but on the way of the journal. -/
structure Confined (s : Sink) (S : Place → Prop) (w w' : World) : Prop where
  later : Later w w'
  directories : KeepsDirectories w.disk w'.disk
  file : ∀ P, S P → s.Avoids w P → Grown P w w'
  made : ∀ Q, s.PassesBy w Q →
    w'.disk.node? Q = some .directory → w.disk.node? Q = some .directory

namespace Confined

theorem refl (hw : w.Calm) : Confined s S w w :=
  ⟨.refl hw, fun _ h => h, fun P _ _ => .refl P hw, fun _ _ h => h⟩

theorem trans (h : Confined s S w w') (h' : Confined s S w' w'') : Confined s S w w'' where
  later := h.later.trans h'.later
  directories p hp := h'.directories p (h.directories p hp)
  file P hS hP := (h.file P hS hP).trans (h'.file P hS (hP.same h.later.workingDir))
  made Q hQ hdir := h.made Q hQ (h'.made Q (hQ.same h.later.workingDir) hdir)

theorem mono (h : Confined s S w w') (hTS : ∀ P, T P → S P) : Confined s T w w' :=
  { h with file := fun P hP => h.file P (hTS P hP) }

end Confined

theorem confined_of_disk_eq (hw : w.Calm) (h : ∀ P, Grown P w w') (hdisk : w'.disk = w.disk) :
    Confined s S w w' :=
  ⟨later_of_grown hw (h []), (h []).disk.directories, fun P _ _ => h P, fun _ _ hdir => hdisk ▸ hdir⟩

theorem ends_readText_confined (hw : w.Calm) (path : Path) :
    Ends w (readText path) fun r w' =>
      r = w.disk.readText w.workingDir path ∧ Confined s S w w' := by
  have hread := ends_readText hw [] path
  exact ⟨hread.1, confined_of_disk_eq hw (fun P => (ends_readText hw P path).2.2) hread.2.1⟩

/-- Looking is confined. -/
theorem ends_confined_of_looked {α : Type} {m : Run α} (hw : w.Calm)
    (hsink : l.sink.Avoids w (l.place w))
    (h : ∀ P, l.sink.Avoids w P → Ends w m fun _ w' => Looked l P w w') :
    Ends w m fun _ w' => Confined l.sink S w w' := by
  have hledger := h _ hsink
  refine ⟨later_of_grown hw hledger.beside, hledger.beside.disk.directories,
    fun P _ hP => (h P hP).beside, fun Q hQ hdir => ?_⟩
  rwa [(hledger.frame Q hQ).node] at hdir

theorem ends_record_confined (hw : w.Calm) (s : Sink) (n : Notice) :
    Ends w (s.record n) fun _ w' => Confined s S w w' := by
  have hkeeps := ends_record_keeps hw.steady s n
  exact ⟨later_of_spares hw hkeeps, hkeeps.directories, fun _ _ hP => ends_record hw hP n,
    fun _ hQ hdir => (ends_record_off hw.steady hQ n).symm.trans hdir⟩

theorem ends_recordAll_confined (hw : w.Calm) (s : Sink) (ns : List Notice) :
    Ends w (s.recordAll ns) fun _ w' => Confined s S w w' := by
  have hkeeps := ends_recordAll_keeps hw.steady s ns
  exact ⟨later_of_spares hw hkeeps, hkeeps.directories, fun _ _ hP => ends_recordAll hw hP ns,
    fun _ hQ hdir => (ends_recordAll_off hw.steady hQ ns).symm.trans hdir⟩

/-! ## Held ledgers -/

theorem text?_of_stored? {obj : Keyed Json} (h : l.stored? w = some obj) :
    ∃ text, l.text? w = .ok text ∧ classify text.toList = .ok obj := by
  rw [stored?] at h
  split at h
  · rename_i text htext
    refine ⟨text, htext, ?_⟩
    cases hclassify : classify text.toList with
    | ok obj' =>
      rw [hclassify] at h
      rw [Option.some.inj h]
    | error fault =>
      rw [hclassify] at h
      cases h
  · cases h

theorem stored?_of_text? {text : String} {obj : Keyed Json} (htext : l.text? w = .ok text)
    (hobj : classify text.toList = .ok obj) : l.stored? w = some obj := by
  rw [stored?, htext]
  simp only [hobj]
  rfl

theorem Shows.unique (h : l.Shows w d) (h' : l.Shows w d') : d = d' := by
  obtain ⟨text, obj, htext, hobj, hd⟩ := h
  obtain ⟨text', obj', htext', hobj', hd'⟩ := h'
  obtain rfl : text = text' := Except.ok.inj (htext.symm.trans htext')
  obtain rfl : obj = obj' := Except.ok.inj (hobj.symm.trans hobj')
  exact (hd ⟨.null, .null⟩).symm.trans (hd' ⟨.null, .null⟩)

theorem Shows.node?_ne_none (h : l.Shows w d) : w.disk.node? (l.place w) ≠ none := by
  obtain ⟨text, obj, htext, -⟩ := h
  obtain ⟨-, content, hfile, -⟩ := Disk.names_of_readText htext
  exact fun hnone => nomatch hnone.symm.trans hfile

/-- The ledger is not the journal, and it shows a sound document, or nothing is in its place, and
the journal does not lead there. -/
structure Held (l : Ledger) (w : World) : Prop where
  calm : w.Calm
  avoids : l.sink.Avoids w (l.place w)
  holds : (w.disk.node? (l.place w) = none ∧ l.sink.PassesBy w (l.place w)) ∨
    ∃ d, l.Shows w d ∧ d.Sound

namespace Held

theorem passesBy (h : l.Held w) (hnone : w.disk.node? (l.place w) = none) :
    l.sink.PassesBy w (l.place w) := by
  rcases h.holds with ⟨-, hpasses⟩ | ⟨d, hd, -⟩
  · exact hpasses
  · exact absurd hnone hd.node?_ne_none

theorem sound (h : l.Held w) (hd : l.Shows w d) : d.Sound := by
  rcases h.holds with ⟨hnone, -⟩ | ⟨d', hd', hsound⟩
  · exact absurd hnone hd.node?_ne_none
  · exact hd.unique hd' ▸ hsound

theorem free (h : l.Held w) : w.disk.node? (l.place w) ≠ some .directory := by
  rcases h.holds with ⟨hnone, -⟩ | ⟨d, ⟨text, obj, htext, -⟩, -⟩
  · simp [hnone]
  · obtain ⟨-, content, hfile, -⟩ := Disk.names_of_readText htext
    exact fun hdir => nomatch hfile.symm.trans hdir

theorem node?_eq_none (h : l.Held w) (hc : Confined l.sink S w w') (hS : S (l.place w))
    (hnone : w.disk.node? (l.place w) = none) : w'.disk.node? (l.place w) = none := by
  cases hnode : w'.disk.node? (l.place w) with
  | none => rfl
  | some n =>
    cases n with
    | directory => exact nomatch hnone.symm.trans (hc.made _ (h.passesBy hnone) hnode)
    | file content =>
      have hfile := ((hc.file _ hS h.avoids).disk.file content).mp hnode
      exact nomatch hnone.symm.trans hfile

/-- What leaves the ledger leaves it held. -/
theorem confined (h : l.Held w) (hc : Confined l.sink S w w') (hS : S (l.place w)) :
    l.Held w' where
  calm := hc.later.calm
  avoids := by
    rw [hc.later.place]
    exact h.avoids.same hc.later.workingDir
  holds := by
    rw [hc.later.place]
    rcases h.holds with ⟨hnone, hpasses⟩ | ⟨d, hd, hsound⟩
    · exact .inl ⟨h.node?_eq_none hc hS hnone, hpasses.same hc.later.workingDir⟩
    · exact .inr ⟨d, hd.grown (hc.file _ hS h.avoids), hsound⟩

/-- A held ledger that was left showed before what it shows. -/
theorem shows_of_confined (h : l.Held w) (hc : Confined l.sink S w w') (hS : S (l.place w))
    (hd : l.Shows w' d) : l.Shows w d := by
  rcases h.holds with ⟨hnone, -⟩ | ⟨d', hd', -⟩
  · refine absurd ?_ hd.node?_ne_none
    rw [hc.later.place, h.node?_eq_none hc hS hnone]
  · exact hd.unique (hd'.grown (hc.file _ hS h.avoids)) ▸ hd'

end Held

/-- Loading an accepted ledger is nothing but looking, wherever notices go. -/
theorem ends_load_shows_confined (hw : w.Calm) (hd : l.Shows w d) :
    Ends w l.load fun _ w' => Confined l.sink S w w' := by
  obtain ⟨text, obj, htext, hobj, -⟩ := hd
  refine (ends_readText_confined (S := S) (s := l.sink) hw l.path).bind ?_
  rintro _ w₁ ⟨rfl, h₁⟩
  rw [show w.disk.readText w.workingDir l.path = .ok text from htext]
  simp only [hobj]
  have hfresh : Ends w₁ l.freshSections fun _ w' => Confined l.sink S w₁ w' :=
    confined_of_disk_eq h₁.later.calm (fun P => (ends_freshSections h₁.later.calm P).1)
      (ends_freshSections h₁.later.calm []).2
  refine hfresh.bind fun f w₂ h₂ => ?_
  exact (ends_recordAll_confined h₂.later.calm l.sink _).bind fun _ _ h₃ => (h₁.trans h₂).trans h₃

/-- Loading a held ledger leaves it and gives what it shows, or a fresh document. -/
theorem ends_load_held (h : l.Held w) :
    Ends w l.load fun d w' => Confined l.sink S w w' ∧ d.Sound ∧
      ((w.disk.node? (l.place w) = none ∧ l.IsFresh d) ∨ l.Shows w d) := by
  rcases h.holds with ⟨hnone, hpasses⟩ | ⟨d, hd, hsound⟩
  · have hout : ¬l.place w <+: w.workingDir := h.calm.tree.not_below (by simp [hnone]) h.calm.home
    refine (ends_confined_of_looked h.calm h.avoids fun P hP =>
      ends_load_looked ⟨h.calm, .inl hnone, hP, hpasses⟩).and ?_
    refine (ends_load_hasNoFile h.calm h.avoids (by simp [HasNoFile, hnone]) hout).imp ?_
    exact fun d w' hfresh => ⟨hfresh.1.sound, .inl ⟨hnone, hfresh.1⟩⟩
  · refine (ends_load_shows_confined h.calm hd).and ((ends_load h.calm h.avoids hd).imp ?_)
    rintro _ w' ⟨rfl, -⟩
    exact ⟨hsound, .inr hd⟩

/-! ## Taking approvals back -/

/-- What taking back the approvals of a file leaves, of the files at some places: nothing was there
to take back and they are what they were, or the document that was shown is saved with empty slots,
and they are what they were but for the ledger and its draft. -/
inductive Withdrawn (l : Ledger) (key reason : String) (S : Place → Prop) (w w' : World) : Prop
  | idle (none : ∀ d, l.Shows w d → d.status? key = none) (confined : Confined l.sink S w w')
  | written {d : Document} {s : Status} (shows : l.Shows w d) (status : d.status? key = some s)
      (confined : Confined l.sink (fun P => S P ∧ P ≠ l.place w ∧ P ≠ w.placeOf l.draftPath) w w')
      (text : l.text? w' = .ok (d.record key (.invalidate reason (stamp w.now))).body)
      (noDraft : l.sink.Avoids w (w.placeOf l.draftPath) → ∀ content,
        w'.disk.node? (w.placeOf l.draftPath) ≠ some (.file content))

/-- Saving a document and recording a notice leaves the text of the document, unless a step of the
disk fails. -/
theorem ends_save_record_confined {text : String} (hw : w.Calm)
    (hsink : l.sink.Avoids w (l.place w)) (htext : l.text? w = .ok text) (hd : d.Sound)
    (key : String) (s : Status) (n : Notice) :
    Trial.Ends w (do l.save (d.setStatus key s); l.sink.record n; return ()) fun r w' =>
      (∃ cause, r = .error (.io cause)) ∨
      (r = .ok () ∧
        Confined l.sink (fun P => P ≠ l.place w ∧ P ≠ w.placeOf l.draftPath) w w' ∧
        l.text? w' = .ok (d.record key s).body ∧
        (l.sink.Avoids w (w.placeOf l.draftPath) → ∀ content,
          w'.disk.node? (w.placeOf l.draftPath) ≠ some (.file content))) := by
  have hbeside : Trial.Ends w (l.save (d.setStatus key s)) fun _ w' =>
      KeepsDirectories w.disk w'.disk ∧
        ∀ P, P ≠ l.place w ∧ P ≠ w.placeOf l.draftPath → Grown P w w' :=
    ⟨(ends_save_steps hw.steady _).steps.directories, fun P hP => ends_save_beside hw hP.1 hP.2 _⟩
  refine (((ends_save hw (hd.record key s) (body_setStatus hd key s)).and
    (ends_save_text hw (d.setStatus key s))).and
      (hbeside.and (ends_save_made hw htext (d.setStatus key s)))).bind ?_ ?_
  · rintro u w₁ ⟨⟨-, hsaved⟩, ⟨hdirs₁, hfile₁⟩, hmade₁⟩
    obtain ⟨hlater₁, htext₁, -, hnone₁⟩ := hsaved rfl
    have hc₁ : Confined l.sink (fun P => P ≠ l.place w ∧ P ≠ w.placeOf l.draftPath) w w₁ :=
      ⟨hlater₁, hdirs₁, fun P hP _ => hfile₁ P hP, fun Q _ => hmade₁ Q⟩
    -- the notice goes to the journal alone, so it leaves the ledger and where the draft was
    refine (ends_record_confined (S := fun _ => True) hlater₁.calm l.sink n).bind_lift ?_
    intro _ w₂ hc₂
    refine .inr ⟨rfl, hc₁.trans (hc₂.mono fun _ _ => trivial), ?_, fun hdraft content hfile => ?_⟩
    · have hledger : Grown (l.place w₁) w₁ w₂ := by
        refine hc₂.file _ trivial ?_
        rw [hlater₁.place]
        exact hsink.same hlater₁.workingDir
      rw [← body_setStatus hd]
      exact text?_grown hledger htext₁
    · have hgrown := hc₂.file _ trivial (hdraft.same hlater₁.workingDir)
      exact nomatch hnone₁.symm.trans ((hgrown.disk.file content).mp hfile)
  · rintro e w₁ ⟨⟨⟨he, -⟩ | ⟨cause, he, -⟩, -⟩, -⟩
    · exact nomatch he
    · exact .inl ⟨cause, he⟩

theorem ends_invalidate_held (h : l.Held w) (path reason : String) :
    Trial.Ends w (l.invalidate path reason) fun r w' => (∃ cause, r = .error (.io cause)) ∨
      (r = .ok () ∧ l.Withdrawn (l.key path) reason (fun _ => True) w w') := by
  refine (ends_load_held (S := fun _ => True) h).bind_lift fun d w₁ ⟨hc₁, hd, hfound⟩ => ?_
  split
  · rename_i hnone
    refine .inr ⟨rfl, .idle (fun d' hd' => ?_) hc₁⟩
    rcases hfound with ⟨habsent, -⟩ | hshows
    · exact absurd habsent hd'.node?_ne_none
    · exact hd'.unique hshows ▸ hnone
  · rename_i s hs
    have hshows : l.Shows w d := by
      refine hfound.resolve_left fun hfresh => ?_
      cases (hfresh.2.status?_eq_none (l.key path)).symm.trans hs
    have hledger := hc₁.file _ trivial h.avoids
    obtain ⟨text, -, htext, -⟩ := id hshows
    have hsink₁ : l.sink.Avoids w₁ (l.place w₁) := by
      rw [hc₁.later.place]
      exact h.avoids.same hc₁.later.workingDir
    refine Trial.ends_timeStamp_bind.mpr ?_
    rw [hc₁.later.now]
    refine (ends_save_record_confined hc₁.later.calm hsink₁ (text?_grown hledger htext) hd
      (l.key path) (.invalidate reason (stamp w.now)) _).imp fun r w₂ hr => ?_
    rw [hc₁.later.place, hc₁.later.placeOf] at hr
    refine hr.imp_right fun ⟨hok, hc₂, htext₂, hdraft⟩ => ⟨hok, .written hshows hs ?_ htext₂ ?_⟩
    · exact ((hc₁.mono fun _ _ => trivial).trans hc₂).mono fun _ hP => hP.2
    · exact fun hsink => hdraft (hsink.same hc₁.later.workingDir)

/-- Where a held ledger had room it still has, if the journal does not lead to its draft. -/
theorem HasRoom.confined (hroom : l.HasRoom w) (h' : l.Held w')
    (hdraft : l.sink.PassesBy w (w.placeOf l.draftPath)) (hc : Confined l.sink S w w') :
    l.HasRoom w' where
  parent parent hparent := by
    rw [hc.later.workingDir]
    exact Disk.isDirectory_mono hc.directories (hroom.parent parent hparent)
  names := hc.later.workingDir ▸ hroom.names.mono hc.directories
  free := h'.free
  draftNames := hc.later.workingDir ▸ hroom.draftNames.mono hc.directories
  draftFree hdir := hroom.draftFree (hc.made _ hdraft (hc.later.placeOf _ ▸ hdir))

/-- Where there is room approvals are taken back without fail. -/
theorem ends_invalidate_ok (h : l.Held w) (hroom : l.HasRoom w)
    (hdraft : l.sink.PassesBy w (w.placeOf l.draftPath)) (path reason : String) :
    Trial.Ends w (l.invalidate path reason) fun r _ => r = .ok () := by
  refine (ends_load_held (S := fun _ => True) h).bind_lift fun d w₁ ⟨hc₁, hd, _⟩ => ?_
  split
  · rfl
  · refine Trial.ends_timeStamp_bind.mpr ?_
    have hsaved := ends_save_ok hc₁.later.calm (hd.record (l.key path) _)
      (body_setStatus hd (l.key path) (.invalidate reason (stamp w₁.now)))
      (hroom.confined (h.confined hc₁ trivial) hdraft hc₁)
    exact hsaved.bind (fun _ _ _ => rfl) fun _ _ hfailed => nomatch hfailed.1

/-! ## What is left -/

theorem shows_of_text? (hd : d.Sound) (h : l.text? w = .ok d.body) : l.Shows w d :=
  ⟨d.body, d.stored, h, classify_body hd, ofObject_stored hd.toWellFormed⟩

/-- A text that is read where it was read before is in the same bytes. -/
theorem file_of_readText {text : String} (h : w.disk.readText w.workingDir path = .ok text)
    (h' : w'.disk.readText w'.workingDir path = .ok text) (hdir : w'.workingDir = w.workingDir)
    (content : ByteArray) : w'.disk.node? (w.placeOf path) = some (.file content) ↔
      w.disk.node? (w.placeOf path) = some (.file content) := by
  obtain ⟨-, bytes, hfile, hbytes⟩ := Disk.names_of_readText h
  obtain ⟨-, bytes', hfile', hbytes'⟩ := Disk.names_of_readText h'
  rw [hdir, ← Disk.toUTF8_of_fromUTF8? hbytes', Disk.toUTF8_of_fromUTF8? hbytes] at hfile'
  rw [World.placeOf, hfile, hfile']

/-- Recording a status once more changes nothing. -/
theorem Document.record_record (hd : d.Sound) (key : String) (s : Status) :
    (d.record key s).record key s = d.record key s := by
  simp only [record, Keyed.put_put key s hd.states_sorted, Keyed.erase_erase]

/-- What is seen of an entry once the approvals of its file are taken back. -/
def withdrawn (reason time : String) : Status ⊕ Json → Status ⊕ Json
  | .inl _ => .inl { lastInvalidation := some ⟨reason, time⟩ }
  | .inr v => .inr v

namespace Withdrawn

variable {key reason : String} {w₁ w₂ : World}

/-- Whether or not there was something to take back, other files are what they were. -/
theorem beside (h : l.Withdrawn key reason S w w') :
    Confined l.sink (fun P => S P ∧ P ≠ l.place w ∧ P ≠ w.placeOf l.draftPath) w w' := by
  cases h with
  | idle _ hc => exact hc.mono fun _ hP => hP.1
  | written _ _ hc => exact hc

/-- Where no status is stored, nothing is taken back. -/
theorem kept (h : l.Withdrawn key reason S w w')
    (hnone : ∀ obj s, l.stored? w = some obj →
      (Keyed.get? key (entriesOf obj)).map asSeen ≠ some (.inl s)) : Confined l.sink S w w' := by
  cases h with
  | idle _ hc => exact hc
  | @written d s hd hs =>
    obtain ⟨text, obj, htext, hobj, hdocument⟩ := hd
    refine absurd ?_ (hnone obj s (stored?_of_text? htext hobj))
    rw [← seen?_ofObject hobj ⟨.null, .null⟩, hdocument, Document.seen?, hs]

/-- Looking before and writing elsewhere after does not matter. -/
theorem between (hheld : l.Held w) (hbefore : Confined l.sink (fun _ => True) w w₁)
    (h : l.Withdrawn key reason (fun _ => True) w₁ w₂) (hafter : Confined l.sink S w₂ w')
    (hledger : S (l.place w)) (hdraft : S (w.placeOf l.draftPath)) :
    l.Withdrawn key reason S w w' := by
  have hfile := hbefore.file _ trivial hheld.avoids
  cases h with
  | idle hnone hc =>
    refine .idle (fun d hd => hnone d (hd.grown hfile)) ?_
    exact ((hbefore.trans hc).mono fun _ _ => trivial).trans hafter
  | written hd hs hc htext hgone =>
    have hplace := (hbefore.later.trans hc.later).placeOf
    have hdir : w₂.workingDir = w.workingDir := (hbefore.later.trans hc.later).workingDir
    rw [hbefore.later.place, hbefore.later.placeOf] at hc
    rw [hbefore.later.now] at htext
    refine .written (hheld.shows_of_confined hbefore trivial hd) hs ?_ ?_ fun hsink content hfile' => ?_
    · exact ((hbefore.mono fun _ _ => trivial).trans (hc.mono fun _ hP => ⟨trivial, hP.2⟩)).trans
        (hafter.mono fun _ hP => hP.1)
    · refine text?_grown (hafter.file _ ?_ ?_) htext
      · rwa [Ledger.place, hplace]
      · rw [Ledger.place, hplace]
        exact hheld.avoids.same hdir
    · have hgone' := hgone (by
        rw [World.placeOf, hbefore.later.workingDir]
        exact hsink.same hbefore.later.workingDir) content
      rw [World.placeOf, hbefore.later.workingDir] at hgone'
      exact hgone' (((hafter.file _ hdraft (hsink.same hdir)).disk.file content).mp hfile')

/-- The ledger is held afterwards. -/
theorem held (hheld : l.Held w) (h : l.Withdrawn key reason S w w') (hS : S (l.place w)) :
    l.Held w' := by
  cases h with
  | idle _ hc => exact hheld.confined hc hS
  | written hd _ hc htext =>
    have hsound := (hheld.sound hd).record key (.invalidate reason (stamp w.now))
    refine ⟨hc.later.calm, ?_, .inr ⟨_, shows_of_text? hsound htext, hsound⟩⟩
    rw [hc.later.place]
    exact hheld.avoids.same hc.later.workingDir

/-- An absent ledger stays absent. -/
theorem absent (hheld : l.Held w) (h : l.Withdrawn key reason S w w') (hS : S (l.place w))
    (hnone : w.disk.node? (l.place w) = none) : w'.disk.node? (l.place w) = none := by
  cases h with
  | idle _ hc => exact hheld.node?_eq_none hc hS hnone
  | written hd => exact absurd hnone hd.node?_ne_none

/-- In what is stored the approvals of the file are empty if there were any, and everything else is
what it was. -/
theorem stored (hheld : l.Held w) (h : l.Withdrawn key reason S w w') (hS : S (l.place w))
    {obj : Keyed Json} (hobj : l.stored? w = some obj) :
    ∃ obj', l.stored? w' = some obj' ∧
      (∀ name, name ≠ statesSection → Keyed.get? name obj' = Keyed.get? name obj) ∧
      ∀ k, (Keyed.get? k (entriesOf obj')).map asSeen =
        if k = key then
          ((Keyed.get? k (entriesOf obj)).map asSeen).map (withdrawn reason (stamp w.now))
        else (Keyed.get? k (entriesOf obj)).map asSeen := by
  obtain ⟨text, htext, hclassify⟩ := text?_of_stored? hobj
  have hshows : l.Shows w (Document.ofObject obj ⟨.null, .null⟩).1 :=
    ⟨text, obj, htext, hclassify, fun f => ofObject_eq hclassify f ⟨.null, .null⟩⟩
  have hseen := seen?_ofObject hclassify ⟨.null, .null⟩
  cases h with
  | idle hnone hc =>
    have htext' := text?_grown (hc.file _ hS hheld.avoids) htext
    refine ⟨obj, stored?_of_text? htext' hclassify, fun _ _ => rfl, fun k => ?_⟩
    split
    · rename_i hk
      rw [← hseen, hk, Document.seen?, hnone _ hshows, Option.map_map]
      rfl
    · rfl
  | @written d s hd hs hc htext' =>
    obtain rfl := hd.unique hshows
    have hsound := (hheld.sound hd).record key (.invalidate reason (stamp w.now))
    have hclassify' := classify_body hsound
    have hstored' := ofObject_stored hsound.toWellFormed
    -- the keys of a map are keys as they are
    have hleaves : (Document.ofObject obj ⟨.null, .null⟩).1.Leaves id
        [⟨w.now, .invalidate key reason⟩] _ :=
      Document.leaves_record (.invalidate reason (stamp w.now)) ⟨rfl, by rw [id_eq, hs]; rfl⟩
    have hrest := hleaves.leavesRest hclassify hclassify'
      (fun f => ofObject_eq hclassify f ⟨.null, .null⟩) hstored'
    refine ⟨_, stored?_of_text? htext' hclassify', hrest.sections, fun k => ?_⟩
    split
    · rename_i hk
      rw [← hseen, ← seen?_ofObject hclassify' ⟨.null, .null⟩, hstored', hk, Document.seen?,
        Document.seen?, status?_record, if_pos rfl, hs]
      rfl
    · rename_i hk
      refine hrest.entries k fun t ht htouches => ?_
      rw [List.mem_singleton.mp ht] at htouches
      exact hk htouches.1.symm

/-- Taking the approvals back once more leaves the ledger and its draft. -/
theorem again {T : Place → Prop} (hheld : l.Held w) (h : l.Withdrawn key reason S w w')
    (h' : l.Withdrawn key reason T w' w'') (hS : S (l.place w))
    (hT : ∀ P, P = l.place w ∨ P = w.placeOf l.draftPath → T P)
    (hP : P = l.place w ∨ P = w.placeOf l.draftPath) (hsink : l.sink.Avoids w P)
    (content : ByteArray) :
    w''.disk.node? P = some (.file content) ↔ w'.disk.node? P = some (.file content) := by
  have hlater := h.beside.later
  have hheld' := h.held hheld hS
  cases h' with
  | idle _ hc => exact (hc.file P (hT P hP) (hsink.same hlater.workingDir)).disk.file content
  | @written d' s' hd' hs' hc' htext' hgone' =>
    cases h with
    | idle hnone hc =>
      cases (hnone _ (hheld.shows_of_confined hc hS hd')).symm.trans hs'
    | @written d s hd hs hc htext hgone =>
      have hsound := hheld.sound hd
      obtain rfl := hd'.unique (shows_of_text? (hsound.record _ _) htext)
      rw [hlater.now, Document.record_record hsound] at htext'
      rw [hlater.placeOf] at hgone'
      rcases hP with rfl | rfl
      · rw [← hlater.place]
        exact file_of_readText htext htext' hc'.later.workingDir content
      · refine ⟨fun hfile => ?_, fun hfile => absurd hfile (hgone hsink content)⟩
        exact absurd hfile (hgone' (hsink.same hlater.workingDir) content)

end Withdrawn

end Ledger

end EditGate
