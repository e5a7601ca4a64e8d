import EditGate.Gate
import EditGate.Proofs.Ledger.Withdrawal
import EditGate.Proofs.Metadata.Reapply

/-!
# Files that are stamped

Reading a file changes none, but for the journal (`ends_followUps_confined`). Stamping it leaves it
as it was, if it has no block that can be read, or writes the text with the stamped block
(`ends_touch_stamped`); a file that can be read is stamped without fail (`ends_touch_ok`).

Notices may make directories on the way of the journal. A file whose path goes up from no such
directory is read afterwards as it was read before (`StandsApart.source?_eq`).
-/

namespace EditGate.Gate

open Ledger (Confined)
open Run World
open World (Grown)

variable {g : Gate} {w w' : World} {S : Place → Prop} {path : String}

/-! ## What a file shows -/

/-- The text of a file, if it can be read. -/
def source? (g : Gate) (w : World) (path : String) : Option String :=
  (w.disk.readText w.workingDir (g.locate path)).toOption

/-- The metadata in the text of a file. -/
def shown? (g : Gate) (w : World) (path : String) : Option Metadata :=
  (g.source? w path).bind fun text => Metadata.extract text.toList

/-- The text of a file with its block stamped; none without a block. -/
def stamped? (g : Gate) (w : World) (path : String) : Option String :=
  (g.source? w path).bind fun text =>
    (Metadata.touch text.toList (stamp w.now)).map String.ofList

theorem source?_eq_some_iff {text : String} :
    g.source? w path = some text ↔ w.Holds (g.locate path) text.toUTF8 := by
  have hread : g.source? w path = some text ↔
      w.disk.readText w.workingDir (g.locate path) = .ok text := by
    rw [source?]
    cases w.disk.readText w.workingDir (g.locate path) <;> simp [Except.toOption]
  rw [hread, World.holds_iff]
  constructor
  · intro h
    obtain ⟨hnames, content, hfile, hcontent⟩ := Disk.names_of_readText h
    exact ⟨hnames, Disk.toUTF8_of_fromUTF8? hcontent ▸ hfile⟩
  · exact fun ⟨hnames, hfile⟩ => hnames.readText_eq hfile

/-- A file that shows no metadata is not stamped. -/
theorem stamped?_eq_none (h : g.shown? w path = none) : g.stamped? w path = none := by
  rw [shown?] at h
  rw [stamped?]
  cases hsource : g.source? w path with
  | none => rfl
  | some text =>
    rw [hsource, Option.bind_some] at h
    cases hloc : Block.locate? text.toList with
    | none => simp [Metadata.touch, hloc]
    | some b => cases (Metadata.extract_of_locate? hloc).symm.trans h

/-- Reading a file changes none, but for the journal. -/
theorem ends_readSource_confined (hw : w.Calm) (path : String) :
    Ends w (g.readSource path) fun o w' => o = g.source? w path ∧ Confined g.sink S w w' := by
  refine (Ledger.ends_readText_confined (s := g.sink) (S := S) hw (g.locate path)).bind ?_
  rintro r w₁ ⟨hread, h₁⟩
  rw [source?, ← hread]
  cases r with
  | ok text => exact ⟨rfl, h₁⟩
  | error cause =>
    exact (Ledger.ends_record_confined h₁.later.calm g.sink _).bind fun _ _ h₂ =>
      ⟨rfl, h₁.trans h₂⟩

theorem ends_followUps_confined (hw : w.Calm) (path : String) :
    Ends w (g.followUps path) fun actions w' =>
      actions = FollowUp.after (g.shown? w path) ∧ Confined g.sink S w w' := by
  have hm : Ends w (g.metadata? path) fun m w' =>
      m = g.shown? w path ∧ Confined g.sink S w w' := by
    refine (ends_readSource_confined (S := S) hw path).bind ?_
    rintro _ w₁ ⟨rfl, h₁⟩
    rw [shown?]
    cases g.source? w path with
    | none => exact ⟨rfl, h₁⟩
    | some text =>
      refine (Ledger.ends_recordAll_confined (S := S) h₁.later.calm g.sink _).bind fun _ w₂ h₂ => ?_
      exact ⟨Metadata.extractWith_fst _ _, h₁.trans h₂⟩
  exact hm.bind fun m _ h => ⟨h.1 ▸ rfl, h.2⟩

/-! ## Stamping -/

/-- What stamping a file leaves, of the files at some places: there is no block and they are what
they were, or the file holds the stamped text and they are what they were but for that file. -/
inductive Stamped (g : Gate) (path : String) (S : Place → Prop) (w w' : World) : Prop
  | idle (none : g.stamped? w path = none) (confined : Confined g.sink S w w')
  | written {text : String} (some : g.stamped? w path = some text)
      (confined : Confined g.sink (fun P => S P ∧ P ≠ w.placeOf (g.locate path)) w w')
      (holds : w'.Holds (g.locate path) text.toUTF8)

theorem ends_writeText_confined (hw : w.Calm) (p : Path) (text : String) :
    Ends w (writeText p text) fun r w' => Confined g.sink (· ≠ w.placeOf p) w w' ∧
      (r = .ok () → w'.Holds p text.toUTF8) := by
  have hsteps : Ends w (writeText p text) fun r w' => World.Steps (fun P => P ≠ w.placeOf p) w w' ∧
      (r = .ok () → w'.Holds p text.toUTF8) :=
    ends_writeText_steps hw.steady (fun h => h rfl) text
  refine (hsteps.and (ends_writeText_made hw.steady p text)).imp fun r w' ⟨⟨h, hholds⟩, hmade⟩ => ?_
  exact ⟨⟨Ledger.later_of_spares hw h.toSpares, h.directories, fun P hP _ => h.toSpares.toGrown hw hP,
    fun Q _ => hmade Q⟩, hholds⟩

theorem ends_touch_stamped (hw : w.Calm) (path : String) :
    Trial.Ends w (g.touch path) fun r w' => (∃ cause, r = .error (.io cause)) ∨
      (r = .ok () ∧ g.Stamped path (fun _ => True) w w') := by
  refine (ends_readSource_confined (S := fun _ => True) hw path).bind_lift ?_
  rintro _ w₁ ⟨rfl, h₁⟩
  cases hsource : g.source? w path with
  | none => exact .inr ⟨rfl, .idle (by rw [stamped?, hsource]; rfl) h₁⟩
  | some text =>
    refine Trial.ends_timeStamp_bind.mpr ?_
    -- reading takes no time, so that the stamp is that of the start
    rw [h₁.later.now]
    cases htouch : Metadata.touch text.toList (stamp w.now) with
    | none =>
      refine .inr ⟨rfl, .idle ?_ h₁⟩
      rw [stamped?, hsource, Option.bind_some, htouch]
      rfl
    | some touched =>
      have hstamped : g.stamped? w path = some (String.ofList touched) := by
        rw [stamped?, hsource, Option.bind_some, htouch]
        rfl
      refine Trial.ends_io.mpr ((ends_writeText_confined (g := g) h₁.later.calm (g.locate path)
        (String.ofList touched)).imp fun r w₂ ⟨h₂, hholds⟩ => ?_)
      cases r with
      | error cause => exact .inl ⟨cause, rfl⟩
      | ok u =>
        rw [h₁.later.placeOf] at h₂
        refine .inr ⟨rfl, .written hstamped ?_ (hholds rfl)⟩
        exact (h₁.mono fun _ _ => trivial).trans (h₂.mono fun _ hP => hP.2)

theorem Stamped.beside (h : g.Stamped path S w w') :
    Confined g.sink (fun P => S P ∧ P ≠ w.placeOf (g.locate path)) w w' := by
  cases h with
  | idle _ hc => exact hc.mono fun _ hP => hP.1
  | written _ hc => exact hc

theorem ends_touch_ok (hw : w.Calm) (hsink : g.sink.Avoids w (w.placeOf (g.locate path))) :
    Trial.Ends w (g.touch path) fun r _ => r = .ok () := by
  refine (ends_readSource_confined (S := fun _ => True) hw path).bind_lift ?_
  rintro _ w₁ ⟨rfl, h₁⟩
  cases hsource : g.source? w path with
  | none => rfl
  | some text =>
    refine Trial.ends_timeStamp_bind.mpr ?_
    have hfile := h₁.file _ trivial hsink
    obtain ⟨hnames₁, hfile₁⟩ := World.holds_iff.mp ((source?_eq_some_iff.mp hsource).grown hfile)
    have hfree₁ : w₁.disk.node? (w₁.placeOf (g.locate path)) ≠ some .directory := by simp [hfile₁]
    cases Metadata.touch text.toList (stamp w₁.now) with
    | none => rfl
    | some touched =>
      refine Trial.ends_io.mpr
        ((ends_writeText_ok h₁.later.calm hnames₁ hfree₁ (String.ofList touched)).imp ?_)
      rintro _ _ rfl
      rfl

/-! ## Files that stand apart -/

/-- The file is not the journal, the ledger or its draft, and its path goes up from no directory
that may be made for the journal. -/
structure StandsApart (g : Gate) (w : World) (path : String) : Prop where
  avoids : g.sink.Avoids w (w.placeOf (g.locate path))
  ledger : w.placeOf (g.locate path) ≠ g.ledger.place w
  draft : w.placeOf (g.locate path) ≠ w.placeOf g.ledger.draftPath
  ups : ∀ fs rest, Text.splitOn '/' (g.locate path) = fs ++ Path.dotDot :: rest →
    let up := fs.foldl Disk.stride (Disk.startOf w.workingDir (g.locate path))
    g.sink.PassesBy w up ∨ w.disk.node? up = some .directory

theorem StandsApart.confined (h : g.StandsApart w path) (hc : Confined g.sink S w w') :
    g.StandsApart w' path := by
  have hplace := hc.later.placeOf
  refine ⟨?_, ?_, ?_, fun fs rest hsplit => ?_⟩
  · rw [hplace]
    exact h.avoids.same hc.later.workingDir
  · rw [hplace, hc.later.place]
    exact h.ledger
  · rw [hplace, hplace]
    exact h.draft
  · rw [hc.later.workingDir]
    exact (h.ups fs rest hsplit).imp (·.same hc.later.workingDir) (hc.directories _)

/-- A file that stands apart and was left is read as before. -/
theorem StandsApart.holds_iff (h : g.StandsApart w path) (hw : w.Calm)
    (hc : Confined g.sink S w w') (hS : S (w.placeOf (g.locate path))) {bytes : ByteArray} :
    w'.Holds (g.locate path) bytes ↔ w.Holds (g.locate path) bytes := by
  have hgrown := hc.file _ hS h.avoids
  refine ⟨fun hholds => ?_, fun hholds => hholds.grown hgrown⟩
  refine Disk.read_of_made hw.tree hw.home hgrown.disk (fun fs rest hsplit hdir => ?_)
    (hc.later.workingDir ▸ hholds)
  exact (h.ups fs rest hsplit).elim (fun hpass => hc.made _ hpass hdir) id

theorem StandsApart.source?_eq (h : g.StandsApart w path) (hw : w.Calm)
    (hc : Confined g.sink S w w') (hS : S (w.placeOf (g.locate path))) :
    g.source? w' path = g.source? w path := by
  refine Option.ext fun text => ?_
  rw [source?_eq_some_iff, source?_eq_some_iff, h.holds_iff hw hc hS]

end EditGate.Gate
