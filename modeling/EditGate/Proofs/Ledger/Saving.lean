import EditGate.Ledger.Store
import EditGate.Proofs.Disk.Sibling
import EditGate.Proofs.Spared

/-!
# How saving ends

A save ends in one of three ways, whichever of its steps fails (`SaveEnds`): a step fails, the text
that was written is refused, or the draft takes the place of the ledger. Before that no file changes
but the draft, and then no other file does (`ends_save_steps`).
-/

namespace EditGate.Ledger

open Run World
open World (Steps)

variable {l : Ledger} {d : Document} {w w' : World} {path : Path} {S : Place → Prop}

/-- Where the ledger is, seen from a world. -/
def place (l : Ledger) (w : World) : Place := w.placeOf l.path

/-- The draft of the ledger is elsewhere. -/
theorem placeOf_draftPath_ne (l : Ledger) (w : World) : w.placeOf l.draftPath ≠ l.place w := by
  refine Disk.lexical_withFileName_ne ?_ ?_
  · cases hfile : l.path.fileName? with
    | none => decide
    | some piece =>
      obtain ⟨-, hslash, -⟩ := @Disk.lexical_of_fileName? w.workingDir l.path piece hfile
      rw [Option.getD_some]
      simp [hslash]
  · rw [List.length_append, List.length_cons]
    have : ".tmp".toList.length = 4 := by decide
    omega

/-- Anywhere but at the draft. -/
def BesideDraft (l : Ledger) (w : World) (p : Place) : Prop := p ≠ w.placeOf l.draftPath

/-- How saving a document ends. -/
inductive SaveEnds (l : Ledger) (d : Document) (w : World) : Except Failure Unit → World → Prop
  /-- A step fails before the draft takes the place of the ledger. -/
  | failed {cause w'} (steps : Steps (l.BesideDraft w) w w') : SaveEnds l d w (.error (.io cause)) w'
  /-- The text is refused, and the draft is removed unless that is planned to fail. -/
  | refused {fault w'} (steps : Steps (l.BesideDraft w) w w')
      (lacks : classify d.body.toList = .error fault)
      (gone : w'.disk.node? (w.placeOf l.draftPath) = none ∨
        ∃ before cause, w.plan = before ++ some cause :: w'.plan) :
      SaveEnds l d w (.error (.validation (.ledgerUnverified fault))) w'
  /-- The draft takes the place of the ledger. -/
  | saved {obj w'} (steps : Steps (fun p => l.BesideDraft w p ∧ p ≠ l.place w) w w')
      (accepted : classify d.body.toList = .ok obj) (holds : w'.Holds l.path d.body.toUTF8)
      (gone : w'.disk.node? (w.placeOf l.draftPath) = none) : SaveEnds l d w (.ok ()) w'

/-- A draft is written, or a step fails. -/
theorem ends_writeDraft_steps (hw : w.Steady) (hplace : ¬S (w.placeOf path)) (text : String) :
    Trial.Ends w (writeDraft path text) fun r w' => Steps S w w' ∧
      ((r = .ok () ∧ w'.Holds path text.toUTF8) ∨ ∃ cause, r = .error (.io cause)) := by
  refine (ends_createFile_steps hw hplace).bind_io (fun _ w₁ ⟨h₁, hempty⟩ => ?_)
    fun cause _ h => ⟨h.1, .inr ⟨cause, rfl⟩⟩
  have hplace₁ : ¬S (w₁.placeOf path) := by rwa [h₁.placeOf]
  refine (ends_appendText_steps (h₁.steady hw) hplace₁ text).bind_io
    (fun _ w₂ ⟨h₂, hholds⟩ => ?_) fun cause _ h => ⟨h₁.trans h.1, .inr ⟨cause, rfl⟩⟩
  have hw₂ := h₂.steady (h₁.steady hw)
  have hholds₂ : w₂.Holds path text.toUTF8 := by
    rw [(hempty rfl).bytesAt, ByteArray.empty_append] at hholds
    exact hholds rfl
  refine Trial.ends_io.mpr ?_
  refine ((ends_sync_steps hw₂ S).and (ends_sync_steps hw₂ fun _ => True)).imp ?_
  rintro r w₃ ⟨h₃, hall⟩
  refine ⟨(h₁.trans h₂).trans h₃, ?_⟩
  cases r with
  | ok u => exact .inl ⟨rfl, hholds₂.spares hall.toSpares trivial⟩
  | error cause => exact .inr ⟨cause, rfl⟩

/-- A text that is read from a file is that of its bytes. -/
theorem text_of_holds {text text' : String} (h : w.Holds path text.toUTF8)
    (hread : w.disk.readText w.workingDir path = .ok text') : text' = text := by
  obtain ⟨hnames, hfile⟩ := holds_iff.mp h
  exact Except.ok.inj (hread.symm.trans (hnames.readText_eq hfile))

/-- A draft that is refused is removed, unless that is planned to fail. -/
theorem ends_removeDraft {bytes : ByteArray} (h : w.Holds path bytes) :
    Ends w (removeFile path) fun _ w' => w'.disk.node? (w.placeOf path) = none ∨
      ∃ cause, w.plan = some cause :: w'.plan := by
  obtain ⟨hnames, hfile⟩ := holds_iff.mp h
  have hremove := hnames.removeFile_eq hfile
  have hne : w.placeOf path ≠ [] := by
    intro he
    rw [he, Disk.node?_nil] at hfile
    cases hfile
  refine ends_change_planned (fun cause plan hplan => ?_) (fun disk hdisk => ?_) fun cause hc => ?_
  · exact .inr ⟨cause, hplan⟩
  · obtain rfl := Except.ok.inj (hremove.symm.trans hdisk)
    refine .inl ?_
    rw [← World.placeOf, Disk.node?_removeTree hne, if_pos List.prefix_rfl]
  · cases hremove.symm.trans hc

theorem ends_save_steps (hw : w.Steady) (d : Document) :
    Trial.Ends w (l.save d) (SaveEnds l d w) := by
  refine (ends_makeParents_steps hw (l.BesideDraft w) l.path).bind_io (fun _ w₁ h₁ => ?_)
    fun cause _ h => .failed h
  have hw₁ := h₁.steady hw
  have hplace₁ : ¬l.BesideDraft w (w₁.placeOf l.draftPath) := by
    rw [h₁.placeOf]
    exact fun h => h rfl
  refine (ends_writeDraft_steps hw₁ hplace₁ d.body).bind (fun _ w₂ ⟨h₂, hwritten⟩ => ?_) ?_
  · have hw₂ := h₂.steady hw₁
    have hholds₂ : w₂.Holds l.draftPath d.body.toUTF8 := by
      rcases hwritten with ⟨-, hholds⟩ | ⟨cause, hcause⟩
      · exact hholds
      · cases hcause
    have h₁₂ := h₁.trans h₂
    refine (((ends_readText_steps hw₂ (fun _ => True) l.draftPath).and
      (ends_readText_any l.draftPath w₂))).bind_io (fun written w₃ ⟨h₃, hread⟩ => ?_)
        fun cause _ h => .failed (h₁₂.trans (h.1.mono fun _ _ => trivial))
    -- the text that is checked is the one that was written
    obtain rfl := text_of_holds hholds₂ (hread written rfl)
    have hholds₃ := hholds₂.spares h₃.toSpares trivial
    have h := h₁₂.trans (h₃.mono fun _ _ => trivial)
    have hw₃ := h.steady hw
    split
    · rename_i obj hobj
      have hdraft : w₃.placeOf l.draftPath ≠ w₃.placeOf l.path := placeOf_draftPath_ne l w₃
      refine Trial.ends_io.mpr ((ends_rename_steps hw₃ hholds₃ hdraft).imp fun r w₄ h₄ => ?_)
      rw [h.placeOf, h.placeOf] at h₄
      rcases h₄ with ⟨rfl, h₄, hholds₄, hgone⟩ | ⟨cause, rfl, h₄⟩
      · exact .saved ((h.mono fun _ h => h.1).trans h₄) hobj hholds₄ hgone
      · exact .failed (h.trans (h₄.mono fun _ _ => trivial))
    · rename_i fault hfault
      have hplace₃ : ¬l.BesideDraft w (w₃.placeOf l.draftPath) := by
        rw [h.placeOf]
        exact fun h => h rfl
      refine ((ends_removeFile_steps hw₃ hplace₃).and (ends_removeDraft hholds₃)).bind_lift ?_
      rintro _ w₄ ⟨h₄, hgone⟩
      refine .refused (h.trans h₄) hfault ?_
      rw [h.placeOf] at hgone
      obtain ⟨before, hplan⟩ := h.plan
      exact hgone.imp_right fun ⟨cause, hcause⟩ => ⟨before, cause, by rw [← hplan, hcause]; rfl⟩
  · rintro e w₂ ⟨h₂, ⟨he, -⟩ | ⟨cause, he⟩⟩
    · cases he
    · cases he
      exact .failed (h₁.trans h₂)

/-- A save touches no file but the ledger and its draft. -/
theorem SaveEnds.steps {r : Except Failure Unit} (h : SaveEnds l d w r w') :
    Steps (fun p => l.BesideDraft w p ∧ p ≠ l.place w) w w' := by
  cases h with
  | failed hsteps => exact hsteps.mono fun _ hp => hp.1
  | refused hsteps => exact hsteps.mono fun _ hp => hp.1
  | saved hsteps => exact hsteps

theorem SaveEnds.of_ok (h : SaveEnds l d w (.ok ()) w') :
    w'.Holds l.path d.body.toUTF8 ∧ ∃ obj, classify d.body.toList = .ok obj := by
  cases h with
  | saved _ haccepted hholds => exact ⟨hholds, _, haccepted⟩

/-- A save that fails touches no file but the draft. -/
theorem SaveEnds.steps_of_error {failure : Failure} (h : SaveEnds l d w (.error failure) w') :
    Steps (l.BesideDraft w) w w' := by
  cases h with
  | failed hsteps => exact hsteps
  | refused hsteps => exact hsteps

end EditGate.Ledger
