import EditGate.Proofs.Disk.Appendable
import EditGate.Proofs.Ledger.Inverse
import EditGate.Proofs.Received

/-!
# Saving is all or nothing

A save that fails, whichever of its steps it is, leaves the ledger as it was (`Spared`): before the
draft takes the place of the ledger no file changes but the draft. An approval whose save fails
leaves the ledger as well, and nobody is told of it (`Untold`).

A save makes the directories that lead to the ledger, also if it fails afterwards. So if the path of
the ledger goes up from one of those, it leads somewhere only then (`shows_where_failed`).
-/

namespace EditGate.Ledger

open Run World
open World (Spares Steps)

variable {l : Ledger} {d : Document} {w w' : World} {path : Path} {S : Place → Prop}

/-! ## Saves that fail -/

/-- What a save that fails leaves. -/
structure Spared (l : Ledger) (w w' : World) : Prop where
  /-- No file changes but the draft. -/
  files : ∀ p, p ≠ w.placeOf l.draftPath → ∀ content,
    w'.disk.node? p = some (.file content) ↔ w.disk.node? p = some (.file content)
  /-- What was read at the path of the ledger is read there. -/
  holds : ∀ bytes, w.Holds l.path bytes → w'.Holds l.path bytes
  /-- Nothing else is read there, unless the path goes up from a directory that had to be made. -/
  held : w.disk.Paved w.workingDir l.path ∨ Path.dotDot ∉ Text.splitOn '/' l.path →
    ∀ bytes, w'.Holds l.path bytes → w.Holds l.path bytes

theorem spared_of_steps (hw : w.Steady) (h : Steps (l.BesideDraft w) w w') : l.Spared w w' where
  files := h.files
  holds _ hholds := hholds.spares h.toSpares (placeOf_draftPath_ne l w).symm
  held hpath bytes hholds := by
    rw [Holds, h.workingDir] at hholds
    exact Disk.read_of_grown hw.tree (h.grown (placeOf_draftPath_ne l w).symm) hholds hpath

/-! ## Approvals whose save fails -/

/-- The code of a notice about an entry that cannot be read. -/
def unreadableCode : String := "ledger.entry.unreadable"

theorem code_of_mem_salvageEntries {entries : List (String × Json)} {n : Notice}
    (h : n ∈ (salvageEntries entries).notices) : n.code = unreadableCode := by
  induction entries with
  | nil => cases h
  | cons b entries ih =>
    simp only [salvageEntries] at h
    split at h
    · exact ih h
    · rcases List.mem_cons.mp h with rfl | h
      · rfl
      · exact ih h

theorem code_of_mem_ofObject {obj : Keyed Json} {f : Fresh} {n : Notice}
    (h : n ∈ (Document.ofObject obj f).2) : n.code = unreadableCode := by
  simp only [Document.ofObject, salvage] at h
  split at h
  · exact code_of_mem_salvageEntries h
  · cases h

/-- An accepted ledger has been loaded: no file but the journal has changed, and all that was told
is about entries that cannot be read. -/
structure LoadedQuietly (l : Ledger) (w w' : World) : Prop where
  spares : Spares (fun p => l.sink.Avoids w p) w w'
  told : ∃ ns : List Notice, (∀ n ∈ ns, n.code = unreadableCode) ∧ l.sink.Received w w' ns

theorem LoadedQuietly.after {w'' : World} (h : Steps (fun _ => True) w w')
    (hloaded : l.LoadedQuietly w' w'') : l.LoadedQuietly w w'' where
  spares :=
    (h.toSpares.mono fun _ _ => trivial).trans
      (hloaded.spares.mono fun _ hp => hp.spares h.toSpares)
  told := by
    obtain ⟨ns, hcodes, hreceived⟩ := hloaded.told
    have hnothing : l.sink.Received w w' [] := h.received fun _ _ => trivial
    exact ⟨ns, hcodes, hnothing.append h.workingDir hreceived⟩

theorem ends_fromObject_loaded (hw : w.Steady) (obj : Keyed Json) :
    Ends w (l.fromObject obj) fun _ w' => l.LoadedQuietly w w' := by
  refine (ends_freshSections_steps hw fun _ => True).bind fun f w₁ ⟨h₁, _⟩ => ?_
  have hw₁ := h₁.steady hw
  refine ((ends_recordAll_spares hw₁ (fun _ hp => hp) (Document.ofObject obj f).2).and
    (ends_recordAll_received hw₁ (Document.ofObject obj f).2)).bind ?_
  rintro _ w₂ ⟨h₂, hreceived⟩
  exact LoadedQuietly.after h₁ ⟨h₂, _, fun _ hn => code_of_mem_ofObject hn, hreceived⟩

theorem ends_load_accepted {text : String} {obj : Keyed Json} (hw : w.Steady)
    (hnext : w.Unhindered) (htext : l.text? w = .ok text)
    (hobj : classify text.toList = .ok obj) : Ends w l.load fun _ w' => l.LoadedQuietly w w' := by
  refine (ends_readText_unhindered hnext l.path).bind ?_
  rintro _ w₁ ⟨rfl, rfl⟩
  rw [show w.disk.readText w.workingDir l.path = .ok text from htext]
  simp only [hobj]
  have h₁ : Steps (fun _ => True) w { w with plan := w.plan.drop 1 } :=
    .of_plan _ hw (List.drop_suffix 1 w.plan)
  exact (ends_fromObject_loaded (h₁.steady hw) obj).imp fun _ _ h₂ => .after h₁ h₂

/-- What was at the path of the ledger is there, and nobody was told of an approval. -/
structure Untold (l : Ledger) (w w' : World) : Prop where
  holds : l.sink.Avoids w (l.place w) → ∀ bytes, w.Holds l.path bytes → w'.Holds l.path bytes
  told : l.sink.Avoids w (w.placeOf l.draftPath) →
    ∃ ns : List Notice, (∀ n ∈ ns, n.code = unreadableCode) ∧ l.sink.Received w w' ns

theorem untold_refl (hw : w.Steady) : l.Untold w w where
  holds _ _ h := h
  told _ := ⟨[], fun _ hn => absurd hn List.not_mem_nil,
    (Steps.refl (fun _ => True) hw).received fun _ _ => trivial⟩

theorem LoadedQuietly.untold {w'' : World} (h : l.LoadedQuietly w w')
    (hsteps : Steps (l.BesideDraft w') w' w'') : l.Untold w w'' where
  holds havoids bytes hholds := by
    refine (hholds.spares h.spares havoids).spares hsteps.toSpares ?_
    exact (placeOf_draftPath_ne l w').symm
  told havoids := by
    obtain ⟨ns, hcodes, hreceived⟩ := h.told
    have hjournal : ∀ path, l.sink = .journal path → l.BesideDraft w' (w'.placeOf path) := by
      intro path hpath
      rw [BesideDraft, h.spares.placeOf, h.spares.placeOf]
      exact havoids path hpath
    refine ⟨ns, hcodes, ?_⟩
    simpa using hreceived.append h.spares.workingDir (hsteps.received hjournal)

/-- After a load, a save and what cannot fail after it: if that fails, the save has. -/
theorem LoadedQuietly.ends_save_bind {α : Type} {d : Document} {k : Unit → Trial α}
    (h : l.LoadedQuietly w w') (hw : w.Steady)
    (hk : ∀ u w'', Trial.Ends w'' (k u) fun r _ => ∃ a, r = .ok a) :
    Trial.Ends w' (l.save d >>= k) fun r w'' => ∀ failure, r = .error failure → l.Untold w w'' := by
  refine (ends_save_steps (h.spares.steady hw) d).bind (fun u w'' _ => ?_) fun e w'' hsave => ?_
  · refine (hk u w'').imp ?_
    rintro _ _ ⟨a, rfl⟩ failure hfailure
    cases hfailure
  · exact fun _ _ => h.untold hsave.steps_of_error

theorem ends_approve_untold {text : String} {obj : Keyed Json} (hw : w.Steady)
    (hnext : w.Unhindered) (htext : l.text? w = .ok text)
    (hobj : classify text.toList = .ok obj) (path : String) (slot : Approval.Slot)
    (approver : String) : Trial.Ends w (l.approve path slot approver) fun r w' =>
      ∀ failure, r = .error failure → l.Untold w w' := by
  rw [approve]
  split
  · exact fun _ _ => untold_refl hw
  · refine (ends_load_accepted hw hnext htext hobj).bind_lift fun d w₁ h₁ => ?_
    refine Trial.ends_timeStamp_bind.mpr (h₁.ends_save_bind hw fun _ w₂ => ?_)
    have hrecord (n : Notice) : Ends w₂ (l.sink.record n) fun _ _ => True := trivial
    exact (hrecord _).bind_lift fun _ _ _ => ⟨_, rfl⟩

theorem ends_invalidate_untold {text : String} {obj : Keyed Json} (hw : w.Steady)
    (hnext : w.Unhindered) (htext : l.text? w = .ok text)
    (hobj : classify text.toList = .ok obj) (path reason : String) :
    Trial.Ends w (l.invalidate path reason) fun r w' =>
      ∀ failure, r = .error failure → l.Untold w w' := by
  refine (ends_load_accepted hw hnext htext hobj).bind_lift fun d w₁ h₁ => ?_
  cases d.status? (l.key path) with
  | none => exact fun failure hfailure => nomatch hfailure
  | some s =>
    refine Trial.ends_timeStamp_bind.mpr (h₁.ends_save_bind hw fun _ w₂ => ?_)
    exact ⟨_, rfl⟩

/-! ## The main result -/

/-- Whichever step of a save fails, the text of the document is read at the path of the ledger, and
is accepted, if the save succeeds; otherwise no file has changed but the draft, and what is read at
the path of the ledger is what was read there. If the text is refused the draft is gone, unless its
removal is planned to fail. So where an accepted ledger is read, an approval that is not granted or
not taken back for a failure leaves the ledger as it was, and all that is told is about entries that
cannot be read. -/
theorem save_all_or_nothing (l : Ledger) {w : World} (hw : w.Steady) :
    (∀ d : Document,
      let r := (l.save d).run.run w
      (r.1 = .ok () → r.2.Holds l.path d.body.toUTF8 ∧ ∃ obj, classify d.body.toList = .ok obj) ∧
      (∀ failure, r.1 = .error failure → l.Spared w r.2) ∧
      ∀ fault, r.1 = .error (.validation (.ledgerUnverified fault)) →
        classify d.body.toList = .error fault ∧
          (r.2.disk.node? (w.placeOf l.draftPath) = none ∨
            ∃ before cause, w.plan = before ++ some cause :: r.2.plan)) ∧
    ∀ text obj, w.Unhindered → l.text? w = .ok text → classify text.toList = .ok obj →
      (∀ path slot approver failure,
        let r := (l.approve path slot approver).run.run w
        r.1 = .error failure → l.Untold w r.2) ∧
      ∀ path reason failure,
        let r := (l.invalidate path reason).run.run w
        r.1 = .error failure → l.Untold w r.2 := by
  constructor
  · intro d r
    have hends : SaveEnds l d w r.1 r.2 := ends_save_steps hw d
    refine ⟨fun hok => ?_, fun failure herror => ?_, fun fault herror => ?_⟩
    · rw [hok] at hends
      exact hends.of_ok
    · rw [herror] at hends
      exact spared_of_steps hw hends.steps_of_error
    · generalize r.1 = answer at hends herror
      cases hends with
      | failed => cases herror
      | refused hsteps hlacks hgone =>
        cases herror
        exact ⟨hlacks, hgone⟩
      | saved => cases herror
  · intro text obj hnext htext hobj
    exact ⟨fun path slot approver => ends_approve_untold hw hnext htext hobj path slot approver,
      fun path reason => ends_invalidate_untold hw hnext htext hobj path reason⟩

/-- The sample with a plan for the third disk step to fail. -/
def failingWorld : World := { sampleWorld with plan := [none, none, some .isADirectory] }

/-- A save that fails where the draft is filled, and an approval that fails where it is made, leave
the ledger as it was. -/
theorem spared_sample :
    let r := (quietLedger.save sampleDocument).run.run failingWorld
    let s := (quietLedger.approve "a" .dev "kim").run.run failingWorld
    (r.1 = .error (.io .isADirectory) ∧ quietLedger.Spared failingWorld r.2) ∧
      failingWorld.Unhindered ∧ s.1 = .error (.io .isADirectory) ∧
        s.2.Holds quietLedger.path sampleText.toUTF8 ∧ quietLedger.Untold failingWorld s.2 := by
  intro r s
  have hsteady : failingWorld.Steady := ⟨sampleWorld_calm.tree, sampleWorld_calm.home⟩
  obtain ⟨hsave, happrovals⟩ := save_all_or_nothing quietLedger hsteady
  have hr : r.1 = .error (.io .isADirectory) := by decide +kernel
  have hnext : failingWorld.Unhindered := by
    intro cause plan h
    cases h
  have htext : quietLedger.text? failingWorld = .ok sampleText := by decide +kernel
  have hobj : classify sampleText.toList = .ok sampleStored := by decide +kernel
  have hs : s.1 = .error (.io .isADirectory) := by decide +kernel
  have huntold := (happrovals _ _ hnext htext hobj).1 "a" .dev "kim" _ hs
  have hholds : failingWorld.Holds quietLedger.path sampleText.toUTF8 := by decide +kernel
  exact ⟨⟨hr, (hsave sampleDocument).2.1 _ hr⟩, hnext, hs, huntold.holds nofun _ hholds, huntold⟩

/-! ## Where a failure shows -/

/-- The ledger by a path that goes up from a directory. -/
def detourLedger : Ledger := { quietLedger with path := "/p/x/../l".toList }

/-- The ledger with itself as its journal. -/
def selfLedger : Ledger := { quietLedger with sink := .journal quietLedger.path }

/-- The sample with a directory in the way of the draft. -/
def blockedWorld : World :=
  { sampleWorld with disk := sampleWorld.disk.put ["p", ".l.tmp"] .directory }

/-- A save that fails may make the directory that the path of the ledger goes up from; then a file
is read there where none was before. And where the ledger is its own journal, an approval that fails
adds to it what is told about an entry that cannot be read. -/
theorem shows_where_failed :
    let r := (detourLedger.save sampleDocument).run.run blockedWorld
    let s := (selfLedger.approve "a" .dev "kim").run.run blockedWorld
    (r.1 = .error (.io .isADirectory) ∧ (∀ bytes, ¬blockedWorld.Holds detourLedger.path bytes) ∧
      r.2.Holds detourLedger.path sampleText.toUTF8) ∧
    s.1 = .error (.io .isADirectory) ∧ blockedWorld.Holds selfLedger.path sampleText.toUTF8 ∧
      ¬s.2.Holds selfLedger.path sampleText.toUTF8 := by
  intro r s
  have hr : r.1 = .error (.io .isADirectory) := by decide +kernel
  have habsent : blockedWorld.disk.read blockedWorld.workingDir detourLedger.path =
      .error .notFound := by decide +kernel
  have hmade : r.2.Holds detourLedger.path sampleText.toUTF8 := by decide +kernel
  have hs : s.1 = .error (.io .isADirectory) ∧ blockedWorld.Holds selfLedger.path sampleText.toUTF8 ∧
      ¬s.2.Holds selfLedger.path sampleText.toUTF8 := by decide +kernel
  exact ⟨⟨hr, fun bytes h => (nomatch habsent.symm.trans h), hmade⟩, hs⟩

end EditGate.Ledger
