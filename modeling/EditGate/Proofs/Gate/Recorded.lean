import EditGate.Proofs.Gate.Fixed
import EditGate.Proofs.Gate.Stamped
import EditGate.Proofs.Ledger.Backup

/-!
# Recorded modifications

Recording a modification takes the approvals of the file back, stamps the file, and yields what else
is due (`ends_recordModification_recorded`). What is due was found before anything was written, and
does not depend on the stamp. So if no step of the disk fails, the approvals of the file are empty
and its metadata have the time, no other file but the journal and the draft of the ledger changes,
and recording the modification once more yields the same and changes nothing
(`recordModification_end_to_end`). Where the ledger has room no step of the disk fails
(`recordModification_ok`).

An entry that cannot be read holds no approvals and stays, and a draft that was left behind is gone
after the ledger was saved (`entry_stays_draft_goes`).
-/

namespace EditGate.Gate

open Ledger (Confined Held Withdrawn)
open Metadata (IsStamp)
open Run World
open World (Grown)

variable {g : Gate} {w w' w'' : World} {S T : Place → Prop} {path reason : String}

/-! ## Recording -/

theorem isStamp_stamp (now : Int) : IsStamp (stamp now) :=
  ⟨Json.digits now.toNat, by rw [← Ledger.toList_stamp, String.ofList_toList],
    fun _ => Json.isDigit_of_mem_digits⟩

/-- First approvals are taken back, then the time is marked; what else is due is left to others. -/
theorem exists_after_eq (m : Option Metadata) :
    ∃ rest, FollowUp.after m = .invalidateApprovals :: .updateLastModified :: rest ∧
      ∀ a ∈ rest, a.isOwn = false := by
  refine ⟨_, rfl, ?_⟩
  cases m with
  | none => decide
  | some m =>
    simp only
    split <;> split <;> decide

theorem ends_carryOutAll_others (path reason : String) {as : List FollowUp}
    (has : ∀ a ∈ as, a.isOwn = false) :
    Trial.Ends w (g.carryOutAll path reason as) fun r w' => r = .ok () ∧ w' = w := by
  induction as with
  | nil => exact ⟨rfl, rfl⟩
  | cons a as ih =>
    obtain ⟨ha, hrest⟩ := List.forall_mem_cons.mp has
    cases a with
    | invalidateApprovals => cases ha
    | updateLastModified => cases ha
    | addToChangelog => exact ih hrest
    | requireImmediateReview => exact ih hrest
    | runTests => exact ih hrest

/-- What recording a modification leaves: the approvals of the file are taken back, the file is
stamped, and nothing else happens but to the journal. -/
structure Recorded (g : Gate) (path reason : String) (w w' : World) : Prop where
  withdrawn : g.ledger.Withdrawn (g.key path) reason (· ≠ w.placeOf (g.locate path)) w w'
  stamped : g.Stamped path (fun P => P ≠ g.ledger.place w ∧ P ≠ w.placeOf g.ledger.draftPath) w w'

/-- Taking approvals back and then stamping the file is recording its modification. -/
theorem recorded_of_steps {w₁ w₂ : World} (hheld : g.ledger.Held w) (hapart : g.StandsApart w path)
    (h₁ : Confined g.sink (fun _ => True) w w₁)
    (h₂ : g.ledger.Withdrawn (g.key path) reason (fun _ => True) w₁ w₂)
    (h₃ : g.Stamped path (fun _ => True) w₂ w') : g.Recorded path reason w w' := by
  have hplace := h₁.later.placeOf
  have hplace₂ := (h₁.later.trans h₂.beside.later).placeOf
  -- the file is as it was until it is stamped
  have hbefore : Confined g.sink
      (fun P => P ≠ g.ledger.place w ∧ P ≠ w.placeOf g.ledger.draftPath) w w₂ := by
    have hbeside := h₂.beside
    rw [h₁.later.place, hplace] at hbeside
    exact (h₁.mono fun _ _ => trivial).trans (hbeside.mono fun _ hP => ⟨trivial, hP⟩)
  have hsource : g.source? w₂ path = g.source? w path :=
    hapart.source?_eq hheld.calm hbefore ⟨hapart.ledger, hapart.draft⟩
  refine ⟨h₂.between hheld h₁ (h₃.beside.mono fun P hP => ?_) (Ne.symm hapart.ledger)
    (Ne.symm hapart.draft), ?_⟩
  · rw [hplace₂]
    exact ⟨trivial, hP⟩
  · have hstamped : g.stamped? w₂ path = g.stamped? w path := by
      rw [stamped?, stamped?, hsource, hbefore.later.now]
    cases h₃ with
    | idle hnone hc =>
      exact .idle (hstamped ▸ hnone) (hbefore.trans (hc.mono fun _ _ => trivial))
    | written hsome hc hholds =>
      rw [hplace₂] at hc
      refine .written (hstamped ▸ hsome) ?_ hholds
      exact (hbefore.mono fun _ hP => hP.1).trans (hc.mono fun _ hP => ⟨trivial, hP.2⟩)

/-- Recording a modification yields what is left to others, unless a step of the disk fails. -/
theorem ends_recordModification_recorded (hheld : g.ledger.Held w)
    (hapart : g.StandsApart w path) (reason : String) :
    Trial.Ends w (g.recordModification path reason) fun r w' =>
      (∃ cause, r = .error (.io cause)) ∨
        (r = .ok ((FollowUp.after (g.shown? w path)).filter (!·.isOwn)) ∧
          g.Recorded path reason w w') := by
  refine (ends_followUps_confined (S := fun _ => True) hheld.calm path).bind_lift ?_
  rintro _ w₁ ⟨rfl, h₁⟩
  have hall : Trial.Ends w₁ (g.carryOutAll path reason (FollowUp.after (g.shown? w path)))
      fun r w' => (∃ cause, r = .error (.io cause)) ∨ (r = .ok () ∧ g.Recorded path reason w w') := by
    obtain ⟨rest, hactions, hrest⟩ := exists_after_eq (g.shown? w path)
    rw [hactions]
    refine (Ledger.ends_invalidate_held (hheld.confined h₁ trivial) path reason).bind
      (fun _ w₂ h₂ => ?_) fun _ _ h => .inl (h.resolve_right fun ⟨he, _⟩ => nomatch he)
    obtain ⟨-, hwithdrawn⟩ := h₂.resolve_left fun ⟨_, he⟩ => nomatch he
    refine (ends_touch_stamped hwithdrawn.beside.later.calm path).bind (fun _ w₃ h₃ => ?_)
      fun _ _ h => .inl (h.resolve_right fun ⟨he, _⟩ => nomatch he)
    obtain ⟨-, hstamped⟩ := h₃.resolve_left fun ⟨_, he⟩ => nomatch he
    refine (ends_carryOutAll_others path reason hrest).imp ?_
    rintro r _ ⟨hok, rfl⟩
    exact .inr ⟨hok, recorded_of_steps hheld hapart h₁ hwithdrawn hstamped⟩
  refine hall.bind (fun _ w' h => ?_) fun _ _ h => .inl ?_
  · exact .inr ⟨rfl, (h.resolve_left fun ⟨_, he⟩ => nomatch he).2⟩
  · obtain ⟨cause, he⟩ := h.resolve_right fun ⟨he, _⟩ => nomatch he
    exact ⟨cause, by rw [Except.error.inj he]⟩

/-- Where the ledger has room the modification is recorded without fail. -/
theorem ends_recordModification_ok (hheld : g.ledger.Held w) (hapart : g.StandsApart w path)
    (hroom : g.ledger.HasRoom w) (hdraft : g.sink.PassesBy w (w.placeOf g.ledger.draftPath))
    (reason : String) :
    Trial.Ends w (g.recordModification path reason) fun r _ => ∀ cause, r ≠ .error (.io cause) := by
  refine (ends_followUps_confined (S := fun _ => True) hheld.calm path).bind_lift ?_
  rintro _ w₁ ⟨rfl, h₁⟩
  obtain ⟨rest, hactions, hrest⟩ := exists_after_eq (g.shown? w path)
  have hheld₁ := hheld.confined h₁ trivial
  have hdraft₁ : g.sink.PassesBy w₁ (w₁.placeOf g.ledger.draftPath) := by
    rw [h₁.later.placeOf]
    exact hdraft.same h₁.later.workingDir
  have hall : Trial.Ends w₁ (g.carryOutAll path reason (FollowUp.after (g.shown? w path)))
      fun r _ => r = .ok () := by
    rw [hactions]
    refine ((Ledger.ends_invalidate_held hheld₁ path reason).and
      (Ledger.ends_invalidate_ok hheld₁ (hroom.confined hheld₁ hdraft h₁) hdraft₁ path
        reason)).bind (fun _ w₂ h₂ => ?_) fun _ _ h => h.2
    obtain ⟨-, hwithdrawn⟩ := h₂.1.resolve_left fun ⟨_, he⟩ => nomatch he
    have hlater := h₁.later.trans hwithdrawn.beside.later
    have hsink : g.sink.Avoids w₂ (w₂.placeOf (g.locate path)) := by
      rw [hlater.placeOf]
      exact hapart.avoids.same hlater.workingDir
    refine (ends_touch_ok hlater.calm hsink).bind (fun _ w₃ _ => ?_) fun _ _ h => h
    exact (ends_carryOutAll_others path reason hrest).imp fun _ _ h => h.1
  exact hall.bind (fun _ _ _ => nofun) fun _ _ h => nomatch h

namespace Recorded

/-- The file holds the stamped text, or what it held if there is none. -/
theorem source?_eq (h : g.Recorded path reason w w') (hw : w.Calm)
    (hapart : g.StandsApart w path) :
    g.source? w' path = (g.stamped? w path).or (g.source? w path) := by
  cases h.stamped with
  | idle hnone hc =>
    rw [hnone, Option.none_or]
    exact hapart.source?_eq hw hc ⟨hapart.ledger, hapart.draft⟩
  | written hsome _ hholds =>
    rw [hsome, Option.some_or]
    exact source?_eq_some_iff.mpr hholds

variable (h : g.Recorded path reason w w') (hw : w.Calm) (hapart : g.StandsApart w path)
  (hdocumented : ∀ text, g.source? w path = some text → Documented text.toList)

include h hw hapart hdocumented

/-- What the file shows, and what it would be if it were stamped once more. -/
theorem shown?_eq :
    g.shown? w' path =
      (g.shown? w path).map fun m => { m with lastModified := some (stamp w.now) } := by
  rw [shown?, shown?, h.source?_eq hw hapart, stamped?]
  cases hsource : g.source? w path with
  | none => rfl
  | some text =>
    rw [Option.bind_some, Option.bind_some]
    cases htouch : Metadata.touch text.toList (stamp w.now) with
    | none =>
      have hnone : Metadata.extract text.toList = none :=
        Metadata.extract_of_locate?_eq_none (Option.map_eq_none_iff.mp htouch)
      simp [hnone]
    | some text' =>
      obtain ⟨m, hm, hm'⟩ :=
        Metadata.extract_touch (hdocumented text hsource) (isStamp_stamp w.now) htouch
      simp [hm, hm']

theorem stamped?_eq : g.stamped? w' path = g.stamped? w path := by
  have hnow : w'.now = w.now := h.withdrawn.beside.later.now
  rw [stamped?, h.source?_eq hw hapart, stamped?, hnow]
  cases hsource : g.source? w path with
  | none => rfl
  | some text =>
    rw [Option.bind_some]
    cases htouch : Metadata.touch text.toList (stamp w.now) with
    | none => simp [htouch]
    | some text' =>
      have hagain :=
        Metadata.touch_touch (hdocumented text hsource) (isStamp_stamp w.now) htouch
      simp [hagain]

end Recorded

/-! ## What is left -/

/-- The files at some places are what they were. -/
def LeavesFiles (S : Place → Prop) (w w' : World) : Prop :=
  ∀ P, S P → ∀ content,
    w'.disk.node? P = some (.file content) ↔ w.disk.node? P = some (.file content)

/-- What the ledger and the files show of a recorded modification. An absent ledger stays absent; in
a ledger that is stored the approvals of the file are empty if it had some, and everything else is
what it was. A file without metadata is what it was, and one with metadata shows them with the time.
The other files are what they were, but for the journal, and for a draft of the ledger that may be
gone if approvals were taken back. -/
structure Effect (g : Gate) (path reason : String) (w w' : World) : Prop where
  absent : w.disk.node? (g.ledger.place w) = none → w'.disk.node? (g.ledger.place w) = none
  stored : ∀ obj, g.ledger.stored? w = some obj → ∃ obj', g.ledger.stored? w' = some obj' ∧
    (∀ name, name ≠ Ledger.statesSection → Keyed.get? name obj' = Keyed.get? name obj) ∧
    ∀ k, (Keyed.get? k (Ledger.entriesOf obj')).map Ledger.asSeen =
      if k = g.key path then
        ((Keyed.get? k (Ledger.entriesOf obj)).map Ledger.asSeen).map
          (Ledger.withdrawn reason (stamp w.now))
      else (Keyed.get? k (Ledger.entriesOf obj)).map Ledger.asSeen
  unstamped : g.shown? w path = none → LeavesFiles (· = w.placeOf (g.locate path)) w w'
  stamped : g.shown? w' path =
    (g.shown? w path).map fun m => { m with lastModified := some (stamp w.now) }
  untaken : (∀ obj s, g.ledger.stored? w = some obj →
      (Keyed.get? (g.key path) (Ledger.entriesOf obj)).map Ledger.asSeen ≠ some (.inl s)) →
    LeavesFiles (fun P => g.sink.Avoids w P ∧ P ≠ w.placeOf (g.locate path)) w w'
  draft : g.sink.Avoids w (w.placeOf g.ledger.draftPath) → ∀ content,
    w'.disk.node? (w.placeOf g.ledger.draftPath) = some (.file content) →
      w.disk.node? (w.placeOf g.ledger.draftPath) = some (.file content)
  others : LeavesFiles (fun P => g.sink.Avoids w P ∧ P ≠ w.placeOf (g.locate path) ∧
    P ≠ g.ledger.place w ∧ P ≠ w.placeOf g.ledger.draftPath) w w'

theorem leavesFiles_of_confined (h : Confined g.sink S w w') :
    LeavesFiles (fun P => g.sink.Avoids w P ∧ S P) w w' :=
  fun P hP => (h.file P hP.2 hP.1).disk.file

namespace Recorded

/-- What shows of a recorded modification. -/
theorem effect (h : g.Recorded path reason w w') (hheld : g.ledger.Held w)
    (hapart : g.StandsApart w path)
    (hdocumented : ∀ text, g.source? w path = some text → Documented text.toList) :
    g.Effect path reason w w' where
  absent := h.withdrawn.absent hheld (Ne.symm hapart.ledger)
  stored _ hobj := h.withdrawn.stored hheld (Ne.symm hapart.ledger) hobj
  unstamped hnone := by
    cases h.stamped with
    | idle _ hc =>
      rintro P rfl
      exact leavesFiles_of_confined hc _ ⟨hapart.avoids, hapart.ledger, hapart.draft⟩
    | written hsome => cases (stamped?_eq_none hnone).symm.trans hsome
  stamped := h.shown?_eq hheld.calm hapart hdocumented
  untaken hnone := leavesFiles_of_confined (h.withdrawn.kept hnone)
  draft hsink content hfile := by
    cases h.withdrawn with
    | idle _ hc => exact (leavesFiles_of_confined hc _ ⟨hsink, Ne.symm hapart.draft⟩ content).mp hfile
    | written _ _ _ _ hgone => exact absurd hfile (hgone hsink content)
  others := leavesFiles_of_confined h.withdrawn.beside

/-- Stamping the file once more writes what is there. -/
theorem file_again (h : g.Recorded path reason w w') (h' : g.Recorded path reason w' w'')
    (hheld : g.ledger.Held w) (hapart : g.StandsApart w path)
    (hdocumented : ∀ text, g.source? w path = some text → Documented text.toList)
    (content : ByteArray) :
    w''.disk.node? (w.placeOf (g.locate path)) = some (.file content) ↔
      w'.disk.node? (w.placeOf (g.locate path)) = some (.file content) := by
  have hlater := h.withdrawn.beside.later
  have hstamped := h'.stamped
  rw [hlater.place, hlater.placeOf] at hstamped
  cases hstamped with
  | idle _ hc =>
    exact leavesFiles_of_confined hc _
      ⟨hapart.avoids.same hlater.workingDir, hapart.ledger, hapart.draft⟩ content
  | written hsome _ hholds =>
    rw [h.stamped?_eq hheld.calm hapart hdocumented] at hsome
    cases h.stamped with
    | idle hnone => cases hsome.symm.trans hnone
    | written hsome₀ _ hholds₀ =>
      obtain rfl := Option.some.inj (hsome₀.symm.trans hsome)
      have hfirst := (World.holds_iff.mp hholds₀).2
      have hsecond := (World.holds_iff.mp hholds).2
      rw [hlater.placeOf] at hfirst
      rw [h'.withdrawn.beside.later.placeOf, hlater.placeOf] at hsecond
      rw [hfirst, hsecond]

/-- Recording a modification once more writes what is there. -/
theorem again (h : g.Recorded path reason w w') (h' : g.Recorded path reason w' w'')
    (hheld : g.ledger.Held w) (hapart : g.StandsApart w path)
    (hdocumented : ∀ text, g.source? w path = some text → Documented text.toList) :
    LeavesFiles (g.sink.Avoids w) w' w'' := by
  intro P hsink content
  have hlater := h.withdrawn.beside.later
  by_cases hfile : P = w.placeOf (g.locate path)
  · exact hfile ▸ h.file_again h' hheld hapart hdocumented content
  by_cases hledger : P = g.ledger.place w ∨ P = w.placeOf g.ledger.draftPath
  · refine h.withdrawn.again hheld h'.withdrawn (Ne.symm hapart.ledger) ?_ hledger hsink content
    rw [hlater.placeOf]
    rintro Q (rfl | rfl)
    · exact Ne.symm hapart.ledger
    · exact Ne.symm hapart.draft
  · have hbeside := h'.withdrawn.beside
    rw [hlater.placeOf, hlater.place, hlater.placeOf] at hbeside
    exact leavesFiles_of_confined hbeside P
      ⟨hsink.same hlater.workingDir, hfile, not_or.mp hledger⟩ content

end Recorded

/-! ## The main result -/

theorem held_of_settled (hw : w.Calm) (hsettled : g.ledger.Settled w)
    (hjournal : g.sink.Avoids w (g.ledger.place w))
    (habsent : w.disk.node? (g.ledger.place w) = none → g.sink.PassesBy w (g.ledger.place w))
    (hdoubles : ∀ obj, g.ledger.stored? w = some obj →
      ∀ x ∈ (Json.obj obj).doubles, Json.DoubleReadsBack x) : g.ledger.Held w where
  calm := hw
  avoids := hjournal
  holds := hsettled.imp (fun hnone => ⟨hnone, habsent hnone⟩) fun ⟨text, obj, htext, hobj⟩ =>
    ⟨_, ⟨text, obj, htext, hobj, fun f => Ledger.ofObject_eq hobj f ⟨.null, .null⟩⟩,
      Ledger.sound_ofObject hobj (hdoubles obj (Ledger.stored?_of_text? htext hobj)) _⟩

/-- What is due after a modification does not depend on when the file was last modified. -/
theorem after_map_lastModified (m : Option Metadata) (time : String) :
    FollowUp.after (m.map fun m => { m with lastModified := some time }) = FollowUp.after m := by
  cases m <;> rfl

theorem filter_isOwn (as : List FollowUp) :
    as.filter (!·.isOwn) =
      as.filter (· ∉ [FollowUp.invalidateApprovals, FollowUp.updateLastModified]) :=
  List.filter_congr fun a _ => by cases a <;> rfl

/-- Where the ledger has room the modification is recorded twice without fail. -/
theorem recordModification_ok (hheld : g.ledger.Held w) (hapart : g.StandsApart w path)
    (hroom : g.ledger.HasRoom w) (hdraft : g.sink.PassesBy w (w.placeOf g.ledger.draftPath))
    (reason : String) :
    let first := (g.recordModification path reason).run.run w
    let second := (g.recordModification path reason).run.run first.2
    (∀ cause, first.1 ≠ .error (.io cause)) ∧ g.Recorded path reason w first.2 ∧
      ∀ cause, second.1 ≠ .error (.io cause) := by
  intro first second
  have hfirst := ends_recordModification_ok hheld hapart hroom hdraft reason
  obtain ⟨-, hrecorded⟩ := (ends_recordModification_recorded hheld hapart reason).resolve_left
    fun ⟨cause, he⟩ => hfirst cause he
  have hbeside := hrecorded.withdrawn.beside
  have hdraft' : g.sink.PassesBy first.2 (first.2.placeOf g.ledger.draftPath) := by
    rw [hbeside.later.placeOf]
    exact hdraft.same hbeside.later.workingDir
  have hheld' := hrecorded.withdrawn.held hheld (Ne.symm hapart.ledger)
  exact ⟨hfirst, hrecorded, ends_recordModification_ok hheld' (hapart.confined hbeside)
    (hroom.confined hheld' hdraft hbeside) hdraft' reason⟩

/-- Recording the modification of a file that stands apart, where the ledger is settled: unless a
step of the disk fails, it yields what is due but for what it does itself, and it has its effect on
the ledger and the file and on nothing else. Recording it once more yields the same and changes no
file. -/
theorem recordModification_end_to_end (g : Gate) (w : World) (path reason : String) (hw : w.Calm)
    (hsettled : g.ledger.Settled w) (hjournal : g.sink.Avoids w (g.ledger.place w))
    (habsent : w.disk.node? (g.ledger.place w) = none → g.sink.PassesBy w (g.ledger.place w))
    (hdoubles : ∀ obj, g.ledger.stored? w = some obj →
      ∀ x ∈ (Json.obj obj).doubles, Json.DoubleReadsBack x)
    (hapart : g.StandsApart w path)
    (hdocumented : ∀ text, g.source? w path = some text → Documented text.toList) :
    let due := ((g.followUps path).run w).1.filter
      (· ∉ [FollowUp.invalidateApprovals, FollowUp.updateLastModified])
    let first := (g.recordModification path reason).run.run w
    let second := (g.recordModification path reason).run.run first.2
    (∀ cause, first.1 ≠ .error (.io cause)) →
      first.1 = .ok due ∧ g.Effect path reason w first.2 ∧
        ((∀ cause, second.1 ≠ .error (.io cause)) →
          second.1 = .ok due ∧ LeavesFiles (g.sink.Avoids w) first.2 second.2) := by
  intro due first second hfirst
  have hheld := held_of_settled hw hsettled hjournal habsent hdoubles
  have hdue : due = (FollowUp.after (g.shown? w path)).filter (!·.isOwn) := by
    rw [filter_isOwn, ← (ends_followUps_confined (S := fun _ => True) hw path).1]
  obtain ⟨hok, hrecorded⟩ := (ends_recordModification_recorded hheld hapart reason).resolve_left
    fun ⟨cause, he⟩ => hfirst cause he
  have heffect := hrecorded.effect hheld hapart hdocumented
  refine ⟨hok.trans (by rw [hdue]), heffect, fun hsecond => ?_⟩
  have hheld' := hrecorded.withdrawn.held hheld (Ne.symm hapart.ledger)
  have hapart' := hapart.confined hrecorded.withdrawn.beside
  obtain ⟨hok', hrecorded'⟩ :=
    (ends_recordModification_recorded hheld' hapart' reason).resolve_left
      fun ⟨cause, he⟩ => hsecond cause he
  have hafter : FollowUp.after (g.shown? first.2 path) = FollowUp.after (g.shown? w path) := by
    rw [heffect.stamped, after_map_lastModified]
  refine ⟨hok'.trans ?_, hrecorded.again hrecorded' hheld hapart hdocumented⟩
  rw [hdue, ← hafter]

/-! ### A recorded modification -/

/-- The text of a ledger with an approval of one file and an entry that cannot be read. -/
def recordText : String :=
  "\x7b\"approvalStates\":\x7b\"a\":\x7b\"dev\":\x7b\"approved\":true\x7d\x7d,\"b\":7\x7d," ++
    "\"currentSession\":\x7b\x7d,\"projectContext\":\x7b\x7d\x7d"

def recordStored : Keyed Json :=
  [("approvalStates", .obj [("a", .obj [("dev", .obj [("approved", .bool true)])]), ("b", .int 7)]),
    ("currentSession", .obj []), ("projectContext", .obj [])]

/-- A gate whose notices go to a journal. -/
def recordGate : Gate := { sampleGate with sink := .journal "/p/j".toList }

/-- A project with a file, a ledger, and a draft of the ledger that was left behind. -/
def recordWorld : World where
  disk := ⟨[(["p"], .directory), (["p", "a"], .file sampleText.toUTF8),
    (["p", "l"], .file recordText.toUTF8), (["p", ".l.tmp"], .file "left".toUTF8)]⟩
  workingDir := ["p"]

theorem calm_recordWorld : recordWorld.Calm where
  tree := Disk.isTree_of_entries (by decide)
  home := by decide
  unplanned := fun _ ho => absurd ho List.not_mem_nil

theorem text?_recordWorld : recordGate.ledger.text? recordWorld = .ok recordText := by decide

theorem classify_recordText : Ledger.classify recordText.toList = .ok recordStored := by
  decide +kernel

theorem stored?_recordWorld : recordGate.ledger.stored? recordWorld = some recordStored :=
  Ledger.stored?_of_text? text?_recordWorld classify_recordText

theorem settled_recordWorld : recordGate.ledger.Settled recordWorld :=
  .inr ⟨_, _, text?_recordWorld, classify_recordText⟩

theorem doubles_recordWorld (obj : Keyed Json)
    (hobj : recordGate.ledger.stored? recordWorld = some obj) :
    ∀ x ∈ (Json.obj obj).doubles, Json.DoubleReadsBack x := by
  obtain rfl := Option.some.inj (stored?_recordWorld.symm.trans hobj)
  have hnone : (Json.obj recordStored).doubles = [] := by decide
  rw [hnone]
  exact fun x hx => absurd hx List.not_mem_nil

/-- The journal leads through the directory of the project only. -/
theorem passesBy_recordWorld {P : Place} (hP : P ∉ [[], [], ["p"], ["p", "j"]]) :
    recordGate.sink.PassesBy recordWorld P := by
  have hway : Disk.way recordWorld.workingDir "/p/j".toList = [[], [], ["p"], ["p", "j"]] := by
    decide
  rintro path hpath
  cases hpath
  rwa [hway]

theorem standsApart_recordWorld {path : String} {P : Place}
    (hplace : recordWorld.placeOf (recordGate.locate path) = P)
    (hP : P ∉ [[], [], ["p"], ["p", "j"], ["p", "l"], ["p", ".l.tmp"]])
    (hdown : Path.dotDot ∉ Text.splitOn '/' (recordGate.locate path)) :
    recordGate.StandsApart recordWorld path where
  avoids := by
    rw [hplace]
    exact (passesBy_recordWorld fun hmem => hP (by simp_all)).avoids
  ledger := by
    have hledger : recordGate.ledger.place recordWorld = ["p", "l"] := by decide
    rw [hplace, hledger]
    rintro rfl
    simp at hP
  draft := by
    have hdraft : recordWorld.placeOf recordGate.ledger.draftPath = ["p", ".l.tmp"] := by decide
    rw [hplace, hdraft]
    rintro rfl
    simp at hP
  ups fs rest hsplit := absurd (by rw [hsplit]; simp) hdown

theorem hasRoom_recordWorld : recordGate.ledger.HasRoom recordWorld := by
  have hroot : recordGate.ledger.path.parent? = some "/p".toList := by decide
  exact Ledger.hasRoom_of_parent? hroot (by decide) ⟨["p"], "l", rfl, by decide⟩ (by decide)
    ⟨["p"], ".l.tmp", rfl, by decide⟩ (by decide)

theorem passesBy_ledger_recordWorld :
    recordGate.sink.PassesBy recordWorld (recordGate.ledger.place recordWorld) :=
  passesBy_recordWorld (by decide)

theorem held_recordWorld : recordGate.ledger.Held recordWorld :=
  held_of_settled calm_recordWorld settled_recordWorld passesBy_ledger_recordWorld.avoids
    (fun _ => passesBy_ledger_recordWorld) doubles_recordWorld

theorem recordWorld_ok {path : String} (hapart : recordGate.StandsApart recordWorld path)
    (reason : String) :
    let first := (recordGate.recordModification path reason).run.run recordWorld
    let second := (recordGate.recordModification path reason).run.run first.2
    (∀ cause, first.1 ≠ .error (.io cause)) ∧
      recordGate.Recorded path reason recordWorld first.2 ∧
      ∀ cause, second.1 ≠ .error (.io cause) :=
  recordModification_ok held_recordWorld hapart hasRoom_recordWorld
    (passesBy_recordWorld (by decide)) reason

/-- The modification of the file is recorded, and then recorded once more. -/
theorem recordModification_end_to_end_sample :
    let due := ((recordGate.followUps "a").run recordWorld).1.filter
      (· ∉ [FollowUp.invalidateApprovals, FollowUp.updateLastModified])
    let first := (recordGate.recordModification "a" "edited").run.run recordWorld
    let second := (recordGate.recordModification "a" "edited").run.run first.2
    (∀ cause, first.1 ≠ .error (.io cause)) ∧ first.1 = .ok due ∧
      recordGate.Effect "a" "edited" recordWorld first.2 ∧
      (∀ cause, second.1 ≠ .error (.io cause)) ∧ second.1 = .ok due ∧
      LeavesFiles (recordGate.sink.Avoids recordWorld) first.2 second.2 := by
  have hplace : recordWorld.placeOf (recordGate.locate "a") = ["p", "a"] := by decide
  have hapart : recordGate.StandsApart recordWorld "a" :=
    standsApart_recordWorld hplace (by decide) (by decide)
  obtain ⟨hfirst, -, hsecond⟩ := recordWorld_ok hapart "edited"
  have hmarked : Marked sampleText.toList "/*\n".toList " * ".toList
      "\n * @breaking-changes-risk: high\n */\n".toList := ⟨by decide, by decide⟩
  have hdocumented : ∀ text, recordGate.source? recordWorld "a" = some text →
      Documented text.toList := by
    intro text htext
    have hsource : recordGate.source? recordWorld "a" = some sampleText := by decide
    obtain rfl := Option.some.inj (hsource.symm.trans htext)
    exact hmarked.documented (.inr (.inr (.inl (by decide))))
  obtain ⟨hdue, heffect, hagain⟩ := recordModification_end_to_end recordGate recordWorld "a"
    "edited" calm_recordWorld settled_recordWorld passesBy_ledger_recordWorld.avoids
    (fun _ => passesBy_ledger_recordWorld) doubles_recordWorld hapart hdocumented hfirst
  exact ⟨hfirst, hdue, heffect, hsecond, hagain hsecond⟩

/-! ### What is not taken back, and what is gone -/

/-- An entry that cannot be read is not emptied, and recording the modification of a file with an
approval removes a draft that was left behind. -/
theorem entry_stays_draft_goes :
    (let first := (recordGate.recordModification "b" "edited").run.run recordWorld;
      recordGate.source? recordWorld "b" = none ∧ (∀ cause, first.1 ≠ .error (.io cause)) ∧
        ∃ obj obj', recordGate.ledger.stored? recordWorld = some obj ∧
          recordGate.ledger.stored? first.2 = some obj' ∧
          (Keyed.get? (recordGate.key "b") (Ledger.entriesOf obj)).isSome = true ∧
          (Keyed.get? (recordGate.key "b") (Ledger.entriesOf obj')).map Ledger.asSeen ≠
            some (.inl { lastInvalidation := some ⟨"edited", stamp recordWorld.now⟩ })) ∧
    (let first := (recordGate.recordModification "a" "edited").run.run recordWorld;
      (∀ cause, first.1 ≠ .error (.io cause)) ∧
        ¬LeavesFiles (fun P => recordGate.sink.Avoids recordWorld P ∧
          P ≠ recordWorld.placeOf (recordGate.locate "a") ∧
          P ≠ recordGate.ledger.place recordWorld) recordWorld first.2) := by
  have hplace : recordWorld.placeOf (recordGate.locate "a") = ["p", "a"] := by decide
  have hplace' : recordWorld.placeOf (recordGate.locate "b") = ["p", "b"] := by decide
  have hapart : recordGate.StandsApart recordWorld "a" :=
    standsApart_recordWorld hplace (by decide) (by decide)
  have hapart' : recordGate.StandsApart recordWorld "b" :=
    standsApart_recordWorld hplace' (by decide) (by decide)
  have hkey : recordGate.key "a" = "a" := by decide
  have hkey' : recordGate.key "b" = "b" := by decide
  have hledger : recordGate.ledger.place recordWorld = ["p", "l"] := by decide
  have hdraft : recordWorld.placeOf recordGate.ledger.draftPath = ["p", ".l.tmp"] := by decide
  obtain ⟨hfirst, hrecorded, -⟩ := recordWorld_ok hapart "edited"
  obtain ⟨hfirst', hrecorded', -⟩ := recordWorld_ok hapart' "edited"
  constructor
  · obtain ⟨obj', hobj', -, hentries⟩ := hrecorded'.withdrawn.stored held_recordWorld
      (Ne.symm hapart'.ledger) stored?_recordWorld
    refine ⟨by decide, hfirst', _, obj', stored?_recordWorld, hobj', by rw [hkey']; decide, ?_⟩
    rw [hentries, if_pos rfl, hkey']
    decide
  · refine ⟨hfirst, fun hsame => ?_⟩
    have havoids := (passesBy_recordWorld (P := recordWorld.placeOf recordGate.ledger.draftPath)
      (by rw [hdraft]; decide)).avoids
    have hleft : recordWorld.disk.node? (recordWorld.placeOf recordGate.ledger.draftPath) =
        some (.file "left".toUTF8) := by
      rw [hdraft]
      decide
    have hstill := (hsame _ ⟨havoids, by rw [hdraft, hplace]; decide,
      by rw [hdraft, hledger]; decide⟩ _).mpr hleft
    cases hrecorded.withdrawn with
    | idle hnone =>
      have hstatus := hnone (Ledger.Document.ofObject recordStored ⟨.null, .null⟩).1
        ⟨_, _, text?_recordWorld, classify_recordText,
          fun f => Ledger.ofObject_eq classify_recordText f _⟩
      rw [hkey] at hstatus
      exact absurd hstatus (by decide)
    | written _ _ _ _ hgone => exact hgone havoids _ hstill

end EditGate.Gate
