import EditGate.Proofs.Gate.Safety
import EditGate.Proofs.Ledger.Twins

/-!
# The gate on twins

What the gate answers and what it writes does not depend on where its notices go: every operation
answers alike on twins and leaves twins (`both_perform`), if the file that it is about is one that
both disks have alike, and the ledger stays clear of the journal.
-/

namespace EditGate

/-- The gate with its notices going elsewhere. -/
def Gate.onto (g : Gate) (s : Sink) : Gate := { g with sink := s }

/-- The answer with its gate sending notices elsewhere. -/
def Rpc.Answer.onto (a : Rpc.Answer) (s : Sink) : Rpc.Answer := { a with gate := a.gate.onto s }

namespace Gate

open Approval (Slot)
open Run (Alike Same Both)

variable {g : Gate} {s : Sink} {c : Stage} {w w' : World}

/-! ## Looking -/

/-- A text that is read has a paved path. -/
theorem both_readSource (hs : c.Suits s) {path : String} (hpath : c.Reads (g.locate path))
    (h : Twins c w w') :
    Both w w' ((g.onto .keep).readSource path) ((g.onto s).readSource path) fun r r' v v' =>
      r' = r ∧ Twins c v v' ∧ ∀ text, r = some text → v.disk.Paved c.workingDir (g.locate path) := by
  refine Run.Both.bind (h.readText (h.disk.read_eq hpath.admits hpath.spares)) ?_
  rintro _ r v v' ⟨rfl, hv, hr, rfl⟩
  cases r with
  | ok text =>
    obtain ⟨dir, name, hfind, -⟩ := (Disk.names_of_readText hr.symm).1
    exact ⟨rfl, hv, fun _ _ => Disk.paved_of_find hv.disk.tree (hv.disk.kept _ c.home) hfind⟩
  | error cause =>
    refine Run.Both.bind (alike_record hs _ v v' hv) ?_
    rintro _ _ u u' ⟨rfl, hu⟩
    exact ⟨rfl, hu, fun _ hnone => nomatch hnone⟩

theorem alike_metadata? (hs : c.Suits s) {path : String} (hpath : c.Reads (g.locate path)) :
    Alike (Twins c) ((g.onto .keep).metadata? path) ((g.onto s).metadata? path) := by
  intro w w' h
  refine Both.bind_same (both_readSource hs hpath h) fun r v v' hv _ => ?_
  cases r with
  | none => exact ⟨rfl, hv⟩
  | some text => exact ((alike_recordAll hs _).bind fun _ => Run.alike_pure _) v v' hv

variable (hc : g.ledger.Clear c) (hs : c.Suits s) {path : String}

include hc hs

theorem alike_judge (metadata : Option Metadata) :
    Alike (Twins c) ((g.onto .keep).judge path metadata) ((g.onto s).judge path metadata) :=
  (Ledger.alike_status? path hc hs).bind fun _ =>
    (alike_recordAll hs _).bind fun _ => Run.alike_pure _

theorem alike_check (hpath : c.Reads (g.locate path)) :
    Alike (Twins c) ((g.onto .keep).check path) ((g.onto s).check path) :=
  (alike_metadata? hs hpath).bind fun _ => alike_judge hc hs _

theorem alike_checkMethod (hpath : c.Reads (g.locate path)) (method : String) :
    Alike (Twins c) ((g.onto .keep).checkMethod path method)
      ((g.onto s).checkMethod path method) :=
  (alike_metadata? hs hpath).bind fun _ => (alike_judge hc hs _).bind fun _ => Run.alike_pure _

omit hc in
theorem alike_followUps (hpath : c.Reads (g.locate path)) :
    Alike (Twins c) ((g.onto .keep).followUps path) ((g.onto s).followUps path) :=
  (alike_metadata? hs hpath).bind fun _ => Run.alike_pure _

/-! ## Writing -/

omit hc in
theorem alike_touch (hpath : c.Reads (g.locate path)) :
    Trial.Alike (Twins c) ((g.onto .keep).touch path) ((g.onto s).touch path) := by
  intro w w' h
  refine Trial.bind_lift_same (both_readSource hs hpath h) fun r v v' hv hpaved => ?_
  cases r with
  | none => exact ⟨rfl, hv⟩
  | some text =>
    have hlaid : Laid c (g.locate path) v v' := ⟨hv, hpaved text rfl⟩
    refine Trial.same_lift_bind (alike_timeStamp_laid v v' hlaid) fun time u u' hu => ?_
    cases Metadata.touch text.toList time with
    | none => exact ⟨rfl, hu.twins⟩
    | some touched =>
      exact Trial.same_io ((hu.writeText hpath.spares _).imp fun _ _ h => h.twins)

omit hc hs in
theorem alike_updateMetadata (hpath : c.Reads (g.locate path)) (patch : Metadata.Patch) :
    Trial.Alike (Twins c) (g.updateMetadata path patch) (g.updateMetadata path patch) := by
  intro w w' h
  refine Trial.bind_io_same (h.readText (h.disk.read_eq hpath.admits hpath.spares))
    (fun _ _ h => h) fun text v v' hv hread => ?_
  obtain ⟨hread, rfl⟩ := hread
  obtain ⟨dir, name, hfind, -⟩ := (Disk.names_of_readText hread.symm).1
  have hlaid : Laid c (g.locate path) v v' :=
    ⟨hv, Disk.paved_of_find hv.disk.tree (hv.disk.kept _ c.home) hfind⟩
  refine Trial.same_lift_bind (alike_timeStamp_laid v v' hlaid) fun time u u' hu => ?_
  simp only
  split
  · exact Trial.same_io ((hu.writeText hpath.spares _).imp fun _ _ h => h.twins)
  · exact ⟨rfl, hu.twins⟩

theorem alike_carryOut (hpath : c.Reads (g.locate path)) (reason : String) (a : FollowUp) :
    Trial.Alike (Twins c) ((g.onto .keep).carryOut path reason a)
      ((g.onto s).carryOut path reason a) := by
  cases a with
  | invalidateApprovals => exact Ledger.alike_invalidate path hc hs reason
  | updateLastModified => exact alike_touch hs hpath
  | addToChangelog => exact Trial.alike_pure ()
  | requireImmediateReview => exact Trial.alike_pure ()
  | runTests => exact Trial.alike_pure ()

theorem alike_carryOutAll (hpath : c.Reads (g.locate path)) (reason : String)
    (actions : List FollowUp) :
    Trial.Alike (Twins c) ((g.onto .keep).carryOutAll path reason actions)
      ((g.onto s).carryOutAll path reason actions) := by
  induction actions with
  | nil => exact Trial.alike_pure ()
  | cons a rest ih => exact (alike_carryOut hc hs hpath reason a).bind fun _ => ih

theorem alike_recordModification (hpath : c.Reads (g.locate path)) (reason : String) :
    Trial.Alike (Twins c) ((g.onto .keep).recordModification path reason)
      ((g.onto s).recordModification path reason) :=
  Trial.alike_lift_bind (alike_followUps hs hpath) fun actions =>
    (alike_carryOutAll hc hs hpath reason actions).bind fun _ => Trial.alike_pure _

/-! ## Operations -/

open Rpc (Answer Operation perform)

omit hc hs

/-- Answers that are the same but for where the notices of their gates go; the ledger is that of the
gate that was asked. -/
def Answers (g : Gate) (s : Sink) (r r' : Except Failure Answer) : Prop :=
  ∃ r₀ : Except Failure Answer, r = r₀.map (·.onto .keep) ∧ r' = r₀.map (·.onto s) ∧
    ∀ a, r₀ = .ok a → a.gate.ledger = g.ledger

theorem answers_ok (v : Json) (touched : List String) :
    g.Answers s (.ok ⟨v, touched, g.onto .keep⟩) (.ok ⟨v, touched, g.onto s⟩) :=
  ⟨.ok ⟨v, touched, g⟩, rfl, rfl, fun a ha => by cases ha; rfl⟩

theorem answers_error (e : Failure) : g.Answers s (.error e) (.error e) :=
  ⟨.error e, rfl, rfl, nofun⟩

/-- What is made of the same results is the same. -/
theorem both_answer {α : Type} {m m' : Trial α} (h : Trial.Same (Twins c) w w' m m')
    (v : α → Json) (touched : List String) :
    Both w w' (m >>= fun a => pure ⟨v a, touched, g.onto .keep⟩ : Trial Answer).run
      (m' >>= fun a => pure ⟨v a, touched, g.onto s⟩ : Trial Answer).run
      fun r r' v v' => g.Answers s r r' ∧ Twins c v v' := by
  have hbind : ∀ (m : Trial α) (f : α → Trial Answer),
      (m >>= f).run = m.run >>= ExceptT.bindCont f := fun _ _ => rfl
  rw [hbind, hbind]
  have hboth : Both w w' m.run m'.run fun r r' v v' => r' = r ∧ Twins c v v' := h
  refine hboth.bind ?_
  rintro _ r u u' ⟨rfl, hu⟩
  cases r with
  | ok a => exact ⟨answers_ok (v a) touched, hu⟩
  | error e => exact ⟨answers_error e, hu⟩

theorem both_answer_lift {α : Type} {m m' : Run α} (h : Same (Twins c) w w' m m')
    (v : α → Json) :
    Both w w' ((liftM m : Trial α) >>= fun a => pure ⟨v a, [], g.onto .keep⟩ : Trial Answer).run
      ((liftM m' : Trial α) >>= fun a => pure ⟨v a, [], g.onto s⟩ : Trial Answer).run
      fun r r' v v' => g.Answers s r r' ∧ Twins c v v' := by
  refine both_answer ?_ v []
  exact h.bind fun a => Run.alike_pure (Except.ok a)

theorem addRule_onto (g : Gate) (s : Sink) (r : Rule) :
    (g.onto s).addRule r = (g.addRule r).map (·.onto s) := by
  have hadd : (g.onto s).book.add r = g.book.add r := rfl
  rw [addRule, addRule, hadd]
  cases g.book.add r with
  | ok book => rfl
  | error refusal => rfl

theorem answers_addRule (r : Rule) :
    g.Answers s (((g.onto .keep).addRule r).map fun g' => ⟨.null, [], g'⟩)
      (((g.onto s).addRule r).map fun g' => ⟨.null, [], g'⟩) := by
  rw [addRule_onto, addRule_onto]
  cases hadd : g.addRule r with
  | ok g' =>
    refine ⟨.ok ⟨.null, [], g'⟩, rfl, rfl, fun a ha => ?_⟩
    cases ha
    exact ledger_of_addRule hadd
  | error e => exact answers_error e

/-- Every operation answers the same wherever the notices go, and leaves twins. -/
theorem both_perform (hc : g.ledger.Clear c) (hs : c.Suits s) (h : Twins c w w') (op : Operation)
    (hop : ∀ path, op.file? = some path → c.Reads (g.locate path)) :
    Both w w' (perform (g.onto .keep) op).run (perform (g.onto s) op).run fun r r' v v' =>
      g.Answers s r r' ∧ Twins c v v' := by
  cases op with
  | check path => exact both_answer_lift (alike_check hc hs (hop path rfl) w w' h) _
  | checkMethod path method =>
    exact both_answer_lift (alike_checkMethod hc hs (hop path rfl) method w w' h) _
  | followUps path => exact both_answer_lift (alike_followUps hs (hop path rfl) w w' h) _
  | recordModification path reason =>
    exact both_answer (alike_recordModification hc hs (hop path rfl) reason w w' h) _ _
  | approve path slot approver =>
    exact both_answer (Ledger.alike_approve path hc hs slot approver w w' h) _ _
  | status path => exact both_answer_lift (Ledger.alike_status? path hc hs w w' h) _
  | invalidate path reason =>
    exact both_answer (Ledger.alike_invalidate path hc hs reason w w' h) _ _
  | metadata path => exact both_answer_lift (alike_metadata? hs (hop path rfl) w w' h) _
  | updateMetadata path patch =>
    exact both_answer (alike_updateMetadata (hop path rfl) patch w w' h) _ _
  | addRule r =>
    rw [Both, run_perform_addRule, run_perform_addRule]
    exact ⟨answers_addRule r, h⟩
  | removeRule id => exact ⟨⟨.ok ⟨_, [], g.removeRule id⟩, rfl, rfl, fun a ha => by cases ha; rfl⟩, h⟩
  | switchRule id enabled =>
    exact ⟨⟨.ok ⟨_, [], g.setRuleEnabled id enabled⟩, rfl, rfl, fun a ha => by cases ha; rfl⟩, h⟩
  | rules => exact ⟨answers_ok _ _, h⟩

end Gate

end EditGate
