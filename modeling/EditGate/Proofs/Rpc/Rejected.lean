import EditGate.Proofs.Gate.Fixed
import EditGate.Proofs.Gate.Operations
import EditGate.Proofs.Ledger.Verified
import EditGate.Proofs.Rpc.Fault
import EditGate.Proofs.Rpc.Session

/-!
# A rejected message leaves no trace

Some messages are rejected for what they say: they are no request, they ask for nothing that there
is, or what they ask for is refused. Which ones these are is decided by the message and the rules
alone, before anything is done (`rejection?`). So such a message leaves the rules, the disk and the
diagnostics as they were, and whatever comes after it is answered as if it had not been there
(`rejected_leaves_no_trace`).

An operation that is not refused at first is not refused later either: the one refusal left is that
of a ledger whose text does not pass its check, and every text that the gate writes does
(`ends_perform_unrefused`). This takes the doubles of the stored ledger to read back.
-/

namespace EditGate.Rpc

open Approval (Slot)
open Run

variable {g : Gate} {w : World} {op : Operation}

/-! ## What is refused -/

/-- The refusal of an operation, whatever is on the disk. -/
def refusal? (g : Gate) : Operation → Option Refusal
  | .approve _ _ approver =>
    if (Text.trimString approver).isEmpty then some .emptyApprover else none
  | .addRule r =>
    match g.book.add r with
    | .ok _ => none
    | .error refusal => some refusal
  | _ => none

/-- The world in which an operation has the ledger read. -/
def consulted (g : Gate) (w : World) : Operation → World
  | .recordModification path _ => ((g.metadata? path).run w).2
  | _ => w

/-- An operation that is refused does nothing. -/
theorem run_perform_refused {refusal : Refusal} (h : refusal? g op = some refusal) (w : World) :
    (perform g op).run.run w = (.error (.validation refusal), w) := by
  cases op with
  | approve path slot approver =>
    rw [refusal?] at h
    split at h
    · rename_i hname
      obtain rfl := Option.some.inj h
      have hrun := g.ledger.run_approve_blank path slot hname w
      have hends : Trial.Ends w (g.approve path slot approver) fun r w' =>
          r = .error (.validation .emptyApprover) ∧ w' = w := by
        rw [Trial.Ends, Run.Ends]
        exact Prod.ext_iff.mp hrun
      have hperform : Trial.Ends w (perform g (.approve path slot approver)) fun r w' =>
          r = .error (.validation .emptyApprover) ∧ w' = w :=
        hends.bind (fun _ _ h => by cases h.1) fun _ _ h => ⟨by cases h.1; rfl, h.2⟩
      exact Prod.ext_iff.mpr hperform
    · cases h
  | addRule r =>
    rw [refusal?] at h
    split at h
    · cases h
    · rename_i refusal' hadd
      obtain rfl := Option.some.inj h
      have hrule : g.addRule r = .error (.validation refusal') := by rw [Gate.addRule, hadd]
      rw [perform, hrule]
      rfl
  | _ => cases h

/-! ## What is not refused -/

theorem ends_touch_unrefused (g : Gate) (path : String) (w : World) :
    Trial.Ends w (g.touch path) fun r _ => Unrefused r := by
  have hsource : Ends w (g.readSource path) fun _ _ => True := trivial
  refine hsource.bind_lift fun o w₁ _ => ?_
  cases o with
  | none => exact unrefused_ok ()
  | some text =>
    refine Trial.ends_timeStamp_bind.mpr ?_
    cases Metadata.touch text.toList (stamp w₁.now) with
    | none => exact unrefused_ok ()
    | some touched => exact Trial.ends_io_unrefused _ w₁

theorem ends_carryOutAll_unrefused (g : Gate) (path reason : String) {as : List FollowUp}
    (h : .invalidateApprovals ∉ as) (w : World) :
    Trial.Ends w (g.carryOutAll path reason as) fun r _ => Unrefused r := by
  induction as generalizing w with
  | nil => exact unrefused_ok ()
  | cons a as ih =>
    rw [List.mem_cons, not_or] at h
    have hfirst : Trial.Ends w (g.carryOut path reason a) fun r _ => Unrefused r := by
      cases a with
      | invalidateApprovals => exact absurd rfl h.1
      | updateLastModified => exact ends_touch_unrefused g path w
      | addToChangelog => exact unrefused_ok ()
      | requireImmediateReview => exact unrefused_ok ()
      | runTests => exact unrefused_ok ()
    exact hfirst.bind (fun _ w₁ _ => ih h.2 w₁) fun _ _ he => he.error

theorem ends_recordModification_unrefused (path reason : String)
    (h : g.ledger.NumbersReadBack ((g.metadata? path).run w).2) :
    Trial.Ends w (g.recordModification path reason) fun r _ => Unrefused r := by
  have hactions : Ends w (g.followUps path) fun actions w' =>
      (∃ m, actions = FollowUp.after m) ∧ w' = ((g.metadata? path).run w).2 := ⟨⟨_, rfl⟩, rfl⟩
  refine hactions.bind_lift ?_
  rintro actions w₁ ⟨⟨m, rfl⟩, rfl⟩
  obtain ⟨rest, hafter, hrest⟩ := Gate.exists_followUps_eq_cons m
  have hall : Trial.Ends ((g.metadata? path).run w).2
      (g.carryOutAll path reason (.invalidateApprovals :: rest)) fun r _ => Unrefused r :=
    (Ledger.ends_invalidate_unrefused h path reason).bind
      (fun _ w₂ _ => ends_carryOutAll_unrefused g path reason hrest w₂) fun _ _ he => he.error
  rw [hafter]
  exact hall.bind (fun _ _ _ => unrefused_ok _) fun _ _ he => he.error

theorem ends_updateMetadata_unrefused (g : Gate) (path : String) (patch : Metadata.Patch)
    (w : World) : Trial.Ends w (g.updateMetadata path patch) fun r _ => Unrefused r := by
  have hread : Ends w (readText (g.locate path)) fun _ _ => True := trivial
  refine Trial.ends_io_bind_unrefused hread fun text w₁ _ => ?_
  refine Trial.ends_timeStamp_bind.mpr ?_
  simp only
  split
  · exact Trial.ends_io_unrefused _ w₁
  · exact unrefused_ok ()

/-- An operation that is not refused at first is not refused. -/
theorem ends_perform_unrefused (h : refusal? g op = none)
    (hnumbers : g.ledger.NumbersReadBack (consulted g w op)) :
    Trial.Ends w (perform g op) fun r _ => Unrefused r := by
  -- what is done to answer is followed by an answer
  have hanswer : ∀ {α : Type} {m : Trial α} (f : α → Answer),
      (Trial.Ends w m fun r _ => Unrefused r) →
        Trial.Ends w (m >>= fun a => pure (f a)) fun r _ => Unrefused r :=
    fun f hm => hm.bind (fun a _ _ => unrefused_ok (f a)) fun _ _ he => he.error
  cases op with
  | recordModification path reason =>
    exact hanswer _ (ends_recordModification_unrefused path reason hnumbers)
  | approve path slot approver =>
    rw [refusal?] at h
    split at h
    · exact nomatch h
    · rename_i hname
      exact hanswer _ (Ledger.ends_approve_unrefused hnumbers path slot (by simpa using hname))
  | invalidate path reason =>
    exact hanswer _ (Ledger.ends_invalidate_unrefused hnumbers path reason)
  | updateMetadata path patch => exact hanswer _ (ends_updateMetadata_unrefused g path patch w)
  | addRule r =>
    rw [refusal?] at h
    split at h
    · rename_i book hadd
      have hrule : g.addRule r = .ok { g with book } := by rw [Gate.addRule, hadd]
      rw [perform, hrule]
      exact unrefused_ok _
    · exact nomatch h
  | check path => exact unrefused_ok _
  | checkMethod path method => exact unrefused_ok _
  | followUps path => exact unrefused_ok _
  | status path => exact unrefused_ok _
  | metadata path => exact unrefused_ok _
  | removeRule id => exact unrefused_ok _
  | switchRule id enabled => exact unrefused_ok _
  | rules => exact unrefused_ok _

/-! ## Messages -/

/-- Why a message is rejected, as far as the message and the rules say. -/
def rejection? (g : Gate) (message : List Char) : Option Fault :=
  match Request.read? message with
  | none => some .unreadable
  | some r =>
    match r.operation? with
    | .error fault => some fault
    | .ok op => (refusal? g op).map fun refusal => .failed (.validation refusal)

/-- A message is answered with a fault that lies in it. -/
def Rejected (s : State) (message : List Char) : Prop :=
  ∃ f, (answer s message).1.outcome = .error f ∧ f.code ∈ Fault.rejectionCodes

/-- The doubles of the ledger that a message has read read back. -/
def ReadsNumbersBack (s : State) (message : List Char) : Prop :=
  ∀ r op, Request.read? message = some r → r.operation? = .ok op →
    s.1.ledger.NumbersReadBack (consulted s.1 ((replyId r).run s.2).2 op)

/-- A message changes nothing but the name of the next event, and that only if the request in it has
no name. -/
structure LeavesNoTrace (s : State) (message : List Char) : Prop where
  decided : ∃ f, rejection? s.1 message = some f ∧ (answer s message).1.outcome = .error f
  touched : (answer s message).1.receipt.touched = []
  gate : (answer s message).2.1 = s.1
  disk : (answer s message).2.2.disk = s.2.disk
  kept : (answer s message).2.2.kept = s.2.kept
  named : (∀ r, Request.read? message = some r → r.id.isSome = true) → (answer s message).2 = s
  /-- Whatever comes next, and however its events are named. -/
  later : ∀ n input,
    (serve (answer s message).2.1 input).run { (answer s message).2.2 with nextEvent := n } =
      (serve s.1 input).run { s.2 with nextEvent := n }

/-- A message leaves the gate, and the world up to the name of the next event. -/
structure Unmoved (s : State) (message : List Char) (f : Fault) (n : Nat) : Prop where
  outcome : (answer s message).1.outcome = .error f
  touched : (answer s message).1.receipt.touched = []
  state : (answer s message).2 = (s.1, { s.2 with nextEvent := n })
  named : (∀ r, Request.read? message = some r → r.id.isSome = true) → n = s.2.nextEvent

variable {s : State} {message : List Char} {r : Request} {f : Fault}

theorem run_replyId (r : Request) (w : World) :
    ∃ n, ((replyId r).run w).2 = { w with nextEvent := n } ∧
      (r.id.isSome = true → n = w.nextEvent) := by
  unfold replyId
  cases r.id with
  | some id => exact ⟨w.nextEvent, rfl, fun _ => rfl⟩
  | none => exact ⟨w.nextEvent + 1, rfl, fun h => nomatch h⟩

theorem run_attempt_rejected (hread : Request.read? message = some r)
    (h : rejection? g message = some f) (w : World) :
    (attempt g r).run w = (.error f, w) := by
  rw [rejection?, hread] at h
  unfold attempt
  cases hop : r.operation? with
  | error fault =>
    simp only [hop, Option.some.injEq] at h
    rw [h]
    rfl
  | ok op =>
    simp only [hop] at h
    obtain ⟨refusal, hrefusal, rfl⟩ := Option.map_eq_some_iff.mp h
    have hends : Ends w (perform g op).run fun r w' =>
        r = .error (.validation refusal) ∧ w' = w := Prod.ext_iff.mp (run_perform_refused hrefusal w)
    have hbind : Ends w (do return (← (perform g op).run).mapError Fault.failed) fun r w' =>
        r = .error (.failed (.validation refusal)) ∧ w' = w := by
      refine hends.bind ?_
      rintro _ w' ⟨rfl, rfl⟩
      exact ⟨rfl, rfl⟩
    exact Prod.ext_iff.mpr hbind

theorem exists_unmoved (h : rejection? s.1 message = some f) : ∃ n, Unmoved s message f n := by
  cases hread : Request.read? message with
  | none =>
    rw [rejection?, hread] at h
    obtain rfl := Option.some.inj h
    have hanswer : answer s message = (.toUnreadable (stamp s.2.now), s) := by rw [answer, hread]
    exact ⟨s.2.nextEvent, by rw [hanswer]; rfl, by rw [hanswer]; rfl, by rw [hanswer],
      fun _ => rfl⟩
  | some r =>
    obtain ⟨n, hworld, hnamed⟩ := run_replyId r s.2
    have hid : Ends s.2 (replyId r) fun _ w => w = { s.2 with nextEvent := n } := hworld
    have hhandle : Ends s.2 (handle s.1 r) fun a w => (a.1.outcome = .error f ∧
        a.1.receipt.touched = []) ∧ a.2 = s.1 ∧ w = { s.2 with nextEvent := n } := by
      refine hid.bind fun id w₁ hw₁ => ?_
      have hattempt : Ends w₁ (attempt s.1 r) fun o w => o = .error f ∧ w = w₁ :=
        Prod.ext_iff.mp (run_attempt_rejected hread h w₁)
      refine hattempt.bind ?_
      rintro _ w₂ ⟨rfl, rfl⟩
      exact ⟨⟨rfl, rfl⟩, rfl, hw₁⟩
    obtain ⟨⟨houtcome, htouched⟩, hgate, hstate⟩ := hhandle
    have hanswer : answer s message = (((handle s.1 r).run s.2).1.1,
        ((handle s.1 r).run s.2).1.2, ((handle s.1 r).run s.2).2) := by rw [answer, hread]
    refine ⟨n, ?_, ?_, ?_, fun hall => hnamed (hall r hread)⟩
    · rw [hanswer, houtcome]
    · rw [hanswer, htouched]
    · rw [hanswer]
      exact Prod.ext_iff.mpr ⟨hgate, hstate⟩

theorem code_mem_of_rejection? (h : rejection? g message = some f) :
    f.code ∈ Fault.rejectionCodes := by
  rw [rejection?] at h
  split at h
  · obtain rfl := Option.some.inj h
    decide
  · split at h
    · rename_i fault hop
      exact Option.some.inj h ▸ (isOfRequest_of_operation? hop).code_mem
    · obtain ⟨refusal, -, rfl⟩ := Option.map_eq_some_iff.mp h
      exact Fault.code_failed_mem_iff.mpr ⟨refusal, rfl⟩

/-- A message that is not rejected at first is not rejected. -/
theorem not_rejected_of_none (h : rejection? s.1 message = none)
    (hnumbers : ReadsNumbersBack s message) : ¬Rejected s message := by
  rintro ⟨f, houtcome, hcode⟩
  cases hread : Request.read? message with
  | none =>
    rw [rejection?, hread] at h
    exact nomatch h
  | some r =>
    rw [rejection?, hread] at h
    cases hop : r.operation? with
    | error fault =>
      simp only [hop] at h
      exact nomatch h
    | ok op =>
      simp only [hop, Option.map_eq_none_iff] at h
      -- the operation runs in the world that finding an identifier for the reply leaves
      have hperform := ends_perform_unrefused (w := ((replyId r).run s.2).2) h
        (hnumbers r op hread hop)
      have hhandle : Ends s.2 (handle s.1 r) fun a _ =>
          ∀ f, a.1.outcome = .error f → f.code ∉ Fault.rejectionCodes := by
        have hid : Ends s.2 (replyId r) fun _ w => w = ((replyId r).run s.2).2 := rfl
        refine hid.bind ?_
        rintro id _ rfl
        have hattempt : Ends ((replyId r).run s.2).2 (attempt s.1 r) fun o _ =>
            ∀ f, o = .error f → f.code ∉ Fault.rejectionCodes := by
          unfold attempt
          simp only [hop]
          refine Ends.bind hperform fun o _ hunrefused => ?_
          cases o with
          | ok a => exact fun f hf => nomatch hf
          | error e =>
            rintro f hf hmem
            cases hf
            -- a fault with such a code refuses the operation, which it was shown not to do
            obtain ⟨refusal, rfl⟩ := Fault.code_failed_mem_iff.mp hmem
            exact hunrefused refusal rfl
        refine hattempt.bind fun o _ ho => ?_
        cases o with
        | ok a => exact fun f hf => nomatch hf
        | error fault =>
          rintro f hf
          cases hf
          exact ho _ rfl
      rw [answer, hread] at houtcome
      exact hhandle f houtcome hcode

/-! ## The main result -/

/-- Which messages are rejected is decided by them and the rules. A rejected message leaves
everything as it was and writes nothing, and what comes after it is answered as if it had not been
there. -/
theorem rejected_leaves_no_trace (s : State) (message : List Char)
    (hnumbers : ReadsNumbersBack s message) :
    (Rejected s message ↔ (rejection? s.1 message).isSome = true) ∧
      (Rejected s message → LeavesNoTrace s message) := by
  cases h : rejection? s.1 message with
  | none =>
    have hnot := not_rejected_of_none h hnumbers
    exact ⟨⟨fun hr => absurd hr hnot, fun hr => nomatch hr⟩, fun hr => absurd hr hnot⟩
  | some f =>
    obtain ⟨n, hunmoved⟩ := exists_unmoved h
    refine ⟨⟨fun _ => rfl, fun _ => ⟨f, hunmoved.outcome, code_mem_of_rejection? h⟩⟩, fun _ => ?_⟩
    have hstate := hunmoved.state
    exact {
      decided := ⟨f, h, hunmoved.outcome⟩
      touched := hunmoved.touched
      gate := by rw [hstate]
      disk := by rw [hstate]
      kept := by rw [hstate]
      named := fun hall => by rw [hstate, hunmoved.named hall]
      later := fun n input => by rw [hstate] }

/-- An approval without a name, asked for where the ledger has an entry that cannot be read. -/
def samplePlea : List Char :=
  "\x7b\"op\":\"set_approval\",\"params\":\x7b\"path\":\"b\",\"slot\":\"dev\",\"approver\":\" \"\x7d\x7d".toList

/-- The approval is rejected, and the entry stays as it is. -/
theorem leaves_no_trace_samplePlea :
    let s : State := (Gate.sampleGate, Ledger.sampleWorld)
    ReadsNumbersBack s samplePlea ∧ Rejected s samplePlea ∧ LeavesNoTrace s samplePlea := by
  intro s
  have htext : Gate.sampleGate.ledger.text? Ledger.sampleWorld = .ok Ledger.sampleText := by
    decide +kernel
  have hread : Json.read? Ledger.sampleText.toList = some (.obj Ledger.sampleStored) := by
    decide +kernel
  have hdoubles : ∀ x ∈ (Json.obj Ledger.sampleStored).doubles, Json.DoubleReadsBack x := by
    decide +kernel
  have hplea : (Request.read? samplePlea).bind (fun r => r.operation?.toOption) =
      some (.approve "b" .dev " ") := by decide +kernel
  have hnumbers : ReadsNumbersBack s samplePlea := by
    intro r op hr hop
    rw [hr, Option.bind_some, hop] at hplea
    obtain rfl : op = .approve "b" .dev " " := Option.some.inj hplea
    obtain ⟨n, hworld, -⟩ := run_replyId r s.2
    have hconsulted : ∀ w, consulted s.1 w (.approve "b" .dev " ") = w := fun _ => rfl
    rw [hconsulted, hworld]
    intro text v ht hv
    obtain rfl : text = Ledger.sampleText := Except.ok.inj (ht.symm.trans htext)
    obtain rfl : v = .obj Ledger.sampleStored := Option.some.inj (hv.symm.trans hread)
    exact hdoubles
  have hmain := rejected_leaves_no_trace s samplePlea hnumbers
  have hrejected : Rejected s samplePlea := hmain.1.mpr (by decide +kernel)
  exact ⟨hnumbers, hrejected, hmain.2 hrejected⟩

end EditGate.Rpc
