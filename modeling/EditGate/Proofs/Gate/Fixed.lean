import EditGate.Gate

/-!
# What no rule unlocks

The fixed checks come before the rules and are not undone by them: whatever rules a book holds, a
file that fails one of them is blocked with the message of that check. Nor does asking about one
method of a file help, since what is said of the method is only added to what is said of the file
(`fixed_checks_block`).

Two steps compute `allowed` anew after the messages were collected, finishing and merging. Both
allow exactly what has no reason against it (`allowed_ofFindings`, `allowed_merge`), and collapsing
identical messages loses none (`mem_reasons_ofFindings`).
-/

namespace EditGate

/-! ## Decisions -/

namespace Decision

variable {dedupe : Bool} {reasons warnings : List String} {message : String}

/-- A decision against a modification that gives a message as a reason. -/
def BlocksWith (d : Decision) (message : String) : Prop :=
  d.allowed = false ∧ message ∈ d.reasons

theorem mem_reasons_ofFindings :
    message ∈ (ofFindings dedupe reasons warnings).reasons ↔ message ∈ reasons := by
  cases dedupe with
  | true => exact mem_firstOccurrences
  | false => exact Iff.rfl

/-- What was found allows a modification exactly if nothing speaks against it. -/
theorem allowed_ofFindings :
    (ofFindings dedupe reasons warnings).allowed = true ↔
      (ofFindings dedupe reasons warnings).reasons = [] := List.isEmpty_iff

theorem reasons_ofFindings_eq_nil :
    (ofFindings dedupe reasons warnings).reasons = [] ↔ reasons = [] := by
  simp only [List.eq_nil_iff_forall_not_mem, mem_reasons_ofFindings]

theorem blocksWith_ofFindings (h : message ∈ reasons) :
    (ofFindings dedupe reasons warnings).BlocksWith message := by
  have hmem : message ∈ (ofFindings dedupe reasons warnings).reasons :=
    mem_reasons_ofFindings.mpr h
  refine ⟨Bool.eq_false_iff.mpr fun hallowed => ?_, hmem⟩
  rw [allowed_ofFindings.mp hallowed] at hmem
  exact absurd hmem List.not_mem_nil

theorem reasons_merge (a b : Decision) : (a.merge b).reasons = a.reasons ++ b.reasons := rfl

/-- Two decisions together allow a modification exactly if neither speaks against it. -/
theorem allowed_merge (a b : Decision) :
    (a.merge b).allowed = true ↔ a.reasons = [] ∧ b.reasons = [] := by
  rw [merge, List.isEmpty_iff, List.append_eq_nil_iff]

end Decision

/-! ## Rules -/

namespace RuleBook

variable {b : RuleBook} {m : Metadata} {approval : Option Approval.Status} {path message : String}

theorem allowed_evaluate (b : RuleBook) (metadata : Option Metadata)
    (approval : Option Approval.Status) (path : String) :
    (b.evaluate metadata approval path).1.allowed = true ↔
      (b.evaluate metadata approval path).1.reasons = [] := by
  cases metadata with
  | none => exact ⟨fun _ => rfl, fun _ => rfl⟩
  | some m => exact Decision.allowed_ofFindings

/-- A fixed check that fails blocks, whatever the rules find. -/
theorem blocksWith_evaluate (h : message ∈ fixedReasons m approval) :
    (b.evaluate (some m) approval path).1.BlocksWith message :=
  Decision.blocksWith_ofFindings (List.mem_append_left _ h)

theorem readOnly_mem_fixedReasons (h : m.isReadOnly = true) :
    Message.readOnly ∈ fixedReasons m approval := by
  simp [fixedReasons, h]

theorem highRisk_mem_fixedReasons (h : m.isHighRisk = true)
    (hdev : Approval.isApproved approval .dev = false) :
    Message.highRisk ∈ fixedReasons m approval := by
  simp [fixedReasons, h, hdev]

theorem reviewRequired_mem_fixedReasons (h : m.reviewRequired = true)
    (hreview : Approval.isApproved approval .codeReview = false) :
    Message.reviewRequired ∈ fixedReasons m approval := by
  simp [fixedReasons, h, hreview]

end RuleBook

/-! ## Files and methods -/

namespace Gate

variable {g : Gate} {w : World} {path method : String}

theorem allowed_check :
    ((g.check path).run w).1.allowed = true ↔ ((g.check path).run w).1.reasons = [] :=
  RuleBook.allowed_evaluate g.book _ _ _

/-- What is said of a method is added to what is said of its file. -/
theorem checkMethod_eq (g : Gate) (w : World) (path method : String) :
    ((g.checkMethod path method).run w).1 =
      ((g.check path).run w).1.merge
        (g.book.evaluateMethod ((g.metadata? path).run w).1 method) := rfl

/-- Whatever rules there are, a file that fails a fixed check is blocked with its message. The
reasons against modifying a method are those against its file and then its own, and it may be
modified exactly if there are none of either kind; so no method is open in a file that is not. -/
theorem fixed_checks_block :
    (∀ (b : RuleBook) (m : Metadata) (approval : Option Approval.Status) (path : String),
      let d := (b.evaluate (some m) approval path).1
      (m.isReadOnly = true → d.BlocksWith Message.readOnly) ∧
      (m.isHighRisk = true → Approval.isApproved approval .dev = false →
        d.BlocksWith Message.highRisk) ∧
      (m.reviewRequired = true → Approval.isApproved approval .codeReview = false →
        d.BlocksWith Message.reviewRequired)) ∧
    ∀ (g : Gate) (w : World) (path method : String),
      let file := ((g.check path).run w).1
      let own := g.book.evaluateMethod ((g.metadata? path).run w).1 method
      let d := ((g.checkMethod path method).run w).1
      d.reasons = file.reasons ++ own.reasons ∧
      (d.allowed = true ↔ file.reasons = [] ∧ own.reasons = []) ∧
      (file.allowed = false → d.allowed = false) := by
  refine ⟨fun b m approval path => ⟨fun h => ?_, fun h hdev => ?_, fun h hreview => ?_⟩,
    fun g w path method => ?_⟩
  · exact RuleBook.blocksWith_evaluate (RuleBook.readOnly_mem_fixedReasons h)
  · exact RuleBook.blocksWith_evaluate (RuleBook.highRisk_mem_fixedReasons h hdev)
  · exact RuleBook.blocksWith_evaluate (RuleBook.reviewRequired_mem_fixedReasons h hreview)
  · intro file own d
    have hd : d = file.merge own := checkMethod_eq g w path method
    rw [hd]
    refine ⟨Decision.reasons_merge file own, Decision.allowed_merge file own, fun hfile => ?_⟩
    -- a file that is not allowed has a reason against it, which the method inherits
    refine Bool.eq_false_iff.mpr fun hallowed => ?_
    have hfile' : file.allowed = true :=
      allowed_check.mpr ((Decision.allowed_merge file own).mp hallowed).1
    exact nomatch hfile.symm.trans hfile'

/-! ### A file that is blocked -/

def sampleText : String := "/*\n * @ai-metadata\n * @breaking-changes-risk: high\n */\n"

def sampleGate : Gate where
  project := ⟨"/p".toList⟩
  ledgerPath := "/p/l".toList
  book := .builtin
  sink := .discard

/-- A project with one file, which asks for an approval. -/
def sampleWorld : World where
  disk := ⟨[(["p"], .directory), (["p", "a"], .file sampleText.toUTF8)]⟩
  workingDir := ["p"]

/-- A book without rules blocks a file that fails all fixed checks, and without an approval no
method of the sample file may be modified. -/
theorem blocked_sample :
    (let m : Metadata :=
        { editPermissions := some .readOnly, breakingChangesRisk := some .high,
          reviewRequired := true }
      let d := ((RuleBook.ofRules []).evaluate (some m) none "a").1
      d.BlocksWith Message.readOnly ∧ d.BlocksWith Message.highRisk ∧
        d.BlocksWith Message.reviewRequired) ∧
    ((sampleGate.check "a").run sampleWorld).1.allowed = false ∧
      ((sampleGate.checkMethod "a" "total").run sampleWorld).1.allowed = false := by
  have hchecks := fixed_checks_block.1 (RuleBook.ofRules [])
    { editPermissions := some .readOnly, breakingChangesRisk := some .high,
      reviewRequired := true } none "a"
  have hmethod := fixed_checks_block.2 sampleGate sampleWorld "a" "total"
  have hfile : ((sampleGate.check "a").run sampleWorld).1.allowed = false := by decide +kernel
  refine ⟨⟨?_, ?_, ?_⟩, hfile, hmethod.2.2 hfile⟩
  · exact hchecks.1 (by decide)
  · exact hchecks.2.1 (by decide) (by decide)
  · exact hchecks.2.2 (by decide) (by decide)

end Gate

end EditGate
