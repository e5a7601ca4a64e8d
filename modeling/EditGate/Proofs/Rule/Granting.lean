import EditGate.Proofs.Condition.Polarity
import EditGate.Proofs.Rule.Evaluation

/-!
# Granting approvals never blocks

The fixed checks and the built-in rules ask for approvals and never against them. In a book whose
enabled rules all do so, approving more slots adds no message to a decision, and a modification that
is allowed stays so (`granting_never_blocks`). That the conditions have kinds matters: a condition
that cannot be evaluated counts as met, so an approval that makes it one that can be might block.
-/

namespace EditGate.RuleBook

open Condition (Context Expr Holds Kinded Positive)

/-- The condition of a rule is a positive one. -/
def IsPositive (p : ParsedRule) : Prop := ∃ e, p.expr = .ok e ∧ Positive e

variable {b : RuleBook} {m : Metadata} {A B : Option Approval.Status} {path message : String}

/-! ## What is still said -/

theorem gives_false_iff {ctx : Context} {p : ParsedRule} {e : Expr} (he : p.expr = .ok e)
    (h : Kinded .bool e) : Gives ctx false p ↔ ¬Holds ctx e := by
  rw [← Condition.eval_false_iff h]
  constructor
  · rintro ⟨e', he', hfalse⟩
    cases he.symm.trans he'
    exact hfalse
  · exact fun hfalse => ⟨e, he, hfalse⟩

theorem mem_fixedReasons {approval : Option Approval.Status} :
    message ∈ fixedReasons m approval ↔
      (m.isReadOnly = true ∧ message = Message.readOnly) ∨
      ((m.isHighRisk = true ∧ Approval.isApproved approval .dev = false) ∧
        message = Message.highRisk) ∨
      ((m.reviewRequired = true ∧ Approval.isApproved approval .codeReview = false) ∧
        message = Message.reviewRequired) := by
  simp only [fixedReasons, List.mem_append, List.mem_ite_nil_right, List.mem_singleton,
    Bool.and_eq_true, Bool.not_eq_true', or_assoc]

section Granted

variable
  (hgranted : ∀ slot, Approval.isApproved A slot = true → Approval.isApproved B slot = true)
include hgranted

theorem fixedReasons_anti (h : message ∈ fixedReasons m B) : message ∈ fixedReasons m A := by
  -- a check that misses an approval after the grant missed it before
  have hmissing : ∀ slot, Approval.isApproved B slot = false →
      Approval.isApproved A slot = false := fun slot hB =>
    Bool.eq_false_iff.mpr fun hA => Bool.noConfusion ((hgranted slot hA).symm.trans hB)
  rw [mem_fixedReasons] at h ⊢
  exact h.imp_right (Or.imp (And.imp_left (And.imp_right (hmissing .dev)))
    (And.imp_left (And.imp_right (hmissing .codeReview))))

theorem gives_false_anti {p : ParsedRule} (h : IsPositive p)
    (hB : Gives ⟨m, B, path⟩ false p) : Gives ⟨m, A, path⟩ false p := by
  obtain ⟨e, he, hpositive⟩ := h
  rw [gives_false_iff he hpositive.kinded] at hB ⊢
  exact mt (hpositive.holds_mono hgranted) hB

variable (h : ∀ p ∈ b.entries, p.rule.enabled = true → IsPositive p) {metadata : Option Metadata}
include h

theorem failing_anti {r : Rule} (hr : r ∈ failing ⟨m, B, path⟩ (b.visited.map Prod.fst)) :
    r ∈ failing ⟨m, A, path⟩ (b.visited.map Prod.fst) := by
  rw [mem_failing_visited] at hr ⊢
  obtain ⟨p, hp, henabled, hgives, rfl⟩ := hr
  exact ⟨p, hp, henabled, gives_false_anti hgranted (h p hp henabled) hgives, rfl⟩

theorem reasons_anti (hB : message ∈ (b.evaluate metadata B path).1.reasons) :
    message ∈ (b.evaluate metadata A path).1.reasons := by
  cases metadata with
  | none => exact hB
  | some m =>
    rw [mem_reasons_evaluate] at hB ⊢
    refine hB.imp (fixedReasons_anti hgranted) ?_
    rintro ⟨r, hr, hrest⟩
    exact ⟨r, failing_anti hgranted h hr, hrest⟩

theorem warnings_anti (hB : message ∈ (b.evaluate metadata B path).1.warnings) :
    message ∈ (b.evaluate metadata A path).1.warnings := by
  cases metadata with
  | none => exact hB
  | some m =>
    -- the fixed check that warns does not ask for approvals
    rw [mem_warnings_evaluate] at hB ⊢
    refine hB.imp_right ?_
    rintro ⟨r, hr, hrest⟩
    exact ⟨r, failing_anti hgranted h hr, hrest⟩

theorem allowed_mono (hA : (b.evaluate metadata A path).1.allowed = true) :
    (b.evaluate metadata B path).1.allowed = true := by
  rw [allowed_evaluate, List.eq_nil_iff_forall_not_mem] at hA ⊢
  exact fun message hB => hA message (reasons_anti hgranted h hB)

end Granted

/-! ## The built-in rules -/

open Approval (Slot)

theorem kinded_hasApproval_dev :
    Kinded .bool (.call "hasApproval" [.literal (.text "dev")]) :=
  .hasApproval (show "dev" ∈ Slot.dev.spellings by decide)

theorem positive_of_kinded {e : Expr} (h : Kinded .bool e)
    (hlooks : ∀ l ∈ Condition.looks e, l = { grant := true }) : Positive e where
  kinded := h
  grant l hl := by rw [hlooks l hl]
  apart l hl := by rw [hlooks l hl]
  even l hl := by rw [hlooks l hl]; exact Even.zero

/-- Every built-in rule has a positive condition. -/
theorem isPositive_builtin (p : ParsedRule) (h : p ∈ builtin.entries) : IsPositive p := by
  simp only [builtin, ofRules, builtinRules, List.map_cons, List.map_nil, List.mem_cons,
    List.not_mem_nil, or_false] at h
  rcases h with rfl | rfl | rfl | rfl | rfl
  · exact ⟨.not (.call "isReadOnly" []), rfl, positive_of_kinded (.not .isReadOnly) (by decide)⟩
  · refine ⟨.or (.not (.call "isHighRisk" [])) (.call "hasApproval" [.literal (.text "dev")]), rfl,
      positive_of_kinded ?_ (by decide)⟩
    exact .or (.not .isHighRisk) kinded_hasApproval_dev
  · refine ⟨.or (.not (.path ["metadata", "reviewRequired"]))
      (.call "hasApproval" [.literal (.text "codeReview")]), rfl, positive_of_kinded ?_ (by decide)⟩
    have hslot : "codeReview" ∈ Slot.codeReview.spellings := by decide
    exact .or (.not (.path .reviewRequired)) (.hasApproval hslot)
  · refine ⟨.or (.ne (.path ["metadata", "stability"]) (.literal (.text "stable")))
      (.call "hasApproval" [.literal (.text "dev")]), rfl, positive_of_kinded ?_ (by decide)⟩
    exact .or (.ne (.path .stability) (.literal _)) kinded_hasApproval_dev
  · exact ⟨.not (.call "isDeprecated" []), rfl, positive_of_kinded (.not .isDeprecated) (by decide)⟩

/-! ## Decisions -/

/-- In a book whose enabled rules have positive conditions, as the built-in ones have, a decision
says nothing more where more slots are approved, and a modification that was allowed is allowed. -/
theorem granting_never_blocks :
    (∀ p ∈ builtin.entries, IsPositive p) ∧
    ∀ b : RuleBook, (∀ p ∈ b.entries, p.rule.enabled = true → IsPositive p) →
      ∀ (metadata : Option Metadata) (A B : Option Approval.Status) (path : String),
        (∀ slot, Approval.isApproved A slot = true → Approval.isApproved B slot = true) →
        let before := (b.evaluate metadata A path).1
        let after := (b.evaluate metadata B path).1
        (∀ message ∈ after.reasons, message ∈ before.reasons) ∧
        (∀ message ∈ after.warnings, message ∈ before.warnings) ∧
        (before.allowed = true → after.allowed = true) := by
  refine ⟨isPositive_builtin, fun b h metadata A B path hgranted => ?_⟩
  exact ⟨fun _ => reasons_anti hgranted h, fun _ => warnings_anti hgranted h,
    allowed_mono hgranted h⟩

/-! ### A book with a double negation, and with a rule against approvals that is switched off -/

def doubleRule : Rule where
  id := "double"
  name := ""
  condition := "!(!approval.qa.approved && isHighRisk())"
  action := "double"
  priority := 9

def againstRule : Rule where
  id := "against"
  name := ""
  condition := "!hasApproval('dev')"
  action := "against"
  priority := 12
  enabled := false

def grantingBook : RuleBook := ofRules (builtinRules ++ [doubleRule, againstRule])

theorem isPositive_doubleRule : IsPositive (.of doubleRule) := by
  refine ⟨.not (.and (.not (.path ["approval", "qa", "approved"])) (.call "isHighRisk" [])), rfl,
    ?_, by decide, by decide, by decide⟩
  exact .not (.and (.not (.path (.approved (show "qa" ∈ Slot.qa.spellings by decide)))) .isHighRisk)

/-- An approval of stable code takes a warning away, and nothing is added. -/
theorem granted_sample :
    let m : Metadata := { stability := some .stable }
    let before := (grantingBook.evaluate (some m) none "a").1
    let after := (grantingBook.evaluate (some m) (some { dev := { approved := true } }) "a").1
    before.warnings = [Message.stableNeedsDev] ∧ after.warnings = [] ∧
      (∀ message ∈ after.reasons, message ∈ before.reasons) ∧
      (∀ message ∈ after.warnings, message ∈ before.warnings) ∧ after.allowed = true := by
  intro m before after
  have hpositive : ∀ p ∈ grantingBook.entries, p.rule.enabled = true → IsPositive p := by
    intro p hp henabled
    rw [grantingBook, ofRules, List.map_append, List.mem_append] at hp
    rcases hp with hp | hp
    · exact isPositive_builtin p hp
    · simp only [List.map_cons, List.map_nil, List.mem_cons, List.not_mem_nil, or_false] at hp
      rcases hp with rfl | rfl
      · exact isPositive_doubleRule
      · exact absurd henabled (by decide)
  have hgranted : ∀ slot, Approval.isApproved none slot = true →
      Approval.isApproved (some { dev := { approved := true } }) slot = true := by
    intro slot h
    cases h
  obtain ⟨hreasons, hwarnings, hallowed⟩ :=
    granting_never_blocks.2 grantingBook hpositive (some m) none _ "a" hgranted
  exact ⟨by decide +kernel, by decide +kernel, hreasons, hwarnings, hallowed (by decide +kernel)⟩

end EditGate.RuleBook
