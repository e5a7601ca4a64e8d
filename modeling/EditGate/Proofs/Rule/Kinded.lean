import EditGate.Proofs.Condition.Kinds
import EditGate.Proofs.Rule.Evaluation

/-!
# Rules that are never reported as broken

A rule whose condition cannot be evaluated counts as met, so an error in a condition takes its rule
out of action. A condition that is a boolean by its kind has none: it comes to a boolean in every
context, and what a book reports never speaks of its rule (`kinded_never_fails`). Such a rule could
be left out of the book and the same would be reported.
-/

namespace EditGate.RuleBook

open Condition (Context Expr Kind Kinded)

variable {ctx : Context} {p : ParsedRule} {ps : List ParsedRule} {notice : Notice}

/-- The condition of a rule is a boolean by its kind. -/
def IsKinded (p : ParsedRule) : Prop := ∃ e, p.expr = .ok e ∧ Kinded .bool e

theorem IsKinded.works (h : IsKinded p) (ctx : Context) : Works ctx p := by
  obtain ⟨e, he, hkinded⟩ := h
  obtain ⟨x, hx⟩ := Condition.exists_bool_of_kinded hkinded ctx
  exact ⟨x, e, he, hx⟩

/-! ## What is reported -/

theorem mem_notices_visitRule :
    notice ∈ (visitRule ctx p).notices ↔
      ∃ fault, Broken ctx p fault ∧ notice = conditionNotice ctx p.rule fault := by
  rcases gives_or_broken ctx p with ⟨b, hb⟩ | ⟨fault, hfault⟩
  · rw [notices_visitRule_of_works ⟨b, hb⟩]
    refine iff_of_false List.not_mem_nil ?_
    rintro ⟨fault, hfault, -⟩
    exact works_iff.mp ⟨b, hb⟩ ⟨fault, hfault⟩
  · rw [visitRule_of_broken hfault, List.mem_singleton]
    constructor
    · exact fun h => ⟨fault, hfault, h⟩
    · rintro ⟨fault', hfault', h⟩
      cases (holds_of_broken hfault).symm.trans (holds_of_broken hfault')
      exact h

/-- What is reported of some rules is that some of them are broken. -/
theorem mem_notices_visitRules :
    notice ∈ (visitRules ctx ps).notices ↔
      ∃ p ∈ ps, ∃ fault, Broken ctx p fault ∧ notice = conditionNotice ctx p.rule fault := by
  induction ps with
  | nil => exact iff_of_false List.not_mem_nil fun ⟨_, hp, _⟩ => List.not_mem_nil hp
  | cons p ps ih =>
    have happend : (visitRules ctx (p :: ps)).notices =
        (visitRule ctx p).notices ++ (visitRules ctx ps).notices := rfl
    rw [happend, List.mem_append, mem_notices_visitRule, ih, List.exists_mem_cons_iff]

/-- Rules that work could as well be left out. -/
theorem notices_filter {keep : ParsedRule → Bool} (h : ∀ p ∈ ps, keep p = false → Works ctx p) :
    (visitRules ctx (ps.filter keep)).notices = (visitRules ctx ps).notices := by
  induction ps with
  | nil => rfl
  | cons p ps ih =>
    have happend : (visitRules ctx (p :: ps)).notices =
        (visitRule ctx p).notices ++ (visitRules ctx ps).notices := rfl
    have ih := ih fun q hq => h q (.tail p hq)
    rw [List.filter_cons, happend]
    cases hkeep : keep p with
    | true => exact congrArg (_ ++ ·) ih
    | false =>
      rw [notices_visitRule_of_works (h p List.mem_cons_self hkeep)]
      exact ih

variable {b : RuleBook} {metadata : Option Metadata} {approval : Option Approval.Status}
  {path : String}

/-- Only a rule that has no kind is reported. -/
theorem exists_unkinded_of_notice (h : notice ∈ (b.evaluate metadata approval path).2) :
    ∃ p ∈ b.entries, p.rule.enabled = true ∧ ¬IsKinded p ∧ notice.subject = some p.rule.id := by
  cases metadata with
  | none => exact absurd h List.not_mem_nil
  | some m =>
    obtain ⟨p, hp, fault, hbroken, rfl⟩ := mem_notices_visitRules.mp h
    obtain ⟨hp, henabled⟩ := List.mem_filter.mp hp
    rw [byPriority_eq, List.mem_insertionSort] at hp
    refine ⟨p, hp, henabled, fun hkinded => ?_, rfl⟩
    exact works_iff.mp (hkinded.works _) ⟨fault, hbroken⟩

theorem notices_evaluate_filter {keep : ParsedRule → Bool}
    (h : ∀ p ∈ b.entries, keep p = false → IsKinded p) :
    ({ b with entries := b.entries.filter keep }.evaluate metadata approval path).2 =
      (b.evaluate metadata approval path).2 := by
  cases metadata with
  | none => rfl
  | some m =>
    have hworks : ∀ p ∈ b.byPriority.filter (·.rule.enabled), keep p = false →
        Works ⟨m, approval, path⟩ p := by
      intro p hp hkeep
      have hp := (List.mem_filter.mp hp).1
      rw [byPriority_eq, List.mem_insertionSort] at hp
      exact (h p hp hkeep).works _
    rw [evaluate, evaluate, byPriority_filter, List.filter_filter,
      ← notices_filter hworks, List.filter_filter]
    simp only [Bool.and_comm]

/-! ## Soundness of kinds -/

/-- An expression with a kind has a value of this kind in every context: a boolean one evaluates to
a boolean, also as a condition, and another one to a text or null. So what a book reports on a file
is only ever about enabled rules whose condition is no boolean by its kind, and it would be the same
without any of the rules whose condition is. -/
theorem kinded_never_fails :
    (∀ (e : Expr) (ctx : Context),
      (Kinded .bool e → ∃ x, Condition.eval ctx e = .ok (.bool x) ∧
        Condition.evalBool ctx e = .ok x) ∧
      (Kinded .text e → Condition.eval ctx e = .ok .null ∨
        ∃ s, Condition.eval ctx e = .ok (.text s))) ∧
    ∀ (b : RuleBook) (metadata : Option Metadata) (approval : Option Approval.Status)
      (path : String),
      (∀ notice ∈ (b.evaluate metadata approval path).2, ∃ p ∈ b.entries,
        p.rule.enabled = true ∧ ¬IsKinded p ∧ notice.subject = some p.rule.id) ∧
      ∀ keep : ParsedRule → Bool, (∀ p ∈ b.entries, keep p = false → IsKinded p) →
        ({ b with entries := b.entries.filter keep }.evaluate metadata approval path).2 =
          (b.evaluate metadata approval path).2 := by
  refine ⟨fun e ctx => ⟨fun h => ?_, fun h => ?_⟩, fun b metadata approval path => ?_⟩
  · obtain ⟨x, hx⟩ := Condition.exists_bool_of_kinded h ctx
    refine ⟨x, hx, ?_⟩
    rw [Condition.evalBool, hx]
    rfl
  · obtain ⟨v, hv, hkind⟩ := Condition.eval_of_kinded h ctx
    cases v with
    | bool x => cases hkind
    | text s => exact .inr ⟨s, hv⟩
    | null => exact .inl hv
  · exact ⟨fun _ => exists_unkinded_of_notice, fun _ => notices_evaluate_filter⟩

/-! ### A rule that asks for approvals by another spelling, beside one that negates a text -/

def soundRule : Rule where
  id := "sound"
  name := ""
  condition := "approval.qa.approvedBy == null && !hasApproval('code-review')"
  action := "sound"
  priority := 9

def unsoundRule : Rule where
  id := "unsound"
  name := ""
  condition := "!metadata.aiContext"
  action := "unsound"
  priority := 9

def soundTree : Expr :=
  .and (.eq (.path ["approval", "qa", "approvedBy"]) (.literal .null))
    (.not (.call "hasApproval" [.literal (.text "code-review")]))

theorem kinded_approvedBy : Kinded .text (.path ["approval", "qa", "approvedBy"]) :=
  .path (.approvedBy (show "qa" ∈ Approval.Slot.qa.spellings by decide))

theorem kinded_soundTree : Kinded .bool soundTree := by
  have hslot : "code-review" ∈ Approval.Slot.codeReview.spellings := by decide
  exact .and (.eq kinded_approvedBy (.literal .null)) (.not (.hasApproval hslot))

/-- The first rule has a value also for a file that nobody approved, and the second one is all that
is reported. -/
theorem never_fails_sample :
    let ctx : Context := ⟨{}, none, "a"⟩
    let b := ofRules [soundRule, unsoundRule]
    (∃ x, Condition.eval ctx soundTree = .ok (.bool x) ∧
      Condition.evalBool ctx soundTree = .ok x) ∧
    (Condition.eval ctx (.path ["approval", "qa", "approvedBy"]) = .ok .null ∨
      ∃ s, Condition.eval ctx (.path ["approval", "qa", "approvedBy"]) = .ok (.text s)) ∧
    (b.evaluate (some {}) none "a").2.length = 1 ∧
    (∀ notice ∈ (b.evaluate (some {}) none "a").2, ∃ p ∈ b.entries,
      p.rule.enabled = true ∧ ¬IsKinded p ∧ notice.subject = some p.rule.id) ∧
    ((ofRules [unsoundRule]).evaluate (some {}) none "a").2 = (b.evaluate (some {}) none "a").2 := by
  intro ctx b
  obtain ⟨hvalue, hnotices⟩ := kinded_never_fails
  obtain ⟨hreported, hfilter⟩ := hnotices b (some {}) none "a"
  have hkeep : ∀ p ∈ b.entries, decide (p.rule.id = "unsound") = false → IsKinded p := by
    intro p hp hid
    rcases List.mem_pair.mp hp with rfl | rfl
    · exact ⟨soundTree, rfl, kinded_soundTree⟩
    · exact absurd hid (by decide)
  refine ⟨(hvalue soundTree ctx).1 kinded_soundTree, (hvalue _ ctx).2 kinded_approvedBy,
    by decide +kernel, hreported, hfilter (fun p => p.rule.id = "unsound") hkeep⟩

end EditGate.RuleBook
