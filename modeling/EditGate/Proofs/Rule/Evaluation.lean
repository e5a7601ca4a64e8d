import EditGate.Proofs.Except
import EditGate.Proofs.Gate.Fixed
import EditGate.Proofs.Rule.Order

/-!
# What evaluation decides

A decision is made of the messages of the fixed checks that fire and of the actions of the enabled
rules whose condition is false, these in the order in which rules are visited; which of the two
lists an action goes to depends on the priority alone (`evaluate_decides`). Collapsing identical
messages leaves each where it is first said (`Collapses`) and does not change what is allowed.

A condition can be false, true or broken, and only a false one is heard: a book without its broken
and disabled rules comes to the same decision, and each broken one leaves one notice
(`broken_as_absent`).
-/

namespace EditGate

/-! ## Collapsed messages -/

/-- A list of messages is another one with repetitions left out: each message is in it once, where
it was said first. -/
structure Collapses (said short : List String) : Prop where
  nodup : short.Nodup
  mem_iff : ∀ message, message ∈ short ↔ message ∈ said
  ordered : short.Pairwise (said.idxOf · < said.idxOf ·)

theorem collapses_firstOccurrences (said : List String) :
    Collapses said (firstOccurrences said) where
  nodup := nodup_firstOccurrences said
  mem_iff := fun _ => mem_firstOccurrences
  ordered := by
    induction said with
    | nil => exact List.Pairwise.nil
    | cons m ms ih =>
      refine List.pairwise_cons.mpr ⟨fun x hx => ?_, ?_⟩
      · have hne : x ≠ m := of_decide_eq_true (List.mem_filter.mp hx).2
        rw [List.idxOf_cons_self, List.idxOf_cons_ne ms hne.symm]
        exact Nat.succ_pos _
      · refine List.pairwise_filter.mpr (ih.imp fun {x y} hxy hx hy => ?_)
        rw [List.idxOf_cons_ne ms (of_decide_eq_true hx).symm,
          List.idxOf_cons_ne ms (of_decide_eq_true hy).symm]
        exact Nat.succ_lt_succ hxy

namespace Decision

variable {dedupe : Bool} {reasons warnings : List String} {message : String}

theorem mem_warnings_ofFindings :
    message ∈ (ofFindings dedupe reasons warnings).warnings ↔ message ∈ warnings := by
  cases dedupe with
  | true => exact mem_firstOccurrences
  | false => exact Iff.rfl

end Decision

namespace RuleBook

variable {ctx : Condition.Context} {p : ParsedRule} {ps : List ParsedRule}

/-! ## Fixed checks -/

/-- The fixed checks that block, in order: whether each fires, and its message. -/
def checks (m : Metadata) (approval : Option Approval.Status) : List (Bool × String) :=
  [(m.isReadOnly, Message.readOnly),
    (m.isHighRisk && !Approval.isApproved approval .dev, Message.highRisk),
    (m.reviewRequired && !Approval.isApproved approval .codeReview, Message.reviewRequired)]

theorem fixedReasons_eq (m : Metadata) (approval : Option Approval.Status) :
    fixedReasons m approval = ((checks m approval).filter (·.1)).map (·.2) := by
  rw [fixedReasons, checks]
  cases m.isReadOnly <;> cases m.isHighRisk && !Approval.isApproved approval .dev <;>
    cases m.reviewRequired && !Approval.isApproved approval .codeReview <;> rfl

/-! ## What a condition comes to -/

/-- The condition of a rule is one, and evaluates to that boolean. -/
def Gives (ctx : Condition.Context) (b : Bool) (p : ParsedRule) : Prop :=
  ∃ e, p.expr = .ok e ∧ Condition.eval ctx e = .ok (.bool b)

/-- The condition of a rule evaluates to a boolean. -/
def Works (ctx : Condition.Context) (p : ParsedRule) : Prop := ∃ b, Gives ctx b p

/-- Why the condition of a rule does not evaluate to a boolean. -/
inductive Broken (ctx : Condition.Context) (p : ParsedRule) : Condition.Error → Prop where
  /-- It is none. -/
  | unparsed {fault : Condition.Error} : p.expr = .error fault → Broken ctx p fault
  /-- It has no value. -/
  | unevaluated {e : Condition.Expr} {fault : Condition.Error} : p.expr = .ok e →
      Condition.eval ctx e = .error fault → Broken ctx p fault
  /-- Its value is no boolean. -/
  | misfit {e : Condition.Expr} {v : Condition.Value} : p.expr = .ok e →
      Condition.eval ctx e = .ok v → (∀ b, v ≠ .bool b) → Broken ctx p (.kind (.result v))

theorem holds_of_gives {b : Bool} (h : Gives ctx b p) : ParsedRule.holds ctx p = .ok b := by
  obtain ⟨e, he, hv⟩ := h
  rw [ParsedRule.holds, he, ok_bind, Condition.evalBool, hv]
  rfl

theorem holds_of_broken {fault : Condition.Error} (h : Broken ctx p fault) :
    ParsedRule.holds ctx p = .error fault := by
  rw [ParsedRule.holds]
  cases h with
  | unparsed he => rw [he]; rfl
  | unevaluated he hv => rw [he, ok_bind, Condition.evalBool, hv]; rfl
  | @misfit e v he hv hb =>
    rw [he, ok_bind, Condition.evalBool, hv, ok_bind]
    cases v with
    | bool b => exact absurd rfl (hb b)
    | text s => rfl
    | null => rfl

/-- A condition evaluates to a boolean, or there is a reason why it does not. -/
theorem gives_or_broken (ctx : Condition.Context) (p : ParsedRule) :
    (∃ b, Gives ctx b p) ∨ ∃ fault, Broken ctx p fault := by
  cases he : p.expr with
  | error fault => exact .inr ⟨fault, .unparsed he⟩
  | ok e =>
    cases hv : Condition.eval ctx e with
    | error fault => exact .inr ⟨fault, .unevaluated he hv⟩
    | ok v =>
      cases v with
      | bool b => exact .inl ⟨b, e, he, hv⟩
      | text s => exact .inr ⟨_, .misfit he hv fun b => Condition.Value.noConfusion⟩
      | null => exact .inr ⟨_, .misfit he hv fun b => Condition.Value.noConfusion⟩

theorem gives_iff {b : Bool} : Gives ctx b p ↔ ParsedRule.holds ctx p = .ok b := by
  refine ⟨holds_of_gives, fun h => ?_⟩
  rcases gives_or_broken ctx p with ⟨b', hb'⟩ | ⟨fault, hfault⟩
  · cases h.symm.trans (holds_of_gives hb')
    exact hb'
  · cases h.symm.trans (holds_of_broken hfault)

theorem works_iff : Works ctx p ↔ ¬∃ fault, Broken ctx p fault := by
  constructor
  · rintro ⟨b, hb⟩ ⟨fault, hfault⟩
    cases (holds_of_gives hb).symm.trans (holds_of_broken hfault)
  · exact (gives_or_broken ctx p).resolve_right

theorem toOption_holds {b : Bool} :
    (ParsedRule.holds ctx p).toOption = some b ↔ Gives ctx b p := by
  rw [gives_iff]
  cases ParsedRule.holds ctx p <;> simp [Except.toOption]

instance {b : Bool} : Decidable (Gives ctx b p) := decidable_of_iff _ toOption_holds

instance : Decidable (Works ctx p) := inferInstanceAs (Decidable (∃ b, Gives ctx b p))

instance : Decidable (∃ fault, Broken ctx p fault) :=
  decidable_of_iff (¬Works ctx p) (not_congr works_iff |>.trans not_not)

/-! ## Visiting rules -/

/-- The rules whose condition is false. -/
def failing (ctx : Condition.Context) (ps : List ParsedRule) : List Rule :=
  (ps.filter (Gives ctx false ·)).map (·.rule)

theorem failing_cons (p : ParsedRule) (ps : List ParsedRule) :
    failing ctx (p :: ps) =
      if Gives ctx false p then p.rule :: failing ctx ps else failing ctx ps := by
  rw [failing, List.filter_cons]
  by_cases h : Gives ctx false p
  · rw [if_pos (decide_eq_true h), if_pos h, List.map_cons, failing]
  · rw [if_neg (mt of_decide_eq_true h), if_neg h, failing]

theorem mem_failing {r : Rule} :
    r ∈ failing ctx ps ↔ ∃ p ∈ ps, Gives ctx false p ∧ p.rule = r := by
  simp only [failing, List.mem_map, List.mem_filter, decide_eq_true_eq, and_assoc]

theorem visitRule_of_true (h : Gives ctx true p) : visitRule ctx p = {} := by
  rw [visitRule, holds_of_gives h]

theorem visitRule_of_false (h : Gives ctx false p) :
    visitRule ctx p =
      if 8 < p.rule.priority then { reasons := [p.rule.action] }
      else { warnings := [p.rule.action] } := by
  rw [visitRule, holds_of_gives h, Rule.isBlocking, Rule.warningLimit]
  simp only [gt_iff_lt, decide_eq_true_eq]

theorem visitRule_of_broken {fault : Condition.Error} (h : Broken ctx p fault) :
    visitRule ctx p = { notices := [conditionNotice ctx p.rule fault] } := by
  rw [visitRule, holds_of_broken h]

/-- A condition that evaluates leaves no notice, whatever it comes to. -/
theorem notices_visitRule_of_works (h : Works ctx p) : (visitRule ctx p).notices = [] := by
  obtain ⟨b, hb⟩ := h
  cases b with
  | true => rw [visitRule_of_true hb]
  | false => rw [visitRule_of_false hb]; split <;> rfl

/-- What is found is the actions of the rules whose condition is false, by their priority. -/
theorem messages_visitRules (ctx : Condition.Context) (ps : List ParsedRule) :
    (visitRules ctx ps).reasons =
        ((failing ctx ps).filter (8 < ·.priority)).map (·.action) ∧
      (visitRules ctx ps).warnings =
        ((failing ctx ps).filter (·.priority ≤ 8)).map (·.action) := by
  induction ps with
  | nil => exact ⟨rfl, rfl⟩
  | cons p ps ih =>
    rw [visitRules, failing_cons]
    -- only a false condition is heard: by its priority in one list or in the other
    rcases gives_or_broken ctx p with ⟨b, hb⟩ | ⟨fault, hfault⟩
    · cases b with
      | true =>
        have hfalse : ¬Gives ctx false p := fun h => by
          cases (holds_of_gives h).symm.trans (holds_of_gives hb)
        rw [visitRule_of_true hb, if_neg hfalse]
        exact ih
      | false =>
        rw [visitRule_of_false hb, if_pos hb, List.filter_cons, List.filter_cons]
        by_cases hpriority : 8 < p.rule.priority
        · simp [Findings.append, hpriority, Int.not_le.mpr hpriority, ih]
        · simp [Findings.append, hpriority, Int.not_lt.mp hpriority, ih]
    · have hfalse : ¬Gives ctx false p := fun h => works_iff.mp ⟨false, h⟩ ⟨fault, hfault⟩
      rw [visitRule_of_broken hfault, if_neg hfalse]
      exact ih

/-- Rules without those that are broken find the same messages. -/
theorem failing_filter_works (ctx : Condition.Context) (ps : List ParsedRule) :
    failing ctx (ps.filter (Works ctx ·)) = failing ctx ps := by
  rw [failing, failing, List.filter_filter]
  congr 1
  refine List.filter_congr fun p _ => ?_
  rw [← Bool.decide_and, decide_eq_decide]
  exact and_iff_left_of_imp fun h => ⟨false, h⟩

/-- Each broken rule leaves one notice, which names the rule and says why. -/
theorem notices_visitRules (ctx : Condition.Context) (ps : List ParsedRule) :
    List.Forall₂ (fun n p => ∃ fault, Broken ctx p fault ∧ n = conditionNotice ctx p.rule fault)
      (visitRules ctx ps).notices (ps.filter fun p => ∃ fault, Broken ctx p fault) := by
  induction ps with
  | nil => exact .nil
  | cons p ps ih =>
    rw [visitRules, List.filter_cons]
    by_cases hbroken : ∃ fault, Broken ctx p fault
    · obtain ⟨fault, hfault⟩ := hbroken
      rw [visitRule_of_broken hfault, if_pos (decide_eq_true ⟨fault, hfault⟩)]
      exact .cons ⟨fault, hfault, rfl⟩ ih
    · have hquiet := notices_visitRule_of_works (works_iff.mpr hbroken)
      rw [if_neg (mt of_decide_eq_true hbroken), Findings.append, hquiet]
      exact ih

/-! ## Decisions -/

variable {b : RuleBook} {m : Metadata} {approval : Option Approval.Status} {path message : String}

/-- The findings of a decision, with the rules in the order in which they are visited. -/
theorem evaluate_some (b : RuleBook) (m : Metadata) (approval : Option Approval.Status)
    (path : String) :
    (b.evaluate (some m) approval path).1 =
      let failed := failing ⟨m, approval, path⟩ (b.visited.map Prod.fst)
      .ofFindings b.dedupe
        (fixedReasons m approval ++ (failed.filter (8 < ·.priority)).map (·.action))
        (fixedWarnings m ++ (failed.filter (·.priority ≤ 8)).map (·.action)) := by
  obtain ⟨hreasons, hwarnings⟩ :=
    messages_visitRules ⟨m, approval, path⟩ (b.byPriority.filter (·.rule.enabled))
  rw [evaluate, hreasons, hwarnings, map_fst_visited]

theorem mem_failing_visited {ctx : Condition.Context} {r : Rule} :
    r ∈ failing ctx (b.visited.map Prod.fst) ↔
      ∃ p ∈ b.entries, p.rule.enabled = true ∧ Gives ctx false p ∧ p.rule = r := by
  rw [mem_failing, map_fst_visited]
  have hmem : ∀ p, p ∈ b.byPriority ↔ p ∈ b.entries := fun p => by
    rw [byPriority_eq, List.mem_insertionSort]
  simp only [List.mem_filter, hmem, and_assoc]

theorem mem_reasons_evaluate :
    message ∈ (b.evaluate (some m) approval path).1.reasons ↔
      message ∈ fixedReasons m approval ∨
        ∃ r ∈ failing ⟨m, approval, path⟩ (b.visited.map Prod.fst),
          8 < r.priority ∧ r.action = message := by
  rw [evaluate_some, Decision.mem_reasons_ofFindings]
  simp only [List.mem_append, List.mem_map, List.mem_filter, decide_eq_true_eq, and_assoc]

theorem mem_warnings_evaluate :
    message ∈ (b.evaluate (some m) approval path).1.warnings ↔
      message ∈ fixedWarnings m ∨
        ∃ r ∈ failing ⟨m, approval, path⟩ (b.visited.map Prod.fst),
          r.priority ≤ 8 ∧ r.action = message := by
  rw [evaluate_some, Decision.mem_warnings_ofFindings]
  simp only [List.mem_append, List.mem_map, List.mem_filter, decide_eq_true_eq, and_assoc]

/-- A file with metadata may be modified exactly if no fixed check fires and no rule of a priority
that blocks is false. -/
theorem allowed_evaluate_some :
    (b.evaluate (some m) approval path).1.allowed = true ↔
      fixedReasons m approval = [] ∧
        ∀ r ∈ failing ⟨m, approval, path⟩ (b.visited.map Prod.fst), r.priority ≤ 8 := by
  rw [evaluate_some, Decision.allowed_ofFindings, Decision.reasons_ofFindings_eq_nil,
    List.append_eq_nil_iff, List.map_eq_nil_iff, List.filter_eq_nil_iff]
  simp only [decide_eq_true_eq, Int.not_lt]

/-- For every book there is exactly one list of its enabled rules by falling priority and by age
among equals. A decision on a file with metadata has as reasons the messages of the fixed checks
that fire and then the actions of the rules of this list that are false and have a priority above
8; as warnings that the file is deprecated, if it is, and then the actions of the other rules that
are false. Where identical messages are collapsed, each is kept where it is said first. The
modification is allowed exactly if no fixed check fires and no rule above 8 is false, whether
messages are collapsed or not. Without metadata it is allowed, with a warning. -/
theorem evaluate_decides (b : RuleBook) :
    ∃ order, InOrder b.enabled order ∧ (∀ order', InOrder b.enabled order' → order' = order) ∧
      (∀ (m : Metadata) (approval : Option Approval.Status) (path : String),
        let fired := (checks m approval).filter (·.1)
        let failed := failing ⟨m, approval, path⟩ (order.map (·.1))
        let reasons := fired.map (·.2) ++ (failed.filter (8 < ·.priority)).map (·.action)
        let warnings := (if m.isDeprecated then [Message.deprecated] else []) ++
          (failed.filter (·.priority ≤ 8)).map (·.action)
        let d := (b.evaluate (some m) approval path).1
        (b.dedupe = false → d.reasons = reasons ∧ d.warnings = warnings) ∧
        (b.dedupe = true → Collapses reasons d.reasons ∧ Collapses warnings d.warnings) ∧
        (d.allowed = true ↔ fired = [] ∧ ∀ r ∈ failed, r.priority ≤ 8) ∧
        ∀ dedupe, ({ b with dedupe }.evaluate (some m) approval path).1.allowed = d.allowed) ∧
      ∀ approval path, (b.evaluate none approval path).1 =
        { allowed := true, reasons := [], warnings := ["No metadata found"] } := by
  refine ⟨b.visited, inOrder_visited b, fun _ h => (inOrder_visited b).unique h, ?_,
    fun _ _ => rfl⟩
  intro m approval path fired failed reasons warnings d
  have hd : d = .ofFindings b.dedupe reasons warnings := by
    have hsome := evaluate_some b m approval path
    rw [fixedReasons_eq, fixedWarnings] at hsome
    exact hsome
  refine ⟨fun h => ?_, fun h => ?_, ?_, fun dedupe => ?_⟩
  · rw [hd, h]
    exact ⟨rfl, rfl⟩
  · rw [hd, h]
    exact ⟨collapses_firstOccurrences reasons, collapses_firstOccurrences warnings⟩
  · rw [allowed_evaluate_some, fixedReasons_eq, List.map_eq_nil_iff]
  · rw [Bool.eq_iff_iff, allowed_evaluate_some, allowed_evaluate_some]
    rfl

/-! ### A book with a tie, a repetition, a broken rule and a disabled one -/

def sampleRules : List Rule :=
  [{ id := "late", name := "", condition := "false", action := "late", priority := 3 },
   { id := "again", name := "", condition := "false", action := Message.readOnly, priority := 9 },
   { id := "tie", name := "", condition := "!isReadOnly()", action := "tie", priority := 9 },
   { id := "met", name := "", condition := "isReadOnly()", action := "met", priority := 10 },
   { id := "broken", name := "", condition := "isReadOnly(", action := "broken", priority := 12 },
   { id := "misfit", name := "", condition := "filePath", action := "misfit", priority := 1 },
   { id := "off", name := "", condition := "(", action := "off", priority := 20, enabled := false }]

def sampleBook : RuleBook := ofRules sampleRules

/-- The sample with identical messages kept. -/
def repeatingBook : RuleBook := { sampleBook with dedupe := false }

def sampleMetadata : Metadata :=
  { editPermissions := some .readOnly, stability := some .deprecated }

/-- The rules of the sample that are false are visited by priority and age. The repeated message
is given twice, or once where messages are collapsed. -/
theorem decided_sample :
    ∃ order, InOrder sampleBook.enabled order ∧
      order.map (·.1.rule.id) = ["broken", "met", "again", "tie", "late", "misfit"] ∧
      (repeatingBook.evaluate (some sampleMetadata) none "a").1.reasons =
        [Message.readOnly, Message.readOnly, "tie"] ∧
      (repeatingBook.evaluate (some sampleMetadata) none "a").1.warnings =
        [Message.deprecated, "late"] ∧
      (repeatingBook.evaluate (some sampleMetadata) none "a").1.allowed = false ∧
      Collapses [Message.readOnly, Message.readOnly, "tie"]
        (sampleBook.evaluate (some sampleMetadata) none "a").1.reasons := by
  obtain ⟨order, horder, hunique, hsome, -⟩ := evaluate_decides repeatingBook
  obtain ⟨order', horder', -, hsome', -⟩ := evaluate_decides sampleBook
  obtain rfl : sampleBook.visited = order := hunique _ (inOrder_visited _)
  obtain rfl : order' = sampleBook.visited := hunique _ horder'
  obtain ⟨hrepeating, -, hallowed, -⟩ := hsome sampleMetadata none "a"
  obtain ⟨hreasons, hwarnings⟩ := hrepeating rfl
  have hcollapsed := ((hsome' sampleMetadata none "a").2.1 rfl).1
  refine ⟨_, horder, by decide +kernel, hreasons.trans ?_, hwarnings.trans ?_, ?_, ?_⟩
  · decide +kernel
  · decide +kernel
  · exact Bool.eq_false_iff.mpr fun h => absurd (hallowed.mp h).1 (by decide +kernel)
  · convert hcollapsed using 1
    decide +kernel

/-! ## Rules that are left out -/

theorem failing_kept (b : RuleBook) (ctx : Condition.Context) :
    failing ctx (({ b with
        entries := b.entries.filter fun p => p.rule.enabled ∧ Works ctx p } : RuleBook).visited.map
          Prod.fst) =
      failing ctx (b.visited.map Prod.fst) := by
  rw [map_fst_visited, map_fst_visited, byPriority_filter, List.filter_filter,
    ← failing_filter_works ctx (b.byPriority.filter fun p => p.rule.enabled), List.filter_filter]
  congr 1
  refine List.filter_congr fun p _ => ?_
  cases p.rule.enabled <;> simp

/-- A broken rule is as good as none, and so is a disabled one: the decision is that of the book
with only those enabled rules whose condition evaluates to a boolean, in the same order of
insertion. The notices are one for each enabled rule that is broken, in the order in which rules
are visited; each names its rule and the reason. Without metadata no rule is visited. -/
theorem broken_as_absent (b : RuleBook) (approval : Option Approval.Status) (path : String) :
    (∀ m : Metadata,
      let ctx : Condition.Context := ⟨m, approval, path⟩
      let kept : RuleBook :=
        { b with entries := b.entries.filter fun p => p.rule.enabled ∧ Works ctx p }
      (b.evaluate (some m) approval path).1 = (kept.evaluate (some m) approval path).1 ∧
      ∃ order, InOrder b.enabled order ∧
        List.Forall₂
          (fun (n : Notice) (p : Placed) => n.code = "rule.condition.invalid" ∧
            n.subject = some p.1.rule.id ∧
            ∃ fault, Broken ctx p.1 fault ∧ n = conditionNotice ctx p.1.rule fault)
          (b.evaluate (some m) approval path).2
          (order.filter fun p => ∃ fault, Broken ctx p.1 fault)) ∧
    b.evaluate none approval path = (.noMetadata, []) := by
  refine ⟨?_, rfl⟩
  intro m ctx kept
  refine ⟨?_, b.visited, inOrder_visited b, ?_⟩
  · rw [evaluate_some, evaluate_some, failing_kept]
  · have hnotices := notices_visitRules ctx (b.visited.map Prod.fst)
    rw [List.filter_map, List.forall₂_map_right_iff, map_fst_visited] at hnotices
    refine hnotices.imp fun n p h => ?_
    obtain ⟨fault, hbroken, hn⟩ := h
    exact ⟨congrArg Notice.code hn, congrArg Notice.subject hn, fault, hbroken, hn⟩

/-- Of the sample four rules count, and two are reported, by priority. -/
theorem absent_sample :
    let ctx : Condition.Context := ⟨sampleMetadata, none, "a"⟩
    let kept : RuleBook :=
      { sampleBook with entries := sampleBook.entries.filter fun p => p.rule.enabled ∧ Works ctx p }
    kept.entries.map (·.rule.id) = ["late", "again", "tie", "met"] ∧
    (sampleBook.evaluate (some sampleMetadata) none "a").1 =
      (kept.evaluate (some sampleMetadata) none "a").1 ∧
    (sampleBook.evaluate (some sampleMetadata) none "a").2.map (·.subject) =
      [some "broken", some "misfit"] := by
  intro ctx kept
  obtain ⟨hdecision, order, horder, hnotices⟩ :=
    (broken_as_absent sampleBook none "a").1 sampleMetadata
  obtain rfl : sampleBook.visited = order := horder.unique (inOrder_visited _)
  refine ⟨by decide +kernel, hdecision, ?_⟩
  have hsubjects : (sampleBook.evaluate (some sampleMetadata) none "a").2.map (·.subject) =
      (sampleBook.visited.filter fun p : Placed => ∃ fault, Broken ctx p.1 fault).map
        (some ·.1.rule.id) := by
    refine List.forall₂_eq_eq_eq ▸ ?_
    exact List.forall₂_map_left_iff.mpr (List.forall₂_map_right_iff.mpr
      (hnotices.imp fun _ _ h => h.2.1))
  rw [hsubjects]
  decide +kernel

end RuleBook

end EditGate
