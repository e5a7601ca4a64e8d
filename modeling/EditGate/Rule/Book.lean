import EditGate.Condition.Eval
import EditGate.Condition.Parse
import EditGate.Decision
import EditGate.Failure
import EditGate.Notice
import EditGate.Rule.Basic
import EditGate.Text.Blank

/-!
# The rule book

The rules of a gate in order of insertion, each with its parsed condition. Evaluation first makes
the fixed checks and then visits the enabled rules, highest priority first and earlier ones first
among equals. A rule whose condition does not hold contributes its message; one whose condition
cannot be evaluated contributes a notice and otherwise counts as met.
-/

namespace EditGate

/-- A rule and what its condition was parsed to. -/
structure ParsedRule where
  rule : Rule
  expr : Except Condition.Error Condition.Expr

def ParsedRule.of (r : Rule) : ParsedRule := ⟨r, Condition.parse r.condition.toList⟩

structure RuleBook where
  /-- The rules in order of insertion. -/
  entries : List ParsedRule
  /-- Whether identical messages are collapsed. -/
  dedupe : Bool := true

namespace RuleBook

/-- A book with those rules. -/
def ofRules (rules : List Rule) : RuleBook := { entries := rules.map ParsedRule.of }

/-- The book that a gate starts with. -/
def builtin : RuleBook := ofRules builtinRules

/-! ## Order -/

/-- Puts a rule before the first one that does not have a higher priority. -/
def insertByPriority (p : ParsedRule) : List ParsedRule → List ParsedRule
  | [] => [p]
  | q :: qs => if q.rule.priority > p.rule.priority then q :: insertByPriority p qs else p :: q :: qs

/-- The entries by falling priority, in order of insertion among equals. -/
def byPriority (b : RuleBook) : List ParsedRule := b.entries.foldr insertByPriority []

/-- Every rule, in the order in which evaluation visits them. -/
def rules (b : RuleBook) : List Rule := b.byPriority.map ParsedRule.rule

/-! ## Administration -/

/-- The rule with that id. -/
def rule? (b : RuleBook) (id : String) : Option Rule :=
  (b.entries.map ParsedRule.rule).find? (·.id = id)

/-- Adds a rule at the end, unless its id is blank or taken. -/
def add (b : RuleBook) (r : Rule) : Except Refusal RuleBook :=
  if Text.isBlankString r.id then .error .emptyRuleId
  else if (b.rule? r.id).isSome then .error (.duplicateRule r.id)
  else .ok { b with entries := b.entries ++ [.of r] }

/-- Adds rules in order, as long as they can be added. -/
def addAll (b : RuleBook) : List Rule → Except Refusal RuleBook
  | [] => .ok b
  | r :: rs => do addAll (← b.add r) rs

/-- Removes the first of some entries with that id. -/
def removeFirst (id : String) : List ParsedRule → List ParsedRule
  | [] => []
  | p :: ps => if p.rule.id = id then ps else p :: removeFirst id ps

/-- The book without the rule with that id. -/
def remove (b : RuleBook) (id : String) : RuleBook :=
  { b with entries := removeFirst id b.entries }

/-- Switches the first of some entries with that id. -/
def switchFirst (id : String) (enabled : Bool) : List ParsedRule → List ParsedRule
  | [] => []
  | p :: ps =>
    if p.rule.id = id then { p with rule := { p.rule with enabled } } :: ps
    else p :: switchFirst id enabled ps

/-- The book with the rule with that id switched on or off. -/
def setEnabled (b : RuleBook) (id : String) (enabled : Bool) : RuleBook :=
  { b with entries := switchFirst id enabled b.entries }

/-! ## Evaluation -/

/-- The messages of the fixed checks that block. -/
def fixedReasons (m : Metadata) (approval : Option Approval.Status) : List String :=
  (if m.isReadOnly then [Message.readOnly] else []) ++
  (if m.isHighRisk && !Approval.isApproved approval .dev then [Message.highRisk] else []) ++
  if m.reviewRequired && !Approval.isApproved approval .codeReview then [Message.reviewRequired]
  else []

/-- The messages of the fixed checks that warn. -/
def fixedWarnings (m : Metadata) : List String :=
  if m.isDeprecated then [Message.deprecated] else []

/-- Whether the condition of a rule holds. -/
def ParsedRule.holds (ctx : Condition.Context) (p : ParsedRule) : Except Condition.Error Bool := do
  Condition.evalBool ctx (← p.expr)

/-- The notice that a condition cannot be evaluated. -/
def conditionNotice (ctx : Condition.Context) (r : Rule) (e : Condition.Error) : Notice :=
  ⟨.warn, "rule.condition.invalid", some r.id,
    "condition " ++ Text.quoted r.condition ++ " could not be evaluated for " ++ ctx.path ++
      "; treating as passed: " ++ e.message⟩

/-- What visiting rules finds. -/
structure Findings where
  reasons : List String := []
  warnings : List String := []
  notices : List Notice := []
deriving DecidableEq, Repr

def Findings.append (a b : Findings) : Findings :=
  ⟨a.reasons ++ b.reasons, a.warnings ++ b.warnings, a.notices ++ b.notices⟩

/-- What visiting one rule finds. -/
def visitRule (ctx : Condition.Context) (p : ParsedRule) : Findings :=
  match ParsedRule.holds ctx p with
  | .ok true => {}
  | .ok false =>
    if p.rule.isBlocking then { reasons := [p.rule.action] } else { warnings := [p.rule.action] }
  | .error e => { notices := [conditionNotice ctx p.rule e] }

/-- What visiting some rules finds, in their order. -/
def visitRules (ctx : Condition.Context) : List ParsedRule → Findings
  | [] => {}
  | p :: ps => (visitRule ctx p).append (visitRules ctx ps)

/-- The decision on a file, and the notices of coming to it. -/
def evaluate (b : RuleBook) (metadata : Option Metadata) (approval : Option Approval.Status)
    (path : String) : Decision × List Notice :=
  match metadata with
  | none => (.noMetadata, [])
  | some m =>
    let found := visitRules ⟨m, approval, path⟩ (b.byPriority.filter (·.rule.enabled))
    (.ofFindings b.dedupe (fixedReasons m approval ++ found.reasons)
      (fixedWarnings m ++ found.warnings), found.notices)

/-- What the metadata of a file says about one method: reasons and warnings. -/
def methodFindings (m : Metadata) (method : String) : List String × List String :=
  match m.editPermissions with
  | some .addOnly => ([], [Message.addOnly])
  | some .methodSpecific =>
    match m.methodPermission? method with
    | some .readOnly => ([Message.methodReadOnly method], [])
    | some .restricted => ([], [Message.methodRestricted method])
    | _ => ([], [])
  | _ => ([], [])

/-- The decision on one method of a file. -/
def evaluateMethod (b : RuleBook) (metadata : Option Metadata) (method : String) : Decision :=
  match metadata with
  | none => .allow
  | some m =>
    let (reasons, warnings) := methodFindings m method
    .ofFindings b.dedupe reasons warnings

end RuleBook

end EditGate
