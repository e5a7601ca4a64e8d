import EditGate.Proofs.Condition.Kinds
import Mathlib.Algebra.Group.Nat.Even

/-!
# Conditions that approvals cannot break

An approval that is granted can make a condition false, by a negation (`!hasApproval("qa")`) or by a
comparison with who gave it. In a positive condition it cannot: approvals are only asked whether a
slot is approved, below an even number of negations and outside of comparisons. Where more slots are
approved, such a condition still holds (`Positive.holds_mono`).

The induction is over the kinds and carries both polarities at once, since a negation swaps them.
-/

namespace EditGate.Condition

open Approval (Slot Status)

/-! ## Where approvals are looked at -/

/-- A place in an expression where approvals are looked at. -/
structure Look where
  /-- Whether it is only asked if a slot is approved. -/
  grant : Bool
  /-- How many negations it is below. -/
  negations : Nat := 0
  /-- Whether it is within an operand of a comparison. -/
  compared : Bool := false
deriving DecidableEq, Repr

def Look.negated (l : Look) : Look := { l with negations := l.negations + 1 }

def Look.inComparison (l : Look) : Look := { l with compared := true }

mutual

/-- The places in an expression where approvals are looked at. -/
def looks : Expr → List Look
  | .literal _ => []
  | .path segments =>
    if segments.head? = some "approval" then
      [{ grant := segments.length = 3 ∧ segments.getLast? = some "approved" }]
    else []
  | .call name args =>
    if name = "hasApproval" then { grant := true } :: looksAll args else looksAll args
  | .not e => (looks e).map Look.negated
  | .and a b => looks a ++ looks b
  | .or a b => looks a ++ looks b
  | .eq a b => (looks a ++ looks b).map Look.inComparison
  | .ne a b => (looks a ++ looks b).map Look.inComparison

/-- The places in some expressions where approvals are looked at. -/
def looksAll : List Expr → List Look
  | [] => []
  | e :: es => looks e ++ looksAll es

end

example : looks (.not (.call "hasApproval" [.literal (.text "qa")])) =
    [{ grant := true, negations := 1 }] := by decide

/-- Approvals are only asked whether a slot is approved, outside of comparisons and everywhere below
an even number of negations, or everywhere below an odd one. -/
def Polar (even : Bool) (e : Expr) : Prop :=
  ∀ l ∈ looks e, l.grant = true ∧ l.compared = false ∧ (Even l.negations ↔ even = true)

/-- A boolean condition in which nothing speaks against an approval. -/
structure Positive (e : Expr) : Prop where
  kinded : Kinded .bool e
  grant : ∀ l ∈ looks e, l.grant = true
  apart : ∀ l ∈ looks e, l.compared = false
  even : ∀ l ∈ looks e, Even l.negations

variable {e a b : Expr} {even : Bool} {k : Kind}

theorem Positive.polar (h : Positive e) : Polar true e := fun l hl =>
  ⟨h.grant l hl, h.apart l hl, iff_of_true (h.even l hl) rfl⟩

theorem polar_not : Polar even (.not e) ↔ Polar (!even) e := by
  simp only [Polar, looks, List.forall_mem_map, Look.negated, Nat.even_add_one]
  cases even <;> simp

theorem polar_and : Polar even (.and a b) ↔ Polar even a ∧ Polar even b := by
  rw [Polar, looks, List.forall_mem_append]
  rfl

theorem polar_or : Polar even (.or a b) ↔ Polar even a ∧ Polar even b := by
  rw [Polar, looks, List.forall_mem_append]
  rfl

theorem looks_eq_nil_of_compared
    (h : ∀ l ∈ (looks a ++ looks b).map Look.inComparison, l.compared = false) :
    (looks a ++ looks b).map Look.inComparison = [] := by
  rw [List.map_eq_nil_iff, List.eq_nil_iff_forall_not_mem]
  intro l hl
  exact Bool.noConfusion (h _ (List.mem_map_of_mem hl))

theorem looks_eq_nil_of_polar_eq (h : Polar even (.eq a b)) : looks (.eq a b) = [] := by
  rw [Polar, looks] at h
  rw [looks, looks_eq_nil_of_compared fun l hl => (h l hl).2.1]

theorem looks_eq_nil_of_polar_ne (h : Polar even (.ne a b)) : looks (.ne a b) = [] := by
  rw [Polar, looks] at h
  rw [looks, looks_eq_nil_of_compared fun l hl => (h l hl).2.1]

theorem not_polar_of_looks_other (h : looks e = [{ grant := false }]) : ¬Polar even e := by
  intro hpolar
  exact Bool.noConfusion (hpolar { grant := false } (h ▸ List.mem_singleton_self _)).1

/-- Asking whether a slot is approved is of the even polarity only. -/
theorem not_polar_false_of_looks_grant (h : looks e = [{ grant := true }]) : ¬Polar false e := by
  intro hpolar
  have hodd := (hpolar { grant := true } (h ▸ List.mem_singleton_self _)).2.2
  exact Bool.noConfusion (hodd.mp Even.zero)

/-! ## Granting -/

variable {m : Metadata} {path : String} {A B : Option Status}

/-- An expression that does not look at approvals has the same value with any. -/
theorem eval_eq_of_looks_nil (h : Kinded k e) (hlooks : looks e = []) :
    eval ⟨m, A, path⟩ e = eval ⟨m, B, path⟩ e := by
  induction h with
  | literal v => rw [eval, eval]
  | @path segments r hnames =>
    rw [eval, eval, resolve_of_names hnames, resolve_of_names hnames]
    rw [looks] at hlooks
    -- a path looks at approvals exactly if it starts with their name
    cases hnames with
    | approved hslot => exact absurd hlooks (by simp)
    | approvedBy hslot => exact absurd hlooks (by simp)
    | approvedDate hslot => exact absurd hlooks (by simp)
    | _ => rfl
  | hasApproval hslot => exact absurd hlooks (by simp [looks])
  | isHighRisk => rw [eval, eval]; rfl
  | isReadOnly => rw [eval, eval]; rfl
  | isDeprecated => rw [eval, eval]; rfl
  | not _ ih =>
    rw [looks, List.map_eq_nil_iff] at hlooks
    rw [eval, eval, ih hlooks]
  | and _ _ iha ihb =>
    rw [looks, List.append_eq_nil_iff] at hlooks
    rw [eval, eval, iha hlooks.1, ihb hlooks.2]
  | or _ _ iha ihb =>
    rw [looks, List.append_eq_nil_iff] at hlooks
    rw [eval, eval, iha hlooks.1, ihb hlooks.2]
  | eq _ _ iha ihb =>
    rw [looks, List.map_eq_nil_iff, List.append_eq_nil_iff] at hlooks
    rw [eval, eval, iha hlooks.1, ihb hlooks.2]
  | ne _ _ iha ihb =>
    rw [looks, List.map_eq_nil_iff, List.append_eq_nil_iff] at hlooks
    rw [eval, eval, iha hlooks.1, ihb hlooks.2]

theorem holds_approved {name : String} {slot : Slot} (h : name ∈ slot.spellings) (ctx : Context) :
    Holds ctx (.path ["approval", name, "approved"]) ↔
      Approval.isApproved ctx.approval slot = true := by
  refine holds_iff_of_eval ?_
  rw [eval, resolve_of_names (.approved h)]
  obtain ⟨m, _ | status, path⟩ := ctx <;> rfl

/-- From the one status to the other, what has the even polarity goes on to hold, and what has the
odd one goes on not to. -/
structure Keeps (m : Metadata) (path : String) (A B : Option Status) (e : Expr) : Prop where
  even : Polar true e → Holds ⟨m, A, path⟩ e → Holds ⟨m, B, path⟩ e
  odd : Polar false e → Holds ⟨m, B, path⟩ e → Holds ⟨m, A, path⟩ e

theorem keeps_of_blind (h : Kinded k e) (hblind : ∀ even, Polar even e → looks e = []) :
    Keeps m path A B e where
  even hpolar := by
    rw [Holds, eval_eq_of_looks_nil h (hblind true hpolar)]
    exact id
  odd hpolar := by
    rw [Holds, ← eval_eq_of_looks_nil h (hblind false hpolar)]
    exact id

theorem keeps_of_asks (h : looks e = [{ grant := true }])
    (hholds : Holds ⟨m, A, path⟩ e → Holds ⟨m, B, path⟩ e) : Keeps m path A B e where
  even _ := hholds
  odd hpolar := absurd hpolar (not_polar_false_of_looks_grant h)

/-- Where more slots are approved, every expression with a kind keeps what has a polarity. -/
theorem keeps_of_kinded
    (hgranted : ∀ slot, Approval.isApproved A slot = true → Approval.isApproved B slot = true)
    (h : Kinded k e) : Keeps m path A B e := by
  induction h with
  | literal v => exact keeps_of_blind (.literal v) fun _ _ => by rw [looks]
  | path hnames =>
    cases hnames with
    | approved hslot =>
      -- here and at `hasApproval` alone does the value change, from false to true
      refine keeps_of_asks (by simp [looks]) ?_
      rw [holds_approved hslot, holds_approved hslot]
      exact hgranted _
    | approvedBy hslot =>
      exact keeps_of_blind (.path (.approvedBy hslot)) fun _ hpolar =>
        absurd hpolar (not_polar_of_looks_other (by simp [looks]))
    | approvedDate hslot =>
      exact keeps_of_blind (.path (.approvedDate hslot)) fun _ hpolar =>
        absurd hpolar (not_polar_of_looks_other (by simp [looks]))
    | _ => exact keeps_of_blind (.path (by constructor)) fun _ _ => by simp [looks]
  | hasApproval hslot =>
    refine keeps_of_asks (by simp [looks, looksAll]) ?_
    rw [holds_iff_of_eval (eval_hasApproval hslot _), holds_iff_of_eval (eval_hasApproval hslot _)]
    exact hgranted _
  | isHighRisk => exact keeps_of_blind .isHighRisk fun _ _ => by simp [looks, looksAll]
  | isReadOnly => exact keeps_of_blind .isReadOnly fun _ _ => by simp [looks, looksAll]
  | isDeprecated => exact keeps_of_blind .isDeprecated fun _ _ => by simp [looks, looksAll]
  | not he ih =>
    -- the operand has the other polarity, and its negation holds where it does not
    constructor
    · rw [polar_not, holds_not he, holds_not he]
      exact fun hpolar => mt (ih.odd hpolar)
    · rw [polar_not, holds_not he, holds_not he]
      exact fun hpolar => mt (ih.even hpolar)
  | and ha hb iha ihb =>
    constructor
    · rw [polar_and, holds_and ha hb, holds_and ha hb]
      exact fun hpolar => And.imp (iha.even hpolar.1) (ihb.even hpolar.2)
    · rw [polar_and, holds_and ha hb, holds_and ha hb]
      exact fun hpolar => And.imp (iha.odd hpolar.1) (ihb.odd hpolar.2)
  | or ha hb iha ihb =>
    constructor
    · rw [polar_or, holds_or ha hb, holds_or ha hb]
      exact fun hpolar => Or.imp (iha.even hpolar.1) (ihb.even hpolar.2)
    · rw [polar_or, holds_or ha hb, holds_or ha hb]
      exact fun hpolar => Or.imp (iha.odd hpolar.1) (ihb.odd hpolar.2)
  | eq ha hb _ _ => exact keeps_of_blind (.eq ha hb) fun _ => looks_eq_nil_of_polar_eq
  | ne ha hb _ _ => exact keeps_of_blind (.ne ha hb) fun _ => looks_eq_nil_of_polar_ne

/-- Where more slots are approved, a positive condition still holds. -/
theorem Positive.holds_mono (h : Positive e)
    (hgranted : ∀ slot, Approval.isApproved A slot = true → Approval.isApproved B slot = true) :
    Holds ⟨m, A, path⟩ e → Holds ⟨m, B, path⟩ e :=
  (keeps_of_kinded hgranted h.kinded).even h.polar

end EditGate.Condition
