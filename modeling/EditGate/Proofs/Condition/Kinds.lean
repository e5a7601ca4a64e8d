import EditGate.Condition.Eval
import EditGate.Proofs.Except

/-!
# Conditions that have a value

Expressions have kinds: what is a boolean in every context, and what is a text or null. Operands of
`!`, `&&` and `||` are booleans, those of `==` and `!=` are of any kind; a path names what is known,
and a call has the arguments that it should. An expression with a kind has a value of that kind
whatever it is evaluated in (`eval_of_kinded`), so that `!`, `&&` and `||` of such expressions are
the connectives of logic (`holds_and`), although evaluation stops early.
-/

namespace EditGate

/-! ## Names -/

/-- How a slot may be spelled in conditions. -/
def Approval.Slot.spellings : Slot → List String
  | dev => ["dev"]
  | codeReview => ["codeReview", "code-review", "code_review"]
  | qa => ["qa"]

theorem Approval.Slot.ofName?_of_mem_spellings {name : String} {slot : Slot}
    (h : name ∈ slot.spellings) : ofName? name = some slot := by
  have hall : ∀ slot : Slot, ∀ name ∈ slot.spellings, ofName? name = some slot := by
    intro slot
    cases slot <;> decide
  exact hall slot name h

namespace Condition

open Approval (Slot)

/-- The paths that name something. -/
inductive Names : List String → Reference → Prop where
  | filePath : Names ["filePath"] .filePath
  | stability : Names ["metadata", "stability"] .stability
  | editPermissions : Names ["metadata", "editPermissions"] .editPermissions
  | breakingChangesRisk : Names ["metadata", "breakingChangesRisk"] .breakingChangesRisk
  | reviewRequired : Names ["metadata", "reviewRequired"] .reviewRequired
  | aiContext : Names ["metadata", "aiContext"] .aiContext
  | lastModified : Names ["metadata", "lastModified"] .lastModified
  | methodPermission (method : String) :
      Names ["metadata", "methodPermissions", method] (.methodPermission method)
  | approved {name : String} {slot : Slot} : name ∈ slot.spellings →
      Names ["approval", name, "approved"] (.approval slot .approved)
  | approvedBy {name : String} {slot : Slot} : name ∈ slot.spellings →
      Names ["approval", name, "approvedBy"] (.approval slot .approvedBy)
  | approvedDate {name : String} {slot : Slot} : name ∈ slot.spellings →
      Names ["approval", name, "approvedDate"] (.approval slot .approvedDate)

variable {ctx : Context} {segments : List String} {r : Reference}

theorem ofSegments?_approval {name fieldName : String} {slot : Slot} {field : EntryField}
    (hslot : name ∈ slot.spellings) (hfield : EntryField.ofName? fieldName = some field) :
    Reference.ofSegments? ["approval", name, fieldName] = some (.approval slot field) := by
  have hne : ¬"approval" = "metadata" := by decide
  rw [Reference.ofSegments?, if_neg hne, if_pos rfl, Slot.ofName?_of_mem_spellings hslot, hfield]
  rfl

theorem ofSegments?_of_names (h : Names segments r) :
    Reference.ofSegments? segments = some r := by
  cases h with
  | approved hslot => exact ofSegments?_approval hslot (by decide)
  | approvedBy hslot => exact ofSegments?_approval hslot (by decide)
  | approvedDate hslot => exact ofSegments?_approval hslot (by decide)
  | methodPermission method => rfl
  | _ => decide

theorem resolve_of_names (h : Names segments r) (ctx : Context) :
    resolve ctx segments = .ok (r.value ctx) := by
  rw [resolve, ofSegments?_of_names h]

/-! ## Kinds -/

inductive Kind where
  | bool
  /-- A text, or null. -/
  | text
deriving DecidableEq, Repr

def Value.kind : Value → Kind
  | .bool _ => .bool
  | .text _ => .text
  | .null => .text

def Reference.kind : Reference → Kind
  | .reviewRequired => .bool
  | .approval _ .approved => .bool
  | _ => .text

theorem Value.kind_ofText? (o : Option String) : (Value.ofText? o).kind = .text := by
  cases o <;> rfl

theorem Reference.kind_value (r : Reference) (ctx : Context) : (r.value ctx).kind = r.kind := by
  cases r with
  | filePath => rfl
  | reviewRequired => rfl
  | approval slot field =>
    cases field with
    | approved => rfl
    | approvedBy => exact Value.kind_ofText? _
    | approvedDate => exact Value.kind_ofText? _
  | _ => exact Value.kind_ofText? _

/-- The expressions that have a kind. -/
inductive Kinded : Kind → Expr → Prop where
  | literal (v : Value) : Kinded v.kind (.literal v)
  | path {segments : List String} {r : Reference} : Names segments r →
      Kinded r.kind (.path segments)
  | hasApproval {name : String} {slot : Slot} : name ∈ slot.spellings →
      Kinded .bool (.call "hasApproval" [.literal (.text name)])
  | isHighRisk : Kinded .bool (.call "isHighRisk" [])
  | isReadOnly : Kinded .bool (.call "isReadOnly" [])
  | isDeprecated : Kinded .bool (.call "isDeprecated" [])
  | not {e : Expr} : Kinded .bool e → Kinded .bool (.not e)
  | and {a b : Expr} : Kinded .bool a → Kinded .bool b → Kinded .bool (.and a b)
  | or {a b : Expr} : Kinded .bool a → Kinded .bool b → Kinded .bool (.or a b)
  | eq {k k' : Kind} {a b : Expr} : Kinded k a → Kinded k' b → Kinded .bool (.eq a b)
  | ne {k k' : Kind} {a b : Expr} : Kinded k a → Kinded k' b → Kinded .bool (.ne a b)

/-! ## Values -/

variable {k : Kind} {e a b : Expr} {x y : Bool} {v v' : Value}

theorem eval_hasApproval {name : String} {slot : Slot} (h : name ∈ slot.spellings)
    (ctx : Context) : eval ctx (.call "hasApproval" [.literal (.text name)]) =
      .ok (.bool (Approval.isApproved ctx.approval slot)) := by
  have hcallee : callee "hasApproval" 1 = .ok .hasApproval := rfl
  rw [eval, List.length_singleton, hcallee, ok_bind, evalFirst, eval, Function.apply, ok_bind,
    slotOf, Slot.ofName?_of_mem_spellings h]
  rfl

theorem eval_not (h : eval ctx e = .ok (.bool x)) : eval ctx (.not e) = .ok (.bool !x) := by
  rw [eval, h]
  rfl

theorem eval_and (ha : eval ctx a = .ok (.bool x)) (hb : eval ctx b = .ok (.bool y)) :
    eval ctx (.and a b) = .ok (.bool (x && y)) := by
  rw [eval, ha, hb]
  cases x <;> rfl

theorem eval_or (ha : eval ctx a = .ok (.bool x)) (hb : eval ctx b = .ok (.bool y)) :
    eval ctx (.or a b) = .ok (.bool (x || y)) := by
  rw [eval, ha, hb]
  cases x <;> rfl

theorem eval_eq (ha : eval ctx a = .ok v) (hb : eval ctx b = .ok v') :
    eval ctx (.eq a b) = .ok (.bool (v = v')) := by
  rw [eval, ha, hb]
  rfl

theorem eval_ne (ha : eval ctx a = .ok v) (hb : eval ctx b = .ok v') :
    eval ctx (.ne a b) = .ok (.bool (v ≠ v')) := by
  rw [eval, ha, hb]
  rfl

theorem Value.exists_of_kind_bool (h : v.kind = .bool) : ∃ x, v = .bool x := by
  cases v with
  | bool x => exact ⟨x, rfl⟩
  | text s => cases h
  | null => cases h

/-- An expression with a kind has a value of that kind in every context. -/
theorem eval_of_kinded (h : Kinded k e) (ctx : Context) :
    ∃ v, eval ctx e = .ok v ∧ v.kind = k := by
  induction h with
  | literal v => exact ⟨v, by rw [eval], rfl⟩
  | path hnames =>
    exact ⟨_, by rw [eval, resolve_of_names hnames], Reference.kind_value _ ctx⟩
  | hasApproval hslot => exact ⟨_, eval_hasApproval hslot ctx, rfl⟩
  | isHighRisk => exact ⟨.bool ctx.metadata.isHighRisk, by rw [eval]; rfl, rfl⟩
  | isReadOnly => exact ⟨.bool ctx.metadata.isReadOnly, by rw [eval]; rfl, rfl⟩
  | isDeprecated => exact ⟨.bool ctx.metadata.isDeprecated, by rw [eval]; rfl, rfl⟩
  | not _ ih =>
    obtain ⟨v, hv, hkind⟩ := ih
    obtain ⟨x, rfl⟩ := Value.exists_of_kind_bool hkind
    exact ⟨_, eval_not hv, rfl⟩
  | and _ _ iha ihb =>
    -- the right side is a boolean also where it is left alone
    obtain ⟨v, hv, hkind⟩ := iha
    obtain ⟨v', hv', hkind'⟩ := ihb
    obtain ⟨x, rfl⟩ := Value.exists_of_kind_bool hkind
    obtain ⟨y, rfl⟩ := Value.exists_of_kind_bool hkind'
    exact ⟨_, eval_and hv hv', rfl⟩
  | or _ _ iha ihb =>
    obtain ⟨v, hv, hkind⟩ := iha
    obtain ⟨v', hv', hkind'⟩ := ihb
    obtain ⟨x, rfl⟩ := Value.exists_of_kind_bool hkind
    obtain ⟨y, rfl⟩ := Value.exists_of_kind_bool hkind'
    exact ⟨_, eval_or hv hv', rfl⟩
  | eq _ _ iha ihb =>
    obtain ⟨v, hv, -⟩ := iha
    obtain ⟨v', hv', -⟩ := ihb
    exact ⟨_, eval_eq hv hv', rfl⟩
  | ne _ _ iha ihb =>
    obtain ⟨v, hv, -⟩ := iha
    obtain ⟨v', hv', -⟩ := ihb
    exact ⟨_, eval_ne hv hv', rfl⟩

theorem exists_bool_of_kinded (h : Kinded .bool e) (ctx : Context) :
    ∃ x, eval ctx e = .ok (.bool x) := by
  obtain ⟨v, hv, hkind⟩ := eval_of_kinded h ctx
  obtain ⟨x, rfl⟩ := Value.exists_of_kind_bool hkind
  exact ⟨x, hv⟩

/-! ## Truth -/

/-- The expression is true. -/
def Holds (ctx : Context) (e : Expr) : Prop := eval ctx e = .ok (.bool true)

theorem holds_iff_of_eval (h : eval ctx e = .ok (.bool x)) : Holds ctx e ↔ x = true := by
  rw [Holds, h, Except.ok.injEq, Value.bool.injEq]

theorem eval_false_iff (h : Kinded .bool e) :
    eval ctx e = .ok (.bool false) ↔ ¬Holds ctx e := by
  obtain ⟨x, hx⟩ := exists_bool_of_kinded h ctx
  rw [holds_iff_of_eval hx, hx, Except.ok.injEq, Value.bool.injEq, Bool.not_eq_true]

theorem holds_not (h : Kinded .bool e) : Holds ctx (.not e) ↔ ¬Holds ctx e := by
  obtain ⟨x, hx⟩ := exists_bool_of_kinded h ctx
  rw [holds_iff_of_eval (eval_not hx), holds_iff_of_eval hx, Bool.not_eq_true', Bool.not_eq_true]

theorem holds_and (ha : Kinded .bool a) (hb : Kinded .bool b) :
    Holds ctx (.and a b) ↔ Holds ctx a ∧ Holds ctx b := by
  obtain ⟨x, hx⟩ := exists_bool_of_kinded ha ctx
  obtain ⟨y, hy⟩ := exists_bool_of_kinded hb ctx
  rw [holds_iff_of_eval (eval_and hx hy), holds_iff_of_eval hx, holds_iff_of_eval hy,
    Bool.and_eq_true]

theorem holds_or (ha : Kinded .bool a) (hb : Kinded .bool b) :
    Holds ctx (.or a b) ↔ Holds ctx a ∨ Holds ctx b := by
  obtain ⟨x, hx⟩ := exists_bool_of_kinded ha ctx
  obtain ⟨y, hy⟩ := exists_bool_of_kinded hb ctx
  rw [holds_iff_of_eval (eval_or hx hy), holds_iff_of_eval hx, holds_iff_of_eval hy,
    Bool.or_eq_true]

end Condition

end EditGate
