import EditGate.Proofs.Rule.Administration
import EditGate.Proofs.Rule.Granting
import EditGate.Proofs.Rule.Kinded

/-!
# The built-in rules block nothing of their own

What the fixed checks block is said a second time by built-in rules, in the language of conditions.
The two never disagree: such a rule is false exactly if the message that it has in common with a
fixed check is among the fixed ones (`gives_false_builtin_iff`). So whichever built-in rules are
left in a book, on or off, beside rules of one's own, the reasons are those of one's own rules alone
as long as identical messages are collapsed, and the same is allowed also if they are not
(`builtin_adds_no_block`).

Rules that are left out leave gaps in the order in which the others are visited, but do not change
it. What is lost with a false built-in rule is a message that the fixed checks have said before, and
a later copy of a message is not heard (`firstOccurrences_append`).
-/

namespace EditGate

/-! ## Copies of earlier messages -/

theorem firstOccurrences_append (xs ys : List String) :
    firstOccurrences (xs ++ ys) =
      firstOccurrences xs ++ (firstOccurrences ys).filter (· ∉ xs) := by
  induction xs with
  | nil => simp [firstOccurrences]
  | cons x xs ih =>
    have hfilter : ((firstOccurrences ys).filter (· ∉ xs)).filter (· ≠ x) =
        (firstOccurrences ys).filter (· ∉ x :: xs) := by
      rw [List.filter_filter]
      refine List.filter_congr fun y _ => ?_
      simp [List.mem_cons]
    rw [List.cons_append, firstOccurrences, ih, List.filter_append, hfilter, firstOccurrences,
      List.cons_append]

theorem firstOccurrences_filter (keep : String → Bool) (ms : List String) :
    firstOccurrences (ms.filter keep) = (firstOccurrences ms).filter keep := by
  induction ms with
  | nil => rfl
  | cons m ms ih =>
    rw [firstOccurrences, List.filter_cons, List.filter_cons]
    by_cases hm : keep m = true
    · rw [if_pos hm, if_pos hm, firstOccurrences, ih, List.filter_filter, List.filter_filter]
      simp only [Bool.and_comm]
    · -- the message itself is left out, so leaving out its copies makes no difference
      rw [if_neg hm, if_neg hm, ih, List.filter_filter]
      refine List.filter_congr fun y _ => ?_
      by_cases hy : y = m
      · simp [hy, hm]
      · simp [hy]

/-- Later messages matter as far as they were not said before. -/
theorem firstOccurrences_append_congr {xs ys zs : List String}
    (h : ys.filter (· ∉ xs) = zs.filter (· ∉ xs)) :
    firstOccurrences (xs ++ ys) = firstOccurrences (xs ++ zs) := by
  rw [firstOccurrences_append, firstOccurrences_append, ← firstOccurrences_filter,
    ← firstOccurrences_filter, h]

namespace RuleBook

open Condition (Context Expr)

variable {ctx : Context} {p : ParsedRule} {r : Rule} {b : RuleBook} {extra : List Rule}
  {m : Metadata} {approval : Option Approval.Status} {path : String}

/-! ## Built-in rules and fixed checks -/

theorem gives_iff_of_eval {e : Expr} {x y : Bool} (he : p.expr = .ok e)
    (hx : Condition.eval ctx e = .ok (.bool x)) : Gives ctx y p ↔ x = y := by
  constructor
  · rintro ⟨e', he', hy⟩
    cases he.symm.trans he'
    cases hx.symm.trans hy
    rfl
  · rintro rfl
    exact ⟨e, he, hx⟩

/-- A built-in rule of priority 8 or more is false exactly if a fixed check says the same. -/
theorem gives_false_builtin_iff (hr : r ∈ builtinRules) (hpriority : 8 ≤ r.priority) :
    Gives ⟨m, approval, path⟩ false (.of r) ↔ r.action ∈ fixedReasons m approval := by
  simp only [builtinRules, List.mem_cons, List.not_mem_nil, or_false] at hr
  rcases hr with rfl | rfl | rfl | rfl | rfl
  · have he : Condition.eval ⟨m, approval, path⟩ (.not (.call "isReadOnly" [])) =
        .ok (.bool !m.isReadOnly) := rfl
    rw [gives_iff_of_eval rfl he, mem_fixedReasons]
    simp [Message.readOnly, Message.highRisk, Message.reviewRequired]
  · have he : Condition.eval ⟨m, approval, path⟩ (.or (.not (.call "isHighRisk" []))
        (.call "hasApproval" [.literal (.text "dev")])) =
          .ok (.bool (!m.isHighRisk || Approval.isApproved approval .dev)) :=
      Condition.eval_or rfl rfl
    rw [gives_iff_of_eval rfl he, mem_fixedReasons]
    simp [Message.readOnly, Message.highRisk, Message.reviewRequired]
  · have he : Condition.eval ⟨m, approval, path⟩ (.or (.not (.path ["metadata", "reviewRequired"]))
        (.call "hasApproval" [.literal (.text "codeReview")])) =
          .ok (.bool (!m.reviewRequired || Approval.isApproved approval .codeReview)) :=
      Condition.eval_or rfl rfl
    rw [gives_iff_of_eval rfl he, mem_fixedReasons]
    simp [Message.readOnly, Message.highRisk, Message.reviewRequired]
  · exact absurd hpriority (by decide)
  · exact absurd hpriority (by decide)

/-! ## Books with built-in rules and others -/

/-- The ids of the built-in rules. -/
def builtinIds : List String := builtinRules.map (·.id)

/-- A built-in rule, on or off. -/
def IsBuiltin (p : ParsedRule) : Prop :=
  ∃ r ∈ builtinRules, ∃ enabled, p = { ParsedRule.of r with rule := { r with enabled } }

/-- A change that takes a built-in rule out or switches it on or off. -/
def Change.Curtails : Change → Prop
  | .add _ => False
  | .remove id => id ∈ builtinIds
  | .switch id _ => id ∈ builtinIds

/-- A book has built-in rules, each on or off, and then other ones as they are. -/
structure Extends (b : RuleBook) (extra : List Rule) : Prop where
  entries : ∃ ps, b.entries = ps ++ extra.map .of ∧ ∀ p ∈ ps, IsBuiltin p
  /-- The others have ids of their own. -/
  apart : ∀ r ∈ extra, r.id ∉ builtinIds

theorem IsBuiltin.id_mem (h : IsBuiltin p) : p.rule.id ∈ builtinIds := by
  obtain ⟨r, hr, enabled, rfl⟩ := h
  exact List.mem_map.mpr ⟨r, hr, rfl⟩

theorem IsBuiltin.isKinded (h : IsBuiltin p) : IsKinded p := by
  obtain ⟨r, hr, enabled, rfl⟩ := h
  obtain ⟨e, he, hpositive⟩ := isPositive_builtin (.of r) (List.mem_map_of_mem hr)
  exact ⟨e, he, hpositive.kinded⟩

/-- What a built-in rule blocks, the fixed checks block. -/
theorem IsBuiltin.action_mem (h : IsBuiltin p) (hpriority : 8 < p.rule.priority)
    (hgives : Gives ⟨m, approval, path⟩ false p) : p.rule.action ∈ fixedReasons m approval := by
  obtain ⟨r, hr, enabled, rfl⟩ := h
  have hiff : Gives ⟨m, approval, path⟩ false (.of r) ↔ r.action ∈ fixedReasons m approval :=
    gives_false_builtin_iff hr hpriority.le
  exact hiff.mp hgives

theorem removeFirst_append {id : String} {ps qs : List ParsedRule}
    (h : ∀ q ∈ qs, q.rule.id ≠ id) : removeFirst id (ps ++ qs) = removeFirst id ps ++ qs := by
  have hqs : removeFirst id qs = qs := by
    induction qs with
    | nil => rfl
    | cons q qs ih =>
      obtain ⟨hq, hqs⟩ := List.forall_mem_cons.mp h
      rw [removeFirst, if_neg hq, ih hqs]
  induction ps with
  | nil => exact hqs
  | cons p ps ih =>
    rw [List.cons_append, removeFirst, removeFirst]
    split
    · rfl
    · rw [ih, List.cons_append]

theorem switchFirst_append {id : String} {enabled : Bool} {ps qs : List ParsedRule}
    (h : ∀ q ∈ qs, q.rule.id ≠ id) :
    switchFirst id enabled (ps ++ qs) = switchFirst id enabled ps ++ qs := by
  have hqs : switchFirst id enabled qs = qs := by
    induction qs with
    | nil => rfl
    | cons q qs ih =>
      obtain ⟨hq, hqs⟩ := List.forall_mem_cons.mp h
      rw [switchFirst, if_neg hq, ih hqs]
  induction ps with
  | nil => exact hqs
  | cons p ps ih =>
    rw [List.cons_append, switchFirst, switchFirst]
    split
    · rfl
    · rw [ih, List.cons_append]

theorem mem_of_mem_removeFirst {id : String} {ps : List ParsedRule} (h : p ∈ removeFirst id ps) :
    p ∈ ps := by
  induction ps with
  | nil => exact h
  | cons q qs ih =>
    rw [removeFirst] at h
    split at h
    · exact .tail q h
    · rcases List.mem_cons.mp h with rfl | h
      · exact List.mem_cons_self
      · exact .tail q (ih h)

theorem mem_switchFirst {id : String} {enabled : Bool} {ps : List ParsedRule}
    (h : p ∈ switchFirst id enabled ps) :
    p ∈ ps ∨ ∃ q ∈ ps, p = { q with rule := { q.rule with enabled } } := by
  induction ps with
  | nil => exact .inl h
  | cons q qs ih =>
    rw [switchFirst] at h
    split at h
    · rcases List.mem_cons.mp h with rfl | h
      · exact .inr ⟨q, List.mem_cons_self, rfl⟩
      · exact .inl (.tail q h)
    · rcases List.mem_cons.mp h with rfl | h
      · exact .inl List.mem_cons_self
      · refine (ih h).imp (.tail q) ?_
        rintro ⟨q', hq', he⟩
        exact ⟨q', .tail q hq', he⟩

theorem extends_builtin (h : ∀ r ∈ extra, r.id ∉ builtinIds) :
    (ofRules (builtinRules ++ extra)).Extends extra where
  entries := by
    refine ⟨builtinRules.map .of, List.map_append, fun p hp => ?_⟩
    obtain ⟨r, hr, rfl⟩ := List.mem_map.mp hp
    exact ⟨r, hr, r.enabled, rfl⟩
  apart := h

/-- Changes to built-in rules reach no other rule. -/
theorem Extends.change (h : b.Extends extra) {c : Change} (hc : c.Curtails) :
    (b.change c).2.Extends extra := by
  obtain ⟨⟨ps, hentries, hps⟩, hextra⟩ := h
  have hothers : ∀ id ∈ builtinIds, ∀ q ∈ extra.map ParsedRule.of, q.rule.id ≠ id := by
    rintro _ hid q hq rfl
    obtain ⟨r, hr, rfl⟩ := List.mem_map.mp hq
    exact hextra r hr hid
  refine ⟨?_, hextra⟩
  cases c with
  | add r => exact hc.elim
  | remove id =>
    refine ⟨removeFirst id ps, ?_, fun p hp => hps p (mem_of_mem_removeFirst hp)⟩
    rw [RuleBook.change, remove, hentries, removeFirst_append (hothers id hc)]
  | switch id enabled =>
    refine ⟨switchFirst id enabled ps, ?_, fun p hp => ?_⟩
    · rw [RuleBook.change, setEnabled, hentries, switchFirst_append (hothers id hc)]
    · rcases mem_switchFirst hp with hp | ⟨q, hq, rfl⟩
      · exact hps p hp
      · obtain ⟨r, hr, _, rfl⟩ := hps q hq
        exact ⟨r, hr, enabled, rfl⟩

theorem Extends.changeAll (h : b.Extends extra) {history : List Change}
    (hhistory : ∀ c ∈ history, c.Curtails) : (b.changeAll history).Extends extra := by
  induction history generalizing b with
  | nil => exact h
  | cons c cs ih =>
    obtain ⟨hc, hcs⟩ := List.forall_mem_cons.mp hhistory
    exact ih (h.change hc) hcs

/-! ## Without the built-in rules -/

/-- Whether a rule is none of the built-in ones. -/
def isOwn (r : Rule) : Bool := r.id ∉ builtinIds

namespace Extends

variable (h : b.Extends extra)
include h

/-- The other rules are the book without the built-in ones. -/
theorem filter_entries : b.entries.filter (isOwn ·.rule) = extra.map .of := by
  obtain ⟨⟨ps, hentries, hps⟩, hextra⟩ := h
  have hnone : ps.filter (isOwn ·.rule) = [] := by
    refine List.filter_eq_nil_iff.mpr fun p hp hown => ?_
    exact of_decide_eq_true hown (hps p hp).id_mem
  have hall : (extra.map ParsedRule.of).filter (isOwn ·.rule) = extra.map .of := by
    refine List.filter_eq_self.mpr fun p hp => ?_
    obtain ⟨r, hr, rfl⟩ := List.mem_map.mp hp
    exact decide_eq_true (hextra r hr)
  rw [hentries, List.filter_append, hnone, hall, List.nil_append]

theorem isBuiltin_of_mem (hp : p ∈ b.entries) (hown : isOwn p.rule = false) : IsBuiltin p := by
  have hkept : p ∉ b.entries.filter (isOwn ·.rule) := fun hkept => by
    simp [hown] at hkept
  obtain ⟨⟨ps, hentries, hps⟩, hextra⟩ := id h
  rw [hentries] at hp
  rcases List.mem_append.mp hp with hp | hp
  · exact hps p hp
  · exact absurd (h.filter_entries ▸ hp) hkept

theorem eq_filter :
    ({ ofRules extra with dedupe := b.dedupe } : RuleBook) =
      { b with entries := b.entries.filter (isOwn ·.rule) } := by
  rw [h.filter_entries]
  rfl

/-- The others fail in the same order, with or without the built-in rules. -/
theorem failing_visited (ctx : Context) :
    failing ctx (({ ofRules extra with dedupe := b.dedupe } : RuleBook).visited.map Prod.fst) =
      (failing ctx (b.visited.map Prod.fst)).filter isOwn := by
  rw [h.eq_filter, map_fst_visited, map_fst_visited, byPriority_filter, failing, failing,
    List.filter_map, List.filter_filter, List.filter_filter, List.filter_filter,
    List.filter_filter]
  congr 1
  refine List.filter_congr fun p _ => ?_
  rw [Function.comp_apply, Bool.and_comm (isOwn p.rule), Bool.and_right_comm]

/-- A built-in rule that fails with a priority that blocks says what the fixed checks say. -/
theorem action_mem_of_failing
    (hr : r ∈ failing ⟨m, approval, path⟩ (b.visited.map Prod.fst)) (hown : isOwn r = false)
    (hpriority : 8 < r.priority) : r.action ∈ fixedReasons m approval := by
  obtain ⟨p, hp, -, hgives, rfl⟩ := mem_failing_visited.mp hr
  exact (h.isBuiltin_of_mem hp hown).action_mem hpriority hgives

theorem reasons_evaluate (metadata : Option Metadata) (hdedupe : b.dedupe = true) :
    (b.evaluate metadata approval path).1.reasons =
      ({ ofRules extra with dedupe := b.dedupe }.evaluate metadata approval path).1.reasons := by
  cases metadata with
  | none => rfl
  | some m =>
    rw [evaluate_some, evaluate_some, h.failing_visited, hdedupe]
    refine firstOccurrences_append_congr ?_
    rw [List.filter_map, List.filter_map, List.filter_filter,
      List.filter_filter, List.filter_filter]
    congr 1
    refine List.filter_congr fun r hr => ?_
    cases hown : isOwn r with
    | true => rw [Bool.and_true]
    | false =>
      rw [Bool.and_false, Bool.and_eq_false_imp, Function.comp_apply]
      intro hnew
      refine decide_eq_false fun hpriority => ?_
      exact of_decide_eq_true hnew (h.action_mem_of_failing hr hown hpriority)

theorem allowed_evaluate (metadata : Option Metadata) :
    (b.evaluate metadata approval path).1.allowed =
      ({ ofRules extra with dedupe := b.dedupe }.evaluate metadata approval path).1.allowed := by
  cases metadata with
  | none => rfl
  | some m =>
    rw [Bool.eq_iff_iff, allowed_evaluate_some, allowed_evaluate_some, h.failing_visited]
    refine and_congr_right fun hfixed => ?_
    constructor
    · intro hall r hr
      exact hall r (List.mem_filter.mp hr).1
    · intro hall r hr
      cases hown : isOwn r with
      | true => exact hall r (List.mem_filter.mpr ⟨hr, hown⟩)
      | false =>
        refine Int.not_lt.mp fun hpriority => ?_
        have haction := h.action_mem_of_failing hr hown hpriority
        rw [hfixed] at haction
        cases haction

theorem notices_evaluate (metadata : Option Metadata) :
    (b.evaluate metadata approval path).2 =
      ({ ofRules extra with dedupe := b.dedupe }.evaluate metadata approval path).2 := by
  rw [h.eq_filter, notices_evaluate_filter]
  exact fun p hp hown => (h.isBuiltin_of_mem hp hown).isKinded

end Extends

/-- A built-in rule of priority 8 or more, so each that blocks, is false exactly if a fixed check
says the same. So if built-in rules are followed by others with ids of their own, whichever built-in
ones are then taken out or switched off, the reasons are those of the others alone where messages
are collapsed. Collapsed or not, the modification is allowed exactly if it is with the others alone,
and the same conditions are reported as broken. -/
theorem builtin_adds_no_block :
    (∀ r ∈ builtinRules, 8 ≤ r.priority → ∀ m approval path,
      Gives ⟨m, approval, path⟩ false (.of r) ↔ r.action ∈ fixedReasons m approval) ∧
    ∀ extra : List Rule, (∀ r ∈ extra, r.id ∉ builtinIds) →
    ∀ history : List Change, (∀ c ∈ history, c.Curtails) →
    ∀ (metadata : Option Metadata) (approval : Option Approval.Status) (path : String),
      let left := (ofRules (builtinRules ++ extra)).changeAll history
      let whole dedupe := { left with dedupe }.evaluate metadata approval path
      let alone dedupe := { ofRules extra with dedupe }.evaluate metadata approval path
      (whole true).1.reasons = (alone true).1.reasons ∧
      ∀ dedupe, (whole dedupe).1.allowed = (alone dedupe).1.allowed ∧
        (whole dedupe).2 = (alone dedupe).2 := by
  refine ⟨fun r hr hpriority m approval path => gives_false_builtin_iff hr hpriority, ?_⟩
  intro extra hextra history hhistory metadata approval path left whole alone
  obtain ⟨hentries, hapart⟩ := (extends_builtin hextra).changeAll hhistory
  have hleft (dedupe : Bool) : Extends { left with dedupe } extra := ⟨hentries, hapart⟩
  exact ⟨(hleft true).reasons_evaluate metadata rfl, fun dedupe =>
    ⟨(hleft dedupe).allowed_evaluate metadata, (hleft dedupe).notices_evaluate metadata⟩⟩

/-- Two rules of one's own: one between the built-in ones by its priority that says what the first
of them says, and one that blocks with a message of its own. -/
def ownRules : List Rule :=
  [{ id := "echo", name := "", condition := "!isReadOnly()", action := Message.readOnly
     priority := 9 },
   { id := "own", name := "", condition := "hasApproval(\"qa\")", action := "own", priority := 10 }]

/-- One built-in rule is removed, one switched off and one that stays is switched on again. -/
def curtailed : List Change :=
  [.remove "high-risk-needs-dev-approval", .switch "deprecated-warning" false,
    .switch "read-only-protection" true]

theorem adds_no_block_ownRules :
    let left := (ofRules (builtinRules ++ ownRules)).changeAll curtailed
    (∀ r ∈ ownRules, r.id ∉ builtinIds) ∧ (∀ c ∈ curtailed, c.Curtails) ∧
      left.entries.map (·.rule.id) = ["read-only-protection", "review-required",
        "stable-code-needs-dev-approval", "deprecated-warning", "echo", "own"] ∧
      (left.evaluate (some sampleMetadata) none "a").1.reasons =
        ((ofRules ownRules).evaluate (some sampleMetadata) none "a").1.reasons ∧
      ((ofRules ownRules).evaluate (some sampleMetadata) none "a").1.reasons =
        [Message.readOnly, "own"] := by
  have hown : ∀ r ∈ ownRules, r.id ∉ builtinIds := by decide
  have hcurtailed : ∀ c ∈ curtailed, c.Curtails := by
    simp only [curtailed, List.forall_mem_cons, List.not_mem_nil, false_implies, implies_true,
      Change.Curtails]
    decide
  obtain ⟨hreasons, -⟩ := builtin_adds_no_block.2 ownRules hown curtailed hcurtailed
    (some sampleMetadata) none "a"
  exact ⟨hown, hcurtailed, by decide, hreasons, by decide +kernel⟩

end RuleBook

end EditGate
