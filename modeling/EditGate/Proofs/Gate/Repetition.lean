import EditGate.Proofs.Gate.Noninterference
import EditGate.Proofs.Rule.Evaluation

/-!
# What is said twice

A decision on a file repeats nothing where identical messages are collapsed. A decision on a method
puts what is said of the method behind what is said of its file, and these two are collapsed each on
its own: a rule whose action reads like a finding about the method makes the decision say it twice
(`said_twice`). Nothing else does, since no fixed message reads like one about a method
(`reported_once_iff`).
-/

namespace EditGate

namespace Decision

/-- Neither list of the decision has a message twice. -/
structure SaysOnce (d : Decision) : Prop where
  reasons : d.reasons.Nodup
  warnings : d.warnings.Nodup

theorem saysOnce_ofFindings (reasons warnings : List String) :
    (ofFindings true reasons warnings).SaysOnce :=
  ⟨nodup_firstOccurrences reasons, nodup_firstOccurrences warnings⟩

/-- Two decisions that say nothing twice together say nothing twice if they share no message. -/
theorem saysOnce_merge_iff {a b : Decision} (ha : a.SaysOnce) (hb : b.SaysOnce) :
    (a.merge b).SaysOnce ↔
      (∀ message ∈ a.reasons, message ∉ b.reasons) ∧
        ∀ message ∈ a.warnings, message ∉ b.warnings := by
  have happend : ∀ {l l' : List String}, l.Nodup → l'.Nodup →
      ((l ++ l').Nodup ↔ ∀ message ∈ l, message ∉ l') := fun hl hl' => by
    rw [List.nodup_append', and_iff_right hl, and_iff_right hl']
    rfl
  constructor
  · exact fun h => ⟨(happend ha.reasons hb.reasons).mp h.reasons,
      (happend ha.warnings hb.warnings).mp h.warnings⟩
  · exact fun h => ⟨(happend ha.reasons hb.reasons).mpr h.1,
      (happend ha.warnings hb.warnings).mpr h.2⟩

end Decision

/-! ## Fixed messages and messages about methods -/

namespace RuleBook

variable {m : Metadata} {approval : Option Approval.Status} {method message : String}

theorem mem_methodFindings_reasons (h : message ∈ (methodFindings m method).1) :
    message = Message.methodReadOnly method := by
  rw [methodFindings] at h
  split at h
  · cases h
  · split at h
    · exact List.mem_singleton.mp h
    · cases h
    · cases h
  · cases h

theorem mem_methodFindings_warnings (h : message ∈ (methodFindings m method).2) :
    message = Message.addOnly ∨ message = Message.methodRestricted method := by
  rw [methodFindings] at h
  split at h
  · exact .inl (List.mem_singleton.mp h)
  · split at h
    · cases h
    · exact .inr (List.mem_singleton.mp h)
    · cases h
  · cases h

/-- A rule speaks like what the metadata says of a method, and in the same list. -/
inductive Repeats (m : Metadata) (method : String) (r : Rule) : Prop where
  | reason : 8 < r.priority → r.action ∈ (methodFindings m method).1 → Repeats m method r
  | warning : r.priority ≤ 8 → r.action ∈ (methodFindings m method).2 → Repeats m method r

instance {r : Rule} : Decidable (Repeats m method r) :=
  decidable_of_iff
    (8 < r.priority ∧ r.action ∈ (methodFindings m method).1 ∨
      r.priority ≤ 8 ∧ r.action ∈ (methodFindings m method).2)
    ⟨fun h => h.elim (fun h => .reason h.1 h.2) fun h => .warning h.1 h.2, fun h => by
      cases h with
      | reason hpriority haction => exact .inl ⟨hpriority, haction⟩
      | warning hpriority haction => exact .inr ⟨hpriority, haction⟩⟩

/-! The first letter tells messages about methods from the fixed ones about files. -/

theorem head_methodReadOnly (method : String) :
    (Message.methodReadOnly method).toList.head? = some 'M' := by
  simp [Message.methodReadOnly]

theorem head_methodRestricted (method : String) :
    (Message.methodRestricted method).toList.head? = some 'M' := by
  simp [Message.methodRestricted]

theorem head_of_mem_fixedReasons (h : message ∈ fixedReasons m approval) :
    message.toList.head? ≠ some 'M' := by
  rw [fixedReasons_eq] at h
  obtain ⟨check, hcheck, rfl⟩ := List.mem_map.mp h
  have hall : ∀ check ∈ checks m approval, check.2.toList.head? ≠ some 'M' := by
    simp [checks, Message.readOnly, Message.highRisk, Message.reviewRequired]
  exact hall check (List.mem_filter.mp hcheck).1

theorem not_mem_fixedReasons_of_method (h : message ∈ (methodFindings m method).1) :
    message ∉ fixedReasons m approval := fun hfixed => by
  rw [mem_methodFindings_reasons h] at hfixed
  exact head_of_mem_fixedReasons hfixed (head_methodReadOnly method)

theorem not_mem_fixedWarnings_of_method (h : message ∈ (methodFindings m method).2) :
    message ∉ fixedWarnings m := fun hfixed => by
  rw [fixedWarnings] at hfixed
  split at hfixed
  · obtain rfl := List.mem_singleton.mp hfixed
    rcases mem_methodFindings_warnings h with h | h
    · exact absurd h (by decide)
    · have hhead := head_methodRestricted method
      rw [← h] at hhead
      exact absurd hhead (by decide)
  · cases hfixed

/-! ## Decisions -/

variable {b : RuleBook} {path : String}

theorem saysOnce_evaluate (hb : b.dedupe = true) (metadata : Option Metadata)
    (approval : Option Approval.Status) (path : String) :
    (b.evaluate metadata approval path).1.SaysOnce := by
  cases metadata with
  | none => exact ⟨List.nodup_nil, List.nodup_singleton _⟩
  | some m =>
    rw [evaluate_some, hb]
    exact Decision.saysOnce_ofFindings _ _

theorem saysOnce_evaluateMethod (hb : b.dedupe = true) (m : Metadata) (method : String) :
    (b.evaluateMethod (some m) method).SaysOnce := by
  rw [evaluateMethod, hb]
  exact Decision.saysOnce_ofFindings _ _

/-- Whether a false rule repeats what is said of the method does not depend on the order in which
rules are visited. -/
theorem repeats_failing_iff {ctx : Condition.Context} :
    (∀ r ∈ failing ctx (b.visited.map Prod.fst), ¬Repeats m method r) ↔
      ∀ p ∈ b.entries, p.rule.enabled = true → Gives ctx false p → ¬Repeats m method p.rule := by
  constructor
  · intro h p hp henabled hgives
    exact h p.rule (mem_failing_visited.mpr ⟨p, hp, henabled, hgives, rfl⟩)
  · intro h r hr
    obtain ⟨p, hp, henabled, hgives, rfl⟩ := mem_failing_visited.mp hr
    exact h p hp henabled hgives

/-- What is said of a file and of a method is said once each, unless a rule that is false repeats
what is said of the method. -/
theorem saysOnce_merge_some_iff (hb : b.dedupe = true) (m : Metadata)
    (approval : Option Approval.Status) (path method : String) :
    ((b.evaluate (some m) approval path).1.merge (b.evaluateMethod (some m) method)).SaysOnce ↔
      ∀ p ∈ b.entries, p.rule.enabled = true → Gives ⟨m, approval, path⟩ false p →
        ¬Repeats m method p.rule := by
  have hreasons : ∀ message, message ∈ (b.evaluateMethod (some m) method).reasons ↔
      message ∈ (methodFindings m method).1 := fun _ => Decision.mem_reasons_ofFindings
  have hwarnings : ∀ message, message ∈ (b.evaluateMethod (some m) method).warnings ↔
      message ∈ (methodFindings m method).2 := fun _ => Decision.mem_warnings_ofFindings
  rw [← repeats_failing_iff, Decision.saysOnce_merge_iff (saysOnce_evaluate hb _ _ _)
    (saysOnce_evaluateMethod hb m method)]
  constructor
  · rintro ⟨hreason, hwarning⟩ r hfailing hrepeats
    cases hrepeats with
    | reason hpriority haction =>
      exact hreason _ (mem_reasons_evaluate.mpr (.inr ⟨r, hfailing, hpriority, rfl⟩))
        ((hreasons _).mpr haction)
    | warning hpriority haction =>
      exact hwarning _ (mem_warnings_evaluate.mpr (.inr ⟨r, hfailing, hpriority, rfl⟩))
        ((hwarnings _).mpr haction)
  · -- what is said of the method is no fixed message, so only a rule can have said it of the file
    refine fun h => ⟨fun message hfile hmethod => ?_, fun message hfile hmethod => ?_⟩
    · rw [hreasons] at hmethod
      rcases mem_reasons_evaluate.mp hfile with hfixed | ⟨r, hfailing, hpriority, rfl⟩
      · exact not_mem_fixedReasons_of_method hmethod hfixed
      · exact h r hfailing (.reason hpriority hmethod)
    · rw [hwarnings] at hmethod
      rcases mem_warnings_evaluate.mp hfile with hfixed | ⟨r, hfailing, hpriority, rfl⟩
      · exact not_mem_fixedWarnings_of_method hmethod hfixed
      · exact h r hfailing (.warning hpriority hmethod)

theorem saysOnce_merge_evaluate_iff (hb : b.dedupe = true) (metadata : Option Metadata)
    (approval : Option Approval.Status) (path method : String) :
    ((b.evaluate metadata approval path).1.merge (b.evaluateMethod metadata method)).SaysOnce ↔
      ∀ m, metadata = some m → ∀ p ∈ b.entries, p.rule.enabled = true →
        Gives ⟨m, approval, path⟩ false p → ¬Repeats m method p.rule := by
  cases metadata with
  | none =>
    refine ⟨fun _ m hm => ?_, fun _ => ⟨List.nodup_nil, List.nodup_singleton _⟩⟩
    cases hm
  | some m =>
    rw [saysOnce_merge_some_iff hb]
    refine ⟨fun h m' hm => ?_, fun h => h m rfl⟩
    rwa [← Option.some.inj hm]

/-! ## Administration -/

theorem dedupe_of_add {r : Rule} {b' : RuleBook} (h : b.add r = .ok b') :
    b'.dedupe = b.dedupe := by
  rw [add] at h
  split at h
  · cases h
  · split at h
    · cases h
    · cases h
      rfl

theorem dedupe_of_addAll {rules : List Rule} {b b' : RuleBook} (h : b.addAll rules = .ok b') :
    b'.dedupe = b.dedupe := by
  induction rules generalizing b with
  | nil =>
    cases h
    rfl
  | cons r rules ih =>
    obtain ⟨b₁, hadd, hrest⟩ := bind_eq_ok h
    exact (ih hrest).trans (dedupe_of_add hadd)

end RuleBook

/-! ## Gates -/

namespace Gate

open RuleBook (Gives Repeats)

variable {p : Project} {c : Config} {sink : Sink} {g g' : Gate}

/-- The gates of a configuration: what is opened with it, whatever is then done to the rules. -/
inductive Administered (p : Project) (c : Config) (sink : Sink) : Gate → Prop where
  | opened {g : Gate} : ofConfig p c sink = .ok g → Administered p c sink g
  | added {g g' : Gate} {r : Rule} : Administered p c sink g → g.addRule r = .ok g' →
      Administered p c sink g'
  | removed {g : Gate} (id : String) : Administered p c sink g →
      Administered p c sink (g.removeRule id)
  | switched {g : Gate} (id : String) (enabled : Bool) : Administered p c sink g →
      Administered p c sink (g.setRuleEnabled id enabled)

/-- Whether messages are collapsed is up to the configuration alone. -/
theorem Administered.dedupe (h : Administered p c sink g) : g.book.dedupe = c.dedupe := by
  induction h with
  | @opened g hopen =>
    rw [ofConfig] at hopen
    split at hopen
    next book hadd =>
      cases hopen
      exact RuleBook.dedupe_of_addAll hadd
    next => cases hopen
  | @added g g' r _ hadd ih =>
    rw [addRule] at hadd
    split at hadd
    next book hbook =>
      cases hadd
      exact (RuleBook.dedupe_of_add hbook).trans ih
    next => cases hadd
  | removed id _ ih => exact ih
  | switched id enabled _ ih => exact ih

/-- The approvals of a file as a check reads them. -/
def approvalSeen (g : Gate) (w : World) (path : String) : Option Approval.Status :=
  ((g.ledger.status? path).run ((g.metadata? path).run w).2).1

/-- Where the configuration asks for it, a decision on a file says nothing twice. One on a method
does so neither, unless an enabled rule is false whose action reads like what the metadata says of
the method and goes to the same list. -/
theorem reported_once_iff (h : Administered p c sink g) (hdedupe : c.dedupe = true) (w : World)
    (path method : String) :
    ((g.check path).run w).1.SaysOnce ∧
      (((g.checkMethod path method).run w).1.SaysOnce ↔
        ∀ m, ((g.metadata? path).run w).1 = some m →
          ∀ r ∈ g.book.entries, r.rule.enabled = true →
            Gives ⟨m, g.approvalSeen w path, g.key path⟩ false r → ¬Repeats m method r.rule) := by
  have hb : g.book.dedupe = true := h.dedupe.trans hdedupe
  have hfile : ((g.check path).run w).1 =
      (g.book.evaluate ((g.metadata? path).run w).1 (g.approvalSeen w path) (g.key path)).1 :=
    (check_eq g path w).trans (judge_eq g path _ _)
  rw [checkMethod_eq, hfile]
  exact ⟨RuleBook.saysOnce_evaluate hb _ _ _, RuleBook.saysOnce_merge_evaluate_iff hb _ _ _ _⟩

/-! ### A rule that speaks like the metadata -/

def methodText : String :=
  "/*\n * @ai-metadata\n * @edit-permissions: method-specific\n" ++
    " * @method-permissions: \x7b 'total': 'read-only', 'other': 'restricted' \x7d\n */\n"

def methodWorld : World where
  disk := ⟨[(["p"], .directory), (["p", "a"], .file methodText.toUTF8)]⟩
  workingDir := ["p"]

def methodMetadata : Metadata where
  editPermissions := some .methodSpecific
  methodPermissions := some [("other", .restricted), ("total", .readOnly)]

/-- Says of every file what metadata may say of one method. -/
def echoRule : Rule where
  id := "echo"
  name := ""
  condition := "false"
  action := Message.methodReadOnly "total"
  priority := 9

def echoConfig : Config where
  rules := [echoRule]

def echoGate : Gate where
  project := ⟨"/p".toList⟩
  ledgerPath := Project.ledgerPath ⟨"/p".toList⟩
  book := .ofRules (builtinRules ++ [echoRule])
  sink := .discard

theorem administered_echoGate : Administered ⟨"/p".toList⟩ echoConfig .discard echoGate :=
  .opened rfl

/-- The rule is false for the whole file. What it says is also said of one method, not of the
other. -/
theorem reported_once_sample :
    Administered ⟨"/p".toList⟩ echoConfig .discard echoGate ∧ echoConfig.dedupe = true ∧
      ((echoGate.check "a").run methodWorld).1.SaysOnce ∧
      ((echoGate.checkMethod "a" "other").run methodWorld).1.SaysOnce ∧
      ¬((echoGate.checkMethod "a" "total").run methodWorld).1.SaysOnce := by
  have hmetadata : ((echoGate.metadata? "a").run methodWorld).1 = some methodMetadata := by
    decide +kernel
  obtain ⟨hfile, hother⟩ :=
    reported_once_iff administered_echoGate rfl methodWorld "a" "other"
  obtain ⟨-, htotal⟩ := reported_once_iff administered_echoGate rfl methodWorld "a" "total"
  refine ⟨administered_echoGate, rfl, hfile, hother.mpr fun m hm => ?_, fun htwice => ?_⟩
  · rw [← Option.some.inj (hmetadata.symm.trans hm)]
    decide +kernel
  · exact absurd (htotal.mp htwice methodMetadata hmetadata) (by decide +kernel)

/-- A decision on a method can say twice what the metadata and a rule say alike, although the
configuration asks for identical messages to be collapsed. -/
theorem said_twice :
    Administered ⟨"/p".toList⟩ echoConfig .discard echoGate ∧ echoConfig.dedupe = true ∧
      ((echoGate.checkMethod "a" "total").run methodWorld).1.reasons =
        ["Method 'total' is marked as read-only", "Method 'total' is marked as read-only"] ∧
      ¬((echoGate.checkMethod "a" "total").run methodWorld).1.reasons.Nodup := by
  have hreasons : ((echoGate.checkMethod "a" "total").run methodWorld).1.reasons =
      ["Method 'total' is marked as read-only", "Method 'total' is marked as read-only"] := by
    decide +kernel
  refine ⟨administered_echoGate, rfl, hreasons, fun hnodup => ?_⟩
  rw [hreasons] at hnodup
  exact absurd hnodup (by decide)

end Gate

end EditGate
