import EditGate.Gate
import EditGate.Proofs.Except
import EditGate.Proofs.Rule.Order

/-!
# Administration of rules

The rules of a book change one at a time: a rule is added, removed, or switched on or off. Apart
from any book, changes can be read as what they make of a table that has for each id the rule of
this id and the time when it was added (`Table`). A rule that is removed and added again is as young
as any other that is added then, so only the whole history says which of two rules is the older one.

A book is its table: it has the rules of the table, each parsed, in the order of their times
(`Tracks`). Each change keeps this (`exists_tracks_change`), hence so does a history
(`exists_tracks_changeAll`), and all that can be asked of the book follows (`Sound`). A gate opens
with the built-in rules and the configured ones added to them.
-/

namespace EditGate

namespace RuleBook

/-! ## Changes -/

/-- A change to the rules of a book. -/
inductive Change where
  | add (r : Rule)
  | remove (id : String)
  | switch (id : String) (enabled : Bool)

/-- What is answered to a change. -/
inductive Answer where
  | added
  | refused (why : Refusal)
  | removed (rule : Option Rule)
  | switched (found : Bool)
deriving DecidableEq

/-- The answer to a change and the book after it. A refusal leaves the book as it is. -/
def change (b : RuleBook) : Change → Answer × RuleBook
  | .add r =>
    match b.add r with
    | .ok b' => (.added, b')
    | .error why => (.refused why, b)
  | .remove id => (.removed (b.rule? id), b.remove id)
  | .switch id enabled => (.switched (b.rule? id).isSome, b.setEnabled id enabled)

/-- The book after some changes. -/
def changeAll (b : RuleBook) (history : List Change) : RuleBook :=
  history.foldl (fun b c => (b.change c).2) b

/-- The built-in rules after some changes. -/
def administered (dedupe : Bool) (history : List Change) : RuleBook :=
  changeAll { builtin with dedupe } history

/-! ## The table of a history -/

/-- The rule of each id, and when it was added. -/
abbrev Table := String → Option (Rule × Nat)

namespace Table

/-- The table after a change that is made now. -/
def after (t : Table) (now : Nat) : Change → Table
  | .add r =>
    if Text.isBlankString r.id ∨ (t r.id).isSome then t else Function.update t r.id (some (r, now))
  | .remove id => Function.update t id none
  | .switch id enabled => Function.update t id ((t id).map fun e => ({ e.1 with enabled }, e.2))

/-- The table after some changes, the first of which is made now. -/
def afterAll (t : Table) (now : Nat) : List Change → Table
  | [] => t
  | c :: cs => (t.after now c).afterAll (now + 1) cs

/-- The table of the built-in rules after some changes. -/
def ofHistory (history : List Change) : Table :=
  afterAll (fun _ => none) 0 (builtinRules.map .add ++ history)

/-- One rule comes before another: it has the higher priority, or it has the same one and was added
earlier. -/
def Precedes (t : Table) (r s : Rule) : Prop :=
  s.priority < r.priority ∨ s.priority = r.priority ∧
    ∃ i j, t r.id = some (r, i) ∧ t s.id = some (s, j) ∧ i < j

end Table

/-! ## Sound books -/

/-- The ids of the rules of a book. -/
def ids (b : RuleBook) : List String := b.entries.map (·.rule.id)

/-- A book has the rules of a table, and lists and visits them in order. -/
structure Sound (b : RuleBook) (t : Table) : Prop where
  distinct : b.ids.Nodup
  named : ∀ id ∈ b.ids, Text.isBlankString id = false
  parsed : ∀ p ∈ b.entries, p.expr = Condition.parse p.rule.condition.toList
  /-- The book has just the rules of the table. -/
  stored : ∀ r, r ∈ b.entries.map ParsedRule.rule ↔ ∃ time, t r.id = some (r, time)
  lookup : ∀ id, b.rule? id = (t id).map Prod.fst
  listed : b.rules.Perm (b.entries.map ParsedRule.rule)
  ordered : b.rules.Pairwise t.Precedes
  /-- Evaluation goes through the enabled rules as they are listed. -/
  visited : ∀ m approval path, b.evaluate (some m) approval path =
    let found := visitRules ⟨m, approval, path⟩ ((b.rules.filter (·.enabled)).map .of)
    (.ofFindings b.dedupe (fixedReasons m approval ++ found.reasons)
      (fixedWarnings m ++ found.warnings), found.notices)

/-- How a book answers to a change, and what it is afterwards. -/
structure Responds (b : RuleBook) : Prop where
  refused : ∀ r : Rule, Text.isBlankString r.id = true ∨ r.id ∈ b.ids →
    b.change (.add r) =
      (.refused (if Text.isBlankString r.id then .emptyRuleId else .duplicateRule r.id), b)
  added : ∀ r : Rule, Text.isBlankString r.id = false → r.id ∉ b.ids →
    b.change (.add r) = (.added, { b with entries := b.entries ++ [.of r] })
  removed : ∀ p ∈ b.entries, b.change (.remove p.rule.id) =
    (.removed (some p.rule), { b with entries := b.entries.filter (·.rule.id ≠ p.rule.id) })
  notRemoved : ∀ id ∉ b.ids, b.change (.remove id) = (.removed none, b)
  /-- The rule stays where it is, and its condition is still parsed as it was. -/
  switched : ∀ p ∈ b.entries, ∀ enabled, b.change (.switch p.rule.id enabled) =
    (.switched true, { b with entries := b.entries.map fun q =>
      if q.rule.id = p.rule.id then { q with rule := { q.rule with enabled } } else q })
  notSwitched : ∀ id ∉ b.ids, ∀ enabled, b.change (.switch id enabled) = (.switched false, b)

/-! ## One operation -/

section Operations

variable {b : RuleBook} {r : Rule} {id : String} {enabled : Bool} {ps : List ParsedRule}

theorem isSome_rule?_iff : (b.rule? id).isSome = true ↔ id ∈ b.ids := by
  rw [rule?, List.find?_isSome]
  simp only [ids, List.mem_map, decide_eq_true_eq, exists_exists_and_eq_and]

theorem rule?_eq_none_iff : b.rule? id = none ↔ id ∉ b.ids := by
  rw [← isSome_rule?_iff, Bool.not_eq_true, Option.isSome_eq_false_iff, Option.isNone_iff_eq_none]

theorem rule?_of_mem (h : b.ids.Nodup) {p : ParsedRule} (hp : p ∈ b.entries) :
    b.rule? p.rule.id = some p.rule := by
  have hids : p.rule.id ∈ b.ids := List.mem_map_of_mem hp
  obtain ⟨r, hr⟩ := Option.isSome_iff_exists.mp (isSome_rule?_iff.mpr hids)
  obtain ⟨q, hq, rfl⟩ := List.mem_map.mp (List.mem_of_find?_eq_some hr)
  have hid : q.rule.id = p.rule.id := by simpa using List.find?_some hr
  rw [hr, List.inj_on_of_nodup_map h hq hp hid]

/-- Adding fails exactly on a blank id and on one that is taken. -/
theorem add_eq (b : RuleBook) (r : Rule) :
    b.add r =
      if Text.isBlankString r.id then .error .emptyRuleId
      else if r.id ∈ b.ids then .error (.duplicateRule r.id)
      else .ok { b with entries := b.entries ++ [.of r] } := by
  rw [add]
  simp only [isSome_rule?_iff]

/-- Where no rule has the id, none is left out. -/
theorem filter_of_notMem (h : id ∉ ps.map (·.rule.id)) : ps.filter (·.rule.id ≠ id) = ps :=
  List.filter_eq_self.mpr fun q hq =>
    decide_eq_true fun hid => h (List.mem_map.mpr ⟨q, hq, hid⟩)

theorem map_of_notMem (h : id ∉ ps.map (·.rule.id)) :
    (ps.map fun q => if q.rule.id = id then { q with rule := { q.rule with enabled } } else q) =
      ps := by
  have hothers : ∀ q ∈ ps, (if q.rule.id = id then { q with rule := { q.rule with enabled } }
      else q) = q := fun q hq => if_neg fun hid => h (List.mem_map.mpr ⟨q, hq, hid⟩)
  rw [List.map_congr_left hothers, List.map_id']

/-- Where ids are distinct, the first rule of an id is the only one. -/
theorem removeFirst_eq_filter (h : (ps.map (·.rule.id)).Nodup) :
    removeFirst id ps = ps.filter (·.rule.id ≠ id) := by
  induction ps with
  | nil => rfl
  | cons p ps ih =>
    obtain ⟨hp, hps⟩ := List.nodup_cons.mp h
    rw [removeFirst]
    split
    · rename_i hid
      subst hid
      rw [List.filter_cons_of_neg (by simp), filter_of_notMem hp]
    · rename_i hid
      rw [List.filter_cons_of_pos (by simpa using hid), ih hps]

theorem switchFirst_eq_map (h : (ps.map (·.rule.id)).Nodup) :
    switchFirst id enabled ps = ps.map fun q =>
      if q.rule.id = id then { q with rule := { q.rule with enabled } } else q := by
  induction ps with
  | nil => rfl
  | cons p ps ih =>
    obtain ⟨hp, hps⟩ := List.nodup_cons.mp h
    rw [switchFirst, List.map_cons]
    split
    · rename_i hid
      subst hid
      rw [map_of_notMem hp]
    · rw [ih hps]

theorem add_eq_error_iff :
    (∃ why, b.add r = .error why) ↔ Text.isBlankString r.id = true ∨ r.id ∈ b.ids := by
  rw [add_eq]
  split
  · rename_i hblank
    exact ⟨fun _ => .inl hblank, fun _ => ⟨_, rfl⟩⟩
  · rename_i hblank
    split
    · rename_i htaken
      exact ⟨fun _ => .inr htaken, fun _ => ⟨_, rfl⟩⟩
    · rename_i htaken
      exact ⟨nofun, fun h => (h.elim hblank htaken).elim⟩

end Operations

/-- Where ids are distinct, one rule at most is concerned by a change. -/
theorem responds {b : RuleBook} (h : b.ids.Nodup) : b.Responds where
  refused r hr := by
    rw [change, add_eq]
    by_cases hblank : Text.isBlankString r.id = true
    · rw [if_pos hblank, if_pos hblank]
    · rw [if_neg hblank, if_pos (hr.resolve_left hblank), if_neg hblank]
  added r hblank htaken := by
    rw [change, add_eq, if_neg (Bool.eq_false_iff.mp hblank), if_neg htaken]
  removed p hp := by
    rw [change, rule?_of_mem h hp, remove, removeFirst_eq_filter h]
  notRemoved id hid := by
    rw [change, rule?_eq_none_iff.mpr hid, remove, removeFirst_eq_filter h, filter_of_notMem hid]
  switched p hp enabled := by
    rw [change, rule?_of_mem h hp, setEnabled, switchFirst_eq_map h]
    rfl
  notSwitched id hid enabled := by
    rw [change, rule?_eq_none_iff.mpr hid, setEnabled, switchFirst_eq_map h, map_of_notMem hid]
    rfl

/-! ## A book is its table -/

/-- A rule and the time when it was added. -/
abbrev Dated := Rule × Nat

/-- The book has the dated rules in the order of their times, and so has the table. -/
structure Tracks (b : RuleBook) (t : Table) (now : Nat) (es : List Dated) : Prop where
  entries : b.entries = es.map fun e => .of e.1
  distinct : (es.map (·.1.id)).Nodup
  named : ∀ e ∈ es, Text.isBlankString e.1.id = false
  aging : es.Pairwise (·.2 < ·.2)
  past : ∀ e ∈ es, e.2 < now
  mem_iff : ∀ id e, t id = some e ↔ e ∈ es ∧ e.1.id = id

section Tracking

variable {b : RuleBook} {t : Table} {now : Nat} {es : List Dated}

theorem Tracks.ids_eq (h : Tracks b t now es) : b.ids = es.map (·.1.id) := by
  rw [ids, h.entries, List.map_map]
  rfl

theorem Tracks.nodup_ids (h : Tracks b t now es) : b.ids.Nodup := h.ids_eq ▸ h.distinct

theorem Tracks.isSome_iff (h : Tracks b t now es) (id : String) :
    (t id).isSome = true ↔ id ∈ b.ids := by
  rw [h.ids_eq, Option.isSome_iff_exists, List.mem_map]
  exact exists_congr fun e => h.mem_iff id e

theorem tracks_empty (dedupe : Bool) : Tracks ⟨[], dedupe⟩ (fun _ => none) 0 [] where
  entries := rfl
  distinct := List.nodup_nil
  named := nofun
  aging := .nil
  past := nofun
  mem_iff _ _ := ⟨nofun, fun h => absurd h.1 List.not_mem_nil⟩

theorem Tracks.later (h : Tracks b t now es) : Tracks b t (now + 1) es :=
  { h with past := fun e he => Nat.lt_succ_of_lt (h.past e he) }

/-- A rule that is added is the youngest one. -/
theorem Tracks.add {r : Rule} (h : Tracks b t now es) (hblank : Text.isBlankString r.id = false)
    (hnew : r.id ∉ b.ids) :
    Tracks { b with entries := b.entries ++ [.of r] } (Function.update t r.id (some (r, now)))
      (now + 1) (es ++ [(r, now)]) where
  entries := by
    rw [List.map_append, ← h.entries]
    rfl
  distinct := by
    rw [List.map_append, ← h.ids_eq]
    refine List.nodup_append'.mpr ⟨h.nodup_ids, List.nodup_singleton _, ?_⟩
    exact List.disjoint_singleton.mpr hnew
  named := List.forall_mem_append.mpr ⟨h.named, List.forall_mem_singleton.mpr hblank⟩
  aging := by
    refine List.pairwise_append.mpr ⟨h.aging, List.pairwise_singleton _ _, fun e he f hf => ?_⟩
    rw [List.mem_singleton.mp hf]
    exact h.past e he
  past := by
    refine List.forall_mem_append.mpr ⟨h.later.past, ?_⟩
    exact List.forall_mem_singleton.mpr (Nat.lt_succ_self now)
  mem_iff id e := by
    rw [List.mem_append, List.mem_singleton]
    by_cases hid : id = r.id
    · -- no rule had this id, so the new one is the only one
      subst hid
      have hold : ¬(e ∈ es ∧ e.1.id = r.id) := fun he =>
        hnew (h.ids_eq ▸ List.mem_map.mpr ⟨e, he⟩)
      rw [Function.update_self, Option.some.injEq, or_and_right, or_iff_right hold]
      constructor
      · rintro rfl
        exact ⟨rfl, rfl⟩
      · exact fun he => he.1.symm
    · rw [Function.update_of_ne hid, h.mem_iff, or_and_right, iff_self_or]
      rintro ⟨rfl, hr⟩
      exact absurd hr.symm hid

theorem Tracks.remove (h : Tracks b t now es) (id : String) :
    Tracks (b.remove id) (Function.update t id none) now (es.filter (·.1.id ≠ id)) where
  entries := by
    rw [RuleBook.remove, removeFirst_eq_filter h.nodup_ids, h.entries, List.filter_map]
    rfl
  distinct := h.distinct.sublist (List.filter_sublist.map _)
  named e he := h.named e (List.mem_filter.mp he).1
  aging := h.aging.filter _
  past e he := h.past e (List.mem_filter.mp he).1
  mem_iff id' e := by
    rw [List.mem_filter, decide_eq_true_eq]
    by_cases hid : id' = id
    · subst hid
      rw [Function.update_self]
      exact ⟨nofun, fun he => absurd he.2 he.1.2⟩
    · rw [Function.update_of_ne hid, h.mem_iff]
      constructor
      · rintro ⟨he, rfl⟩
        exact ⟨⟨he, hid⟩, rfl⟩
      · exact fun he => ⟨he.1.1, he.2⟩

/-- The rule, switched if it has the id. -/
def Dated.switched (id : String) (enabled : Bool) (e : Dated) : Dated :=
  if e.1.id = id then ({ e.1 with enabled }, e.2) else e

theorem id_switched (id : String) (enabled : Bool) (e : Dated) :
    (e.switched id enabled).1.id = e.1.id := by
  rw [Dated.switched]
  split <;> rfl

theorem snd_switched (id : String) (enabled : Bool) (e : Dated) :
    (e.switched id enabled).2 = e.2 := by
  rw [Dated.switched]
  split <;> rfl

/-- A rule that is switched keeps its age. -/
theorem Tracks.switch (h : Tracks b t now es) (id : String) (enabled : Bool) :
    Tracks (b.setEnabled id enabled)
      (Function.update t id ((t id).map fun e => ({ e.1 with enabled }, e.2))) now
      (es.map (Dated.switched id enabled)) where
  entries := by
    rw [RuleBook.setEnabled, switchFirst_eq_map h.nodup_ids, h.entries, List.map_map, List.map_map]
    refine List.map_congr_left fun e _ => ?_
    simp only [Function.comp_apply, Dated.switched, ParsedRule.of]
    split <;> rfl
  distinct := by
    rw [List.map_map]
    simpa only [Function.comp_def, id_switched] using h.distinct
  named := List.forall_mem_map.mpr fun e he => (id_switched id enabled e).symm ▸ h.named e he
  aging := List.pairwise_map.mpr (by simpa only [snd_switched] using h.aging)
  past := List.forall_mem_map.mpr fun e he => (snd_switched id enabled e).symm ▸ h.past e he
  mem_iff id' e := by
    rw [List.mem_map]
    by_cases hid : id' = id
    · subst hid
      rw [Function.update_self, Option.map_eq_some_iff]
      constructor
      · rintro ⟨a, ha, rfl⟩
        obtain ⟨ha, haid⟩ := (h.mem_iff id' a).mp ha
        exact ⟨⟨a, ha, if_pos haid⟩, haid⟩
      · rintro ⟨⟨a, ha, rfl⟩, hid⟩
        rw [id_switched] at hid
        exact ⟨a, (h.mem_iff id' a).mpr ⟨ha, hid⟩, (if_pos hid).symm⟩
    · -- another id: no rule that has it is switched
      rw [Function.update_of_ne hid, h.mem_iff]
      constructor
      · rintro ⟨he, rfl⟩
        exact ⟨⟨e, he, if_neg hid⟩, rfl⟩
      · rintro ⟨⟨a, ha, rfl⟩, hid'⟩
        rw [id_switched] at hid'
        have hkept : a.switched id enabled = a := if_neg (hid' ▸ hid)
        rw [hkept]
        exact ⟨ha, hid'⟩

/-- A change keeps a book its table. -/
theorem exists_tracks_change (h : Tracks b t now es) (c : Change) :
    ∃ es', Tracks (b.change c).2 (t.after now c) (now + 1) es' := by
  have hresponds : b.Responds := responds h.nodup_ids
  cases c with
  | add r =>
    rw [Table.after]
    -- the book refuses exactly what the table passes over
    by_cases hrefused : Text.isBlankString r.id = true ∨ r.id ∈ b.ids
    · rw [hresponds.refused r hrefused, if_pos (hrefused.imp_right (h.isSome_iff r.id).mpr)]
      exact ⟨es, h.later⟩
    · obtain ⟨hblank, hnew⟩ := not_or.mp hrefused
      rw [hresponds.added r (Bool.eq_false_iff.mpr hblank) hnew,
        if_neg (fun hor => hrefused (hor.imp_right (h.isSome_iff r.id).mp))]
      exact ⟨_, h.add (Bool.eq_false_iff.mpr hblank) hnew⟩
  | remove id => exact ⟨_, (h.remove id).later⟩
  | switch id enabled => exact ⟨_, (h.switch id enabled).later⟩

theorem exists_tracks_changeAll (h : Tracks b t now es) (history : List Change) :
    ∃ now' es', Tracks (b.changeAll history) (t.afterAll now history) now' es' := by
  induction history generalizing b t now es with
  | nil => exact ⟨now, es, h⟩
  | cons c history ih =>
    obtain ⟨es', h'⟩ := exists_tracks_change h c
    exact ih h'

theorem exists_tracks_administered (dedupe : Bool) (history : List Change) :
    ∃ now es, Tracks (administered dedupe history) (.ofHistory history) now es := by
  -- the built-in rules are added like any others, so that they are the oldest
  have hbuiltin : { builtin with dedupe } = changeAll ⟨[], dedupe⟩ (builtinRules.map .add) := rfl
  have hbook : administered dedupe history =
      changeAll ⟨[], dedupe⟩ (builtinRules.map .add ++ history) := by
    rw [administered, hbuiltin, changeAll, changeAll, changeAll, List.foldl_append]
  rw [hbook]
  exact exists_tracks_changeAll (tracks_empty dedupe) _

theorem Tracks.mem_entries_iff (h : Tracks b t now es) (r : Rule) :
    r ∈ b.entries.map ParsedRule.rule ↔ ∃ time, t r.id = some (r, time) := by
  rw [h.entries, List.map_map, List.mem_map]
  constructor
  · rintro ⟨e, he, rfl⟩
    exact ⟨e.2, (h.mem_iff _ e).mpr ⟨he, rfl⟩⟩
  · rintro ⟨time, hr⟩
    exact ⟨(r, time), ((h.mem_iff _ _).mp hr).1, rfl⟩

theorem Tracks.rule?_eq (h : Tracks b t now es) (id : String) :
    b.rule? id = (t id).map Prod.fst := by
  cases hid : t id with
  | none =>
    refine rule?_eq_none_iff.mpr fun hmem => ?_
    rw [← h.isSome_iff, hid] at hmem
    cases hmem
  | some e =>
    obtain ⟨he, rfl⟩ := (h.mem_iff id e).mp hid
    have hentry : ParsedRule.of e.1 ∈ b.entries := h.entries ▸ List.mem_map_of_mem he
    exact rule?_of_mem h.nodup_ids hentry

/-- Sorting by priority keeps rules of one priority in the order of their times. -/
theorem Tracks.pairwise_rules (h : Tracks b t now es) : b.rules.Pairwise t.Precedes := by
  let placed : List Placed := es.map fun e => (.of e.1, e.2)
  have hfst : placed.map Prod.fst = b.entries := by
    rw [h.entries, List.map_map]
    rfl
  have hsorted : (placed.insertionSort PlacedAtLeast).Pairwise Before :=
    pairwise_insertionSort (List.pairwise_map.mpr h.aging)
  have hdated : ∀ p ∈ placed.insertionSort PlacedAtLeast,
      t p.1.rule.id = some (p.1.rule, p.2) := by
    intro p hp
    obtain ⟨e, he, rfl⟩ := List.mem_map.mp ((List.mem_insertionSort PlacedAtLeast).mp hp)
    exact (h.mem_iff _ e).mpr ⟨he, rfl⟩
  rw [rules, byPriority_eq, ← hfst, ← map_fst_insertionSort, List.map_map, List.pairwise_map]
  refine hsorted.imp_of_mem fun {p q} hp hq hbefore => hbefore.imp_right fun hequal => ?_
  exact ⟨hequal.1, p.2, q.2, hdated p hp, hdated q hq, hequal.2⟩

/-- A book that is a table is sound. -/
theorem Tracks.sound (h : Tracks b t now es) : b.Sound t where
  distinct := h.nodup_ids
  named := by
    rw [h.ids_eq]
    exact List.forall_mem_map.mpr h.named
  parsed := by
    rw [h.entries]
    exact List.forall_mem_map.mpr fun _ _ => rfl
  stored := h.mem_entries_iff
  lookup := h.rule?_eq
  listed := by
    rw [rules, byPriority_eq]
    exact (List.perm_insertionSort AtLeast b.entries).map _
  ordered := h.pairwise_rules
  visited m approval path := by
    -- the rules are parsed as they are when they are listed
    have hparsed : ∀ p ∈ b.byPriority, ParsedRule.of p.rule = p := by
      intro p hp
      rw [byPriority_eq, List.mem_insertionSort, h.entries] at hp
      obtain ⟨e, -, rfl⟩ := List.mem_map.mp hp
      rfl
    have hlisted : (b.rules.filter (·.enabled)).map .of =
        b.byPriority.filter (·.rule.enabled) := by
      rw [rules, List.filter_map, List.map_map]
      refine (List.map_congr_left fun p hp => ?_).trans (List.map_id _)
      exact hparsed p (List.mem_filter.mp hp).1
    rw [hlisted]
    rfl

end Tracking

/-! ## Adding rules in order -/

variable {b b' : RuleBook} {rs : List Rule}

theorem eq_changeAll_of_addAll (h : b.addAll rs = .ok b') : b' = b.changeAll (rs.map .add) := by
  induction rs generalizing b with
  | nil =>
    cases h
    rfl
  | cons r rs ih =>
    obtain ⟨b₁, hadd, hrest⟩ := bind_eq_ok h
    have hchange : (b.change (.add r)).2 = b₁ := by rw [change, hadd]
    rw [ih hrest, ← hchange]
    rfl

/-- Adding rules fails exactly if an id among them is blank, stands there twice or is taken. -/
theorem addAll_eq_error_iff :
    (∃ why, b.addAll rs = .error why) ↔
      (∃ r ∈ rs, Text.isBlankString r.id = true) ∨ ¬(rs.map Rule.id).Nodup ∨
        ∃ r ∈ rs, r.id ∈ b.ids := by
  induction rs generalizing b with
  | nil =>
    constructor
    · rintro ⟨why, h⟩
      cases h
    · rintro (⟨r, hr, -⟩ | hrepeated | ⟨r, hr, -⟩)
      · cases hr
      · exact absurd List.nodup_nil hrepeated
      · cases hr
  | cons r rs ih =>
    cases hadd : b.add r with
    | error why =>
      have hclash := add_eq_error_iff.mp ⟨why, hadd⟩
      have herror : b.addAll (r :: rs) = .error why := by
        rw [addAll, hadd]
        rfl
      refine iff_of_true ⟨why, herror⟩ ?_
      exact hclash.imp (fun hblank => ⟨r, .head _, hblank⟩) fun htaken => .inr ⟨r, .head _, htaken⟩
    | ok b₁ =>
      have hclash : ¬(Text.isBlankString r.id = true ∨ r.id ∈ b.ids) := by
        rw [← add_eq_error_iff, hadd]
        exact nofun
      obtain ⟨hblank, htaken⟩ := not_or.mp hclash
      have hids : b₁.ids = b.ids ++ [r.id] := by
        rw [add_eq, if_neg hblank, if_neg htaken] at hadd
        cases hadd
        rw [ids, List.map_append]
        rfl
      have hrest : b.addAll (r :: rs) = b₁.addAll rs := by
        rw [addAll, hadd]
        rfl
      -- the next rules must not have this id either
      have hnext : (∃ s ∈ rs, s.id ∈ b.ids ++ [r.id]) ↔
          (∃ s ∈ rs, s.id = r.id) ∨ ∃ s ∈ rs, s.id ∈ b.ids := by
        simp only [List.mem_append, List.mem_singleton, and_or_left, exists_or, or_comm]
      rw [hrest, ih, hids, hnext]
      simp only [List.mem_cons, exists_eq_or_imp, hblank, htaken, Bool.false_eq_true, false_or,
        List.map_cons, List.nodup_cons, List.mem_map, not_and_or, not_not]
      exact or_congr_right (or_left_comm.trans or_assoc.symm)

end RuleBook

/-! ## Gates -/

namespace Gate

open RuleBook (Change administered)
open RuleBook.Table (ofHistory)

theorem sound_administered (dedupe : Bool) (history : List Change) :
    (administered dedupe history).Sound (ofHistory history) ∧
      (administered dedupe history).Responds := by
  obtain ⟨now, es, h⟩ := RuleBook.exists_tracks_administered dedupe history
  exact ⟨h.sound, RuleBook.responds h.nodup_ids⟩

variable {p : Project} {c : Config} {sink : Sink} {g : Gate}

theorem ofConfig_eq_error_iff :
    (∃ failure, ofConfig p c sink = .error failure) ↔
      ∃ why, RuleBook.addAll { RuleBook.builtin with dedupe := c.dedupe } c.rules = .error why := by
  rw [ofConfig]
  split
  · rename_i hadd
    rw [hadd]
    exact ⟨nofun, nofun⟩
  · rename_i why hadd
    exact ⟨fun _ => ⟨why, hadd⟩, fun _ => ⟨_, rfl⟩⟩

/-- A gate has the built-in rules with the configured ones added to them. -/
theorem book_of_ofConfig (h : ofConfig p c sink = .ok g) :
    g.book = administered c.dedupe (c.rules.map .add) := by
  rw [ofConfig] at h
  split at h
  · rename_i hadd
    cases h
    exact RuleBook.eq_changeAll_of_addAll hadd
  · cases h

/-- Whatever is added, removed and switched, the rules of a book are those of the table that the
changes leave, and are listed and visited by falling priority and by age among equals; a change
concerns the rule of its id and no other. Opening a gate fails exactly if a configured id is blank,
stands there twice or is the id of a built-in rule. A gate that is opened has the built-in rules
with the configured ones added to them, so the same holds of its rules, then and after further
changes. -/
theorem administration_sound :
    (∀ dedupe history, (administered dedupe history).Sound (ofHistory history) ∧
      (administered dedupe history).Responds) ∧
    ∀ (p : Project) (c : Config) (sink : Sink),
      ((∃ failure, ofConfig p c sink = .error failure) ↔
        (∃ r ∈ c.rules, Text.isBlankString r.id = true) ∨ ¬(c.rules.map Rule.id).Nodup ∨
          ∃ r ∈ c.rules, r.id ∈ builtinRules.map Rule.id) ∧
      ∀ g, ofConfig p c sink = .ok g → ∀ history,
        (g.book.changeAll history).Sound (ofHistory (c.rules.map .add ++ history)) ∧
          (g.book.changeAll history).Responds := by
  refine ⟨sound_administered, fun p c sink => ⟨?_, fun g hopen history => ?_⟩⟩
  · have hids : RuleBook.ids { RuleBook.builtin with dedupe := c.dedupe } =
        builtinRules.map Rule.id := rfl
    rw [ofConfig_eq_error_iff, RuleBook.addAll_eq_error_iff, hids]
  · have hbook : g.book.changeAll history =
        administered c.dedupe (c.rules.map .add ++ history) := by
      rw [book_of_ofConfig hopen, administered, administered, RuleBook.changeAll,
        RuleBook.changeAll, RuleBook.changeAll, List.foldl_append]
    rw [hbook]
    exact sound_administered c.dedupe _

def twinRule (id : String) : Rule where
  id := id
  name := ""
  condition := "!isDeprecated()"
  action := id
  priority := 9

/-- Two rules of one priority, which is also that of a built-in rule. -/
def twinConfig : Config where
  rules := [twinRule "first", twinRule "second"]

/-- One of the rules is removed and added again. -/
def returned : List Change := [.remove "first", .add (twinRule "first")]

def twinGate : Gate where
  project := ⟨"/p".toList⟩
  ledgerPath := twinConfig.ledgerPath ⟨"/p".toList⟩
  book := administered true (twinConfig.rules.map .add)
  sink := .discard

/-- The rule that was removed and added again comes behind the other one. -/
theorem sound_returned :
    ofConfig ⟨"/p".toList⟩ twinConfig .discard = .ok twinGate ∧
      (twinGate.book.changeAll returned).Sound
        (ofHistory (twinConfig.rules.map .add ++ returned)) ∧
      twinGate.rules.map Rule.id = ["read-only-protection", "high-risk-needs-dev-approval",
        "first", "second", "review-required", "stable-code-needs-dev-approval",
        "deprecated-warning"] ∧
      (twinGate.book.changeAll returned).rules.map Rule.id = ["read-only-protection",
        "high-risk-needs-dev-approval", "second", "first", "review-required",
        "stable-code-needs-dev-approval", "deprecated-warning"] := by
  have hopen : ofConfig ⟨"/p".toList⟩ twinConfig .discard = .ok twinGate := rfl
  have hgate := (administration_sound.2 ⟨"/p".toList⟩ twinConfig .discard).2
  exact ⟨hopen, (hgate twinGate hopen returned).1, rfl, rfl⟩

end Gate

end EditGate
