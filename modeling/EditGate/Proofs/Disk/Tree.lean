import EditGate.Disk.Basic

/-!
# Disks as trees

What is at each place after something was put, removed or moved (`node?_put`, `node?_removeTree`,
`node?_moveTree`). On a disk that is a tree everything is in a directory (`IsTree`), so nothing is
below a file; putting something into a directory and moving a place keep a disk a tree.
-/

namespace EditGate.Disk

variable {d : Disk} {p q r : Place} {n : Node}

theorem node?_nil (d : Disk) : d.node? [] = some .directory := if_pos rfl

theorem node?_of_ne_nil (d : Disk) (h : p ≠ []) : d.node? p = d.entries.lookup p := if_neg h

/-! ## Putting -/

theorem lookup_cons_eq_if (p q : Place) (n : Node) (es : List (Place × Node)) :
    ((p, n) :: es).lookup q = if q = p then some n else es.lookup q := by
  rw [List.lookup_cons]
  by_cases h : q = p
  · rw [if_pos h, beq_iff_eq.mpr h]
  · rw [if_neg h, beq_eq_false_iff_ne.mpr h]

theorem lookup_putIn (p q : Place) (n : Node) (es : List (Place × Node)) :
    (putIn p n es).lookup q = if q = p then some n else es.lookup q := by
  induction es with
  | nil => rw [putIn, lookup_cons_eq_if]
  | cons e es ih =>
    obtain ⟨k, m⟩ := e
    rw [putIn]
    by_cases hk : k = p
    · rw [if_pos hk, lookup_cons_eq_if, lookup_cons_eq_if, hk]
      by_cases h : q = p
      · rw [if_pos h, if_pos h]
      · rw [if_neg h, if_neg h, if_neg h]
    · rw [if_neg hk, lookup_cons_eq_if, lookup_cons_eq_if, ih]
      by_cases h : q = k
      · rw [if_pos h, if_neg fun hq => hk (h.symm.trans hq), if_pos h]
      · rw [if_neg h, if_neg h]

theorem node?_put (hp : p ≠ []) (q : Place) :
    (d.put p n).node? q = if q = p then some n else d.node? q := by
  by_cases hq : q = []
  · rw [hq, node?_nil, node?_nil, if_neg (Ne.symm hp)]
  · rw [node?_of_ne_nil _ hq, node?_of_ne_nil _ hq, put, lookup_putIn]

theorem node?_put_self (hp : p ≠ []) : (d.put p n).node? p = some n := by
  rw [node?_put hp, if_pos rfl]

theorem node?_put_of_ne (hp : p ≠ []) (h : q ≠ p) : (d.put p n).node? q = d.node? q := by
  rw [node?_put hp, if_neg h]

/-! ## Removing -/

theorem not_isPrefixOf_iff : (!p.isPrefixOf q) = true ↔ ¬p <+: q := by
  rw [← List.isPrefixOf_iff_prefix, Bool.not_eq_true', Bool.not_eq_true]

theorem lookup_filter (f : Place → Bool) (q : Place) (es : List (Place × Node)) :
    (es.filter fun e => f e.1).lookup q = if f q = true then es.lookup q else none := by
  induction es with
  | nil => simp
  | cons e es ih =>
    obtain ⟨k, m⟩ := e
    rw [List.filter_cons, lookup_cons_eq_if]
    by_cases hk : f k = true
    · rw [if_pos hk, lookup_cons_eq_if, ih]
      by_cases hq : q = k
      · rw [if_pos hq, if_pos hq, if_pos (hq ▸ hk)]
      · rw [if_neg hq, if_neg hq]
    · rw [if_neg hk, ih]
      by_cases hq : q = k
      · rw [if_neg (hq ▸ hk), if_neg (hq ▸ hk)]
      · rw [if_neg hq]

theorem node?_removeTree (hp : p ≠ []) (q : Place) :
    (d.removeTree p).node? q = if p <+: q then none else d.node? q := by
  by_cases hq : q = []
  · have hnot : ¬p <+: [] := fun h => hp (List.prefix_nil.mp h)
    rw [hq, node?_nil, node?_nil, if_neg hnot]
  · rw [node?_of_ne_nil _ hq, node?_of_ne_nil _ hq, removeTree]
    rw [lookup_filter fun x => !p.isPrefixOf x]
    by_cases h : p <+: q
    · rw [if_pos h, if_neg fun hnot => not_isPrefixOf_iff.mp hnot h]
    · rw [if_neg h, if_pos (not_isPrefixOf_iff.mpr h)]

/-! ## Moving -/

theorem moved_append (p q s : Place) : moved p q (p ++ s) = q ++ s := by
  rw [moved, if_pos (List.isPrefixOf_iff_prefix.mpr (List.prefix_append p s)), List.drop_left]

theorem moved_of_not_below (h : ¬p <+: r) : moved p q r = r :=
  if_neg fun hp => h (List.isPrefixOf_iff_prefix.mp hp)

/-- Looking up a place among moved ones, where every place that is moved to one comes from one. -/
theorem lookup_map_moved {es : List (Place × Node)} {origin : Place}
    (h : ∀ e ∈ es, moved p q e.1 = r ↔ e.1 = origin) :
    (es.map fun e => (moved p q e.1, e.2)).lookup r = es.lookup origin := by
  induction es with
  | nil => rfl
  | cons e es ih =>
    obtain ⟨k, m⟩ := e
    have ih := ih fun e he => h e (List.mem_cons_of_mem _ he)
    have hk := h (k, m) List.mem_cons_self
    rw [List.map_cons, lookup_cons_eq_if, lookup_cons_eq_if, ih]
    by_cases ho : origin = k
    · rw [if_pos ho, if_pos (hk.mpr ho.symm).symm]
    · rw [if_neg ho, if_neg fun hr => ho (hk.mp hr.symm).symm]

section Move

variable (hp : p ≠ []) (hq : q ≠ []) (hpq : ¬p <+: q) (hqp : ¬q <+: p)

/-- Nothing that stays is below the target. -/
theorem not_prefix_of_mem_removeTree {e : Place × Node} (h : e ∈ (d.removeTree q).entries) :
    ¬q <+: e.1 :=
  not_isPrefixOf_iff.mp (List.mem_filter.mp h).2

include hp hq hpq hqp in
/-- What was at or below the source is at or below the target. -/
theorem node?_moveTree_append (s : Place) : (d.moveTree p q).node? (q ++ s) = d.node? (p ++ s) := by
  have hqs : q ++ s ≠ [] := fun h => hq (List.append_eq_nil_iff.mp h).1
  have hps : p ++ s ≠ [] := fun h => hp (List.append_eq_nil_iff.mp h).1
  have hstays : ¬q <+: p ++ s := by
    intro h
    rcases List.prefix_or_prefix_of_prefix h (List.prefix_append p s) with h | h
    · exact hqp h
    · exact hpq h
  rw [node?_of_ne_nil _ hqs, moveTree, @lookup_map_moved p q _ _ (p ++ s)]
  · rw [← node?_of_ne_nil _ hps, node?_removeTree hq, if_neg hstays]
  · intro e he
    have hnot := not_prefix_of_mem_removeTree he
    by_cases hpe : p <+: e.1
    · obtain ⟨t, ht⟩ := hpe
      rw [← ht, moved_append]
      simp
    · rw [moved_of_not_below hpe]
      constructor
      · exact fun h => absurd (h ▸ List.prefix_append q s) hnot
      · exact fun h => absurd (h ▸ List.prefix_append p s) hpe

include hp hpq hqp in
/-- Nothing is left at or below the source. -/
theorem node?_moveTree_source (h : p <+: r) : (d.moveTree p q).node? r = none := by
  have hr : r ≠ [] := fun hr => hp (List.prefix_nil.mp (hr ▸ h))
  rw [node?_of_ne_nil _ hr, moveTree, List.lookup_eq_none_iff]
  intro e he
  obtain ⟨x, hx, rfl⟩ := List.mem_map.mp he
  rw [bne_iff_ne]
  intro hrx
  have hrx : r = moved p q x.1 := hrx
  by_cases hpx : p <+: x.1
  · obtain ⟨t, ht⟩ := hpx
    rw [← ht, moved_append] at hrx
    rcases List.prefix_or_prefix_of_prefix h (hrx ▸ List.prefix_append q t) with h | h
    · exact hpq h
    · exact hqp h
  · rw [moved_of_not_below hpx] at hrx
    exact hpx (hrx ▸ h)

include hq in
/-- Everything else stays where it is. -/
theorem node?_moveTree_of_not_below (hpr : ¬p <+: r) (hqr : ¬q <+: r) :
    (d.moveTree p q).node? r = d.node? r := by
  by_cases hr : r = []
  · rw [hr, node?_nil, node?_nil]
  · rw [node?_of_ne_nil _ hr, moveTree, @lookup_map_moved p q _ _ r]
    · rw [← node?_of_ne_nil _ hr, node?_removeTree hq, if_neg hqr]
    · intro e he
      by_cases hpe : p <+: e.1
      · obtain ⟨t, ht⟩ := hpe
        rw [← ht, moved_append]
        constructor
        · exact fun h => absurd (h ▸ List.prefix_append q t) hqr
        · exact fun h => absurd (h ▸ List.prefix_append p t) hpr
      · rw [moved_of_not_below hpe]

end Move

/-! ## Trees -/

/-- Everything is in a directory. -/
def IsTree (d : Disk) : Prop :=
  ∀ p n, p ≠ [] → d.node? p = some n → d.node? p.dropLast = some .directory

/-- What is at a place that is not the root is an entry. -/
theorem mem_entries_of_node? {n : Node} (hp : p ≠ []) (hn : d.node? p = some n) :
    (p, n) ∈ d.entries := by
  rw [node?_of_ne_nil d hp, List.lookup_eq_some_iff] at hn
  obtain ⟨before, after, hentries, -⟩ := hn
  rw [hentries]
  simp

/-- A disk is a tree if all of its entries are in directories. -/
theorem isTree_of_entries (h : ∀ e ∈ d.entries, d.node? e.1.dropLast = some .directory) :
    d.IsTree := fun _ _ hp hn => h _ (mem_entries_of_node? hp hn)

/-- Every place on the way to something is a directory. -/
theorem IsTree.directory_above (h : d.IsTree) {n : Node} (hn : d.node? (p ++ r) = some n)
    (hr : r ≠ []) : d.node? p = some .directory := by
  induction hlen : r.length generalizing r n with
  | zero => exact absurd (List.length_eq_zero_iff.mp hlen) hr
  | succ k ih =>
    have hpr : p ++ r ≠ [] := fun he => hr (List.append_eq_nil_iff.mp he).2
    have hup := h (p ++ r) n hpr hn
    rw [List.dropLast_append_of_ne_nil hr] at hup
    by_cases hnil : r.dropLast = []
    · rw [hnil, List.append_nil] at hup
      exact hup
    · exact ih hup hnil (by rw [List.length_dropLast]; omega)

/-- Nothing is below a place that is no directory. -/
theorem IsTree.eq_of_prefix (h : d.IsTree) (hp : d.node? p ≠ some .directory) (hpq : p <+: q)
    (hn : d.node? q = some n) : q = p := by
  obtain ⟨r, rfl⟩ := hpq
  by_cases hr : r = []
  · rw [hr, List.append_nil]
  · exact absurd (h.directory_above hn hr) hp

/-- A directory is not below a place that is no directory. -/
theorem IsTree.not_below (h : d.IsTree) (hp : d.node? p ≠ some .directory)
    (hq : d.node? q = some .directory) : ¬p <+: q := by
  intro hpq
  exact hp (h.eq_of_prefix hp hpq hq ▸ hq)

theorem IsTree.put (h : d.IsTree) (hp : p ≠ []) (hup : d.node? p.dropLast = some .directory)
    (hn : n = .directory ∨ d.node? p ≠ some .directory) : (d.put p n).IsTree := by
  intro q m hq hm
  have hne : p.dropLast ≠ p := by
    intro he
    have := congrArg List.length he
    have hpos := List.length_pos_iff.mpr hp
    rw [List.length_dropLast] at this
    omega
  by_cases hqp : q = p
  · rw [hqp, node?_put_of_ne hp hne, hup]
  · rw [node?_put_of_ne hp hqp] at hm
    have hold := h q m hq hm
    by_cases hdrop : q.dropLast = p
    · -- what was put has something in it already
      rcases hn with rfl | hn
      · rw [hdrop, node?_put_self hp]
      · exact absurd (hdrop ▸ hold) hn
    · rw [node?_put_of_ne hp hdrop, hold]

theorem dropLast_append_of_ne {s : Place} (hs : s ≠ []) : (q ++ s).dropLast = q ++ s.dropLast :=
  List.dropLast_append_of_ne_nil hs

theorem IsTree.moveTree (h : d.IsTree) (hp : p ≠ []) (hq : q ≠ []) (hpq : ¬p <+: q)
    (hqp : ¬q <+: p) (hup : d.node? q.dropLast = some .directory) : (d.moveTree p q).IsTree := by
  intro r n hr hn
  by_cases hqr : q <+: r
  · obtain ⟨s, rfl⟩ := hqr
    rw [node?_moveTree_append hp hq hpq hqp] at hn
    by_cases hs : s = []
    · -- the target itself is in the directory that it was put in
      rw [hs, List.append_nil]
      have hp' : ¬p <+: q.dropLast := fun hpre => hpq (hpre.trans (List.dropLast_prefix q))
      have hq' : ¬q <+: q.dropLast := by
        intro hpre
        have hle := hpre.length_le
        have hpos := List.length_pos_iff.mpr hq
        rw [List.length_dropLast] at hle
        omega
      rw [node?_moveTree_of_not_below hq hp' hq', hup]
    · have hps : p ++ s ≠ [] := fun he => hs (List.append_eq_nil_iff.mp he).2
      have hold := h (p ++ s) n hps hn
      rw [dropLast_append_of_ne hs] at hold ⊢
      rw [node?_moveTree_append hp hq hpq hqp, hold]
  · by_cases hpr : p <+: r
    · rw [node?_moveTree_source hp hpq hqp hpr] at hn
      exact absurd hn (by simp)
    · rw [node?_moveTree_of_not_below hq hpr hqr] at hn
      have hp' : ¬p <+: r.dropLast := fun hpre => hpr (hpre.trans (List.dropLast_prefix r))
      have hq' : ¬q <+: r.dropLast := fun hpre => hqr (hpre.trans (List.dropLast_prefix r))
      rw [node?_moveTree_of_not_below hq hp' hq', h r n hr hn]

/-! ## Replacing -/

theorem node?_below_of_not_hasEntriesBelow (h : d.hasEntriesBelow q = false) {s : Place}
    (hs : s ≠ []) : d.node? (q ++ s) = none := by
  have hqs : q ++ s ≠ [] := fun he => hs (List.append_eq_nil_iff.mp he).2
  rw [node?_of_ne_nil _ hqs, List.lookup_eq_none_iff]
  intro e he
  rw [hasEntriesBelow, List.any_eq_false] at h
  have hnot := h e he
  rw [bne_iff_ne]
  intro heq
  rw [← heq] at hnot
  simp [hs] at hnot

/-- What may be replaced is nothing, a file by a file, or an empty directory by a directory. -/
theorem mayReplace_cases (hn : d.node? p = some n) (h : d.mayReplace p q = .ok ()) :
    d.node? q = none ∨ (d.node? q ≠ some .directory ∧ n ≠ .directory) ∨
      (n = .directory ∧ ∀ s, s ≠ [] → d.node? (q ++ s) = none) := by
  rw [mayReplace, hn] at h
  cases hq : d.node? q with
  | none => exact .inl rfl
  | some m =>
    rw [hq] at h
    cases n with
    | file c =>
      cases m with
      | file c' => exact .inr (.inl ⟨by simp, by simp⟩)
      | directory => exact nomatch h
    | directory =>
      cases m with
      | file c' => exact nomatch h
      | directory =>
        refine .inr (.inr ⟨rfl, fun s hs => ?_⟩)
        cases hbelow : d.hasEntriesBelow q with
        | false => exact node?_below_of_not_hasEntriesBelow hbelow hs
        | true => simp [hbelow] at h

/-- Moving loses no directory but those that are moved. -/
theorem directory_moveTree (h : d.IsTree) (hp : p ≠ []) (hq : q ≠ []) (hpq : ¬p <+: q)
    (hqp : ¬q <+: p) (hn : d.node? p = some n) (hmay : d.mayReplace p q = .ok ())
    (hr : d.node? r = some .directory) (hpr : ¬p <+: r) :
    (d.moveTree p q).node? r = some .directory := by
  by_cases hqr : q <+: r
  · rcases mayReplace_cases hn hmay with hnone | ⟨hfile, -⟩ | ⟨hdir, hempty⟩
    · exact absurd hqr (h.not_below (by rw [hnone]; simp) hr)
    · exact absurd hqr (h.not_below hfile hr)
    · obtain ⟨s, rfl⟩ := hqr
      by_cases hs : s = []
      · rw [node?_moveTree_append hp hq hpq hqp, hs, List.append_nil, hn, hdir]
      · rw [hempty s hs] at hr
        exact absurd hr (by simp)
  · rw [node?_moveTree_of_not_below hq hpr hqr, hr]

/-- Moving a file changes what is at two places. -/
theorem node?_moveTree_file (h : d.IsTree) (hp : p ≠ []) (hq : q ≠ []) (hpq : ¬p <+: q)
    (hqp : ¬q <+: p) {c : ByteArray} (hn : d.node? p = some (.file c))
    (hmay : d.mayReplace p q = .ok ()) (hrp : r ≠ p) (hrq : r ≠ q) :
    (d.moveTree p q).node? r = d.node? r := by
  have hpfile : d.node? p ≠ some .directory := by rw [hn]; simp
  have hqfile : d.node? q ≠ some .directory := by
    rcases mayReplace_cases hn hmay with hnone | ⟨hfile, -⟩ | ⟨hdir, -⟩
    · rw [hnone]
      simp
    · exact hfile
    · exact absurd hdir (by simp)
  by_cases hpr : p <+: r
  · rw [node?_moveTree_source hp hpq hqp hpr]
    cases hr : d.node? r with
    | none => rfl
    | some m => exact absurd (h.eq_of_prefix hpfile hpr hr) hrp
  · by_cases hqr : q <+: r
    · -- nothing is below either of the two
      obtain ⟨s, rfl⟩ := hqr
      have hs : s ≠ [] := fun hs => hrq (by rw [hs, List.append_nil])
      have hold : d.node? (q ++ s) = none := by
        cases hr : d.node? (q ++ s) with
        | none => rfl
        | some m => exact absurd (h.eq_of_prefix hqfile (List.prefix_append q s) hr) hrq
      rw [node?_moveTree_append hp hq hpq hqp, hold]
      cases hr : d.node? (p ++ s) with
      | none => rfl
      | some m => exact absurd (h.directory_above hr hs) hpfile
    · rw [node?_moveTree_of_not_below hq hpr hqr]

end EditGate.Disk
