import EditGate.Proofs.Condition.Printing

/-!
# How deep parsed expressions are

The levels bound how deep the parsers go, not how deep the expressions are that they answer. Each
operator of a chain takes a level away from the operands behind it. The first operand is read before
any of them, with all levels, and yet stands below all of them in the expression. A way down an
expression is therefore counted twice: the conjunctions and disjunctions that it leaves to their
left operand, and all the other operators and calls (`Descends`).

There are at most `maxDepth` others, since each takes a level from what stands below it. At each
level, two chains can stand above an operand, one of conjunctions and one of disjunctions, and
either is at most as long as there are levels below (`confined_level`, by induction on the level).
Both bounds are met, even on one way (`descends_iff`).
-/

namespace EditGate.Condition

/-! ## Ways down an expression -/

/-- `Descends e l m`: a way down `e`, from its root to a leaf, passes `l` conjunctions and
disjunctions to their left operand, and `m` other negations, conjunctions, disjunctions and
calls. -/
inductive Descends : Expr → Nat → Nat → Prop where
  | literal {v : Value} : Descends (.literal v) 0 0
  | path {ws : List String} : Descends (.path ws) 0 0
  | emptyCall {f : String} : Descends (.call f []) 0 1
  | call {f : String} {args : List Expr} {a : Expr} {l m : Nat} :
    a ∈ args → Descends a l m → Descends (.call f args) l (m + 1)
  | not {e : Expr} {l m : Nat} : Descends e l m → Descends (.not e) l (m + 1)
  | andLeft {a b : Expr} {l m : Nat} : Descends a l m → Descends (.and a b) (l + 1) m
  | andRight {a b : Expr} {l m : Nat} : Descends b l m → Descends (.and a b) l (m + 1)
  | orLeft {a b : Expr} {l m : Nat} : Descends a l m → Descends (.or a b) (l + 1) m
  | orRight {a b : Expr} {l m : Nat} : Descends b l m → Descends (.or a b) l (m + 1)
  | eqLeft {a b : Expr} {l m : Nat} : Descends a l m → Descends (.eq a b) l m
  | eqRight {a b : Expr} {l m : Nat} : Descends b l m → Descends (.eq a b) l m
  | neLeft {a b : Expr} {l m : Nat} : Descends a l m → Descends (.ne a b) l m
  | neRight {a b : Expr} {l m : Nat} : Descends b l m → Descends (.ne a b) l m

/-- Every way down passes at most `lefts` operators to the left and `others` others. -/
def Expr.Within (lefts others : Nat) (e : Expr) : Prop :=
  ∀ ⦃l m⦄, Descends e l m → l ≤ lefts ∧ m ≤ others

namespace Expr.Within

variable {a b e : Expr} {l l' m m' : Nat}

theorem mono (h : e.Within l m) (hl : l ≤ l') (hm : m ≤ m') : e.Within l' m' :=
  fun _ _ hd => ⟨Nat.le_trans (h hd).1 hl, Nat.le_trans (h hd).2 hm⟩

theorem literal {v : Value} : (Expr.literal v).Within l m := by
  intro _ _ hd
  cases hd
  exact ⟨Nat.zero_le l, Nat.zero_le m⟩

theorem path {ws : List String} : (Expr.path ws).Within l m := by
  intro _ _ hd
  cases hd
  exact ⟨Nat.zero_le l, Nat.zero_le m⟩

theorem call {f : String} {args : List Expr} (h : ∀ a ∈ args, a.Within l m) :
    (Expr.call f args).Within l (m + 1) := by
  intro _ _ hd
  cases hd with
  | emptyCall => exact ⟨Nat.zero_le l, Nat.le_add_left 1 m⟩
  | call ha hd => exact ⟨(h _ ha hd).1, Nat.succ_le_succ (h _ ha hd).2⟩

theorem not (h : e.Within l m) : (Expr.not e).Within l (m + 1) := by
  intro _ _ hd
  cases hd with
  | not hd => exact ⟨(h hd).1, Nat.succ_le_succ (h hd).2⟩

theorem and (ha : a.Within l m) (hb : b.Within l' m') (hl : l' ≤ l) (hm : m' < m) :
    (Expr.and a b).Within (l + 1) m := by
  intro _ _ hd
  cases hd with
  | andLeft hd => exact ⟨Nat.succ_le_succ (ha hd).1, (ha hd).2⟩
  | andRight hd =>
    have hb := hb hd
    omega

theorem or (ha : a.Within l m) (hb : b.Within l' m') (hl : l' ≤ l) (hm : m' < m) :
    (Expr.or a b).Within (l + 1) m := by
  intro _ _ hd
  cases hd with
  | orLeft hd => exact ⟨Nat.succ_le_succ (ha hd).1, (ha hd).2⟩
  | orRight hd =>
    have hb := hb hd
    omega

theorem eq (ha : a.Within l m) (hb : b.Within l m) : (Expr.eq a b).Within l m := by
  intro _ _ hd
  cases hd with
  | eqLeft hd => exact ha hd
  | eqRight hd => exact hb hd

theorem ne (ha : a.Within l m) (hb : b.Within l m) : (Expr.ne a b).Within l m := by
  intro _ _ hd
  cases hd with
  | neLeft hd => exact ha hd
  | neRight hd => exact hb hd

end Expr.Within

/-! ## What the levels bound -/

/-- What the parser reads is within the bounds. -/
def Confines (lefts others : Nat) (p : Parser) : Prop :=
  ∀ ⦃ts e rest⦄, p ts = .ok (e, rest) → e.Within lefts others

/-- What the parsers read that have `n` levels below them. Two chains go on from an operand, and
each is at most `n` long. -/
structure Level.Confined (n : Nat) (level : Level) : Prop where
  unary : Confines ((n - 1) * n) n level.unary
  conjunction : Confines (n * n) n level.conjunction
  disjunction : Confines (n * (n + 1)) n level.disjunction
  moreConjuncts {a : Expr} {l k : Nat} : a.Within l k → (n - 1) * n ≤ l → n ≤ k →
    Confines (l + n) k (level.moreConjuncts a)
  moreDisjuncts {a : Expr} {l k : Nat} : a.Within l k → n * n ≤ l → n ≤ k →
    Confines (l + n) k (level.moreDisjuncts a)

section Levels

variable {n : Nat} {ts us rest : List Token} {a e : Expr}

/-- Whoever enters a level has it below. -/
theorem exists_of_enter {l : Level} (h : enter (below n) ts = .ok l) :
    ∃ m, n = m + 1 ∧ l = level m := by
  cases n with
  | zero => cases h
  | succ m =>
    cases h
    exact ⟨m, rfl, rfl⟩

theorem within_arguments {argument : Parser} {l m limit : Nat} {args : List Expr}
    (hargument : Confines l m argument) (h : arguments argument limit ts = .ok (args, rest)) :
    ∀ a ∈ args, a.Within l m := by
  induction limit generalizing ts args with
  | zero => cases h
  | succ limit ih =>
    obtain ⟨⟨e, us⟩, he, h⟩ := bind_eq_ok h
    have hfirst := hargument he
    dsimp only at h
    split at h
    · obtain ⟨⟨args', _⟩, hargs, h⟩ := bind_eq_ok h
      cases h
      exact List.forall_mem_cons.mpr ⟨hfirst, ih hargs⟩
    · cases h
      exact List.forall_mem_singleton.mpr hfirst
    · cases h

variable (hlevel : ∀ m, n = m + 1 → (level m).Confined m)
include hlevel

theorem within_call {f : String} (h : call (below n) f ts = .ok (e, rest)) :
    e.Within ((n - 1) * n) n := by
  obtain ⟨l, hl, h⟩ := bind_eq_ok h
  obtain ⟨m, rfl, rfl⟩ := exists_of_enter hl
  split at h
  · cases h
    exact .call nofun
  · obtain ⟨⟨args, _⟩, hargs, h⟩ := bind_eq_ok h
    cases h
    exact .call (within_arguments (hlevel m rfl).disjunction hargs)

theorem confines_operand : Confines ((n - 1) * n) n (operand (below n)) := by
  intro ts e rest h
  unfold operand at h
  split at h
  · cases h
  · -- parentheses take a level away and leave nothing in the expression
    obtain ⟨l, hl, hread⟩ := bind_eq_ok h
    obtain ⟨m, rfl, rfl⟩ := exists_of_enter hl
    obtain ⟨⟨e', us⟩, he, hclose⟩ := bind_eq_ok hread
    have hwithin := ((hlevel m rfl).disjunction he).mono (Nat.le_refl _) (Nat.le_succ m)
    dsimp only at hclose
    split at hclose
    · cases hclose
      exact hwithin
    · cases hclose
  · cases h
    exact .literal
  · next w ts =>
    split at h
    · cases h
      exact .literal
    · split at h
      · exact within_call hlevel h
      · cases hs : segments ts with
        | error _ => rw [hs] at h; cases h
        | ok r =>
          rw [hs] at h
          cases h
          exact .path
  · cases h

theorem confines_comparison : Confines ((n - 1) * n) n (comparison (below n)) := by
  intro ts e rest h
  obtain ⟨⟨a, us⟩, ha, hmore⟩ := bind_eq_ok h
  have hfirst := confines_operand hlevel ha
  dsimp only at hmore
  split at hmore
  · obtain ⟨⟨b, _⟩, hb, hdone⟩ := bind_eq_ok hmore
    cases hdone
    exact .eq hfirst (confines_operand hlevel hb)
  · obtain ⟨⟨b, _⟩, hb, hdone⟩ := bind_eq_ok hmore
    cases hdone
    exact .ne hfirst (confines_operand hlevel hb)
  · cases hmore
    exact hfirst

theorem confines_unary : Confines ((n - 1) * n) n (unary (below n)) := by
  intro ts e rest h
  unfold unary at h
  split at h
  · obtain ⟨l, hl, h⟩ := bind_eq_ok h
    obtain ⟨m, rfl, rfl⟩ := exists_of_enter hl
    obtain ⟨⟨e', _⟩, he, h⟩ := bind_eq_ok h
    cases h
    have hlefts : (m - 1) * m ≤ m * (m + 1) := Nat.mul_le_mul (Nat.sub_le m 1) (Nat.le_succ m)
    exact .not (((hlevel m rfl).unary he).mono hlefts (Nat.le_refl m))
  · exact confines_comparison hlevel h

/-- Each further operand makes all that was read stand to the left in one more conjunction. -/
theorem confines_moreConjuncts {l k : Nat} (ha : a.Within l k) (hl : (n - 1) * n ≤ l)
    (hk : n ≤ k) : Confines (l + n) k (moreConjuncts (below n) a) := by
  intro ts e rest h
  unfold moreConjuncts at h
  split at h
  · obtain ⟨_, hlower, h⟩ := bind_eq_ok h
    obtain ⟨m, rfl, rfl⟩ := exists_of_enter hlower
    obtain ⟨⟨b, us⟩, hb, h⟩ := bind_eq_ok h
    have hlefts : (m - 1) * m ≤ l :=
      Nat.le_trans (Nat.mul_le_mul (Nat.sub_le m 1) (Nat.le_succ m)) hl
    have hand := ha.and ((hlevel m rfl).unary hb) hlefts hk
    have hmore := (hlevel m rfl).moreConjuncts hand (Nat.le_succ_of_le hlefts)
      (Nat.le_of_succ_le hk) h
    exact hmore.mono (by omega) (Nat.le_refl k)
  · cases h
    exact ha.mono (Nat.le_add_right l n) (Nat.le_refl k)

theorem confines_conjunction : Confines (n * n) n (conjunction (below n)) := by
  intro ts e rest h
  obtain ⟨⟨a, us⟩, ha, hmore⟩ := bind_eq_ok h
  have hwithin := confines_moreConjuncts hlevel (confines_unary hlevel ha) (Nat.le_refl _)
    (Nat.le_refl n) hmore
  have hsquare : (n - 1) * n + n = n * n := by
    cases n with
    | zero => rfl
    | succ m => exact (Nat.succ_mul m (m + 1)).symm
  rwa [hsquare] at hwithin

/-- Each further operand makes all that was read stand to the left in one more disjunction. -/
theorem confines_moreDisjuncts {l k : Nat} (ha : a.Within l k) (hl : n * n ≤ l) (hk : n ≤ k) :
    Confines (l + n) k (moreDisjuncts (below n) a) := by
  intro ts e rest h
  unfold moreDisjuncts at h
  split at h
  · obtain ⟨_, hlower, h⟩ := bind_eq_ok h
    obtain ⟨m, rfl, rfl⟩ := exists_of_enter hlower
    obtain ⟨⟨b, us⟩, hb, h⟩ := bind_eq_ok h
    have hlefts : m * m ≤ l :=
      Nat.le_trans (Nat.mul_le_mul (Nat.le_succ m) (Nat.le_succ m)) hl
    have hor := ha.or ((hlevel m rfl).conjunction hb) hlefts hk
    have hmore := (hlevel m rfl).moreDisjuncts hor (Nat.le_succ_of_le hlefts)
      (Nat.le_of_succ_le hk) h
    exact hmore.mono (by omega) (Nat.le_refl k)
  · cases h
    exact ha.mono (Nat.le_add_right l n) (Nat.le_refl k)

theorem confines_disjunction : Confines (n * (n + 1)) n (disjunction (below n)) := by
  intro ts e rest h
  obtain ⟨⟨a, us⟩, ha, hmore⟩ := bind_eq_ok h
  exact confines_moreDisjuncts hlevel (confines_conjunction hlevel ha) (Nat.le_refl _)
    (Nat.le_refl n) hmore

/-- The bounds of a level, from those of the one below. -/
theorem confined_above : (Level.above (below n)).Confined n where
  unary := confines_unary hlevel
  conjunction := confines_conjunction hlevel
  disjunction := confines_disjunction hlevel
  moreConjuncts := confines_moreConjuncts hlevel
  moreDisjuncts := confines_moreDisjuncts hlevel

end Levels

/-- What the parsers of a level read is as deep as the levels below allow. The induction is on the
level, since each is built from the one below. -/
theorem confined_level (n : Nat) : (level n).Confined n := by
  induction n with
  | zero =>
    rw [level_eq]
    exact confined_above fun m h => absurd h.symm (Nat.succ_ne_zero m)
  | succ n ih =>
    rw [level_eq]
    exact confined_above fun m h => Nat.succ.inj h ▸ ih

/-- What a source writes is as deep as all the levels allow. -/
theorem within_of_parse {source : List Char} {e : Expr} (h : parse source = .ok e) :
    e.Within (maxDepth * (maxDepth + 1)) maxDepth := by
  obtain ⟨ls, -, h⟩ := bind_eq_ok h
  split at h
  · next e' htokens =>
    cases h
    obtain ⟨⟨e', rest⟩, he, hrest⟩ := bind_eq_ok htokens
    have hwithin := (confined_level maxDepth).disjunction he
    dsimp only at hrest
    split at hrest
    · cases hrest
      exact hwithin
    · cases hrest
  · cases h

/-! ## Meeting the bounds -/

theorem Descends.foldl_and {a : Expr} {l m : Nat} (h : Descends a l m) (more : List Phrase) :
    Descends (more.foldl (fun a p => .and a p.tree) a) (l + more.length) m := by
  induction more generalizing a l with
  | nil => exact h
  | cons p ps ih =>
    have hrest := ih (a := .and a p.tree) h.andLeft
    rwa [Nat.add_assoc, Nat.add_comm 1] at hrest

theorem Descends.foldl_or {a : Expr} {l m : Nat} (h : Descends a l m) (more : List Phrase) :
    Descends (more.foldl (fun a p => .or a p.tree) a) (l + more.length) m := by
  induction more generalizing a l with
  | nil => exact h
  | cons p ps ih =>
    have hrest := ih (a := .or a p.tree) h.orLeft
    rwa [Nat.add_assoc, Nat.add_comm 1] at hrest

theorem legible_led {t : Token} {more : List Phrase} (ht : t.Legible)
    (h : ∀ p ∈ more, Legible p.tokens) : Legible (Phrase.led t more) := by
  intro u hu
  obtain ⟨p, hp, hu⟩ := List.mem_flatMap.mp hu
  rcases List.mem_cons.mp hu with rfl | hu
  · exact ht
  · exact h p hp u hu

/-- The phrase `a`. -/
def atom : Phrase := ⟨[.word "a"], .path ["a"]⟩

theorem legible_atom : Legible atom.tokens :=
  legible_cons (legible_word (by decide)) legible_nil

theorem takes_atom : Takes 0 .operand atom.tokens atom.tree := @takes_path "a" [] (by decide)

/-- What may stand behind the operators of a chain. -/
def atoms (n : Nat) : List Phrase := List.replicate n atom

theorem eq_atom {n : Nat} {p : Phrase} (h : p ∈ atoms n) : p = atom := List.eq_of_mem_replicate h

theorem length_atoms (n : Nat) : (atoms n).length = n := List.length_replicate

/-- Behind an operand, both chains can be as long as there are levels. -/
theorem exists_takes_chains {n l m r r' : Nat} {ts : List Token} {e : Expr}
    (hts : Legible ts) (htakes : Takes n .operand ts e) (he : Descends e l m)
    (hr : r ≤ n) (hr' : r' ≤ n) :
    ∃ us e', Legible us ∧ Takes n .disjunction us e' ∧ Descends e' (l + r + r') m := by
  have hlegible : ∀ {k}, ∀ p ∈ atoms k, Legible p.tokens := fun p hp => eq_atom hp ▸ legible_atom
  have hunary : ∀ p ∈ atoms r, Takes 0 .unary p.tokens p.tree :=
    fun p hp => eq_atom hp ▸ takes_atom.single.plain
  have hconjunction : ∀ p ∈ atoms r', Takes 0 .conjunction p.tokens p.tree :=
    fun p hp => eq_atom hp ▸ takes_atom.single.plain.alone
  have hinner := htakes.single.plain.conjunction hunary (by rw [length_atoms]; omega)
  have houter := hinner.disjunction hconjunction (by rw [length_atoms]; omega)
  have hdescends := (he.foldl_and (atoms r)).foldl_or (atoms r')
  rw [length_atoms, length_atoms] at hdescends
  have hand : Legible (Phrase.led .bothOf (atoms r)) := legible_led nofun hlegible
  have hor : Legible (Phrase.led .eitherOf (atoms r')) := legible_led nofun hlegible
  exact ⟨_, _, legible_append (legible_append hts hand) hor, houter, hdescends⟩

/-- All that the bounds of a level allow is read there. -/
theorem exists_takes_descends {n l m : Nat} (hl : l ≤ n * (n + 1)) (hm : m ≤ n) :
    ∃ ts e, Legible ts ∧ Takes n .disjunction ts e ∧ Descends e l m := by
  induction n generalizing l m with
  | zero =>
    obtain rfl := Nat.le_zero.mp hl
    obtain rfl := Nat.le_zero.mp hm
    exact ⟨_, _, legible_atom, takes_atom.single.plain.alone.only, .path⟩
  | succ n ih =>
    have hsum : (n + 1) * (n + 1 + 1) = n * (n + 1) + (n + 1) * 2 := by
      rw [Nat.mul_comm n, ← Nat.mul_add]
    rw [hsum] at hl
    -- what the level below cannot have is divided between the two chains
    obtain ⟨l', r, r', hl', hr, hr', rfl⟩ : ∃ l' r r', l' ≤ n * (n + 1) ∧ r ≤ n + 1 ∧
        r' ≤ n + 1 ∧ l = l' + r + r' := by
      let excess := l - n * (n + 1)
      refine ⟨l - excess, excess / 2, excess - excess / 2, ?_, ?_, ?_, ?_⟩ <;> omega
    cases m with
    | zero =>
      obtain ⟨ts, e, hts, htakes, he⟩ := ih hl' (Nat.zero_le n)
      have hparens : Legible (.openParen :: (ts ++ [.closeParen])) :=
        legible_cons nofun (legible_append hts (legible_cons nofun legible_nil))
      exact exists_takes_chains hparens htakes.parens he hr hr'
    | succ m =>
      obtain ⟨ts, e, hts, htakes, he⟩ := ih hl' (Nat.le_of_succ_le_succ hm)
      have hnone : ∀ p ∈ ([] : List Phrase), Takes n .disjunction p.tokens p.tree := nofun
      have hcall := Takes.call (w := "f") (by decide) htakes hnone
      have hlegible : Legible (.word "f" :: .openParen ::
          (ts ++ Phrase.led .comma [] ++ [.closeParen])) :=
        legible_cons (legible_word (by decide)) (legible_cons nofun
          (legible_append (legible_append hts legible_nil) (legible_cons nofun legible_nil)))
      exact exists_takes_chains hlegible hcall (.call (.head _) he) hr hr'

/-- What a way down a parsed expression can pass: `maxDepth` operators and calls, and besides as
many conjunctions and disjunctions to their left operand as two chains at each level can have. -/
theorem descends_iff (l m : Nat) :
    (∃ source e, parse source = .ok e ∧ Descends e l m) ↔
      l ≤ maxDepth * (maxDepth + 1) ∧ m ≤ maxDepth := by
  constructor
  · rintro ⟨source, e, hparse, he⟩
    exact within_of_parse hparse he
  · rintro ⟨hl, hm⟩
    obtain ⟨ts, e, hts, htakes, he⟩ := exists_takes_descends hl hm
    obtain ⟨s, hs⟩ := exists_spaced ts
    exact ⟨s, e, (parse_of_spaced hts hs htakes).2 (Nat.le_refl _), he⟩

/-- As many negations as may be nested, and a conjunction behind them. -/
def bangs : List Char := List.replicate 128 '!' ++ "a && b".toList

/-- The conjunction stands above all of the negations. -/
def bangsTree : Expr := .and (Nat.repeat .not 128 (.path ["a"])) (.path ["b"])

theorem Descends.nots {e : Expr} {l m : Nat} (h : Descends e l m) (n : Nat) :
    Descends (Nat.repeat .not n e) l (m + n) := by
  induction n with
  | zero => exact h
  | succ n ih => exact ih.not

/-- A way down a parsed expression can pass more than `maxDepth` operators and calls. -/
theorem maxDepth_lt_of_bangs :
    parse bangs = .ok bangsTree ∧ ∃ l m, Descends bangsTree l m ∧ maxDepth < l + m := by
  have hparse : parse bangs = .ok bangsTree := by decide +kernel
  have hdescends : Descends bangsTree 1 (0 + 128) := .andLeft (Descends.path.nots 128)
  exact ⟨hparse, 1, 128, hdescends, by decide⟩

end EditGate.Condition
