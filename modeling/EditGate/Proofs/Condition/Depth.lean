import EditGate.Proofs.Condition.Grammar

/-!
# How deep conditions nest

A parser goes too deep only on tokens that really nest more than there are levels below it
(`bounded_level`). What counts are the tokens that lead one level down: negations, conjunctions,
disjunctions and opening parentheses. So whoever writes no more of them than `maxDepth` never meets
the limit.
-/

namespace EditGate.Condition

/-- Whether what follows the token is read one level below. -/
def Token.nests : Token → Bool
  | .bang | .bothOf | .eitherOf | .openParen => true
  | _ => false

/-- How many tokens lead one level down. -/
def nesting (ts : List Token) : Nat := ts.countP Token.nests

theorem nesting_cons_of_nests {t : Token} {ts : List Token} (h : t.nests = true) :
    nesting (t :: ts) = nesting ts + 1 := by rw [nesting, List.countP_cons_of_pos h, nesting]

theorem nesting_le_cons (t : Token) (ts : List Token) : nesting ts ≤ nesting (t :: ts) := by
  rw [nesting, nesting, List.countP_cons]
  omega

/-- What is left after a phrase nests no more than what was there. -/
theorem Took.nesting_le {c : Category} {ts rest : List Token} {e : Expr} (h : Took c ts e rest) :
    nesting rest ≤ nesting ts := by
  obtain ⟨us, rfl, -⟩ := h
  rw [nesting, nesting, List.countP_append]
  omega

/-- The level below the parsers of a level that has `n` levels below it. -/
def below : Nat → Option Level
  | 0 => none
  | n + 1 => some (level n)

theorem level_eq (n : Nat) : level n = .above (below n) := by cases n <;> rfl

theorem sound_below (n : Nat) : ∀ l ∈ below n, l.Sound := by
  cases n with
  | zero => simp [below]
  | succ n => simpa [below] using sound_level n

/-- `p` goes too deep only on tokens that nest more than `n` times. -/
def Bounded (n : Nat) (p : Parser) : Prop :=
  ∀ ⦃ts us⦄, p ts = .error ⟨.tooDeep, us⟩ → n < nesting ts

/-- The parsers of a level go too deep only on tokens that nest more than `n` times. -/
structure Level.Bounded (n : Nat) (l : Level) : Prop where
  unary : Condition.Bounded n l.unary
  conjunction : Condition.Bounded n l.conjunction
  disjunction : Condition.Bounded n l.disjunction
  moreConjuncts (a : Expr) : Condition.Bounded n (l.moreConjuncts a)
  moreDisjuncts (a : Expr) : Condition.Bounded n (l.moreDisjuncts a)

section Bounds

variable {n : Nat} {ts us : List Token}

theorem segments_ne_tooDeep : segments ts ≠ .error ⟨.tooDeep, us⟩ := by
  fun_induction segments ts with
  | case1 w ts ih =>
    intro h
    cases hs : segments ts with
    | ok r => rw [hs] at h; cases h
    | error stuck =>
      rw [hs] at h
      cases h
      exact ih hs
  | case2 => exact fun h => by cases h
  | case3 => exact fun h => by cases h

theorem bounded_arguments {argument : Parser} (hreads : Reads argument .disjunction)
    (hbounded : Bounded n argument) {limit : Nat}
    (h : arguments argument limit ts = .error ⟨.tooDeep, us⟩) : n < nesting ts := by
  induction limit generalizing ts with
  | zero => cases h
  | succ limit ih =>
    obtain h | ⟨⟨e, rest⟩, he, h⟩ := bind_eq_error h
    · exact hbounded h
    have hrest := (hreads he).nesting_le
    dsimp only at h
    split at h
    · next ts' =>
      -- what the next arguments nest, they nest behind the comma
      obtain h | ⟨r, -, h⟩ := bind_eq_error h
      · have hnext := ih h
        have hcomma := nesting_le_cons .comma ts'
        omega
      · cases h
    · cases h
    · cases h

/-- What goes too deep one level down is there, or there is no level. -/
theorem enter_eq_error {α : Type} {f : Level → Except Stuck α} {ts' : List Token}
    (h : (enter (below n) ts' >>= f) = .error ⟨.tooDeep, us⟩) :
    n = 0 ∨ ∃ m, n = m + 1 ∧ f (level m) = .error ⟨.tooDeep, us⟩ := by
  cases n with
  | zero => exact .inl rfl
  | succ m => exact .inr ⟨m, rfl, h⟩

/-- After a token that leads one level down there is one more level than what follows bounds. -/
theorem lt_nesting_of_nests {t : Token} {P : Nat → Prop} (ht : t.nests = true)
    (h : n = 0 ∨ ∃ m, n = m + 1 ∧ P m) (hP : ∀ m, n = m + 1 → P m → m < nesting ts) :
    n < nesting (t :: ts) := by
  rw [nesting_cons_of_nests ht]
  obtain rfl | ⟨m, rfl, hm⟩ := h
  · exact Nat.succ_pos _
  · exact Nat.succ_lt_succ (hP m rfl hm)

variable (hlevel : ∀ m, n = m + 1 → (level m).Bounded m)
include hlevel

theorem bounded_call {w : String} (h : call (below n) w ts = .error ⟨.tooDeep, us⟩) :
    n < nesting (.openParen :: ts) := by
  refine lt_nesting_of_nests rfl (enter_eq_error h) fun m hm h => ?_
  dsimp only at h
  split at h
  · cases h
  · obtain h | ⟨r, -, h⟩ := bind_eq_error h
    · exact bounded_arguments (sound_level m).disjunction (hlevel m hm).disjunction h
    · cases h

theorem bounded_operand : Bounded n (operand (below n)) := by
  intro ts us h
  unfold operand at h
  split at h
  · cases h
  · refine lt_nesting_of_nests rfl (enter_eq_error h) fun m hm h => ?_
    obtain h | ⟨r, -, h⟩ := bind_eq_error h
    · exact (hlevel m hm).disjunction h
    · dsimp only at h
      split at h <;> cases h
  · cases h
  · next w ts =>
    split at h
    · cases h
    · split at h
      · -- the word before the parenthesis only adds to the tokens
        have hcall := bounded_call hlevel h
        exact Nat.lt_of_lt_of_le hcall (nesting_le_cons _ _)
      · cases hs : segments ts with
        | ok r => rw [hs] at h; cases h
        | error stuck =>
          rw [hs] at h
          cases h
          exact absurd hs segments_ne_tooDeep
  · cases h

theorem bounded_comparison : Bounded n (comparison (below n)) := by
  intro ts us h
  obtain h | ⟨⟨a, rest⟩, ha, h⟩ := bind_eq_error h
  · exact bounded_operand hlevel h
  have hrest := (reads_operand (sound_below n) ha).nesting_le
  dsimp only at h
  split at h
  · next ts' =>
    obtain h | ⟨r, -, h⟩ := bind_eq_error h
    · have hsecond := bounded_operand hlevel h
      have hsame := nesting_le_cons .same ts'
      omega
    · cases h
  · next ts' =>
    obtain h | ⟨r, -, h⟩ := bind_eq_error h
    · have hsecond := bounded_operand hlevel h
      have hdifferent := nesting_le_cons .different ts'
      omega
    · cases h
  · cases h

theorem bounded_unary : Bounded n (unary (below n)) := by
  intro ts us h
  unfold unary at h
  split at h
  · refine lt_nesting_of_nests rfl (enter_eq_error h) fun m hm h => ?_
    obtain h | ⟨r, -, h⟩ := bind_eq_error h
    · exact (hlevel m hm).unary h
    · cases h
  · exact bounded_comparison hlevel h

theorem bounded_moreConjuncts (a : Expr) : Bounded n (moreConjuncts (below n) a) := by
  intro ts us h
  unfold moreConjuncts at h
  split at h
  · refine lt_nesting_of_nests rfl (enter_eq_error h) fun m hm h => ?_
    obtain h | ⟨⟨b, rest⟩, hb, h⟩ := bind_eq_error h
    · exact (hlevel m hm).unary h
    · have hmore := (hlevel m hm).moreConjuncts _ h
      exact Nat.lt_of_lt_of_le hmore ((sound_level m).unary hb).nesting_le
  · cases h

theorem bounded_conjunction : Bounded n (conjunction (below n)) := by
  intro ts us h
  obtain h | ⟨⟨a, rest⟩, ha, h⟩ := bind_eq_error h
  · exact bounded_unary hlevel h
  · have hmore := bounded_moreConjuncts hlevel a h
    exact Nat.lt_of_lt_of_le hmore (reads_unary (sound_below n) ha).nesting_le

theorem bounded_moreDisjuncts (a : Expr) : Bounded n (moreDisjuncts (below n) a) := by
  intro ts us h
  unfold moreDisjuncts at h
  split at h
  · refine lt_nesting_of_nests rfl (enter_eq_error h) fun m hm h => ?_
    obtain h | ⟨⟨b, rest⟩, hb, h⟩ := bind_eq_error h
    · exact (hlevel m hm).conjunction h
    · have hmore := (hlevel m hm).moreDisjuncts _ h
      exact Nat.lt_of_lt_of_le hmore ((sound_level m).conjunction hb).nesting_le
  · cases h

theorem bounded_disjunction : Bounded n (disjunction (below n)) := by
  intro ts us h
  obtain h | ⟨⟨a, rest⟩, ha, h⟩ := bind_eq_error h
  · exact bounded_conjunction hlevel h
  · have hmore := bounded_moreDisjuncts hlevel a h
    exact Nat.lt_of_lt_of_le hmore (reads_conjunction (sound_below n) ha).nesting_le

/-- The bound of a level, from that of the one below. -/
theorem bounded_above : (Level.above (below n)).Bounded n where
  unary := bounded_unary hlevel
  conjunction := bounded_conjunction hlevel
  disjunction := bounded_disjunction hlevel
  moreConjuncts := bounded_moreConjuncts hlevel
  moreDisjuncts := bounded_moreDisjuncts hlevel

end Bounds

/-- The parsers of a level go too deep only on tokens that nest more than there are levels below. -/
theorem bounded_level (n : Nat) : (level n).Bounded n := by
  induction n with
  | zero =>
    rw [level_eq]
    exact bounded_above fun m h => absurd h.symm (Nat.succ_ne_zero m)
  | succ n ih =>
    rw [level_eq]
    exact bounded_above fun m h => Nat.succ.inj h ▸ ih

/-- Tokens that are refused as too deep nest more than `maxDepth` times. -/
theorem maxDepth_lt_of_tooDeep {ts us : List Token}
    (h : parseTokens ts = .error ⟨.tooDeep, us⟩) : maxDepth < nesting ts := by
  obtain h | ⟨⟨e, rest⟩, -, h⟩ := bind_eq_error h
  · exact (bounded_level maxDepth).disjunction h
  · dsimp only at h
    split at h <;> cases h

end EditGate.Condition
