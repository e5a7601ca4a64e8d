import EditGate.Proofs.Condition.Depth

/-!
# Conditions are recognized

The parsers find every derivation: if tokens derive from a category, then the parser of this
category reads exactly these tokens off the front of any longer list whose next token could not
belong to the phrase, unless it has to go too deep. How many levels it goes down follows the rules
of the grammar: a chain goes one level down at each of its operators, and so does whatever stands
within parentheses, in a call or behind a negation. `Takes d` says that `d` levels below are enough,
with one lemma for each rule; the induction is on the derivation (`exists_takes_of_derives`).

Together with the soundness of the parsers this says which trees a source writes: the one that
`parse` answers and no other, and none at all if `parse` refuses short of the limit on nesting
(`parse_iff_derives`). The limit is met only where more than `maxDepth` tokens nest.
-/

namespace EditGate.Condition

/-! ## Coming to a result -/

/-- `x` comes to `a`, unless it goes too deep. -/
def Reaches {α : Type} (x : Except Stuck α) (a : α) : Prop :=
  x = .ok a ∨ ∃ ts, x = .error ⟨.tooDeep, ts⟩

theorem Reaches.not_error {α : Type} {a : α} (fault : ParseFault) {ts : List Token}
    (hfault : fault ≠ .tooDeep) : ¬Reaches (.error ⟨fault, ts⟩) a := by
  rintro (h | ⟨us, h⟩)
  · cases h
  · cases h
    exact hfault rfl

/-- `x` comes to `a`, unless it goes too deep, which it does not where there is room. -/
structure Lands {α : Type} (room : Prop) (x : Except Stuck α) (a : α) : Prop where
  reaches : Reaches x a
  eq_ok : room → x = .ok a

namespace Lands

variable {α β : Type} {room room' : Prop} {a : α} {b : β}

theorem ok : Lands room (.ok a) a := ⟨.inl rfl, fun _ => rfl⟩

theorem bind {x : Except Stuck α} {f : α → Except Stuck β} (hx : Lands room x a)
    (hf : Lands room (f a) b) : Lands room (x >>= f) b where
  reaches := by
    obtain rfl | ⟨ts, rfl⟩ := hx.reaches
    · exact hf.reaches
    · exact .inr ⟨ts, rfl⟩
  eq_ok hroom := by rw [hx.eq_ok hroom, ok_bind, hf.eq_ok hroom]

theorem mono {x : Except Stuck α} (h : Lands room x a) (hroom : room' → room) :
    Lands room' x a :=
  ⟨h.reaches, fun h' => h.eq_ok (hroom h')⟩

/-- Going down a level either is too deep or leaves the parsers of some level. -/
theorem enter {n d : Nat} {ts : List Token} {f : Level → Except Stuck α}
    (h : ∀ m, Lands (d ≤ m) (f (.above (below m))) a) :
    Lands (d + 1 ≤ n) (enter (below n) ts >>= f) a := by
  cases n with
  | zero => exact ⟨.inr ⟨ts, rfl⟩, fun hroom => absurd hroom (Nat.not_succ_le_zero d)⟩
  | succ m =>
    have hm := h m
    rw [← level_eq] at hm
    exact hm.mono Nat.le_of_succ_le_succ

end Lands

/-! ## Where phrases end -/

/-- The tokens that a phrase of a category may go on with. -/
def Category.further : Category → List Token
  | operand => [.dot, .openParen]
  | comparison => [.same, .different, .dot, .openParen]
  | unary => [.same, .different, .dot, .openParen]
  | conjunction => [.bothOf, .same, .different, .dot, .openParen]
  | disjunction => [.eitherOf, .bothOf, .same, .different, .dot, .openParen]

/-- No phrase of the category that ends here could have gone on. -/
def Ends (c : Category) (rest : List Token) : Prop := ∀ t ∈ c.further, rest.head? ≠ some t

theorem Ends.mono {c d : Category} {rest : List Token} (h : Ends d rest)
    (hsub : c.further ⊆ d.further) : Ends c rest :=
  fun t ht => h t (hsub ht)

theorem ends_nil {c : Category} : Ends c [] := fun _ _ h => by cases h

theorem ends_cons {c : Category} {t : Token} {rest : List Token} (ht : t ∉ c.further) :
    Ends c (t :: rest) := by
  rintro u hu h
  cases h
  exact ht hu

theorem ends_led {c : Category} {t : Token} {more : List Phrase} {rest : List Token}
    (ht : t ∉ c.further) (h : Ends c rest) : Ends c (Phrase.led t more ++ rest) := by
  cases more with
  | nil => exact h
  | cons p ps => exact ends_cons ht

theorem length_le_length_led (t : Token) (more : List Phrase) :
    more.length ≤ (Phrase.led t more).length := by
  induction more with
  | nil => exact Nat.le_refl 0
  | cons p ps ih =>
    simp only [Phrase.led_cons, List.cons_append, List.length_cons, List.length_append]
    omega

/-- The parser reads the phrase off the front of every list in which it ends there, if there is
room. -/
def Accepts (room : Prop) (p : Parser) (c : Category) (ts : List Token) (e : Expr) : Prop :=
  ∀ rest, Ends c rest → Lands room (p (ts ++ rest)) (e, rest)

/-- The parser of a category that has `n` levels below it. -/
def Category.parser (n : Nat) : Category → Parser
  | disjunction => Condition.disjunction (below n)
  | conjunction => Condition.conjunction (below n)
  | unary => Condition.unary (below n)
  | comparison => Condition.comparison (below n)
  | operand => Condition.operand (below n)

/-- The parsers of a category read the phrase, and `d` levels below them are enough room. -/
def Takes (d : Nat) (c : Category) (ts : List Token) (e : Expr) : Prop :=
  ∀ n, Accepts (d ≤ n) (c.parser n) c ts e

variable {d d' : Nat} {c : Category} {ts us : List Token} {a b e : Expr} {w : String}
  {more : List Phrase}

theorem Takes.mono (h : Takes d c ts e) (hd : d ≤ d') : Takes d' c ts e :=
  fun n rest hrest => (h n rest hrest).mono (Nat.le_trans hd)

/-! ## Operands -/

theorem segments_dotted (ws : List String) {rest : List Token} (h : rest.head? ≠ some .dot) :
    segments (dotted ws ++ rest) = .ok (ws, rest) := by
  induction ws with
  | nil =>
    change segments rest = _
    unfold segments
    split
    · exact absurd rfl h
    · exact absurd rfl h
    · rfl
  | cons w ws ih =>
    change (segments (dotted ws ++ rest)).map _ = _
    rw [ih]
    rfl

theorem operand_word (l : Option Level) {v : Value} (ts : List Token)
    (h : literalWord? w = some v) : operand l (.word w :: ts) = .ok (.literal v, ts) := by
  unfold operand
  dsimp only
  rw [h]

theorem operand_call (l : Option Level) (ts : List Token) (hw : w ∉ reserved) :
    operand l (.word w :: .openParen :: ts) = call l w ts := by
  unfold operand
  dsimp only
  rw [literalWord?_eq_none.mpr hw]

theorem operand_path (l : Option Level) (hw : w ∉ reserved) (hts : ts.head? ≠ some .openParen) :
    operand l (.word w :: ts) = (segments ts).map fun r => (.path (w :: r.1), r.2) := by
  unfold operand
  dsimp only
  rw [literalWord?_eq_none.mpr hw]
  dsimp only
  split
  · exact absurd rfl hts
  · rfl

theorem takes_word {v : Value} (h : literalWord? w = some v) :
    Takes 0 .operand [.word w] (.literal v) := by
  intro n rest _
  change Lands _ (operand (below n) (.word w :: rest)) _
  rw [operand_word _ rest h]
  exact .ok

theorem takes_text (s : String) : Takes 0 .operand [.text s] (.literal (.text s)) :=
  fun _ _ _ => .ok

theorem takes_path {ws : List String} (hw : w ∉ reserved) :
    Takes 0 .operand (.word w :: dotted ws) (.path (w :: ws)) := by
  intro n rest hrest
  have hparen : (dotted ws ++ rest).head? ≠ some .openParen := by
    cases ws with
    | nil => exact hrest .openParen (by decide)
    | cons => simp [dotted]
  change Lands _ (operand (below n) (.word w :: (dotted ws ++ rest))) _
  rw [operand_path _ hw hparen, segments_dotted ws (hrest .dot (by decide))]
  exact .ok

/-- The arguments are read if each of them is, since there are fewer of them than tokens. -/
theorem lands_arguments {room : Prop} {argument : Parser} {limit : Nat} (rest : List Token)
    (hfirst : Accepts room argument .disjunction ts a)
    (hmore : ∀ p ∈ more, Accepts room argument .disjunction p.tokens p.tree)
    (hlimit : more.length < limit) :
    Lands room (arguments argument limit (ts ++ (Phrase.led .comma more ++ .closeParen :: rest)))
      (a :: more.map Phrase.tree, rest) := by
  induction more generalizing ts a limit with
  | nil =>
    obtain ⟨limit, rfl⟩ : ∃ l, limit = l + 1 := ⟨limit - 1, by simp at hlimit; omega⟩
    exact (hfirst _ (ends_cons (by decide))).bind .ok
  | cons p ps ih =>
    obtain ⟨limit, rfl⟩ : ∃ l, limit = l + 1 := ⟨limit - 1, by simp at hlimit; omega⟩
    have hlimit : ps.length < limit := by simpa using hlimit
    have hrest := ih (hmore p (by simp)) (fun q hq => hmore q (by simp [hq])) hlimit
    refine (hfirst _ (ends_led (by decide) (ends_cons (by decide)))).bind ?_
    simp only [Phrase.led_cons, List.cons_append, List.append_assoc]
    exact hrest.bind .ok

/-- No expression begins with a closing parenthesis. -/
theorem not_takes_closeParen : ¬Takes d .disjunction (.closeParen :: ts) e := by
  intro h
  have hreads := (h 0 [] ends_nil).reaches
  exact Reaches.not_error (.unexpectedToken .closeParen) (by decide) hreads

theorem takes_emptyCall (hw : w ∉ reserved) :
    Takes 1 .operand [.word w, .openParen, .closeParen] (.call w []) := by
  intro n rest _
  change Lands _ (operand (below n) (.word w :: .openParen :: .closeParen :: rest)) _
  rw [operand_call _ _ hw]
  exact Lands.enter fun _ => .ok

/-- A call is read if its arguments are. -/
theorem Takes.call (hw : w ∉ reserved) (hfirst : Takes d .disjunction ts a)
    (hmore : ∀ p ∈ more, Takes d .disjunction p.tokens p.tree) :
    Takes (d + 1) .operand
      (.word w :: .openParen :: (ts ++ Phrase.led .comma more ++ [.closeParen]))
      (.call w (a :: more.map Phrase.tree)) := by
  intro n rest _
  change Lands _ (operand (below n) (.word w :: .openParen ::
    (ts ++ Phrase.led .comma more ++ [.closeParen] ++ rest))) _
  rw [operand_call _ _ hw, List.append_assoc, List.append_assoc]
  refine Lands.enter fun m => ?_
  have hlimit : more.length <
      (ts ++ (Phrase.led .comma more ++ .closeParen :: rest)).length := by
    have := length_le_length_led .comma more
    simp only [List.length_append, List.length_cons]
    omega
  have hargs := lands_arguments rest (hfirst m) (fun p hp => hmore p hp m) hlimit
  split
  · next us heq =>
    -- with an argument to come, what follows is no closing parenthesis
    exfalso
    cases ts with
    | nil => exact Reaches.not_error .unexpectedEnd (by decide) (hfirst m [] ends_nil).reaches
    | cons t ts =>
      cases heq
      exact not_takes_closeParen hfirst
  · exact hargs.bind .ok

theorem Takes.parens (h : Takes d .disjunction ts e) :
    Takes (d + 1) .operand (.openParen :: (ts ++ [.closeParen])) e := by
  intro n rest _
  refine Lands.enter fun m => ?_
  have hreads := h m (.closeParen :: rest) (ends_cons (by decide))
  change Lands _ ((disjunction (below m) (ts ++ [.closeParen] ++ rest)) >>= _) _
  rw [List.append_assoc]
  exact hreads.bind .ok

/-! ## Comparisons and negations -/

theorem Takes.single (h : Takes d .operand ts e) : Takes d .comparison ts e := by
  intro n rest hrest
  refine (h n rest (hrest.mono (by decide))).bind ?_
  -- the operand stands alone because no comparison may follow it here
  have hsame := hrest .same (by decide)
  have hdifferent := hrest .different (by decide)
  dsimp only
  split
  · exact absurd rfl hsame
  · exact absurd rfl hdifferent
  · exact .ok

theorem Takes.same (ha : Takes d .operand ts a) (hb : Takes d .operand us b) :
    Takes d .comparison (ts ++ .same :: us) (.eq a b) := by
  intro n rest hrest
  rw [List.append_assoc]
  refine (ha n _ (ends_cons (by decide))).bind ?_
  exact (hb n rest (hrest.mono (by decide))).bind .ok

theorem Takes.different (ha : Takes d .operand ts a) (hb : Takes d .operand us b) :
    Takes d .comparison (ts ++ .different :: us) (.ne a b) := by
  intro n rest hrest
  rw [List.append_assoc]
  refine (ha n _ (ends_cons (by decide))).bind ?_
  exact (hb n rest (hrest.mono (by decide))).bind .ok

theorem unary_eq_comparison {l : Option Level} {r : Expr × List Token}
    (h : Reaches (comparison l ts) r) : unary l ts = comparison l ts := by
  unfold unary
  split
  · exact absurd h (Reaches.not_error (.unexpectedToken .bang) (by decide))
  · rfl

theorem Takes.plain (h : Takes d .comparison ts e) : Takes d .unary ts e := by
  intro n rest hrest
  -- a comparison does not begin with a negation, or its own parser would refuse it
  have hreads := h n rest (hrest.mono (by decide))
  change Lands _ (unary (below n) _) _
  rw [unary_eq_comparison hreads.reaches]
  exact hreads

theorem Takes.negation (h : Takes d .unary ts e) : Takes (d + 1) .unary (.bang :: ts) (.not e) :=
  fun _ rest hrest => Lands.enter fun m => (h m rest hrest).bind .ok

/-! ## Chains -/

theorem lands_moreConjuncts {n : Nat} {rest : List Token}
    (hmore : ∀ p ∈ more, Takes d .unary p.tokens p.tree) (hrest : Ends .conjunction rest) :
    Lands (d + more.length ≤ n) (moreConjuncts (below n) a (Phrase.led .bothOf more ++ rest))
      (more.foldl (fun a p => .and a p.tree) a, rest) := by
  induction more generalizing n a with
  | nil =>
    have hnext := hrest .bothOf (by decide)
    change Lands _ (moreConjuncts (below n) a rest) _
    unfold moreConjuncts
    split
    · exact absurd rfl hnext
    · exact .ok
  | cons p ps ih =>
    rw [Phrase.led_cons, List.cons_append, List.cons_append, List.append_assoc]
    refine Lands.enter fun m => ?_
    have hps := ih (n := m) (a := .and a p.tree) fun q hq => hmore q (by simp [hq])
    have hends : Ends .unary (Phrase.led .bothOf ps ++ rest) :=
      ends_led (by decide) (hrest.mono (by decide))
    exact ((hmore p (by simp) m _ hends).mono Nat.le_of_add_right_le).bind hps

/-- The operands of a chain are read, each one level further down than the one before. -/
theorem Takes.conjunction (ha : Takes d .unary ts a)
    (hmore : ∀ p ∈ more, Takes d' .unary p.tokens p.tree) (hd : d' + more.length ≤ d) :
    Takes d .conjunction (ts ++ Phrase.led .bothOf more)
      (more.foldl (fun a p => .and a p.tree) a) := by
  intro n rest hrest
  rw [List.append_assoc]
  have hends : Ends .unary (Phrase.led .bothOf more ++ rest) :=
    ends_led (by decide) (hrest.mono (by decide))
  exact (ha n _ hends).bind ((lands_moreConjuncts hmore hrest).mono (Nat.le_trans hd))

theorem lands_moreDisjuncts {n : Nat} {rest : List Token}
    (hmore : ∀ p ∈ more, Takes d .conjunction p.tokens p.tree) (hrest : Ends .disjunction rest) :
    Lands (d + more.length ≤ n) (moreDisjuncts (below n) a (Phrase.led .eitherOf more ++ rest))
      (more.foldl (fun a p => .or a p.tree) a, rest) := by
  induction more generalizing n a with
  | nil =>
    have hnext := hrest .eitherOf (by decide)
    change Lands _ (moreDisjuncts (below n) a rest) _
    unfold moreDisjuncts
    split
    · exact absurd rfl hnext
    · exact .ok
  | cons p ps ih =>
    rw [Phrase.led_cons, List.cons_append, List.cons_append, List.append_assoc]
    refine Lands.enter fun m => ?_
    have hps := ih (n := m) (a := .or a p.tree) fun q hq => hmore q (by simp [hq])
    have hends : Ends .conjunction (Phrase.led .eitherOf ps ++ rest) :=
      ends_led (by decide) (hrest.mono (by decide))
    exact ((hmore p (by simp) m _ hends).mono Nat.le_of_add_right_le).bind hps

theorem Takes.disjunction (ha : Takes d .conjunction ts a)
    (hmore : ∀ p ∈ more, Takes d' .conjunction p.tokens p.tree) (hd : d' + more.length ≤ d) :
    Takes d .disjunction (ts ++ Phrase.led .eitherOf more)
      (more.foldl (fun a p => .or a p.tree) a) := by
  intro n rest hrest
  rw [List.append_assoc]
  have hends : Ends .conjunction (Phrase.led .eitherOf more ++ rest) :=
    ends_led (by decide) (hrest.mono (by decide))
  exact (ha n _ hends).bind ((lands_moreDisjuncts hmore hrest).mono (Nat.le_trans hd))

theorem Takes.alone (h : Takes d .unary ts e) : Takes d .conjunction ts e := by
  have hnone : ∀ p ∈ ([] : List Phrase), Takes 0 .unary p.tokens p.tree := nofun
  have hchain := h.conjunction hnone (Nat.zero_le d)
  rwa [Phrase.led_nil, List.append_nil] at hchain

theorem Takes.only (h : Takes d .conjunction ts e) : Takes d .disjunction ts e := by
  have hnone : ∀ p ∈ ([] : List Phrase), Takes 0 .conjunction p.tokens p.tree := nofun
  have hchain := h.disjunction hnone (Nat.zero_le d)
  rwa [Phrase.led_nil, List.append_nil] at hchain

theorem Takes.and (ha : Takes (d + 1) .unary ts a) (hb : Takes d .unary us b) :
    Takes (d + 1) .conjunction (ts ++ .bothOf :: us) (.and a b) := by
  have hmore : ∀ p ∈ [Phrase.mk us b], Takes d .unary p.tokens p.tree := by simpa using hb
  have hchain := ha.conjunction hmore (Nat.le_refl _)
  rwa [Phrase.led_cons, Phrase.led_nil, List.append_nil] at hchain

theorem Takes.or (ha : Takes (d + 1) .conjunction ts a) (hb : Takes d .conjunction us b) :
    Takes (d + 1) .disjunction (ts ++ .eitherOf :: us) (.or a b) := by
  have hmore : ∀ p ∈ [Phrase.mk us b], Takes d .conjunction p.tokens p.tree := by simpa using hb
  have hchain := ha.disjunction hmore (Nat.le_refl _)
  rwa [Phrase.led_cons, Phrase.led_nil, List.append_nil] at hchain

/-! ## Every derivation -/

theorem exists_takes_of_forall (h : ∀ p ∈ more, ∃ d, Takes d c p.tokens p.tree) :
    ∃ d, ∀ p ∈ more, Takes d c p.tokens p.tree := by
  induction more with
  | nil => exact ⟨0, by simp⟩
  | cons p ps ih =>
    obtain ⟨d, hp⟩ := h p (by simp)
    obtain ⟨d', hps⟩ := ih fun q hq => h q (by simp [hq])
    refine ⟨max d d', fun q hq => ?_⟩
    rcases List.mem_cons.mp hq with rfl | hq
    · exact hp.mono (Nat.le_max_left d d')
    · exact (hps q hq).mono (Nat.le_max_right d d')

/-- Every phrase is read where there are levels enough. -/
theorem exists_takes_of_derives (h : Derives c ts e) : ∃ d, Takes d c ts e := by
  induction h with
  | @disjunction ts a more hfirst hmore ihfirst ihmore =>
    -- a chain needs the levels of its first operand, or those of the others and one for each of
    -- them
    obtain ⟨d, hd⟩ := ihfirst
    obtain ⟨d', hd'⟩ := exists_takes_of_forall ihmore
    have hroom := Nat.le_max_right d (d' + more.length)
    exact ⟨_, Takes.disjunction (hd.mono (Nat.le_max_left d (d' + more.length))) hd' hroom⟩
  | @conjunction ts a more hfirst hmore ihfirst ihmore =>
    obtain ⟨d, hd⟩ := ihfirst
    obtain ⟨d', hd'⟩ := exists_takes_of_forall ihmore
    have hroom := Nat.le_max_right d (d' + more.length)
    exact ⟨_, Takes.conjunction (hd.mono (Nat.le_max_left d (d' + more.length))) hd' hroom⟩
  | negation h ih => exact ih.imp' _ fun _ => Takes.negation
  | plain h ih => exact ih.imp fun _ => Takes.plain
  | single h ih => exact ih.imp fun _ => Takes.single
  | same ha hb iha ihb =>
    obtain ⟨d, hd⟩ := iha
    obtain ⟨d', hd'⟩ := ihb
    exact ⟨_, Takes.same (hd.mono (Nat.le_max_left d d')) (hd'.mono (Nat.le_max_right d d'))⟩
  | different ha hb iha ihb =>
    obtain ⟨d, hd⟩ := iha
    obtain ⟨d', hd'⟩ := ihb
    exact ⟨_, Takes.different (hd.mono (Nat.le_max_left d d')) (hd'.mono (Nat.le_max_right d d'))⟩
  | emptyCall hw => exact ⟨1, takes_emptyCall hw⟩
  | call hw ha hmore iha ihmore =>
    obtain ⟨d, hd⟩ := iha
    obtain ⟨d', hd'⟩ := exists_takes_of_forall ihmore
    exact ⟨_, Takes.call hw (hd.mono (Nat.le_max_left d d')) fun p hp =>
      (hd' p hp).mono (Nat.le_max_right d d')⟩
  | path hw => exact ⟨0, takes_path hw⟩
  | truth => exact ⟨0, takes_word rfl⟩
  | falsehood => exact ⟨0, takes_word rfl⟩
  | null => exact ⟨0, takes_word rfl⟩
  | undefined => exact ⟨0, takes_word rfl⟩
  | text => exact ⟨0, takes_text _⟩
  | parens h ih => exact ih.imp' _ fun _ => Takes.parens

/-- A condition is parsed, and nothing is too deep if there are levels enough. -/
theorem lands_parseTokens (h : Takes d .disjunction ts e) :
    Lands (d ≤ maxDepth) (parseTokens ts) e := by
  have hreads := h maxDepth [] ends_nil
  rw [List.append_nil] at hreads
  rw [parseTokens, level_eq]
  exact hreads.bind .ok

/-- Tokens that derive as a condition are parsed as this condition, unless it nests too deep. -/
theorem reaches_parseTokens {ts : List Token} {e : Expr} (h : Derives .disjunction ts e) :
    Reaches (parseTokens ts) e := by
  obtain ⟨d, hd⟩ := exists_takes_of_derives h
  exact (lands_parseTokens hd).reaches

/-- A source with tokens writes a condition exactly if these derive from the grammar, short of the
limit on nesting. What `parse` answers is the only tree that derives from all of the tokens. It
refuses with the fault of a parser: if this is the limit, more than `maxDepth` tokens nest, and
otherwise no tree derives. -/
theorem parse_iff_derives {source : List Char} {ls : List Lexeme} (hls : lexemes source = .ok ls) :
    (∀ e, parse source = .ok e →
      ∀ e', Derives .disjunction (ls.map Lexeme.token) e' ↔ e' = e) ∧
    ∀ error, parse source = .error error →
      ∃ place fault, error = .parse place fault ∧
        (fault ≠ .tooDeep → ∀ e, ¬Derives .disjunction (ls.map Lexeme.token) e) ∧
        (fault = .tooDeep → maxDepth < nesting (ls.map Lexeme.token)) := by
  cases htokens : parseTokens (ls.map Lexeme.token) with
  | ok e =>
    have hparse : parse source = .ok e := by
      rw [parse, hls, ok_bind, htokens]
      rfl
    refine ⟨fun e₁ h e' => ?_, fun error h => (by rw [hparse] at h; cases h)⟩
    rw [hparse] at h
    cases h
    refine ⟨fun hderives => ?_, fun h => h ▸ derives_of_parseTokens htokens⟩
    obtain h | ⟨ts, h⟩ := reaches_parseTokens hderives
    · rw [htokens] at h
      cases h
      rfl
    · rw [htokens] at h
      cases h
  | error stuck =>
    have hparse : parse source = .error
        (.parse (placeOf ls (Text.utf8Length source) stuck.rest.length) stuck.fault) := by
      rw [parse, hls, ok_bind, htokens]
    refine ⟨fun e h => (by rw [hparse] at h; cases h), fun error h => ?_⟩
    rw [hparse] at h
    cases h
    refine ⟨_, stuck.fault, rfl, fun hfault e hderives => ?_, fun hfault => ?_⟩
    · have hreads := reaches_parseTokens hderives
      rw [htokens] at hreads
      exact Reaches.not_error stuck.fault hfault hreads
    · have hdeep : stuck = ⟨.tooDeep, stuck.rest⟩ := by rw [← hfault]
      rw [hdeep] at htokens
      exact maxDepth_lt_of_tooDeep htokens

/-- The lexemes of `!a == b || c("x") && true`. -/
def sampleLexemes : List Lexeme :=
  [⟨0, .bang⟩, ⟨1, .word "a"⟩, ⟨3, .same⟩, ⟨6, .word "b"⟩, ⟨8, .eitherOf⟩, ⟨11, .word "c"⟩,
    ⟨12, .openParen⟩, ⟨13, .text "x"⟩, ⟨16, .closeParen⟩, ⟨18, .bothOf⟩, ⟨21, .word "true"⟩]

/-- The negation is of the whole comparison, and `&&` binds tighter than `||`. -/
def sampleTree : Expr :=
  .or (.not (.eq (.path ["a"]) (.path ["b"])))
    (.and (.call "c" [.literal (.text "x")]) (.literal (.bool true)))

/-- The lexemes of `a == b == c`. -/
def chainedLexemes : List Lexeme :=
  [⟨0, .word "a"⟩, ⟨2, .same⟩, ⟨5, .word "b"⟩, ⟨7, .same⟩, ⟨10, .word "c"⟩]

/-- The first source has exactly the sample tree. The second has none, since a comparison is not
compared again. -/
theorem derives_sampleLexemes_iff :
    (lexemes "!a == b || c(\"x\") && true".toList = .ok sampleLexemes ∧
      ∀ e, Derives .disjunction (sampleLexemes.map Lexeme.token) e ↔ e = sampleTree) ∧
    (lexemes "a == b == c".toList = .ok chainedLexemes ∧
      ∀ e, ¬Derives .disjunction (chainedLexemes.map Lexeme.token) e) := by
  have hsample : lexemes "!a == b || c(\"x\") && true".toList = .ok sampleLexemes := rfl
  have hchained : lexemes "a == b == c".toList = .ok chainedLexemes := rfl
  refine ⟨⟨hsample, (parse_iff_derives hsample).1 sampleTree rfl⟩, hchained, ?_⟩
  obtain ⟨place, fault, h, hnone, -⟩ := (parse_iff_derives hchained).2 (.parse 7 .trailing) rfl
  cases h
  exact hnone (by decide)

end EditGate.Condition
