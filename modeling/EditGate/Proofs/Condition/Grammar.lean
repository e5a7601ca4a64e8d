import EditGate.Condition.Parse
import EditGate.Proofs.Except

/-!
# The grammar of conditions

`Derives c ts e` says that the tokens `ts` are a phrase of the category `c`, and that `e` is its
tree. There is one rule for each way to write a phrase, and no rule mentions a parser or a depth.
Chains of `||` and of `&&` are grouped to the left, `!` stands before a whole comparison, a
comparison does not go on after its second operand, and the words `true`, `false`, `null` and
`undefined` are values wherever an operand begins.

Whatever the parser of a category reads off the front of a list of tokens derives from that
category (`sound_level`). The induction is on the level, since a level is built from the one below.
-/

namespace EditGate.Condition

/-! ## The rules -/

/-- What a run of tokens can be a phrase of. -/
inductive Category where
  | disjunction
  | conjunction
  | unary
  | comparison
  | operand
deriving DecidableEq, Repr

/-- Tokens and the tree that they write. -/
structure Phrase where
  tokens : List Token
  tree : Expr

namespace Phrase

/-- The tokens of some phrases, each with `t` before it. -/
def led (t : Token) (ps : List Phrase) : List Token := ps.flatMap fun p => t :: p.tokens

@[simp] theorem led_nil (t : Token) : led t [] = [] := rfl

@[simp] theorem led_cons (t : Token) (p : Phrase) (ps : List Phrase) :
    led t (p :: ps) = t :: p.tokens ++ led t ps := rfl

end Phrase

/-- The words that never name anything where an operand begins. -/
def reserved : List String := ["true", "false", "null", "undefined"]

/-- The tokens of the further segments of a path. -/
def dotted (segments : List String) : List Token := segments.flatMap fun s => [.dot, .word s]

/-- `Derives c ts e`: the tokens `ts` are a phrase of `c` and `e` is its tree. -/
inductive Derives : Category → List Token → Expr → Prop where
  | disjunction {ts : List Token} {a : Expr} {more : List Phrase} :
    Derives .conjunction ts a → (∀ p ∈ more, Derives .conjunction p.tokens p.tree) →
    Derives .disjunction (ts ++ Phrase.led .eitherOf more)
      (more.foldl (fun a p => .or a p.tree) a)
  | conjunction {ts : List Token} {a : Expr} {more : List Phrase} :
    Derives .unary ts a → (∀ p ∈ more, Derives .unary p.tokens p.tree) →
    Derives .conjunction (ts ++ Phrase.led .bothOf more)
      (more.foldl (fun a p => .and a p.tree) a)
  | negation {ts : List Token} {e : Expr} :
    Derives .unary ts e → Derives .unary (.bang :: ts) (.not e)
  | plain {ts : List Token} {e : Expr} : Derives .comparison ts e → Derives .unary ts e
  | single {ts : List Token} {e : Expr} : Derives .operand ts e → Derives .comparison ts e
  | same {ts us : List Token} {a b : Expr} :
    Derives .operand ts a → Derives .operand us b →
    Derives .comparison (ts ++ .same :: us) (.eq a b)
  | different {ts us : List Token} {a b : Expr} :
    Derives .operand ts a → Derives .operand us b →
    Derives .comparison (ts ++ .different :: us) (.ne a b)
  | emptyCall {w : String} :
    w ∉ reserved → Derives .operand [.word w, .openParen, .closeParen] (.call w [])
  | call {w : String} {ts : List Token} {a : Expr} {more : List Phrase} :
    w ∉ reserved → Derives .disjunction ts a →
    (∀ p ∈ more, Derives .disjunction p.tokens p.tree) →
    Derives .operand (.word w :: .openParen :: (ts ++ Phrase.led .comma more ++ [.closeParen]))
      (.call w (a :: more.map Phrase.tree))
  | path {w : String} {segments : List String} :
    w ∉ reserved → Derives .operand (.word w :: dotted segments) (.path (w :: segments))
  | truth : Derives .operand [.word "true"] (.literal (.bool true))
  | falsehood : Derives .operand [.word "false"] (.literal (.bool false))
  | null : Derives .operand [.word "null"] (.literal .null)
  | undefined : Derives .operand [.word "undefined"] (.literal .null)
  | text {s : String} : Derives .operand [.text s] (.literal (.text s))
  | parens {ts : List Token} {e : Expr} :
    Derives .disjunction ts e → Derives .operand (.openParen :: (ts ++ [.closeParen])) e

theorem literalWord?_eq_none {w : String} : literalWord? w = none ↔ w ∉ reserved := by
  simp only [literalWord?, reserved, List.mem_cons, List.not_mem_nil, or_false]
  grind

/-- A word that is a value derives as this value. -/
theorem Derives.ofLiteralWord {w : String} {v : Value} (h : literalWord? w = some v) :
    Derives .operand [.word w] (.literal v) := by
  unfold literalWord? at h
  split at h
  · next hw => cases h; subst hw; exact truth
  split at h
  · next hw => cases h; subst hw; exact falsehood
  split at h
  · next hw =>
    cases h
    obtain rfl | rfl := hw
    · exact null
    · exact undefined
  · cases h

/-! ## What a parser has read -/

/-- What was read of the tokens `ts` before `rest` derives from `c` as `e`. -/
def Took (c : Category) (ts : List Token) (e : Expr) (rest : List Token) : Prop :=
  ∃ us, ts = us ++ rest ∧ Derives c us e

/-- What was read of the tokens `ts` before `rest` are phrases of `c`, each with `t` before it. -/
def TookAll (c : Category) (t : Token) (ts : List Token) (more : List Phrase)
    (rest : List Token) : Prop :=
  ts = Phrase.led t more ++ rest ∧ ∀ p ∈ more, Derives c p.tokens p.tree

theorem TookAll.nil {c : Category} {t : Token} {ts : List Token} : TookAll c t ts [] ts :=
  ⟨rfl, by simp⟩

theorem TookAll.cons {c : Category} {t : Token} {ts us rest : List Token} {e : Expr}
    {more : List Phrase} (h : Took c ts e us) (hmore : TookAll c t us more rest) :
    ∃ p : Phrase, p.tree = e ∧ TookAll c t (t :: ts) (p :: more) rest := by
  obtain ⟨vs, rfl, hvs⟩ := h
  obtain ⟨rfl, hall⟩ := hmore
  refine ⟨⟨vs, e⟩, rfl, by simp, ?_⟩
  intro p hp
  obtain rfl | hp := List.mem_cons.mp hp
  · exact hvs
  · exact hall p hp

/-- Whatever the parser reads derives from `c`. -/
def Reads (p : Parser) (c : Category) : Prop :=
  ∀ ⦃ts e rest⦄, p ts = .ok (e, rest) → Took c ts e rest

/-- What the parsers of a level read derives from their categories. -/
structure Level.Sound (l : Level) : Prop where
  unary : Reads l.unary .unary
  conjunction : Reads l.conjunction .conjunction
  disjunction : Reads l.disjunction .disjunction
  moreConjuncts {a e : Expr} {ts rest : List Token} : l.moreConjuncts a ts = .ok (e, rest) →
    ∃ more, TookAll .unary .bothOf ts more rest ∧ e = more.foldl (fun a p => .and a p.tree) a
  moreDisjuncts {a e : Expr} {ts rest : List Token} : l.moreDisjuncts a ts = .ok (e, rest) →
    ∃ more, TookAll .conjunction .eitherOf ts more rest ∧
      e = more.foldl (fun a p => .or a p.tree) a

section Reading

variable {below : Option Level} {ts rest : List Token} {a e : Expr}

theorem sound_enter {l : Level} (hbelow : ∀ l ∈ below, l.Sound) (h : enter below ts = .ok l) :
    l.Sound := by
  cases below with
  | none => cases h
  | some l' => cases h; exact hbelow _ rfl

theorem took_segments {ws : List String} (h : segments ts = .ok (ws, rest)) :
    ts = dotted ws ++ rest := by
  fun_induction segments ts generalizing ws rest with
  | case1 w ts ih =>
    cases hs : segments ts with
    | error _ => rw [hs] at h; cases h
    | ok r =>
      rw [hs] at h
      cases h
      rw [ih hs]
      rfl
  | case2 => cases h
  | case3 => cases h; rfl

/-- The arguments are one phrase, then more with a comma before each, then the parenthesis. -/
theorem took_arguments {argument : Parser} (hargument : Reads argument .disjunction)
    {limit : Nat} {args : List Expr} (h : arguments argument limit ts = .ok (args, rest)) :
    ∃ us e more, Took .disjunction ts e us ∧
      TookAll .disjunction .comma us more (.closeParen :: rest) ∧
      args = e :: more.map Phrase.tree := by
  induction limit generalizing ts args with
  | zero => cases h
  | succ limit ih =>
    obtain ⟨⟨e, us⟩, he, h⟩ := bind_eq_ok h
    have hfirst := hargument he
    dsimp only at h
    split at h
    · -- a comma, so there are more
      obtain ⟨⟨args', _⟩, hargs, h⟩ := bind_eq_ok h
      cases h
      obtain ⟨vs, e', more, he', hmore, rfl⟩ := ih hargs
      obtain ⟨p, rfl, hp⟩ := TookAll.cons he' hmore
      exact ⟨_, e, p :: more, hfirst, hp, rfl⟩
    · -- the parenthesis, so this was the last
      cases h
      exact ⟨_, e, [], hfirst, .nil, rfl⟩
    · cases h

variable (hbelow : ∀ l ∈ below, l.Sound)
include hbelow

theorem took_call {w : String} (hw : w ∉ reserved) (h : call below w ts = .ok (e, rest)) :
    Took .operand (.word w :: .openParen :: ts) e rest := by
  obtain ⟨l, hl, h⟩ := bind_eq_ok h
  have hsound := sound_enter hbelow hl
  split at h
  · cases h
    exact ⟨_, rfl, .emptyCall hw⟩
  · obtain ⟨⟨args, _⟩, hargs, h⟩ := bind_eq_ok h
    cases h
    obtain ⟨us, e, more, ⟨vs, rfl, hvs⟩, ⟨rfl, hmore⟩, rfl⟩ :=
      took_arguments hsound.disjunction hargs
    exact ⟨_, by simp, .call hw hvs hmore⟩

theorem reads_operand : Reads (operand below) .operand := by
  intro ts e rest h
  unfold operand at h
  split at h
  · cases h
  · -- parentheses
    obtain ⟨l, hl, hread⟩ := bind_eq_ok h
    obtain ⟨⟨e', us⟩, he, hclose⟩ := bind_eq_ok hread
    obtain ⟨vs, rfl, hvs⟩ := (sound_enter hbelow hl).disjunction he
    dsimp only at hclose
    split at hclose
    · cases hclose
      exact ⟨_, by simp, .parens hvs⟩
    · cases hclose
  · cases h
    exact ⟨_, rfl, .text⟩
  · next w ts =>
    split at h
    · next v hv =>
      cases h
      exact ⟨_, rfl, .ofLiteralWord hv⟩
    · next hv =>
      -- no literal, so the word begins a call or a path
      have hw := literalWord?_eq_none.mp hv
      split at h
      · exact took_call hbelow hw h
      · cases hs : segments ts with
        | error _ => rw [hs] at h; cases h
        | ok r =>
          rw [hs] at h
          cases h
          exact ⟨_, by rw [took_segments hs]; rfl, .path hw⟩
  · cases h

theorem reads_comparison : Reads (comparison below) .comparison := by
  intro ts e rest h
  obtain ⟨⟨a, us⟩, ha, hmore⟩ := bind_eq_ok h
  obtain ⟨vs, rfl, hvs⟩ := reads_operand hbelow ha
  dsimp only at hmore
  split at hmore
  · obtain ⟨⟨b, _⟩, hb, hdone⟩ := bind_eq_ok hmore
    cases hdone
    obtain ⟨ws, rfl, hws⟩ := reads_operand hbelow hb
    exact ⟨_, by simp, .same hvs hws⟩
  · obtain ⟨⟨b, _⟩, hb, hdone⟩ := bind_eq_ok hmore
    cases hdone
    obtain ⟨ws, rfl, hws⟩ := reads_operand hbelow hb
    exact ⟨_, by simp, .different hvs hws⟩
  · cases hmore
    exact ⟨_, rfl, .single hvs⟩

theorem reads_unary : Reads (unary below) .unary := by
  intro ts e rest h
  unfold unary at h
  split at h
  · obtain ⟨l, hl, h⟩ := bind_eq_ok h
    obtain ⟨⟨e', _⟩, he, h⟩ := bind_eq_ok h
    cases h
    obtain ⟨vs, rfl, hvs⟩ := (sound_enter hbelow hl).unary he
    exact ⟨_, by simp, .negation hvs⟩
  · obtain ⟨vs, rfl, hvs⟩ := reads_comparison hbelow h
    exact ⟨_, rfl, .plain hvs⟩

theorem took_moreConjuncts (h : moreConjuncts below a ts = .ok (e, rest)) :
    ∃ more, TookAll .unary .bothOf ts more rest ∧
      e = more.foldl (fun a p => .and a p.tree) a := by
  unfold moreConjuncts at h
  split at h
  · obtain ⟨l, hl, h⟩ := bind_eq_ok h
    have hsound := sound_enter hbelow hl
    obtain ⟨⟨b, us⟩, hb, h⟩ := bind_eq_ok h
    obtain ⟨more, hmore, rfl⟩ := hsound.moreConjuncts h
    obtain ⟨p, rfl, hp⟩ := TookAll.cons (hsound.unary hb) hmore
    exact ⟨p :: more, hp, rfl⟩
  · cases h
    exact ⟨[], .nil, rfl⟩

theorem reads_conjunction : Reads (conjunction below) .conjunction := by
  intro ts e rest h
  obtain ⟨⟨a, us⟩, ha, hrest⟩ := bind_eq_ok h
  obtain ⟨vs, rfl, hvs⟩ := reads_unary hbelow ha
  obtain ⟨more, ⟨rfl, hmore⟩, rfl⟩ := took_moreConjuncts hbelow hrest
  exact ⟨_, by simp, .conjunction hvs hmore⟩

theorem took_moreDisjuncts (h : moreDisjuncts below a ts = .ok (e, rest)) :
    ∃ more, TookAll .conjunction .eitherOf ts more rest ∧
      e = more.foldl (fun a p => .or a p.tree) a := by
  unfold moreDisjuncts at h
  split at h
  · obtain ⟨l, hl, h⟩ := bind_eq_ok h
    have hsound := sound_enter hbelow hl
    obtain ⟨⟨b, us⟩, hb, h⟩ := bind_eq_ok h
    obtain ⟨more, hmore, rfl⟩ := hsound.moreDisjuncts h
    obtain ⟨p, rfl, hp⟩ := TookAll.cons (hsound.conjunction hb) hmore
    exact ⟨p :: more, hp, rfl⟩
  · cases h
    exact ⟨[], .nil, rfl⟩

theorem reads_disjunction : Reads (disjunction below) .disjunction := by
  intro ts e rest h
  obtain ⟨⟨a, us⟩, ha, hrest⟩ := bind_eq_ok h
  obtain ⟨vs, rfl, hvs⟩ := reads_conjunction hbelow ha
  obtain ⟨more, ⟨rfl, hmore⟩, rfl⟩ := took_moreDisjuncts hbelow hrest
  exact ⟨_, by simp, .disjunction hvs hmore⟩

/-- A level is sound if the one below it is. -/
theorem sound_above : (Level.above below).Sound where
  unary := reads_unary hbelow
  conjunction := reads_conjunction hbelow
  disjunction := reads_disjunction hbelow
  moreConjuncts := took_moreConjuncts hbelow
  moreDisjuncts := took_moreDisjuncts hbelow

end Reading

/-- Whatever the parsers of a level read derives from their categories. The induction is on the
level, since each is built from the one below. -/
theorem sound_level (n : Nat) : (level n).Sound := by
  induction n with
  | zero =>
    -- the lowest level has none below it that it could ask
    exact sound_above (by simp)
  | succ n ih => exact sound_above (by simpa using ih)

/-- A condition that all of the tokens write derives from them. -/
theorem derives_of_parseTokens {ts : List Token} {e : Expr} (h : parseTokens ts = .ok e) :
    Derives .disjunction ts e := by
  obtain ⟨⟨e', rest⟩, he, hrest⟩ := bind_eq_ok h
  obtain ⟨us, rfl, hus⟩ := (sound_level maxDepth).disjunction he
  cases rest with
  | nil => cases hrest; simpa using hus
  | cons => cases hrest

end EditGate.Condition
