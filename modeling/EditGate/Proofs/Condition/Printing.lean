import EditGate.Proofs.Condition.Recognize
import EditGate.Proofs.Condition.Spelling

/-!
# Conditions are read as they are printed

An expression is printed with parentheses around every operand that is itself made with an operator,
and its tokens may be spaced and spelled in any way. What is printed so is parsed as the expression,
however many operators stand side by side: only nesting counts. An operator and the parentheses
around it take one level each, so the limit on levels is met by no expression that nests at most
half as many operators and calls (`parse_printed`).
-/

namespace EditGate.Condition

/-! ## Printing -/

/-- An expression that is made with an operator. -/
def Expr.isCompound : Expr → Bool
  | .literal _ | .path _ | .call _ _ => false
  | _ => true

/-- The tokens of an expression as an operand. -/
def enclosed (e : Expr) (ts : List Token) : List Token :=
  if e.isCompound then .openParen :: (ts ++ [.closeParen]) else ts

mutual

/-- The tokens of an expression. The arguments of calls are written like operands if `guard` is set,
and otherwise as they are. -/
def printed (guard : Bool) : Expr → List Token
  | .literal (.bool true) => [.word "true"]
  | .literal (.bool false) => [.word "false"]
  | .literal .null => [.word "null"]
  | .literal (.text s) => [.text s]
  | .path [] => []
  | .path (w :: ws) => .word w :: dotted ws
  | .call f args =>
    .word f :: .openParen :: ([Token.comma].intercalate (printedAll guard args) ++ [.closeParen])
  | .not e => .bang :: enclosed e (printed guard e)
  | .and a b => enclosed a (printed guard a) ++ .bothOf :: enclosed b (printed guard b)
  | .or a b => enclosed a (printed guard a) ++ .eitherOf :: enclosed b (printed guard b)
  | .eq a b => enclosed a (printed guard a) ++ .same :: enclosed b (printed guard b)
  | .ne a b => enclosed a (printed guard a) ++ .different :: enclosed b (printed guard b)

/-- The tokens of each of some arguments. -/
def printedAll (guard : Bool) : List Expr → List (List Token)
  | [] => []
  | e :: es =>
    (if guard then enclosed e (printed guard e) else printed guard e) :: printedAll guard es

end

/-- The names in an expression are ones that its grammar has. -/
inductive Printable : Expr → Prop where
  | literal (v : Value) : Printable (.literal v)
  | path {w : String} {ws : List String} :
    IsName w → w ∉ reserved → (∀ s ∈ ws, IsName s) → Printable (.path (w :: ws))
  | call {f : String} {args : List Expr} :
    IsName f → f ∉ reserved → (∀ a ∈ args, Printable a) → Printable (.call f args)
  | not {e : Expr} : Printable e → Printable (.not e)
  | and {a b : Expr} : Printable a → Printable b → Printable (.and a b)
  | or {a b : Expr} : Printable a → Printable b → Printable (.or a b)
  | eq {a b : Expr} : Printable a → Printable b → Printable (.eq a b)
  | ne {a b : Expr} : Printable a → Printable b → Printable (.ne a b)

mutual

/-- How deep operators and calls are nested. -/
def nested : Expr → Nat
  | .literal _ | .path _ => 0
  | .call _ args => nestedAll args + 1
  | .not e => nested e + 1
  | .and a b | .or a b | .eq a b | .ne a b => max (nested a) (nested b) + 1

/-- How deep operators and calls are nested in some expressions. -/
def nestedAll : List Expr → Nat
  | [] => 0
  | e :: es => max (nested e) (nestedAll es)

end

variable {guard : Bool} {d : Nat} {e a b : Expr} {args : List Expr} {ts us : List Token}

theorem nested_le_nestedAll (h : e ∈ args) : nested e ≤ nestedAll args := by
  induction args with
  | nil => exact absurd h List.not_mem_nil
  | cons a args ih =>
    rw [nestedAll]
    rcases List.mem_cons.mp h with rfl | h
    · exact Nat.le_max_left _ _
    · exact Nat.le_trans (ih h) (Nat.le_max_right _ _)

/-- The tokens of an argument. -/
def printedArgument (guard : Bool) (e : Expr) : List Token :=
  if guard then enclosed e (printed guard e) else printed guard e

theorem printedAll_eq_map (guard : Bool) (args : List Expr) :
    printedAll guard args = args.map (printedArgument guard) := by
  induction args with
  | nil => rfl
  | cons a args ih =>
    rw [printedAll, ih]
    rfl

/-! ## Parsing what was printed -/

theorem intercalate_eq_led (t : Token) (p : Phrase) (ps : List Phrase) :
    [t].intercalate ((p :: ps).map Phrase.tokens) = p.tokens ++ Phrase.led t ps := by
  induction ps generalizing p with
  | nil => rw [List.map_singleton, List.intercalate_singleton, Phrase.led_nil, List.append_nil]
  | cons q ps ih =>
    rw [List.map_cons, List.map_cons, List.intercalate_cons_cons, ← List.map_cons, ih q,
      Phrase.led_cons, List.append_assoc]
    rfl

/-- A call is read if its arguments are, as they are written. -/
theorem takes_printed_call {f : String} (hf : f ∉ reserved)
    (hargs : ∀ a ∈ args, Takes d .disjunction (printedArgument guard a) a) :
    Takes (d + 1) .operand (printed guard (.call f args)) (.call f args) := by
  rw [printed, printedAll_eq_map]
  cases args with
  | nil => exact (takes_emptyCall hf).mono (Nat.le_add_left 1 d)
  | cons a args =>
    let phrase (e : Expr) : Phrase := ⟨printedArgument guard e, e⟩
    have htokens : (a :: args).map (printedArgument guard) =
        (phrase a :: args.map phrase).map Phrase.tokens := by
      rw [← List.map_cons, List.map_map]
      rfl
    have htrees : args = (args.map phrase).map Phrase.tree := by
      rw [List.map_map]
      exact (List.map_id args).symm
    have hmore : ∀ p ∈ args.map phrase, Takes d .disjunction p.tokens p.tree :=
      List.forall_mem_map.mpr fun e he => hargs e (.tail a he)
    rw [htokens, intercalate_eq_led]
    have hcall := Takes.call hf (hargs a List.mem_cons_self) hmore
    rwa [← htrees] at hcall

/-- A printed expression is read, as an operand and on its own. -/
structure ReadsPrinted (guard : Bool) (d : Nat) (e : Expr) : Prop where
  operand : Takes d .operand (enclosed e (printed guard e)) e
  whole : Takes d .disjunction (printed guard e) e

namespace ReadsPrinted

theorem argument (h : ReadsPrinted guard d e) :
    Takes d .disjunction (printedArgument guard e) e := by
  rw [printedArgument]
  split
  · exact h.operand.single.plain.alone.only
  · exact h.whole

theorem of_operand (he : e.isCompound = false) (h : Takes d .operand (printed guard e) e) :
    ReadsPrinted guard d e where
  operand := by rwa [enclosed, he, if_neg Bool.false_ne_true]
  whole := h.single.plain.alone.only

/-- The parentheses around an operand take one more level. -/
theorem of_compound (he : e.isCompound = true) (h : Takes d .disjunction (printed guard e) e) :
    ReadsPrinted guard (d + 1) e where
  operand := by
    rw [enclosed, he, if_pos rfl]
    exact h.parens
  whole := h.mono (Nat.le_succ d)

end ReadsPrinted

/-- Two levels are enough for each operator or call that is nested. -/
theorem readsPrinted (h : Printable e) (guard : Bool) : ReadsPrinted guard (2 * nested e) e := by
  -- the levels that the deeper of two operands needs are enough for either
  have hleft : ∀ {a b : Expr}, ReadsPrinted guard (2 * nested a) a →
      Takes (2 * max (nested a) (nested b)) .operand (enclosed a (printed guard a)) a :=
    fun ha => ha.operand.mono (Nat.mul_le_mul_left 2 (Nat.le_max_left _ _))
  have hright : ∀ {a b : Expr}, ReadsPrinted guard (2 * nested b) b →
      Takes (2 * max (nested a) (nested b)) .operand (enclosed b (printed guard b)) b :=
    fun hb => hb.operand.mono (Nat.mul_le_mul_left 2 (Nat.le_max_right _ _))
  induction h with
  | literal v =>
    refine .of_operand rfl ?_
    cases v with
    | bool x => cases x <;> exact takes_word rfl
    | text s => exact takes_text s
    | null => exact takes_word rfl
  | path _ hw _ => exact .of_operand rfl (takes_path hw)
  | call _ hf _ ih =>
    refine .of_operand rfl ((takes_printed_call hf fun a ha => ?_).mono (Nat.le_succ _))
    exact (ih a ha).argument.mono (Nat.mul_le_mul_left 2 (nested_le_nestedAll ha))
  | not _ ih => exact .of_compound rfl ih.operand.single.plain.negation.alone.only
  | and _ _ iha ihb =>
    refine .of_compound rfl (Takes.only ?_)
    exact ((hleft iha).single.plain.mono (Nat.le_succ _)).and (hright ihb).single.plain
  | or _ _ iha ihb =>
    refine .of_compound rfl ?_
    exact ((hleft iha).single.plain.alone.mono (Nat.le_succ _)).or (hright ihb).single.plain.alone
  | eq _ _ iha ihb =>
    refine .of_compound rfl ?_
    exact ((hleft iha).same (hright ihb)).plain.alone.only.mono (Nat.le_succ _)
  | ne _ _ iha ihb =>
    refine .of_compound rfl ?_
    exact ((hleft iha).different (hright ihb)).plain.alone.only.mono (Nat.le_succ _)

/-! ## The words of what was printed -/

/-- The words among some tokens are names. -/
def Legible (ts : List Token) : Prop := ∀ t ∈ ts, t.Legible

theorem legible_nil : Legible [] := fun _ ht => absurd ht List.not_mem_nil

theorem legible_append (hts : Legible ts) (hus : Legible us) : Legible (ts ++ us) :=
  List.forall_mem_append.mpr ⟨hts, hus⟩

theorem legible_cons {t : Token} (ht : t.Legible) (hts : Legible ts) : Legible (t :: ts) :=
  List.forall_mem_cons.mpr ⟨ht, hts⟩

theorem legible_word {w : String} (hw : IsName w) : (Token.word w).Legible :=
  fun _ h => Token.word.inj h ▸ hw

theorem legible_dotted {ws : List String} (h : ∀ w ∈ ws, IsName w) : Legible (dotted ws) := by
  induction ws with
  | nil => exact legible_nil
  | cons w ws ih =>
    have hrest := ih fun v hv => h v (.tail w hv)
    exact legible_cons nofun (legible_cons (legible_word (h w List.mem_cons_self)) hrest)

theorem legible_enclosed (h : Legible ts) : Legible (enclosed e ts) := by
  rw [enclosed]
  split
  · exact legible_cons nofun (legible_append h (legible_cons nofun legible_nil))
  · exact h

theorem legible_intercalate {t : Token} {tss : List (List Token)} (ht : t.Legible)
    (h : ∀ ts ∈ tss, Legible ts) : Legible ([t].intercalate tss) := by
  induction tss with
  | nil => exact legible_nil
  | cons ts tss ih =>
    have hts := h ts List.mem_cons_self
    cases tss with
    | nil => rwa [List.intercalate_singleton]
    | cons us tss =>
      have hrest := ih fun vs hvs => h vs (.tail ts hvs)
      rw [List.intercalate_cons_cons]
      exact legible_append (legible_append hts (legible_cons ht legible_nil)) hrest

theorem legible_printed (h : Printable e) (guard : Bool) : Legible (printed guard e) := by
  -- the four signs between two operands are printed alike
  have hinfix : ∀ {a b : Expr} {t : Token}, t.Legible → Legible (printed guard a) →
      Legible (printed guard b) →
      Legible (enclosed a (printed guard a) ++ t :: enclosed b (printed guard b)) :=
    fun ht ha hb => legible_append (legible_enclosed ha) (legible_cons ht (legible_enclosed hb))
  induction h with
  | literal v =>
    have hwords : ∀ w ∈ reserved, IsName w := by decide
    cases v with
    | bool x =>
      cases x with
      | false => exact legible_cons (legible_word (hwords _ (by decide))) legible_nil
      | true => exact legible_cons (legible_word (hwords _ (by decide))) legible_nil
    | text s => exact legible_cons nofun legible_nil
    | null => exact legible_cons (legible_word (hwords _ (by decide))) legible_nil
  | path hname _ hnames => exact legible_cons (legible_word hname) (legible_dotted hnames)
  | @call f args hname _ _ ih =>
    have hargs : ∀ ts ∈ args.map (printedArgument guard), Legible ts := by
      refine List.forall_mem_map.mpr fun a ha => ?_
      rw [printedArgument]
      split
      · exact legible_enclosed (ih a ha)
      · exact ih a ha
    rw [printed, printedAll_eq_map]
    refine legible_cons (legible_word hname) (legible_cons nofun (legible_append ?_ ?_))
    · exact legible_intercalate nofun hargs
    · exact legible_cons nofun legible_nil
  | not _ ih => exact legible_cons nofun (legible_enclosed ih)
  | and _ _ iha ihb => exact hinfix nofun iha ihb
  | or _ _ iha ihb => exact hinfix nofun iha ihb
  | eq _ _ iha ihb => exact hinfix nofun iha ihb
  | ne _ _ iha ihb => exact hinfix nofun iha ihb

/-! ## Round trip -/

/-- However the tokens of an expression are written, it is parsed unless it goes too deep. -/
theorem parse_of_spaced {s : List Char} (hts : Legible ts) (hs : Spaced ts s)
    (h : Takes d .disjunction ts e) :
    (parse s = .ok e ∨ ∃ place, parse s = .error (.parse place .tooDeep)) ∧
    (d ≤ maxDepth → parse s = .ok e) := by
  obtain ⟨ls, hls, htokens⟩ := exists_scan_of_spaced hts hs 0
  have hlands := lands_parseTokens h
  have hok : parseTokens ts = .ok e → parse s = .ok e := by
    intro hparse
    rw [parse, lexemes, hls, ok_bind, htokens, hparse]
    rfl
  refine ⟨hlands.reaches.imp hok ?_, fun hroom => hok (hlands.eq_ok hroom)⟩
  rintro ⟨us, herror⟩
  refine ⟨placeOf ls (Text.utf8Length s) us.length, ?_⟩
  rw [parse, lexemes, hls, ok_bind, htokens, herror]

/-- However an expression is printed, it is parsed as it was, or refused because it nests too deep;
and it is not refused if no more than 60 operators and calls are nested. -/
theorem parse_printed (e : Expr) (h : Printable e) (guard : Bool) (s : List Char)
    (hs : Spaced (printed guard e) s) :
    (parse s = .ok e ∨ ∃ place fault, parse s = .error (.parse place fault) ∧
      fault.message = "expression nested too deeply") ∧
    (nested e ≤ 60 → parse s = .ok e) := by
  obtain ⟨hparse, hroom⟩ :=
    parse_of_spaced (legible_printed h guard) hs (readsPrinted h guard).whole
  refine ⟨hparse.imp_right ?_, fun hnested => hroom ?_⟩
  · rintro ⟨place, herror⟩
    exact ⟨place, .tooDeep, herror, rfl⟩
  · rw [maxDepth]
    omega

/-- `!(a.true === "\"\\")`, where the text is a double quote and a backslash. -/
def printedSample : Expr := .not (.eq (.path ["a", "true"]) (.literal (.text "\"\\")))

/-- The sample as it is printed, with a wide blank before the name. A segment may be any name behind
the first one. -/
theorem parse_printedSample :
    Printable printedSample ∧
    Spaced (printed true printedSample) "!(\u2003a.true===\"\\\"\\\\\")".toList ∧
    parse "!(\u2003a.true===\"\\\"\\\\\")".toList = .ok printedSample := by
  have hprintable : Printable printedSample :=
    .not (.eq (.path (by decide) (by decide) (List.forall_mem_singleton.mpr (by decide)))
      (.literal _))
  have hblank : Text.Blanks ['\u2003'] := List.forall_mem_singleton.mpr (by decide)
  have hnone : Text.Blanks [] := Text.blanks_nil
  have htokens : printed true printedSample =
      [.bang, .openParen, .word "a", .dot, .word "true", .same, .text "\"\\", .closeParen] := rfl
  have hspaced : Spaced (printed true printedSample) "!(\u2003a.true===\"\\\"\\\\\")".toList := by
    rw [htokens]
    refine @Spaced.cons _ _ [] ['!'] _ hnone (.head _) ?_ nofun
    refine @Spaced.cons _ _ [] ['('] _ hnone (.head _) ?_ nofun
    refine @Spaced.cons _ _ ['\u2003'] ['a'] _ hblank (.head _) ?_ nofun
    refine @Spaced.cons _ _ [] ['.'] _ hnone (.head _) ?_ nofun
    refine @Spaced.cons _ _ [] ['t', 'r', 'u', 'e'] _ hnone (.head _) ?_ nofun
    refine @Spaced.cons _ _ [] ['=', '=', '='] _ hnone (.tail _ (.head _)) ?_ nofun
    refine @Spaced.cons _ _ [] ['"', '\\', '"', '\\', '\\', '"'] _ hnone (.head _) ?_ nofun
    exact @Spaced.cons _ _ [] [')'] _ hnone (.head _) (.nil hnone) nofun
  have hnested : nested printedSample ≤ 60 := by decide
  exact ⟨hprintable, hspaced, (parse_printed _ hprintable true _ hspaced).2 hnested⟩

end EditGate.Condition
