import EditGate.Condition.Lexeme
import EditGate.Text.Split

/-!
# Parsing conditions

The grammar, over tokens:

* a disjunction is conjunctions joined by `||`, grouped to the left;
* a conjunction is unary expressions joined by `&&`, grouped to the left;
* a unary expression is `!` before one, or a comparison;
* a comparison is an operand, or two of them joined by `==` or `!=`;
* an operand is a call, a path, a literal, or a disjunction in parentheses.

Every operator other than a comparison, every pair of parentheses and every call nests what it
applies to one level deeper, and `maxDepth` levels may be nested. The parsers of one level are
therefore built from those of the level below (`Level.above`), and the lowest level refuses to go
deeper.
-/

namespace EditGate.Condition

/-- The levels that may be nested. -/
def maxDepth : Nat := 128

/-- A fault and the tokens from where it was noticed. -/
structure Stuck where
  fault : ParseFault
  rest : List Token
deriving DecidableEq, Repr

/-- Reads an expression off the front of a list of tokens. -/
abbrev Parser := List Token → Except Stuck (Expr × List Token)

/-- The parsers of one level of nesting. -/
structure Level where
  unary : Parser
  conjunction : Parser
  disjunction : Parser
  /-- What follows a conjunction that was begun. -/
  moreConjuncts : Expr → Parser
  /-- What follows a disjunction that was begun. -/
  moreDisjuncts : Expr → Parser

/-- The words that are literals. -/
def literalWord? (w : String) : Option Value :=
  if w = "true" then some (.bool true)
  else if w = "false" then some (.bool false)
  else if w = "null" ∨ w = "undefined" then some .null
  else none

/-- The further segments of a path. -/
def segments : List Token → Except Stuck (List String × List Token)
  | .dot :: .word w :: ts => (segments ts).map fun r => (w :: r.1, r.2)
  | .dot :: ts => .error ⟨.noName, ts⟩
  | ts => .ok ([], ts)

/-- The arguments of a call up to its closing parenthesis. There are fewer of them than tokens, so
`limit` does not run out. -/
def arguments (argument : Parser) : (limit : Nat) → List Token →
    Except Stuck (List Expr × List Token)
  | 0, ts => .error ⟨.unexpectedEnd, ts⟩
  | limit + 1, ts => do
    let (e, ts) ← argument ts
    match ts with
    | .comma :: ts => do
      let (es, ts) ← arguments argument limit ts
      return (e :: es, ts)
    | .closeParen :: ts => return ([e], ts)
    | ts => .error ⟨.expected "')' or ','", ts⟩

/-- The level below, if there is one. -/
def enter (below : Option Level) (ts : List Token) : Except Stuck Level :=
  match below with
  | some level => .ok level
  | none => .error ⟨.tooDeep, ts⟩

/-- A call whose opening parenthesis has been read. -/
def call (below : Option Level) (name : String) (ts : List Token) :
    Except Stuck (Expr × List Token) := do
  let level ← enter below ts
  match ts with
  | .closeParen :: ts => return (.call name [], ts)
  | ts => do
    let (args, ts) ← arguments level.disjunction ts.length ts
    return (.call name args, ts)

/-- An operand. -/
def operand (below : Option Level) : Parser
  | [] => .error ⟨.unexpectedEnd, []⟩
  | .openParen :: ts => do
    let level ← enter below ts
    let (e, ts) ← level.disjunction ts
    match ts with
    | .closeParen :: ts => return (e, ts)
    | ts => .error ⟨.expected "')'", ts⟩
  | .text s :: ts => .ok (.literal (.text s), ts)
  | .word w :: ts =>
    match literalWord? w with
    | some v => .ok (.literal v, ts)
    | none =>
      match ts with
      | .openParen :: ts => call below w ts
      | ts => (segments ts).map fun r => (.path (w :: r.1), r.2)
  | t :: ts => .error ⟨.unexpectedToken t, t :: ts⟩

/-- An operand, or two joined by a comparison. -/
def comparison (below : Option Level) : Parser := fun ts => do
  let (a, ts) ← operand below ts
  match ts with
  | .same :: ts => do
    let (b, ts) ← operand below ts
    return (.eq a b, ts)
  | .different :: ts => do
    let (b, ts) ← operand below ts
    return (.ne a b, ts)
  | ts => return (a, ts)

/-- A negation or a comparison. -/
def unary (below : Option Level) : Parser
  | .bang :: ts => do
    let level ← enter below ts
    let (e, ts) ← level.unary ts
    return (.not e, ts)
  | ts => comparison below ts

/-- The further operands of a conjunction. -/
def moreConjuncts (below : Option Level) (a : Expr) : Parser
  | .bothOf :: ts => do
    let level ← enter below ts
    let (b, ts) ← level.unary ts
    level.moreConjuncts (.and a b) ts
  | ts => .ok (a, ts)

def conjunction (below : Option Level) : Parser := fun ts => do
  let (a, ts) ← unary below ts
  moreConjuncts below a ts

/-- The further operands of a disjunction. -/
def moreDisjuncts (below : Option Level) (a : Expr) : Parser
  | .eitherOf :: ts => do
    let level ← enter below ts
    let (b, ts) ← level.conjunction ts
    level.moreDisjuncts (.or a b) ts
  | ts => .ok (a, ts)

def disjunction (below : Option Level) : Parser := fun ts => do
  let (a, ts) ← conjunction below ts
  moreDisjuncts below a ts

/-- The parsers of a level, given those of the level below. -/
def Level.above (below : Option Level) : Level where
  unary := Condition.unary below
  conjunction := Condition.conjunction below
  disjunction := Condition.disjunction below
  moreConjuncts := Condition.moreConjuncts below
  moreDisjuncts := Condition.moreDisjuncts below

/-- The parsers with that many levels below them. -/
def level : Nat → Level
  | 0 => .above none
  | n + 1 => .above (some (level n))

/-- The condition that a whole list of tokens writes. -/
def parseTokens (ts : List Token) : Except Stuck Expr := do
  let (e, rest) ← (level maxDepth).disjunction ts
  if rest.isEmpty then return e else .error ⟨.trailing, rest⟩

/-- The place of the first of the last `count` lexemes, or the end of the source. -/
def placeOf (ls : List Lexeme) (length count : Nat) : Nat :=
  match ls.drop (ls.length - count) with
  | [] => length
  | l :: _ => l.place

/-- The condition that a source writes. -/
def parse (source : List Char) : Except Error Expr := do
  let ls ← lexemes source
  match parseTokens (ls.map Lexeme.token) with
  | .ok e => return e
  | .error stuck =>
    .error (.parse (placeOf ls (Text.utf8Length source) stuck.rest.length) stuck.fault)

end EditGate.Condition
