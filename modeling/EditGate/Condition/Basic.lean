import EditGate.Text.Quoted

/-!
# Conditions

A condition is a small expression over booleans, texts and null. This module has its values, its
trees, its tokens, and everything that can go wrong with one.
-/

namespace EditGate.Condition

/-- What an expression evaluates to. -/
inductive Value where
  | bool (b : Bool)
  | text (s : String)
  | null
deriving DecidableEq, Repr, Inhabited

/-- A value as messages show it. -/
def Value.shown : Value → String
  | bool true => "true"
  | bool false => "false"
  | text s => Text.quoted s
  | null => "null"

/-- The tree of a condition. -/
inductive Expr where
  | literal (v : Value)
  | path (segments : List String)
  | call (name : String) (args : List Expr)
  | not (e : Expr)
  | and (a b : Expr)
  | or (a b : Expr)
  | eq (a b : Expr)
  | ne (a b : Expr)
deriving Repr, Inhabited

namespace Expr

mutual

/-- Decides equality of two trees. -/
def decideEq : (a b : Expr) → Decidable (a = b)
  | literal x, e => by
    cases e with
    | literal y => exact decidable_of_iff (x = y) (by simp)
    | _ => exact isFalse (by simp)
  | path x, e => by
    cases e with
    | path y => exact decidable_of_iff (x = y) (by simp)
    | _ => exact isFalse (by simp)
  | call n xs, e => by
    cases e with
    | call m ys =>
      have := decideEqArgs xs ys
      exact decidable_of_iff (n = m ∧ xs = ys) (by simp)
    | _ => exact isFalse (by simp)
  | not x, e => by
    cases e with
    | not y => exact @decidable_of_iff _ (x = y) (by simp) (decideEq x y)
    | _ => exact isFalse (by simp)
  | and x x', e => by
    cases e with
    | and y y' =>
      have := decideEq x y
      have := decideEq x' y'
      exact decidable_of_iff (x = y ∧ x' = y') (by simp)
    | _ => exact isFalse (by simp)
  | or x x', e => by
    cases e with
    | or y y' =>
      have := decideEq x y
      have := decideEq x' y'
      exact decidable_of_iff (x = y ∧ x' = y') (by simp)
    | _ => exact isFalse (by simp)
  | eq x x', e => by
    cases e with
    | eq y y' =>
      have := decideEq x y
      have := decideEq x' y'
      exact decidable_of_iff (x = y ∧ x' = y') (by simp)
    | _ => exact isFalse (by simp)
  | ne x x', e => by
    cases e with
    | ne y y' =>
      have := decideEq x y
      have := decideEq x' y'
      exact decidable_of_iff (x = y ∧ x' = y') (by simp)
    | _ => exact isFalse (by simp)

/-- Decides equality of two lists of trees. -/
def decideEqArgs : (a b : List Expr) → Decidable (a = b)
  | [], [] => isTrue rfl
  | [], _ :: _ => isFalse (by simp)
  | _ :: _, [] => isFalse (by simp)
  | x :: xs, y :: ys =>
    have := decideEq x y
    have := decideEqArgs xs ys
    decidable_of_iff (x = y ∧ xs = ys) (by simp)

end

instance : DecidableEq Expr := decideEq

end Expr

/-- A token of a condition. -/
inductive Token where
  | word (s : String)
  | text (s : String)
  | openParen
  | closeParen
  | comma
  | dot
  | bothOf
  | eitherOf
  | bang
  | same
  | different
deriving DecidableEq, Repr

/-- What a message calls a token. -/
def Token.title : Token → String
  | word s => "Ident(" ++ Text.quoted s ++ ")"
  | text s => "Str(" ++ Text.quoted s ++ ")"
  | openParen => "LParen"
  | closeParen => "RParen"
  | comma => "Comma"
  | dot => "Dot"
  | bothOf => "AndAnd"
  | eitherOf => "OrOr"
  | bang => "Bang"
  | same => "EqEq"
  | different => "NotEq"

/-! ## Errors -/

/-- Why a list of tokens is no condition. -/
inductive ParseFault where
  | unexpectedEnd
  | expected (what : String)
  | tooDeep
  | trailing
  | unexpectedToken (t : Token)
  | noName
deriving DecidableEq, Repr

def ParseFault.message : ParseFault → String
  | unexpectedEnd => "unexpected end of expression"
  | expected what => "expected " ++ what
  | tooDeep => "expression nested too deeply"
  | trailing => "trailing input"
  | unexpectedToken t => "unexpected token " ++ t.title
  | noName => "expected identifier after '.'"

/-- A value of a kind that does not belong where it stands. -/
inductive KindFault where
  | notASlot (name : String)
  | slotExpected (found : Value)
  | operand (op : String) (found : Value)
  | result (found : Value)
deriving DecidableEq, Repr

/-- What is said of a name that is no approval slot. -/
def unknownSlot (name : String) : String :=
  "unknown approval slot '" ++ name ++ "' (expected dev, codeReview or qa)"

def KindFault.message : KindFault → String
  | notASlot name => "Validation error: " ++ unknownSlot name
  | slotExpected found => "hasApproval expects a slot name, got " ++ found.shown
  | operand op found => "operand of '" ++ op ++ "' must be boolean, got " ++ found.shown
  | result found => "condition must evaluate to a boolean, got " ++ found.shown

/-- What can go wrong with a condition. Places count bytes of the source. -/
inductive Error where
  | unexpectedChar (c : Char) (place : Nat)
  | unterminatedText (place : Nat)
  | parse (place : Nat) (fault : ParseFault)
  | unknownFunction (name : String)
  | arity (name : String) (expected got : Nat)
  | unknownPath (segments : List String)
  | kind (fault : KindFault)
deriving DecidableEq, Repr

def Error.message : Error → String
  | unexpectedChar c place =>
    "unexpected character '" ++ String.singleton c ++ "' at offset " ++ toString place
  | unterminatedText place => "unterminated string starting at offset " ++ toString place
  | parse place fault => "parse error at offset " ++ toString place ++ ": " ++ fault.message
  | unknownFunction name => "unknown function '" ++ name ++ "'"
  | arity name expected got =>
    "function '" ++ name ++ "' expects " ++ toString expected ++ " argument(s), got " ++ toString got
  | unknownPath segments => "unknown path '" ++ ".".intercalate segments ++ "'"
  | kind fault => "type error: " ++ fault.message

end EditGate.Condition
