import EditGate.Decimal.Double
import EditGate.Keyed

/-!
# JSON values

A number is an integer of 64 bits or a double. The members of an object are a list, which a reader
leaves in increasing order of name (`Json.canonical`); a record written out field by field has them
in the order of its fields.
-/

namespace EditGate

open Decimal (Double)

/-- A JSON value. -/
inductive Json where
  | null
  | bool (b : Bool)
  | int (n : Int)
  | double (d : Double)
  | str (s : String)
  | arr (items : List Json)
  | obj (members : List (String × Json))
deriving Repr, Inhabited

namespace Json

/-! ## Equality -/

mutual

/-- Decides equality of two values. -/
def decideEq : (a b : Json) → Decidable (a = b)
  | null, b => by cases b <;> first | exact isTrue rfl | exact isFalse (by simp)
  | bool x, b => by
    cases b with
    | bool y => exact decidable_of_iff (x = y) (by simp)
    | _ => exact isFalse (by simp)
  | int x, b => by
    cases b with
    | int y => exact decidable_of_iff (x = y) (by simp)
    | _ => exact isFalse (by simp)
  | double x, b => by
    cases b with
    | double y => exact decidable_of_iff (x = y) (by simp)
    | _ => exact isFalse (by simp)
  | str x, b => by
    cases b with
    | str y => exact decidable_of_iff (x = y) (by simp)
    | _ => exact isFalse (by simp)
  | arr xs, b => by
    cases b with
    | arr ys => exact @decidable_of_iff _ (xs = ys) (by simp) (decideEqItems xs ys)
    | _ => exact isFalse (by simp)
  | obj xs, b => by
    cases b with
    | obj ys => exact @decidable_of_iff _ (xs = ys) (by simp) (decideEqMembers xs ys)
    | _ => exact isFalse (by simp)

/-- Decides equality of two lists of values. -/
def decideEqItems : (a b : List Json) → Decidable (a = b)
  | [], [] => isTrue rfl
  | [], _ :: _ => isFalse (by simp)
  | _ :: _, [] => isFalse (by simp)
  | x :: xs, y :: ys =>
    have := decideEq x y
    have := decideEqItems xs ys
    decidable_of_iff (x = y ∧ xs = ys) (by simp)

/-- Decides equality of two lists of members. -/
def decideEqMembers : (a b : List (String × Json)) → Decidable (a = b)
  | [], [] => isTrue rfl
  | [], _ :: _ => isFalse (by simp)
  | _ :: _, [] => isFalse (by simp)
  | (k, x) :: xs, (l, y) :: ys =>
    have := decideEq x y
    have := decideEqMembers xs ys
    decidable_of_iff (k = l ∧ x = y ∧ xs = ys) (by simp [and_assoc])

end

instance : DecidableEq Json := decideEq

/-! ## Shape -/

def isObject : Json → Bool
  | obj _ => true
  | _ => false

def isNull : Json → Bool
  | null => true
  | _ => false

/-- The member of that name, of an object. -/
def member? (name : String) : Json → Option Json
  | obj members => Keyed.get? name members
  | _ => none

/-- The value of an optional string, absence being null. -/
def ofOption {α : Type} (f : α → Json) : Option α → Json
  | none => null
  | some a => f a

def ofStrings (ss : List String) : Json := arr (ss.map str)

/-! ## Canonical form -/

mutual

/-- The value with the members of every object in increasing order of name; of two members of one
name the later counts. -/
def canonical : Json → Json
  | arr items => arr (canonicalItems items)
  | obj members => obj (Keyed.ofList (canonicalMembers members))
  | v => v

def canonicalItems : List Json → List Json
  | [] => []
  | v :: vs => canonical v :: canonicalItems vs

def canonicalMembers : List (String × Json) → List (String × Json)
  | [] => []
  | (k, v) :: ms => (k, canonical v) :: canonicalMembers ms

end

mutual

/-- Every object of the value has its members in strictly increasing order of name. -/
def IsCanonical : Json → Prop
  | arr items => ItemsCanonical items
  | obj members => Keyed.Sorted members ∧ MembersCanonical members
  | _ => True

def ItemsCanonical : List Json → Prop
  | [] => True
  | v :: vs => IsCanonical v ∧ ItemsCanonical vs

def MembersCanonical : List (String × Json) → Prop
  | [] => True
  | (_, v) :: ms => IsCanonical v ∧ MembersCanonical ms

end

end Json

end EditGate
