import EditGate.Json.Print
import EditGate.Text.Quoted

/-!
# Values that fit a type

Reading a value as a type either succeeds or names the first thing that does not fit. The members
of an object are looked at in the order in which they stand, each against the type of its field;
only then are missing fields noticed, in the order of declaration. A record may also be written as
an array of its fields.
-/

namespace EditGate

/-- Why a value does not fit. -/
inductive Misfit where
  | wrongKind (found : Json) (expected : String)
  | outOfRange (found : Json) (expected : String)
  | manyVariants
  | missingField (name : String)
  | unknownField (name : String) (known : List String)
  | unknownVariant (name : String) (known : List String)
  /-- An array with fewer items than the record has fields. -/
  | tooFewItems (present : Nat) (record : String) (fields : Nat)
  | tooManyItems (present : Nat)
deriving DecidableEq, Repr

namespace Misfit

/-- What was found, in words. -/
def describe : Json → String
  | .null => "null"
  | .bool b => "boolean `" ++ String.ofList (Json.printBool b) ++ "`"
  | .int n => "integer `" ++ String.ofList (Json.printInt n) ++ "`"
  | .double d => "floating point `" ++ String.ofList (Json.printDouble d) ++ "`"
  | .str s => "string " ++ Text.quoted s
  | .arr _ => "sequence"
  | .obj _ => "map"

def tick (name : String) : String := "`" ++ name ++ "`"

/-- The names that would have been right. -/
def alternatives : List String → String
  | [] => "nothing"
  | [a] => tick a
  | [a, b] => tick a ++ " or " ++ tick b
  | names => "one of " ++ ", ".intercalate (names.map tick)

def message : Misfit → String
  | wrongKind found expected => "invalid type: " ++ describe found ++ ", expected " ++ expected
  | outOfRange found expected => "invalid value: " ++ describe found ++ ", expected " ++ expected
  | manyVariants => "invalid value: map, expected map with a single key"
  | missingField name => "missing field " ++ tick name
  | unknownField name known =>
    "unknown field " ++ tick name ++ ", expected " ++ alternatives known
  | unknownVariant name known =>
    "unknown variant " ++ tick name ++ ", expected " ++ alternatives known
  | tooFewItems present record fields =>
    "invalid length " ++ toString present ++ ", expected struct " ++ record ++ " with " ++
      toString fields ++ if fields = 1 then " element" else " elements"
  | tooManyItems present =>
    "invalid length " ++ toString present ++ ", expected fewer elements in array"

end Misfit

/-- Reads a value as a type. -/
abbrev Fit (α : Type) := Json → Except Misfit α

namespace Fit

variable {α : Type}

def string : Fit String
  | .str s => .ok s
  | v => .error (.wrongKind v "a string")

def boolean : Fit Bool
  | .bool b => .ok b
  | v => .error (.wrongKind v "a boolean")

/-- An integer of 32 bits. -/
def int32 : Fit Int
  | .int n =>
    if -0x80000000 ≤ n ∧ n < 0x80000000 then .ok n else .error (.outOfRange (.int n) "i32")
  | v => .error (.wrongKind v "i32")

/-- Anything, null being absence. -/
def optional (fit : Fit α) : Fit (Option α)
  | .null => .ok none
  | v => (fit v).map some

def list (fit : Fit α) : Fit (List α)
  | .arr items => items.mapM fit
  | v => .error (.wrongKind v "a sequence")

def keyed (fit : Fit α) : Fit (Keyed α)
  | .obj members => members.mapM fun m => (fit m.2).map (m.1, ·)
  | v => .error (.wrongKind v "a map")

/-- The variant of that name. -/
def variant (variants : List (String × α)) (name : String) : Except Misfit α :=
  match variants.lookup name with
  | some a => .ok a
  | none => .error (.unknownVariant name (variants.map Prod.fst))

/-- One of several variants: its name, or an object with the name as its one member and null as
the value. -/
def choice (variants : List (String × α)) : Fit α
  | .str name => variant variants name
  | .obj [(name, v)] => do
    let a ← variant variants name
    if v.isNull then .ok a else .error (.wrongKind v "unit")
  | .obj _ => .error .manyVariants
  | v => .error (.wrongKind v "string or map")

end Fit

/-! ## Records -/

/-- The fields that were given, by name. -/
structure GivenFields where
  get? : String → Option Json
  /-- Whether the fields were given by position. -/
  positional : Bool
  /-- What to say of a field that was not given. -/
  missing : String → Misfit

namespace GivenFields

variable {α : Type}

/-- A field that has to be given. -/
def required (g : GivenFields) (name : String) (fit : Fit α) : Except Misfit α :=
  match g.get? name with
  | some v => fit v
  | none => .error (g.missing name)

/-- A field with a value of its own when it is not given. -/
def withDefault (g : GivenFields) (name : String) (default : α) (fit : Fit α) :
    Except Misfit α :=
  match g.get? name with
  | some v => fit v
  | none => .ok default

/-- A field that may be left out by name, but has its place in an array. -/
def orAbsent (g : GivenFields) (name : String) (fit : Fit α) : Except Misfit (Option α) :=
  match g.get? name with
  | some v => Fit.optional fit v
  | none => if g.positional then .error (g.missing name) else .ok none

end GivenFields

/-- How a record is read. -/
structure RecordFit (α : Type) where
  name : String
  /-- Whether members of other names are refused. -/
  strict : Bool
  /-- The fields in order of declaration, each with the test of its value. -/
  fields : List (String × (Json → Except Misfit Unit))
  build : GivenFields → Except Misfit α

namespace RecordFit

variable {α : Type}

/-- A field with the test that its value fits. -/
def field {β : Type} (name : String) (fit : Fit β) : String × (Json → Except Misfit Unit) :=
  (name, fun v => (fit v).map fun _ => ())

def fieldNames (r : RecordFit α) : List String := r.fields.map Prod.fst

/-- Looks at the members in order. -/
def visit (r : RecordFit α) : List (String × Json) → Except Misfit Unit
  | [] => .ok ()
  | (name, v) :: ms =>
    match r.fields.lookup name with
    | some test => do test v; r.visit ms
    | none => if r.strict then .error (.unknownField name r.fieldNames) else r.visit ms

/-- Reads an object, or an array of the fields. -/
def read (r : RecordFit α) : Fit α
  | .obj members => do
    r.visit members
    r.build ⟨(Keyed.get? · members), false, .missingField⟩
  | .arr items => do
    let members := r.fieldNames.zip items
    r.visit members
    let missing := fun _ => Misfit.tooFewItems items.length r.name r.fields.length
    let a ← r.build ⟨(members.lookup ·), true, missing⟩
    if items.length > r.fields.length then .error (.tooManyItems items.length) else .ok a
  | v => .error (.wrongKind v ("struct " ++ r.name))

end RecordFit

end EditGate
