import EditGate.Config.Toml.Value

/-!
# The text of a configuration

A configuration is written in TOML: first the keys of the whole, then sections, each one more table
in an array. Plain sections fit no field of a configuration and are refused here.
-/

namespace EditGate.Toml

/-! ## Sections -/

/-- The name of a section of an array of tables, and what follows its line. -/
def readSection? : List Char → Option (String × List Char)
  | '[' :: '[' :: s => do
    let (key, s) ← readKey (skipGap s)
    match skipGap s with
    | ']' :: ']' :: s => return (key, ← endLine? s)
    | _ => none
  | _ => none

/-- Adds an empty table to the array of tables of that name. The arrays of sections are in
`sections`, their tables last first; one that was written as a value takes no section. -/
def openSection (name : String) : List (String × List Table) → List (String × List Table)
  | [] => [(name, [[]])]
  | (n, ts) :: rest => if n = name then (n, [] :: ts) :: rest else (n, ts) :: openSection name rest

/-- Adds a key to the table that was opened last in the array of that name. -/
def addToSection? (name key : String) (v : Json) :
    List (String × List Table) → Option (List (String × List Table))
  | [] => none
  | (n, ts) :: rest =>
    if n = name then
      match ts with
      | [] => none
      | t :: ts => (addKey? t key v).map fun t => (n, t :: ts) :: rest
    else (addToSection? name key v rest).map ((n, ts) :: ·)

/-- What was read of a document. -/
structure Draft where
  top : Table := []
  sections : List (String × List Table) := []
  /-- The name of the section being read. -/
  current : Option String := none

/-- The draft with one more key where it belongs. -/
def Draft.add? (d : Draft) (key : String) (v : Json) : Option Draft :=
  match d.current with
  | none => (addKey? d.top key v).map fun top => { d with top }
  | some name => (addToSection? name key v d.sections).map fun sections => { d with sections }

/-- The draft with one more section, whose name must not be the key of a value. -/
def Draft.open? (d : Draft) (name : String) : Option Draft :=
  if d.top.any (·.1 = name) then none
  else some { d with sections := openSection name d.sections, current := some name }

/-- The lines of a document. Every call takes one from the fuel. -/
def readLines : Nat → Draft → List Char → Option Draft
  | 0, _, _ => none
  | fuel + 1, d, s =>
    match skipLines false s with
    | [] => some d
    | '[' :: s => do
      let (name, s) ← readSection? ('[' :: s)
      readLines fuel (← d.open? name) s
    | s => do
      let (key, s) ← readKeyOf s
      let (v, s) ← readValue (2 * s.length + 2) depthMax s
      readLines fuel (← d.add? key v) (← endLine? s)

def Draft.table (d : Draft) : Table :=
  d.top ++ d.sections.map fun (name, ts) => (name, .arr (ts.reverse.map .obj))

/-- The table that a text writes. A byte order mark at its start does not count. -/
def read? (s : List Char) : Option Table :=
  let s := if s.head? = some '\ufeff' then s.drop 1 else s
  (readLines (s.length + 1) {} s).map Draft.table

end EditGate.Toml
