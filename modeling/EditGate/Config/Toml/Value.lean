import EditGate.Config.Toml.Scalar

/-!
# Values of a configuration

A value is a string, a value without quotes, an array, or a table within braces. The key of an
entry of such a table is a name, or several with points between them, which lead through tables
within the table.
-/

namespace EditGate.Toml

/-- A table: keys with values in the order in which they are written. -/
abbrev Table := List (String × Json)

/-! ## Keys -/

def isBareKeyChar (c : Char) : Bool := c.isAlphanum || c == '_' || c == '-'

def readKey : List Char → Option (String × List Char)
  | '"' :: s => (readBasic s).map fun r => (String.ofList r.1, r.2)
  | '\x27' :: s => (readLiteral s).map fun r => (String.ofList r.1, r.2)
  | s =>
    let key := s.takeWhile isBareKeyChar
    if key.isEmpty then none else some (String.ofList key, s.dropWhile isBareKeyChar)

/-- A key and the sign after it, on one line. -/
def readKeyOf (s : List Char) : Option (String × List Char) := do
  let (key, s) ← readKey s
  match skipGap s with
  | '=' :: s => return (key, skipGap s)
  | _ => none

/-- How deep arrays and tables may lie within each other, and how many names a key may have. -/
def depthMax : Nat := 80

/-- So many names at most, with points between them. -/
def readPath : Nat → List Char → Option (List String × List Char)
  | 0, _ => none
  | room + 1, s => do
    let (name, s) ← readKey s
    match skipGap s with
    | '.' :: s => (readPath room (skipGap s)).map fun r => (name :: r.1, r.2)
    | s => return ([name], s)

/-- Names with points between them and the sign after them, which may stand on other lines. -/
def readPathOf (s : List Char) : Option (List String × List Char) := do
  let (path, s) ← readPath depthMax s
  match skipLines false s with
  | '=' :: s => return (path, skipLines false s)
  | _ => none

/-! ## Tables -/

/-- A table with one more key, which it must not have yet. -/
def addKey? (table : Table) (key : String) (v : Json) : Option Table :=
  if table.any (·.1 = key) then none else some (table ++ [(key, v)])

/-- The entries of a table within braces, each with the names of its key. -/
abbrev Entries := List (List String × Json)

/-- The entries with one more. No key may lead to another or through it. -/
def addEntry? (entries : Entries) (path : List String) (v : Json) : Option Entries :=
  if entries.any fun e => e.1.isPrefixOf path || path.isPrefixOf e.1 then none
  else some (entries ++ [(path, v)])

/-- Puts a value at the end of a path. -/
def Table.put (v : Json) : List String → Table → Table
  | [], table => table
  | [name], table => table ++ [(name, v)]
  | name :: path, table =>
    match table.lookup name with
    | some (.obj inner) =>
      table.map fun m => if m.1 = name then (name, .obj (Table.put v path inner)) else m
    | _ => table ++ [(name, .obj (Table.put v path []))]

def Table.ofEntries (entries : Entries) : Table :=
  entries.foldl (fun table e => table.put e.2 e.1) []

/-! ## Values -/

mutual

/-- A value with so much room for arrays and tables within each other. Every call takes one from
the fuel. -/
def readValue : Nat → Nat → List Char → Option (Json × List Char)
  | 0, _, _ => none
  | fuel + 1, room, s =>
    match s with
    | '[' :: s =>
      if room = 0 then none
      else (readItems fuel (room - 1) (skipLines false s)).map fun r => (.arr r.1, r.2)
    | '\x7b' :: s =>
      if room = 0 then none
      else (readEntries fuel (room - 1) [] (skipLines false s)).map fun r => (.obj r.1, r.2)
    | c :: s =>
      if c = '"' ∨ c = '\x27' then
        (readString (c :: s)).map fun r => (.str (String.ofList r.1), r.2)
      else readScalar (c :: s)
    | [] => none

/-- The items of an array and its closing bracket. -/
def readItems : Nat → Nat → List Char → Option (List Json × List Char)
  | 0, _, _ => none
  | fuel + 1, room, s =>
    match s with
    | ']' :: s => some ([], s)
    | s => do
      let (v, s) ← readValue fuel room s
      match skipLines false s with
      | ',' :: s => do
        let (vs, s) ← readItems fuel room (skipLines false s)
        return (v :: vs, s)
      | ']' :: s => return ([v], s)
      | _ => none

/-- The entries of a table within braces and the closing brace. -/
def readEntries : Nat → Nat → Entries → List Char → Option (Table × List Char)
  | 0, _, _, _ => none
  | fuel + 1, room, entries, s =>
    match s with
    | '\x7d' :: s => some (Table.ofEntries entries, s)
    | s => do
      let (path, s) ← readPathOf s
      let (v, s) ← readValue fuel room s
      let entries ← addEntry? entries path v
      match skipLines false s with
      | ',' :: s => readEntries fuel room entries (skipLines false s)
      | '\x7d' :: s => return (Table.ofEntries entries, s)
      | _ => none

end

end EditGate.Toml
