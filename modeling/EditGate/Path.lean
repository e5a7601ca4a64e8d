import EditGate.Text.Split

/-!
# Paths

A path is a text with slashes. Joining is textual; everything else goes by components, of which
empty ones and single dots do not count, except for a dot at the very start.
-/

namespace EditGate

/-- The text of a path. -/
abbrev Path := List Char

namespace Path

/-- A part of a path that counts. -/
inductive Component where
  | root
  /-- A single dot at the start. -/
  | here
  | up
  | name (s : List Char)
deriving DecidableEq, Repr

def dot : List Char := ['.']

def dotDot : List Char := ['.', '.']

def isAbsolute (p : Path) : Bool := p.head? == some '/'

/-- A path seen from another: an absolute one stands for itself. -/
def join (base p : Path) : Path :=
  if isAbsolute p then p
  else if base.isEmpty || base.getLast? == some '/' then base ++ p
  else base ++ '/' :: p

/-- The component of a piece between slashes, if it counts. -/
def component? (piece : List Char) : Option Component :=
  if piece = [] ∨ piece = dot then none
  else if piece = dotDot then some .up
  else some (.name piece)

def components (p : Path) : List Component :=
  if isAbsolute p then .root :: (Text.splitOn '/' p).filterMap component?
  else
    match Text.splitOn '/' p with
    | [] => []
    | piece :: pieces =>
      (if piece = dot then [.here] else (component? piece).toList) ++ pieces.filterMap component?

/-- Pieces joined by slashes. -/
def ofPieces (pieces : List (List Char)) : Path := ['/'].intercalate pieces

/-! ## The last component -/

/-- Drops the pieces at the end that do not count; the pieces come last first. -/
def dropIdle : List (List Char) → List (List Char)
  | [] => []
  | [piece] => [piece]
  | piece :: pieces => if piece = [] ∨ piece = dot then dropIdle pieces else piece :: pieces

/-- The last piece that counts and those before it, last first; none for the root and for an
empty path. -/
def last? (p : Path) : Option (List Char × List (List Char)) :=
  match dropIdle (Text.splitOn '/' p).reverse with
  | [] => none
  | [piece] => if piece = [] then none else some (piece, [])
  | piece :: pieces => some (piece, pieces)

/-- The path without its last component. -/
def parent? (p : Path) : Option Path :=
  (last? p).map fun (_, pieces) =>
    match dropIdle pieces with
    | [[]] => ['/']
    | pieces => ofPieces pieces.reverse

/-- The name that a path ends in, if it ends in one. -/
def fileName? (p : Path) : Option (List Char) :=
  match last? p with
  | some (piece, _) => if piece = dot ∨ piece = dotDot then none else some piece
  | none => none

/-- The path with another name in place of the one it ends in. -/
def withFileName (p : Path) (name : List Char) : Path :=
  match fileName? p with
  | some _ => join ((parent? p).getD p) name
  | none => join p name

/-! ## Keys -/

/-- What remains of some components after others. -/
def stripComponents? : (base cs : List Component) → Option (List Component)
  | [], cs => some cs
  | _ :: _, [] => none
  | b :: base, c :: cs => if b = c then stripComponents? base cs else none

/-- Adds a component to the segments of a key, which come last first. Going up undoes a name; at
the root it changes nothing, and with nothing to undo it is kept. -/
def pushComponent (segments : List (List Char)) : Component → List (List Char)
  | .name s => s :: segments
  | .root => [] :: segments
  | .here => segments
  | .up =>
    match segments with
    | [] => [dotDot]
    | [] :: _ => segments
    | s :: rest => if s = dotDot then dotDot :: segments else rest

/-- The segments that some components come down to. -/
def keySegments (cs : List Component) : List (List Char) :=
  (cs.foldl pushComponent []).reverse

/-- The key of a path under a root: what leads from the root to it, without detours. Backslashes
count as slashes. -/
def key (root p : Path) : List Char :=
  let cs := components (Text.replaceChar '\\' '/' p)
  let relative := if cs.head? = some .root then (stripComponents? (components root) cs).getD cs else cs
  ofPieces (keySegments relative)

end Path

end EditGate
