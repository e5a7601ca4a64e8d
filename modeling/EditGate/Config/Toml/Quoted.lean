import EditGate.Config.Toml.Digits

/-!
# Blanks and strings of a configuration

Blanks, comments and line breaks lie between the parts of a configuration. A string stands between
single or double quotes, three of them if it goes over several lines; between double quotes a
backslash starts an escape.
-/

namespace EditGate.Toml

/-! ## Blanks and comments -/

def isGap (c : Char) : Bool := c == ' ' || c == '\t'

def skipGap (s : List Char) : List Char := s.dropWhile isGap

/-- A character that may stand in a comment or a string: any but a control, the tab excepted. -/
def isPlain (c : Char) : Bool := c == '\t' || (c.toNat ≥ 0x20 && c.toNat != 0x7f)

/-- What follows a line break. -/
def dropBreak? : List Char → Option (List Char)
  | '\n' :: s => some s
  | '\r' :: '\n' :: s => some s
  | _ => none

def startsBreak (s : List Char) : Bool := (dropBreak? s).isSome

/-- Skips blanks, line breaks and comments. -/
def skipLines (inComment : Bool) : List Char → List Char
  | [] => []
  | c :: s =>
    if c = '\n' then skipLines false s
    else if c = '\r' then if s.head? = some '\n' then skipLines inComment s else c :: s
    else if inComment then if isPlain c then skipLines true s else c :: s
    else if isGap c then skipLines false s
    else if c = '#' then skipLines true s
    else c :: s

/-- What follows the end of a line, before which there may be blanks and a comment. -/
def endLine? (s : List Char) : Option (List Char) :=
  let s := skipGap s
  let s := if s.head? = some '#' then s.dropWhile isPlain else s
  if s.isEmpty then some [] else dropBreak? s

/-! ## Strings -/

/-- The character of a number, if there is one. -/
def char? (n : Nat) : Option Char :=
  if h : n.isValidChar then some (Char.ofNatAux n h) else none

/-- The character of a one-letter escape. -/
def escape? : Char → Option Char
  | '"' => some '"'
  | '\\' => some '\\'
  | 'b' => some '\x08'
  | 'e' => some '\x1b'
  | 'f' => some '\x0c'
  | 'n' => some '\n'
  | 'r' => some '\r'
  | 't' => some '\t'
  | _ => none

/-- Puts a character before the text of a string. -/
def withChar (c : Option Char) (rest : Option (List Char × List Char)) :
    Option (List Char × List Char) := do
  let c ← c
  let (text, rest) ← rest
  return (c :: text, rest)

/-- The text of a string in double quotes, after the opening one. -/
def readBasic : List Char → Option (List Char × List Char)
  | [] => none
  | '"' :: s => some ([], s)
  | '\\' :: 'x' :: a :: b :: s => withChar (number? 16 [a, b] >>= char?) (readBasic s)
  | '\\' :: 'u' :: a :: b :: c :: d :: s =>
    withChar (number? 16 [a, b, c, d] >>= char?) (readBasic s)
  | '\\' :: 'U' :: a :: b :: c :: d :: e :: f :: g :: h :: s =>
    withChar (number? 16 [a, b, c, d, e, f, g, h] >>= char?) (readBasic s)
  | '\\' :: c :: s => withChar (escape? c) (readBasic s)
  | c :: s => if isPlain c && c != '\\' then withChar (some c) (readBasic s) else none

/-- The text of a string in single quotes, after the opening one. -/
def readLiteral : List Char → Option (List Char × List Char)
  | [] => none
  | c :: s =>
    if c = '\x27' then some ([], s)
    else if isPlain c then withChar (some c) (readLiteral s)
    else none

/-- Whether a backslash here ends its line. -/
def endsLine (s : List Char) : Bool := startsBreak (skipGap s)

/-- A character of a string over several lines: plain, or part of a line break. -/
def isLinesChar (c : Char) (s : List Char) : Bool :=
  isPlain c || c == '\n' || (c == '\r' && s.head? == some '\n')

/-- The text of a string over several lines in triple double quotes, after the opening ones. After
a backslash at the end of a line, blanks and line breaks are skipped. -/
def readBasicLines (skipping : Bool) : List Char → Option (List Char × List Char)
  | [] => none
  | '"' :: '"' :: '"' :: '"' :: '"' :: '"' :: _ => none
  | '"' :: '"' :: '"' :: '"' :: '"' :: s => some (['"', '"'], s)
  | '"' :: '"' :: '"' :: '"' :: s => some (['"'], s)
  | '"' :: '"' :: '"' :: s => some ([], s)
  | '\\' :: 'x' :: a :: b :: s => withChar (number? 16 [a, b] >>= char?) (readBasicLines false s)
  | '\\' :: 'u' :: a :: b :: c :: d :: s =>
    withChar (number? 16 [a, b, c, d] >>= char?) (readBasicLines false s)
  | '\\' :: 'U' :: a :: b :: c :: d :: e :: f :: g :: h :: s =>
    withChar (number? 16 [a, b, c, d, e, f, g, h] >>= char?) (readBasicLines false s)
  | '\\' :: c :: s =>
    if endsLine (c :: s) then readBasicLines true (c :: s)
    else withChar (escape? c) (readBasicLines false s)
  | c :: s =>
    if skipping && (isGap c || c == '\n' || (c == '\r' && s.head? == some '\n')) then
      readBasicLines true s
    else if isLinesChar c s && c != '\\' then withChar (some c) (readBasicLines false s)
    else none

/-- The text of a string over several lines in triple single quotes, after the opening ones. -/
def readLiteralLines : List Char → Option (List Char × List Char)
  | [] => none
  | '\x27' :: '\x27' :: '\x27' :: '\x27' :: '\x27' :: '\x27' :: _ => none
  | '\x27' :: '\x27' :: '\x27' :: '\x27' :: '\x27' :: s => some (['\x27', '\x27'], s)
  | '\x27' :: '\x27' :: '\x27' :: '\x27' :: s => some (['\x27'], s)
  | '\x27' :: '\x27' :: '\x27' :: s => some ([], s)
  | c :: s => if isLinesChar c s then withChar (some c) (readLiteralLines s) else none

/-- A line break right after the opening quotes does not count. -/
def dropFirstBreak (s : List Char) : List Char := (dropBreak? s).getD s

/-- A string of any kind. -/
def readString : List Char → Option (List Char × List Char)
  | '"' :: '"' :: '"' :: s => readBasicLines false (dropFirstBreak s)
  | '\x27' :: '\x27' :: '\x27' :: s => readLiteralLines (dropFirstBreak s)
  | '"' :: s => readBasic s
  | '\x27' :: s => readLiteral s
  | _ => none

end EditGate.Toml
