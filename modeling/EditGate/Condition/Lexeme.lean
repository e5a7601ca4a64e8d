import EditGate.Condition.Basic
import EditGate.Text.Blank

/-!
# Lexemes

A source is cut into tokens, each with the place in bytes where it starts. Blanks separate words
and are otherwise skipped; inside a text a backslash takes the next character as it is.
-/

namespace EditGate.Condition

/-- A token and the place where it starts. -/
structure Lexeme where
  place : Nat
  token : Token
deriving DecidableEq, Repr

def isWordStart (c : Char) : Bool := c.isAlpha || c == '_' || c == '$'

def isWordChar (c : Char) : Bool := c.isAlphanum || c == '_' || c == '$'

/-- Whether a word goes on here. -/
def continuesWord : List Char → Bool
  | [] => false
  | c :: _ => isWordChar c

/-- Puts a lexeme before those of the rest. -/
def withLexeme (place : Nat) (t : Token) (rest : Except Error (List Lexeme)) :
    Except Error (List Lexeme) :=
  rest.map (⟨place, t⟩ :: ·)

mutual

/-- The lexemes of a source that starts at `place`. -/
def scan (place : Nat) : List Char → Except Error (List Lexeme)
  | [] => .ok []
  | '(' :: s => withLexeme place .openParen (scan (place + 1) s)
  | ')' :: s => withLexeme place .closeParen (scan (place + 1) s)
  | ',' :: s => withLexeme place .comma (scan (place + 1) s)
  | '.' :: s => withLexeme place .dot (scan (place + 1) s)
  | '&' :: '&' :: s => withLexeme place .bothOf (scan (place + 2) s)
  | '|' :: '|' :: s => withLexeme place .eitherOf (scan (place + 2) s)
  | '=' :: '=' :: '=' :: s => withLexeme place .same (scan (place + 3) s)
  | '=' :: '=' :: s => withLexeme place .same (scan (place + 2) s)
  | '!' :: '=' :: '=' :: s => withLexeme place .different (scan (place + 3) s)
  | '!' :: '=' :: s => withLexeme place .different (scan (place + 2) s)
  | '!' :: s => withLexeme place .bang (scan (place + 1) s)
  | c :: s =>
    if Text.isBlank c then scan (place + c.utf8Size) s
    else if c = '"' ∨ c = '\x27' then scanText place c [] (place + 1) s
    else if isWordStart c then
      if continuesWord s then scanWord place [c] (place + 1) s
      else withLexeme place (.word (String.singleton c)) (scan (place + 1) s)
    else .error (.unexpectedChar c place)

/-- The lexemes from within the word that began at `start`; `read` is what was read of it, last
character first. -/
def scanWord (start : Nat) (read : List Char) (place : Nat) :
    List Char → Except Error (List Lexeme)
  | [] => .ok [⟨start, .word (String.ofList read.reverse)⟩]
  | c :: s =>
    if continuesWord s then scanWord start (c :: read) (place + 1) s
    else withLexeme start (.word (String.ofList (c :: read).reverse)) (scan (place + 1) s)

/-- The lexemes from within the text that began at `start` with `quote`; `read` is what was read
of it, last character first. -/
def scanText (start : Nat) (quote : Char) (read : List Char) (place : Nat) :
    List Char → Except Error (List Lexeme)
  | [] => .error (.unterminatedText start)
  | ['\\'] => .error (.unterminatedText start)
  | '\\' :: c :: s => scanText start quote (c :: read) (place + 1 + c.utf8Size) s
  | c :: s =>
    if c = quote then
      withLexeme start (.text (String.ofList read.reverse)) (scan (place + 1) s)
    else scanText start quote (c :: read) (place + c.utf8Size) s

end

/-- The lexemes of a whole source. -/
def lexemes (source : List Char) : Except Error (List Lexeme) := scan 0 source

end EditGate.Condition
