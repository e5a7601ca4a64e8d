import EditGate.Text.Split

/-!
# Command-line arguments

Two dashes start the name of an option. Its value follows an equals sign or is the next argument;
a switch is an option without a value. No option is given twice. Two dashes alone make all that
follows stand for itself.
-/

namespace EditGate.Cli

/-- The options that a command has. -/
structure Shape where
  /-- Options with a value. -/
  valued : List String := []
  switches : List String := []
deriving DecidableEq, Repr

/-- What an argument is by its spelling. -/
inductive Word where
  | plain (s : String)
  | option (name : String) (value : Option String)
  /-- Two dashes alone. -/
  | divider
  /-- A single dash with something after it; no command has such options. -/
  | short
deriving DecidableEq, Repr

def Word.of (arg : String) : Word :=
  match arg.toList with
  | ['-', '-'] => divider
  | '-' :: '-' :: s =>
    match Text.cutAt? ['='] s with
    | some (name, value) => option (String.ofList name) (some (String.ofList value))
    | none => option (String.ofList s) none
  | '-' :: _ :: _ => short
  | _ => plain arg

/-- Arguments sorted out. -/
structure Given where
  plain : List String := []
  values : List (String × String) := []
  switches : List String := []
  /-- The option that the next argument is the value of. -/
  awaiting : Option String := none
deriving DecidableEq, Repr

namespace Given

def value? (g : Given) (name : String) : Option String := g.values.lookup name

/-- Gives an option its value, unless it has one. -/
def withValue? (g : Given) (name value : String) : Option Given :=
  if (g.value? name).isSome then none
  else some { g with values := g.values ++ [(name, value)], awaiting := none }

def withSwitch? (g : Given) (name : String) : Option Given :=
  if name ∈ g.switches then none else some { g with switches := g.switches ++ [name] }

/-- Takes in one more argument. None if the command has no such option, or it lacks its value. -/
def take? (g : Given) (s : Shape) (w : Word) : Option Given :=
  match g.awaiting, w with
  | some name, .plain value => g.withValue? name value
  | none, .plain arg => some { g with plain := g.plain ++ [arg] }
  | none, .option name (some value) => if name ∈ s.valued then g.withValue? name value else none
  | none, .option name none =>
    if name ∈ s.valued then some { g with awaiting := some name }
    else if name ∈ s.switches then g.withSwitch? name
    else none
  | _, _ => none

/-- The only plain argument. -/
def single? (g : Given) : Option String :=
  match g.plain with
  | [arg] => some arg
  | _ => none

end Given

/-- Sorts out all arguments of a command. -/
def sortOut (s : Shape) (g : Given) : List String → Option Given
  | [] => if g.awaiting.isSome then none else some g
  | arg :: args =>
    match g.awaiting, Word.of arg with
    | none, .divider => some { g with plain := g.plain ++ args }
    | _, w => do sortOut s (← g.take? s w) args

/-- Sorts out the arguments before the first plain one. -/
def untilPlain (s : Shape) (g : Given) : List String → Option (Given × String × List String)
  | [] => none
  | arg :: args =>
    match g.awaiting, Word.of arg with
    | none, .plain word => some (g, word, args)
    | _, w => do untilPlain s (← g.take? s w) args

end EditGate.Cli
