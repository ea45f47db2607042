/-
Reading syntax from a list of tokens.

A `Reader` takes tokens from the front of its state, hands out ids for references
and notes faults.  It stops early in two ways:

* `Stop.fault` — the tokens do not fit; they are left at the offending token;
* `Stop.exhausted` — the bound on the depth of the recursion was too small, which
  the bounds used for whole programs rule out.
-/
import Lox.Syntax

namespace Lox

/-- How tokens fail to be a program. -/
inductive SyntaxError where
  | expected (what : String)
  | tooMany (what : String)
  | invalidAssignmentTarget
  deriving DecidableEq, Repr

/-- The most parameters of a function and the most arguments of a call. -/
def maxArity : Nat := 255

/-- The words of a syntax error. -/
def SyntaxError.message : SyntaxError → String
  | .expected what => "Expect " ++ what ++ "."
  | .tooMany what => "Can't have more than " ++ toString maxArity ++ " " ++ what ++ "."
  | .invalidAssignmentTarget => "Invalid assignment target."

/-- A syntax error and the token it was found at, none at the end of the tokens. -/
structure SyntaxFault where
  error : SyntaxError
  found : Option Token
  deriving DecidableEq

/-- The diagnostic for a fault; `endLine` is the line of the end of the tokens. -/
def SyntaxFault.diagnostic (endLine : Nat) (fault : SyntaxFault) : Diagnostic :=
  match fault.found with
  | some token => ⟨token.line, token.location, fault.error.message⟩
  | none => ⟨endLine, .atEnd, fault.error.message⟩

/-- The tokens that are left, the next free id and the faults so far, in order. -/
structure ReaderState where
  tokens : List Token
  nextId : Nat
  faults : List SyntaxFault
  deriving DecidableEq

/-- Why reading stopped early. -/
inductive Stop where
  | fault (error : SyntaxError)
  | exhausted
  deriving DecidableEq, Repr

/-- Reads an `α` from the tokens of its state. -/
abbrev Reader := EStateM Stop ReaderState

namespace Reader

/-- Stops at the current token. -/
def fail {α : Type} (error : SyntaxError) : Reader α :=
  throw (.fault error)

/-- Stops for want of depth. -/
def exhausted {α : Type} : Reader α :=
  throw .exhausted

/-- The current token. -/
def peek : Reader (Option Token) := fun state =>
  .ok state.tokens.head? state

/-- Moves on to the next token. -/
def skip : Reader Unit := fun state =>
  .ok () { state with tokens := state.tokens.tail }

/-- The id after the last one.  Here ids are counted without end: a session comes round to the
first one again (`Session.parseWrapped`). -/
def freshId : Reader Nat := fun state =>
  .ok state.nextId { state with nextId := state.nextId + 1 }

/-- Notes a fault at the given token and goes on. -/
def complainAt (found : Option Token) (error : SyntaxError) : Reader Unit := fun state =>
  .ok () { state with faults := state.faults ++ [⟨error, found⟩] }

/-- Notes a fault at the current token and goes on. -/
def complain (error : SyntaxError) : Reader Unit := do
  complainAt (← peek) error

/-- The kind of the current token. -/
def kind? : Reader (Option Token.Kind) := do
  return (← peek).map Token.kind

/-- Is the current token of this kind? -/
def sees (kind : Token.Kind) : Reader Bool := do
  return (← kind?) = some kind

/-- Is no token left but the one for the end of the file? -/
def atEnd : Reader Bool := do
  match ← kind? with
  | none => return true
  | some kind => return kind = .endOfFile

/-- Moves over a token of this kind, if it is the current one. -/
def accept (kind : Token.Kind) : Reader Bool := do
  if ← sees kind then
    skip
    return true
  else
    return false

/-- Takes a token of this kind; `what` says what was expected if there is none. -/
def expect (kind : Token.Kind) (what : String) : Reader Token := do
  match ← peek with
  | some token =>
    if token.kind = kind then
      skip
      return token
    else
      fail (.expected what)
  | none => fail (.expected what)

/-- Takes an identifier. -/
def expectName (what : String) : Reader Name := do
  let token ← expect .identifier what
  return ⟨token.lexeme, token.line⟩

/-- Takes a symbol. -/
def expectSymbol (symbol : Symbol) (what : String) : Reader Unit := do
  let _ ← expect (.symbol symbol) what

/-- A bound on the depth of reading that suffices for these tokens: no rule of the
grammar goes through as many as sixteen others before a token is taken. -/
def depthFor (tokens : List Token) : Nat :=
  16 * (tokens.length + 2)

end Reader

end Lox
