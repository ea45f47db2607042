/-
The grammar of statements and declarations, and whole programs.

A declaration that does not fit its rule is left out, its fault is noted, and
reading goes on where `resume` finds the next likely start of a statement.

* `Program.read` reads all tokens and always ends;
* `Stmt.forLoop` says what a `for` loop means.
-/
import Lox.Syntax.Expression

namespace Lox

/-- Functions and methods follow one rule but are named differently in messages. -/
inductive FunctionRole where
  | function | method
  deriving DecidableEq, Repr

/-- The word for a role. -/
def FunctionRole.text : FunctionRole → String
  | .function => "function"
  | .method => "method"

/-- Does a declaration or statement start with a token of this kind? -/
def Token.Kind.startsStatement : Token.Kind → Bool
  | .keyword k => k ∈ [.cls, .fun, .var, .for, .if, .while, .print, .return]
  | _ => false

/-- Where to go on after a fault at the first token: after the next semicolon,
before the next token after the first that starts a statement, or at the end. -/
def resume : List Token → List Token
  | [] => []
  | token :: tokens =>
    if token.kind = .endOfFile then
      token :: tokens
    else if token.kind = .symbol .semicolon then
      tokens
    else if tokens.head?.any (·.kind.startsStatement) then
      tokens
    else
      resume tokens

namespace Reader

/-- Reads a declaration, or notes its fault and moves on to where reading can
resume. -/
def recover (declaration : Reader Stmt) : Reader (Option Stmt) := fun state =>
  match declaration state with
  | .ok stmt state => .ok (some stmt) state
  | .error (.fault error) state =>
    .ok none { state with
      tokens := resume state.tokens
      faults := state.faults ++ [⟨error, state.tokens.head?⟩] }
  | .error .exhausted state => .error .exhausted state

/-- The value of a `return`, up to its semicolon. -/
def returnStatement (depth line : Nat) : Reader Stmt := do
  let value ← if ← sees (.symbol .semicolon) then pure none else some <$> expression depth
  expectSymbol .semicolon "';' after return value"
  return .returnValue line value

/-- An expression and its semicolon. -/
def expressionStatement (depth : Nat) : Reader Stmt := do
  let value ← expression depth
  expectSymbol .semicolon "';' after expression"
  return .expression value

/-- What follows `print`. -/
def printStatement (depth : Nat) : Reader Stmt := do
  let value ← expression depth
  expectSymbol .semicolon "';' after value"
  return .print value

/-- What follows `var`. -/
def varDeclaration (depth : Nat) : Reader Stmt := do
  let name ← expectName "variable name"
  let initializer ← if ← accept (.symbol .equal) then some <$> expression depth else pure none
  expectSymbol .semicolon "';' after variable declaration"
  return .varDecl name initializer

/-- The first clause of a `for` loop, up to and with its semicolon. -/
def forInitializer (depth : Nat) : Reader (Option Stmt) := do
  if ← accept (.symbol .semicolon) then
    return none
  else if ← accept (.keyword .var) then
    return some (← varDeclaration depth)
  else
    return some (← expressionStatement depth)

/-- An expression that may be missing before the given symbol. -/
def optionalBefore (depth : Nat) (symbol : Symbol) : Reader (Option Expr) := do
  if ← sees (.symbol symbol) then
    return none
  else
    return some (← expression depth)

/-- One or more parameters, `count` others being before them. -/
def parameters : Nat → Nat → Reader (List Name)
  | 0, _ => exhausted
  | depth + 1, count => do
    if maxArity ≤ count then
      complain (.tooMany "parameters")
    let param ← expectName "parameter name"
    if ← accept (.symbol .comma) then
      return param :: (← parameters depth (count + 1))
    else
      return [param]

/-- The parameters between the parentheses of a function, which may be none. -/
def parameterList (depth : Nat) : Reader (List Name) := do
  if ← sees (.symbol .rightParen) then
    return []
  else
    parameters depth 0

/-- The name of the superclass of a class, if it has one. -/
def superclass : Reader (Option Reference) := do
  if ← accept (.symbol .less) then
    let name ← expectName "superclass name"
    return some ⟨← freshId, name⟩
  else
    return none

mutual

/-- A declaration or statement, or nothing where one does not fit. -/
def declaration : Nat → Reader (Option Stmt)
  | 0 => exhausted
  | depth + 1 => recover do
    match ← kind? with
    | some (.keyword .cls) =>
      skip
      let name ← expectName "class name"
      let superclass ← superclass
      expectSymbol .leftBrace "'\x7b' before class body"
      let methods ← methods depth
      expectSymbol .rightBrace "'\x7d' after class body"
      return .classDecl ⟨name, superclass, methods⟩
    | some (.keyword .fun) =>
      skip
      return .funDecl (← function depth .function)
    | some (.keyword .var) =>
      skip
      varDeclaration depth
    | _ => statement depth

/-- The declarations up to the next closing brace or the end. -/
def declarations : Nat → Reader (List Stmt)
  | 0 => exhausted
  | depth + 1 => do
    if (← sees (.symbol .rightBrace)) || (← atEnd) then
      return []
    else
      let first ← declaration depth
      let others ← declarations depth
      return first.toList ++ others

/-- The body of a block or function, after its opening brace. -/
def block : Nat → Reader (List Stmt)
  | 0 => exhausted
  | depth + 1 => do
    let body ← declarations depth
    expectSymbol .rightBrace "'\x7d' after block"
    return body

/-- A function or method, from its name on. -/
def function : Nat → FunctionRole → Reader FunctionDecl
  | 0, _ => exhausted
  | depth + 1, role => do
    let name ← expectName (role.text ++ " name")
    expectSymbol .leftParen ("'(' after " ++ role.text ++ " name")
    let params ← parameterList depth
    expectSymbol .rightParen "')' after parameters"
    expectSymbol .leftBrace ("'\x7b' before " ++ role.text ++ " body")
    let body ← block depth
    return ⟨name, params, body⟩

/-- The methods up to the next closing brace or the end. -/
def methods : Nat → Reader (List FunctionDecl)
  | 0 => exhausted
  | depth + 1 => do
    if (← sees (.symbol .rightBrace)) || (← atEnd) then
      return []
    else
      let first ← function depth .method
      let others ← methods depth
      return first :: others

/-- A statement that is not a declaration. -/
def statement : Nat → Reader Stmt
  | 0 => exhausted
  | depth + 1 => do
    match ← peek with
    | some ⟨.keyword .print, _, _⟩ =>
      skip
      printStatement depth
    | some ⟨.symbol .leftBrace, _, _⟩ =>
      skip
      return .block (← block depth)
    | some ⟨.keyword .if, _, _⟩ =>
      skip
      expectSymbol .leftParen "'(' after 'if'"
      let condition ← expression depth
      expectSymbol .rightParen "')' after if condition"
      let thenBranch ← statement depth
      if ← accept (.keyword .else) then
        return .ifElse condition thenBranch (some (← statement depth))
      else
        return .ifElse condition thenBranch none
    | some ⟨.keyword .while, _, _⟩ =>
      skip
      expectSymbol .leftParen "'(' after 'while'"
      let condition ← expression depth
      expectSymbol .rightParen "')' after condition"
      return .whileLoop condition (← statement depth)
    | some ⟨.keyword .for, _, _⟩ =>
      skip
      expectSymbol .leftParen "'(' after 'for'"
      let initializer ← forInitializer depth
      let condition ← optionalBefore depth .semicolon
      expectSymbol .semicolon "';' after loop condition"
      let increment ← optionalBefore depth .rightParen
      expectSymbol .rightParen "')' after for clauses"
      return Stmt.forLoop initializer condition increment (← statement depth)
    | some ⟨.keyword .return, _, line⟩ =>
      skip
      returnStatement depth line
    | _ => expressionStatement depth

end

/-- The declarations up to the end. -/
def program : Nat → Reader Program
  | 0 => exhausted
  | depth + 1 => do
    if ← atEnd then
      return []
    else
      let first ← declaration depth
      let others ← program depth
      return first.toList ++ others

end Reader

/-- What was read from a list of tokens: the declarations that fit, the faults of
the others, and the first id that is still free. -/
structure Reading where
  program : Program
  diagnostics : List Diagnostic
  nextId : Nat

/-- Reads a program, handing out ids from `nextId` on.  A fault after the last
token is put on the line of that token. -/
def Program.read (nextId : Nat) (tokens : List Token) : Reading :=
  let endLine := (tokens.getLast?.map Token.line).getD 1
  match Reader.program (Reader.depthFor tokens) ⟨tokens, nextId, []⟩ with
  | .ok program state => ⟨program, state.faults.map (·.diagnostic endLine), state.nextId⟩
  | .error _ state => ⟨[], state.faults.map (·.diagnostic endLine), state.nextId⟩

end Lox
