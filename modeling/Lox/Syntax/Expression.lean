/-
The grammar of expressions.

Operators with two operands are arranged in `tiers`, from the loosest to the
tightest; within a tier they group to the left.  Assignment and the operators
with one operand group to the right, calls and property accesses to the left.

`Reader.expression` is the entry.  Like all rules it takes a bound on its depth.
-/
import Lox.Syntax.Reader

namespace Lox

/-- An operator between two operands. -/
inductive Connective where
  | binary (op : BinaryOp)
  | logical (op : LogicalOp)
  deriving DecidableEq, Repr

/-- The expression that joins two operands; only a binary operator keeps its line. -/
def Connective.join (left : Expr) (line : Nat) (right : Expr) : Connective → Expr
  | .binary op => .binary left op line right
  | .logical op => .logical left op right

/-- Operators of equal precedence, by their tokens. -/
abbrev Tier := List (Token.Kind × Connective)

/-- All operators between two operands, the loosest first. -/
def Tier.all : List Tier :=
  [ [(.keyword .or, .logical .or)],
    [(.keyword .and, .logical .and)],
    [(.symbol .equalEqual, .binary .equal), (.symbol .bangEqual, .binary .notEqual)],
    [(.symbol .less, .binary .less), (.symbol .lessEqual, .binary .lessEqual),
      (.symbol .greater, .binary .greater), (.symbol .greaterEqual, .binary .greaterEqual)],
    [(.symbol .plus, .binary .plus), (.symbol .minus, .binary .minus)],
    [(.symbol .star, .binary .times), (.symbol .slash, .binary .divide)] ]

/-- The operator with one operand that a token stands for. -/
def UnaryOp.ofKind? : Token.Kind → Option UnaryOp
  | .symbol .minus => some .negate
  | .symbol .bang => some .not
  | _ => none

/-- The constant that a token stands for. -/
def Literal.ofKind? : Token.Kind → Option Literal
  | .number value => some (.number value)
  | .string value => some (.string value)
  | .keyword .true => some (.boolean true)
  | .keyword .false => some (.boolean false)
  | .keyword .nil => some .nil
  | _ => none

namespace Reader

mutual

/-- An assignment, or anything tighter.  Only a variable or a property can be
assigned to; another target is a fault at the `=`, noted after the value is read. -/
def assignment : Nat → Reader Expr
  | 0 => exhausted
  | depth + 1 => do
    let target ← operand depth Tier.all
    let equals ← peek
    if ← accept (.symbol .equal) then
      let value ← assignment depth
      match target with
      | .varRef reference => return .assign reference value
      | .get object name => return .set object name value
      | other =>
        complainAt equals .invalidAssignmentTarget
        return other
    else
      return target

/-- Operands joined by the operators of the given tiers. -/
def operand : Nat → List Tier → Reader Expr
  | 0, _ => exhausted
  | depth + 1, [] => unary depth
  | depth + 1, tier :: tighter => do
    let left ← operand depth tighter
    joined depth tier tighter left

/-- What follows a left operand: the operators of one tier, each with a right
operand of the tighter tiers. -/
def joined : Nat → Tier → List Tier → Expr → Reader Expr
  | 0, _, _, _ => exhausted
  | depth + 1, tier, tighter, left => do
    match ← peek with
    | none => return left
    | some token =>
      match tier.lookup token.kind with
      | none => return left
      | some connective =>
        skip
        let right ← operand depth tighter
        joined depth tier tighter (connective.join left token.line right)

/-- Operators with one operand, then calls. -/
def unary : Nat → Reader Expr
  | 0 => exhausted
  | depth + 1 => do
    let front ← peek
    match front.bind (fun token => (UnaryOp.ofKind? token.kind).map (·, token.line)) with
    | some (op, line) =>
      skip
      return .unary op line (← unary depth)
    | none =>
      let callee ← primary depth
      applied depth callee

/-- What follows a callee or an object: arguments and property names. -/
def applied : Nat → Expr → Reader Expr
  | 0, _ => exhausted
  | depth + 1, callee => do
    match ← kind? with
    | some (.symbol .leftParen) =>
      skip
      let arguments ← if ← sees (.symbol .rightParen) then pure [] else arguments depth 0
      let paren ← expect (.symbol .rightParen) "')' after arguments"
      applied depth (.call callee arguments paren.line)
    | some (.symbol .dot) =>
      skip
      let name ← expectName "property name after '.'"
      applied depth (.get callee name)
    | _ => return callee

/-- One or more arguments, `count` others being before them. -/
def arguments : Nat → Nat → Reader (List Expr)
  | 0, _ => exhausted
  | depth + 1, count => do
    if maxArity ≤ count then
      complain (.tooMany "arguments")
    let argument ← assignment depth
    if ← accept (.symbol .comma) then
      return argument :: (← arguments depth (count + 1))
    else
      return [argument]

/-- Constants, names and expressions in parentheses. -/
def primary : Nat → Reader Expr
  | 0 => exhausted
  | depth + 1 => do
    match ← peek with
    | none => fail (.expected "expression")
    | some token =>
      match Literal.ofKind? token.kind with
      | some value =>
        skip
        return .literal value
      | none =>
        match token.kind with
        | .symbol .leftParen =>
          skip
          let inner ← assignment depth
          expectSymbol .rightParen "')' after expression"
          return .grouping inner
        | .identifier =>
          skip
          return .varRef ⟨← freshId, ⟨token.lexeme, token.line⟩⟩
        | .keyword .this =>
          skip
          return .thisRef (← freshId) token.line
        | .keyword .super =>
          skip
          expectSymbol .dot "'.' after 'super'"
          let method ← expectName "superclass method name"
          return .superRef (← freshId) token.line method
        | _ => fail (.expected "expression")

end

/-- An expression. -/
def expression (depth : Nat) : Reader Expr :=
  assignment depth

end Reader

end Lox
