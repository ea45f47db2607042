/-
Programs as trees.

A program is a list of statements.  Names carry the line they are written on;
every use of a variable, `this` or `super` carries an id by which the distance to
its binding is looked up, so two uses of one name are told apart.

There is no node for a `for` loop: `Stmt.forLoop` builds it from blocks and a
`while` loop.
-/
import Lox.Token

namespace Lox

/-- A name as it is written on some line. -/
structure Name where
  text : String
  line : Nat
  deriving DecidableEq, Repr

/-- A use of a variable. -/
structure Reference where
  id : Nat
  name : Name
  deriving DecidableEq, Repr

/-- Constants. -/
inductive Literal where
  | number (value : Float)
  | string (value : String)
  | boolean (value : Bool)
  | nil
  deriving DecidableEq

/-- Operators with one operand. -/
inductive UnaryOp where
  | negate | not
  deriving DecidableEq, Repr

/-- Operators with two operands, both of which are evaluated. -/
inductive BinaryOp where
  | equal | notEqual
  | less | lessEqual | greater | greaterEqual
  | plus | minus | times | divide
  deriving DecidableEq, Repr

/-- Operators whose right operand is evaluated only if the left one does not
decide the result. -/
inductive LogicalOp where
  | and | or
  deriving DecidableEq, Repr

/-- Expressions.  The `line` of an operator is the line it is written on, that of
a call the line of its closing parenthesis. -/
inductive Expr where
  | literal (value : Literal)
  | grouping (inner : Expr)
  | unary (op : UnaryOp) (line : Nat) (operand : Expr)
  | binary (left : Expr) (op : BinaryOp) (line : Nat) (right : Expr)
  | logical (left : Expr) (op : LogicalOp) (right : Expr)
  | varRef (target : Reference)
  | assign (target : Reference) (value : Expr)
  | call (callee : Expr) (arguments : List Expr) (line : Nat)
  | get (object : Expr) (name : Name)
  | set (object : Expr) (name : Name) (value : Expr)
  | thisRef (id : Nat) (line : Nat)
  | superRef (id : Nat) (line : Nat) (method : Name)

mutual

/-- Statements and declarations. -/
inductive Stmt where
  | expression (value : Expr)
  | print (value : Expr)
  | varDecl (name : Name) (initializer : Option Expr)
  | block (body : List Stmt)
  | ifElse (condition : Expr) (thenBranch : Stmt) (elseBranch : Option Stmt)
  | whileLoop (condition : Expr) (body : Stmt)
  | funDecl (function : FunctionDecl)
  | returnValue (line : Nat) (value : Option Expr)
  | classDecl (declared : ClassDecl)

/-- A function or method. -/
structure FunctionDecl where
  name : Name
  params : List Name
  body : List Stmt

/-- A class. -/
structure ClassDecl where
  name : Name
  superclass : Option Reference
  methods : List FunctionDecl

end

/-- A program is run statement by statement. -/
abbrev Program := List Stmt

/-- The method that runs when an instance is created. -/
def initializerName : String := "init"

/-- Is this method run when an instance is created? -/
def FunctionDecl.isInitializer (f : FunctionDecl) : Bool :=
  f.name.text = initializerName

/-- A `for` loop.  The increment runs after the body, inside the loop; a missing
condition always holds; the initializer has a scope of its own around the loop. -/
def Stmt.forLoop (initializer : Option Stmt) (condition increment : Option Expr) (body : Stmt) :
    Stmt :=
  let body :=
    match increment with
    | some step => .block [body, .expression step]
    | none => body
  let loop := .whileLoop (condition.getD (.literal (.boolean true))) body
  match initializer with
  | some first => .block [first, loop]
  | none => loop

end Lox
