/-
Trees as text: every node is written as a parenthesised list that starts with
its operator, for instance `(print (+ 1 (* 2 3)))`.

Strings are written raw between quotes, numbers as the shortest decimal that
reads back, and a literal too large for a double as `inf`.
-/
import Lox.Syntax

namespace Lox

/-- The text of an operator, as in a source. -/
def UnaryOp.text : UnaryOp → String
  | negate => "-"
  | not => "!"

/-- The text of an operator, as in a source. -/
def BinaryOp.text : BinaryOp → String
  | equal => "=="
  | notEqual => "!="
  | less => "<"
  | lessEqual => "<="
  | greater => ">"
  | greaterEqual => ">="
  | plus => "+"
  | minus => "-"
  | times => "*"
  | divide => "/"

/-- The text of an operator, as in a source. -/
def LogicalOp.text : LogicalOp → String
  | .and => "and"
  | .or => "or"

/-- The text of a constant. -/
def Literal.text : Literal → String
  | number x => Decimal.text "inf" x
  | string s => "\"" ++ s ++ "\""
  | boolean b => if b then "true" else "false"
  | nil => "nil"

mutual

/-- The text of an expression. -/
def Expr.text : Expr → String
  | .literal value => value.text
  | .grouping inner => "(group " ++ inner.text ++ ")"
  | .unary op _ operand => "(" ++ op.text ++ " " ++ operand.text ++ ")"
  | .binary left op _ right => "(" ++ op.text ++ " " ++ left.text ++ " " ++ right.text ++ ")"
  | .logical left op right => "(" ++ op.text ++ " " ++ left.text ++ " " ++ right.text ++ ")"
  | .varRef target => target.name.text
  | .assign target value => "(= " ++ target.name.text ++ " " ++ value.text ++ ")"
  | .call callee arguments _ => "(call " ++ callee.text ++ Expr.textEach arguments ++ ")"
  | .get object name => "(. " ++ object.text ++ " " ++ name.text ++ ")"
  | .set object name value => "(= (. " ++ object.text ++ " " ++ name.text ++ ") " ++ value.text ++ ")"
  | .thisRef _ _ => "this"
  | .superRef _ _ method => "(super " ++ method.text ++ ")"

/-- The texts of several expressions, each after a space. -/
def Expr.textEach : List Expr → String
  | [] => ""
  | e :: es => " " ++ e.text ++ Expr.textEach es

end

mutual

/-- The text of a statement. -/
def Stmt.text : Stmt → String
  | .expression value => "(; " ++ value.text ++ ")"
  | .print value => "(print " ++ value.text ++ ")"
  | .varDecl name none => "(var " ++ name.text ++ ")"
  | .varDecl name (some value) => "(var " ++ name.text ++ " = " ++ value.text ++ ")"
  | .block body => "(block" ++ Stmt.textEach body ++ ")"
  | .ifElse condition thenBranch none => "(if " ++ condition.text ++ " " ++ thenBranch.text ++ ")"
  | .ifElse condition thenBranch (some elseBranch) =>
    "(if " ++ condition.text ++ " " ++ thenBranch.text ++ " " ++ elseBranch.text ++ ")"
  | .whileLoop condition body => "(while " ++ condition.text ++ " " ++ body.text ++ ")"
  | .funDecl function => function.text
  | .returnValue _ none => "(return)"
  | .returnValue _ (some value) => "(return " ++ value.text ++ ")"
  | .classDecl declared => declared.text

/-- The texts of several statements, each after a space. -/
def Stmt.textEach : List Stmt → String
  | [] => ""
  | s :: ss => " " ++ s.text ++ Stmt.textEach ss

/-- The text of a function or method: its parameters stand in parentheses right
after its name. -/
def FunctionDecl.text : FunctionDecl → String
  | ⟨name, params, body⟩ =>
    "(fun " ++ name.text ++ "(" ++ String.intercalate " " (params.map Name.text) ++ ")" ++
      Stmt.textEach body ++ ")"

/-- The texts of several methods, each after a space. -/
def FunctionDecl.textEach : List FunctionDecl → String
  | [] => ""
  | f :: fs => " " ++ f.text ++ FunctionDecl.textEach fs

/-- The text of a class: `<` stands before the name of its superclass. -/
def ClassDecl.text : ClassDecl → String
  | ⟨name, none, methods⟩ => "(class " ++ name.text ++ FunctionDecl.textEach methods ++ ")"
  | ⟨name, some superclass, methods⟩ =>
    "(class " ++ name.text ++ " < " ++ superclass.name.text ++ FunctionDecl.textEach methods ++ ")"

end

end Lox
