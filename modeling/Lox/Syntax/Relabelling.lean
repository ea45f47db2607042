/-
Changing the lines and the ids of a tree.

Lines are only reported and ids are only looked up, so a program may be numbered
in another way without being another program.  A `Relabelling` says how, and
`Expr.relabel`, `Stmt.relabel` and their kin put it through a tree.
-/
import Lox.Syntax

namespace Lox

/-- New lines and new ids for old ones. -/
@[ext]
structure Relabelling where
  line : Nat → Nat
  id : Nat → Nat

namespace Relabelling

/-- Changes ids only. -/
def ids (f : Nat → Nat) : Relabelling :=
  ⟨fun line => line, f⟩

end Relabelling

variable (r : Relabelling)

/-- The name on its new line. -/
def Name.relabel (name : Name) : Name :=
  ⟨name.text, r.line name.line⟩

/-- The reference with its new id, on its new line. -/
def Reference.relabel (target : Reference) : Reference :=
  ⟨r.id target.id, target.name.relabel r⟩

mutual

/-- The expression with new lines and ids. -/
def Expr.relabel : Expr → Expr
  | .literal value => .literal value
  | .grouping inner => .grouping inner.relabel
  | .unary op line operand => .unary op (r.line line) operand.relabel
  | .binary left op line right => .binary left.relabel op (r.line line) right.relabel
  | .logical left op right => .logical left.relabel op right.relabel
  | .varRef target => .varRef (target.relabel r)
  | .assign target value => .assign (target.relabel r) value.relabel
  | .call callee arguments line =>
    .call callee.relabel (Expr.relabelEach arguments) (r.line line)
  | .get object name => .get object.relabel (name.relabel r)
  | .set object name value => .set object.relabel (name.relabel r) value.relabel
  | .thisRef id line => .thisRef (r.id id) (r.line line)
  | .superRef id line method => .superRef (r.id id) (r.line line) (method.relabel r)

/-- Several expressions with new lines and ids. -/
def Expr.relabelEach : List Expr → List Expr
  | [] => []
  | e :: es => e.relabel :: Expr.relabelEach es

end

mutual

/-- The statement with new lines and ids. -/
def Stmt.relabel : Stmt → Stmt
  | .expression value => .expression (value.relabel r)
  | .print value => .print (value.relabel r)
  | .varDecl name none => .varDecl (name.relabel r) none
  | .varDecl name (some value) => .varDecl (name.relabel r) (some (value.relabel r))
  | .block body => .block (Stmt.relabelEach body)
  | .ifElse condition thenBranch none =>
    .ifElse (condition.relabel r) thenBranch.relabel none
  | .ifElse condition thenBranch (some elseBranch) =>
    .ifElse (condition.relabel r) thenBranch.relabel (some elseBranch.relabel)
  | .whileLoop condition body => .whileLoop (condition.relabel r) body.relabel
  | .funDecl function => .funDecl function.relabel
  | .returnValue line none => .returnValue (r.line line) none
  | .returnValue line (some value) => .returnValue (r.line line) (some (value.relabel r))
  | .classDecl declared => .classDecl declared.relabel

/-- Several statements with new lines and ids. -/
def Stmt.relabelEach : List Stmt → List Stmt
  | [] => []
  | s :: ss => s.relabel :: Stmt.relabelEach ss

/-- The function with new lines and ids. -/
def FunctionDecl.relabel : FunctionDecl → FunctionDecl
  | ⟨name, params, body⟩ =>
    ⟨name.relabel r, params.map (Name.relabel r), Stmt.relabelEach body⟩

/-- Several functions with new lines and ids. -/
def FunctionDecl.relabelEach : List FunctionDecl → List FunctionDecl
  | [] => []
  | f :: fs => f.relabel :: FunctionDecl.relabelEach fs

/-- The class with new lines and ids. -/
def ClassDecl.relabel : ClassDecl → ClassDecl
  | ⟨name, superclass, methods⟩ =>
    ⟨name.relabel r, superclass.map (Reference.relabel r), FunctionDecl.relabelEach methods⟩

end

/-- The program with new lines and ids. -/
def Program.relabel (program : Program) : Program :=
  Stmt.relabelEach r program

end Lox
