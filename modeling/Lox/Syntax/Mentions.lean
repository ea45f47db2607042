/-
The mentions of names in a program: every use of a variable, `this` or `super`,
in the order in which a reader meets them.

An assignment comes before its value, a condition before its branches, the
superclass of a class before its methods.  Parameters and declared names are not
mentions.
-/
import Lox.Syntax

namespace Lox

/-- How a name is mentioned. -/
inductive Mention.Kind where
  | read | write | this | super
  deriving DecidableEq, Repr

/-- One use of a name.  For `super` the name is that of the method. -/
structure Mention where
  kind : Mention.Kind
  id : Nat
  name : Name
  deriving DecidableEq, Repr

mutual

/-- The mentions in an expression. -/
def Expr.mentions : Expr → List Mention
  | .literal _ => []
  | .grouping inner => inner.mentions
  | .unary _ _ operand => operand.mentions
  | .binary left _ _ right => left.mentions ++ right.mentions
  | .logical left _ right => left.mentions ++ right.mentions
  | .varRef target => [⟨.read, target.id, target.name⟩]
  | .assign target value => ⟨.write, target.id, target.name⟩ :: value.mentions
  | .call callee arguments _ => callee.mentions ++ Expr.mentionsEach arguments
  | .get object _ => object.mentions
  | .set object _ value => object.mentions ++ value.mentions
  | .thisRef id line => [⟨.this, id, ⟨"this", line⟩⟩]
  | .superRef id line method => [⟨.super, id, ⟨method.text, line⟩⟩]

/-- The mentions in several expressions. -/
def Expr.mentionsEach : List Expr → List Mention
  | [] => []
  | e :: es => e.mentions ++ Expr.mentionsEach es

end

mutual

/-- The mentions in a statement. -/
def Stmt.mentions : Stmt → List Mention
  | .expression value => value.mentions
  | .print value => value.mentions
  | .varDecl _ none => []
  | .varDecl _ (some value) => value.mentions
  | .block body => Stmt.mentionsEach body
  | .ifElse condition thenBranch none => condition.mentions ++ thenBranch.mentions
  | .ifElse condition thenBranch (some elseBranch) =>
    condition.mentions ++ thenBranch.mentions ++ elseBranch.mentions
  | .whileLoop condition body => condition.mentions ++ body.mentions
  | .funDecl function => function.mentions
  | .returnValue _ none => []
  | .returnValue _ (some value) => value.mentions
  | .classDecl declared => declared.mentions

/-- The mentions in several statements. -/
def Stmt.mentionsEach : List Stmt → List Mention
  | [] => []
  | s :: ss => s.mentions ++ Stmt.mentionsEach ss

/-- The mentions in the body of a function. -/
def FunctionDecl.mentions : FunctionDecl → List Mention
  | ⟨_, _, body⟩ => Stmt.mentionsEach body

/-- The mentions in several methods. -/
def FunctionDecl.mentionsEach : List FunctionDecl → List Mention
  | [] => []
  | f :: fs => f.mentions ++ FunctionDecl.mentionsEach fs

/-- The mentions in a class, its superclass first. -/
def ClassDecl.mentions : ClassDecl → List Mention
  | ⟨_, none, methods⟩ => FunctionDecl.mentionsEach methods
  | ⟨_, some superclass, methods⟩ =>
    ⟨.read, superclass.id, superclass.name⟩ :: FunctionDecl.mentionsEach methods

end

end Lox
