/-
The findings of a whole program, in the order in which they are made.

Statements are taken in source order, and a name is in scope from its declaration
on.  The value of an assignment comes before its target, the value of a property
assignment before its object.

* `Program.distances` — the distance of every reference to a local name;
* `Program.scopingFaults` — the diagnostics for all faults.
-/
import Std.Data.TreeMap
import Lox.Scoping.Setting

namespace Lox

mutual

/-- The findings in an expression. -/
def Expr.findings (setting : Setting) : Expr → List Finding
  | .literal _ => []
  | .grouping inner => inner.findings setting
  | .unary _ _ operand => operand.findings setting
  | .binary left _ _ right => left.findings setting ++ right.findings setting
  | .logical left _ right => left.findings setting ++ right.findings setting
  | .varRef target => setting.read target
  | .assign target value => value.findings setting ++ setting.locate target.id target.name.text
  | .call callee arguments _ => callee.findings setting ++ Expr.findingsEach setting arguments
  | .get object _ => object.findings setting
  | .set object _ value => value.findings setting ++ object.findings setting
  | .thisRef id line => setting.readThis id line
  | .superRef id line _ => setting.readSuper id line

/-- The findings in several expressions. -/
def Expr.findingsEach (setting : Setting) : List Expr → List Finding
  | [] => []
  | e :: es => e.findings setting ++ Expr.findingsEach setting es

end

/-- The setting after a statement: a declaration adds its name. -/
def Setting.after (setting : Setting) : Stmt → Setting
  | .varDecl name _ => setting.declare name
  | .funDecl function => setting.declare function.name
  | .classDecl declared => setting.declare declared.name
  | _ => setting

mutual

/-- The findings in a statement. -/
def Stmt.findings (setting : Setting) : Stmt → List Finding
  | .expression value => value.findings setting
  | .print value => value.findings setting
  | .varDecl name none => setting.declaration name
  | .varDecl name (some value) =>
    setting.declaration name ++ value.findings (setting.initializing name)
  | .block body => Stmt.findingsEach (setting.push []) body
  | .ifElse condition thenBranch none =>
    condition.findings setting ++ thenBranch.findings setting
  | .ifElse condition thenBranch (some elseBranch) =>
    condition.findings setting ++ thenBranch.findings setting ++ elseBranch.findings setting
  | .whileLoop condition body => condition.findings setting ++ body.findings setting
  | .funDecl function =>
    setting.declaration function.name ++
      function.findings { setting.declare function.name with enclosing := .function }
  | .returnValue line none => setting.leave line false
  | .returnValue line (some value) => setting.leave line true ++ value.findings setting
  | .classDecl declared => declared.findings setting

/-- The findings in several statements; each is in the scope of the names that
are declared before it. -/
def Stmt.findingsEach (setting : Setting) : List Stmt → List Finding
  | [] => []
  | s :: ss => s.findings setting ++ Stmt.findingsEach (setting.after s) ss

/-- The findings in a function: its parameters and its body share one scope. -/
def FunctionDecl.findings (setting : Setting) : FunctionDecl → List Finding
  | ⟨_, params, body⟩ =>
    let (faults, inside) := (setting.push []).parameters params
    faults ++ Stmt.findingsEach inside body

/-- The findings in the methods of a class. -/
def FunctionDecl.findingsEach (setting : Setting) : List FunctionDecl → List Finding
  | [] => []
  | f :: fs =>
    f.findings
        { setting with enclosing := if f.isInitializer then .initializer else .function } ++
      FunctionDecl.findingsEach setting fs

/-- The findings in a class.  Its methods have a scope with `this` around them,
and outside it one with `super` if there is a superclass. -/
def ClassDecl.findings (setting : Setting) : ClassDecl → List Finding
  | ⟨name, none, methods⟩ =>
    setting.declaration name ++
      FunctionDecl.findingsEach
        { (setting.declare name).push ["this"] with enclosingClass := .base } methods
  | ⟨name, some superclass, methods⟩ =>
    setting.declaration name ++
      (if superclass.name.text = name.text then
        [.fault .inheritsFromItself superclass.name]
      else []) ++
      (setting.declare name).read superclass ++
      FunctionDecl.findingsEach
        { ((setting.declare name).push ["super"]).push ["this"] with enclosingClass := .derived }
        methods

end

/-- The distance of a finding, if it is one. -/
def Finding.distance? : Finding → Option (Nat × Nat)
  | .distance id scopes => some (id, scopes)
  | .fault _ _ => none

/-- The diagnostic of a finding, if it is a fault. -/
def Finding.diagnostic? : Finding → Option Diagnostic
  | .distance _ _ => none
  | .fault error name => some ⟨name.line, .token name.text, error.message⟩

/-- How many scopes out a reference is bound, by its id.  Global names are not
listed. -/
abbrev Distances := Std.TreeMap Nat Nat

namespace Program

/-- Everything there is to find in a program. -/
def findings (program : Program) : List Finding :=
  Stmt.findingsEach .topLevel program

/-- The distances of the references to local names. -/
def distances (program : Program) : List (Nat × Nat) :=
  program.findings.filterMap Finding.distance?

/-- The diagnostics for the faults. -/
def scopingFaults (program : Program) : List Diagnostic :=
  program.findings.filterMap Finding.diagnostic?

/-- The program itself, if there are no faults. -/
def checked (program : Program) : Except (List Diagnostic) Program :=
  if program.scopingFaults = [] then .ok program else .error program.scopingFaults

theorem checked_eq_ok_iff {program accepted : Program} :
    program.checked = .ok accepted ↔ program.scopingFaults = [] ∧ program = accepted := by
  unfold checked
  split
  · rename_i hnone
    rw [Except.ok.injEq]
    exact (and_iff_right hnone).symm
  · rename_i hfaults
    exact ⟨nofun, fun h => absurd h.1 hfaults⟩

end Program

/-- The table with more distances. -/
def Distances.extend (table : Distances) (distances : List (Nat × Nat)) : Distances :=
  table.insertMany distances

end Lox
