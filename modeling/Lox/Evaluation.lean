/-
Evaluation of expressions and execution of statements.

`Exec.eval` and `Exec.exec` take a bound, the fuel, on how deep they are nested
and on how often one loop is repeated, and stop with `Abort.outOfFuel` when it is
too small.  Every run that ends has enough fuel, and does the same with more.

* operands are evaluated from left to right, arguments before the callee is
  checked, the object of a property assignment before its value;
* a block, a call and the methods of a class each have a scope of their own;
* `return` leaves the innermost call through all blocks and loops: `Flow`.
-/
import Lox.Machine

namespace Lox

/-- How a statement ends: normally, or by a `return` with a value. -/
inductive Flow where
  | normal
  | returned (value : Datum)

/-- The value of a call whose body ended this way. -/
def Flow.result : Flow → Datum
  | normal => .nil
  | returned value => value

namespace Exec

/-- A method as a function of its own, with `this` bound in a new scope. -/
def bindMethod (method : Closure ScopeAddress) (this : InstanceAddress) :
    Exec (Closure ScopeAddress) := do
  let scope ← newScope method.env (Bindings.ofList [("this", .instanceRef this)])
  return { method with env := scope }

/-- A new function value. -/
def makeFunction (closure : Closure ScopeAddress) : Exec Datum := do
  return .function (← newIdentity) closure

/-- A field of an instance, or else a method of its class, bound to it. -/
def getProperty (object : Datum) (name : Name) : Exec Datum := do
  match object with
  | .instanceRef address =>
    match ← instanceAt? address with
    | none => throw .dangling
    | some target =>
      match target.fields.find? name.text with
      | some value => return value
      | none =>
        match target.cls.method? name.text with
        | some method => makeFunction (← bindMethod method address)
        | none => fail (.undefinedProperty name.text) name.line
  | _ => fail .propertyOnNonInstance name.line

/-- The method that `super` names: it is looked up from the superclass that is
bound to `super`, and bound to the `this` one scope further in. -/
def getSuper (id : Nat) (method : Name) : Exec Datum := do
  match ← distance? id with
  | some (distance + 1) =>
    let scope ← currentScope
    match ← getAt scope (distance + 1) "super", ← getAt scope distance "this" with
    | some (.classObject superclass), some (.instanceRef this) =>
      match superclass.method? method.text with
      | some found => makeFunction (← bindMethod found this)
      | none => fail (.undefinedProperty method.text) method.line
    | _, _ => throw .dangling
  | _ => throw .dangling

/-- The class that a class extends. -/
def getSuperclass : Option Reference → Exec (Option (Class ScopeAddress))
  | none => return none
  | some target => do
    match ← read target with
    | .classObject superclass => return some superclass
    | _ => fail .superclassNotClass target.name.line

/-- Declares a function in the current scope, which it captures. -/
def declareFunction (decl : FunctionDecl) : Exec Unit := do
  let function ← makeFunction ⟨decl, ← currentScope, false⟩
  define decl.name.text function

/-- Declares a class in the current scope.  Its name is bound before its methods
are made; of two methods with one name the later one counts. -/
def declareClass (decl : ClassDecl) : Exec Unit := do
  let superclass ← getSuperclass decl.superclass
  define decl.name.text .nil
  let scope ← currentScope
  let scope ←
    match superclass with
    | some c => newScope scope (Bindings.ofList [("super", .classObject c)])
    | none => pure scope
  let methods := Bindings.ofList
    (decl.methods.map fun method => (method.name.text, ⟨method, scope, method.isInitializer⟩))
  define decl.name.text (.classObject ⟨← newIdentity, decl.name.text, methods, superclass⟩)

/-- The values of several expressions, from left to right. -/
def evalEach (evaluate : Expr → Exec Datum) : List Expr → Exec (List Datum)
  | [] => return []
  | e :: es => do
    let value ← evaluate e
    let values ← evalEach evaluate es
    return value :: values

/-- Executes statements up to the first `return`. -/
def execEach (execute : Stmt → Exec Flow) : List Stmt → Exec Flow
  | [] => return .normal
  | s :: ss => do
    match ← execute s with
    | .normal => execEach execute ss
    | .returned value => return .returned value

/-- Executes the body as long as the condition holds, up to the first `return`. -/
def repeatWhile (condition : Exec Datum) (body : Exec Flow) : Nat → Exec Flow
  | 0 => throw .outOfFuel
  | fuel + 1 => do
    let value ← condition
    if value.isTruthy then
      match ← body with
      | .normal => repeatWhile condition body fuel
      | .returned value => return .returned value
    else
      return .normal

/-- Runs the body of a closure in a new scope that holds its parameters.  An
initializer gives back its instance. -/
def invoke (host : Host) (execute : Stmt → Exec Flow) (closure : Closure ScopeAddress)
    (arguments : List Datum) (line : Nat) : Exec Datum := do
  let names := closure.decl.params.map Name.text
  let scope ← newScope closure.env (Bindings.ofList (names.zip arguments))
  let flow ← frame host line (inScope scope (execEach execute closure.decl.body))
  if closure.isInitializer then
    match ← getAt closure.env 0 "this" with
    | some this => return this
    | none => throw .dangling
  else
    return flow.result

/-- A new instance, after its initializer has run. -/
def construct (host : Host) (execute : Stmt → Exec Flow) (cls : Class ScopeAddress)
    (arguments : List Datum) (line : Nat) : Exec Datum := do
  let address ← newInstance cls
  match cls.initializer? with
  | some initializer =>
    let bound ← bindMethod initializer address
    let _ ← invoke host execute bound arguments line
    return .instanceRef address
  | none => return .instanceRef address

/-- Calls a value; the closing parenthesis of the call is on the given line. -/
def call (host : Host) (execute : Stmt → Exec Flow) (callee : Datum) (arguments : List Datum)
    (line : Nat) : Exec Datum := do
  match callee.arity? with
  | none => fail .notCallable line
  | some arity =>
    if arguments.length ≠ arity then
      fail (.arityMismatch arity arguments.length) line
    else
      match callee with
      | .function _ closure => invoke host execute closure arguments line
      | .native .clock => readClock host
      | .classObject cls => construct host execute cls arguments line
      | _ => fail .notCallable line

mutual

/-- The value of an expression. -/
def eval (host : Host) : Nat → Expr → Exec Datum
  | 0, _ => throw .outOfFuel
  | fuel + 1, expr => do
    match expr with
    | .literal value => return .ofLiteral value
    | .grouping inner => eval host fuel inner
    | .unary op line operand =>
      let value ← eval host fuel operand
      ofExcept line (op.apply value)
    | .binary left op line right =>
      let first ← eval host fuel left
      let second ← eval host fuel right
      ofExcept line (op.apply first second)
    | .logical left op right =>
      let first ← eval host fuel left
      if op.decides first then return first else eval host fuel right
    | .varRef target => read target
    | .assign target value =>
      let value ← eval host fuel value
      write target value
      return value
    | .call callee arguments line =>
      let callee ← eval host fuel callee
      let arguments ← evalEach (eval host fuel) arguments
      call host (exec host fuel) callee arguments line
    | .get object name =>
      let object ← eval host fuel object
      getProperty object name
    | .set object name value =>
      match ← eval host fuel object with
      | .instanceRef address =>
        let value ← eval host fuel value
        setField address name.text value
        return value
      | _ => fail .fieldOnNonInstance name.line
    | .thisRef id line => read ⟨id, ⟨"this", line⟩⟩
    | .superRef id _ method => getSuper id method

/-- Executes a statement. -/
def exec (host : Host) : Nat → Stmt → Exec Flow
  | 0, _ => throw .outOfFuel
  | fuel + 1, stmt => do
    match stmt with
    | .expression value =>
      let _ ← eval host fuel value
      return .normal
    | .print value =>
      let value ← eval host fuel value
      print value
      return .normal
    | .varDecl name initializer =>
      let value ←
        match initializer with
        | some value => eval host fuel value
        | none => pure .nil
      define name.text value
      return .normal
    | .block body =>
      let scope ← newScope (← currentScope) []
      inScope scope (execEach (exec host fuel) body)
    | .ifElse condition thenBranch elseBranch =>
      let value ← eval host fuel condition
      if value.isTruthy then
        exec host fuel thenBranch
      else
        match elseBranch with
        | some elseBranch => exec host fuel elseBranch
        | none => return .normal
    | .whileLoop condition body =>
      repeatWhile (eval host fuel condition) (exec host fuel body) fuel
    | .funDecl decl =>
      declareFunction decl
      return .normal
    | .returnValue _ value =>
      match value with
      | some value => return .returned (← eval host fuel value)
      | none => return .returned .nil
    | .classDecl decl =>
      declareClass decl
      return .normal

end

/-- Runs a program: its statements one after the other. -/
def runProgram (host : Host) (fuel : Nat) : Program → Exec Unit
  | [] => return
  | s :: ss => do
    let _ ← exec host fuel s
    runProgram host fuel ss

end Exec

end Lox
