/-
Lexical scoping without scopes: a second evaluation of programs.

The variables in sight are a list of names with the cells that hold their values,
the nearest first; lists are extended and never changed, cells are shared.  There
are no distances and there is no resolution before the run:

* a name refers to the nearest entry of its list, or to the global table if there
  is none; an empty cell holds no variable yet;
* a local declaration puts its entry in front with an empty cell, and fills the
  cell when its value is there;
* a closure keeps the list at its declaration, a method also `super`, and `this`
  when it is bound; a block, a call or a loop leaves the list as it was.

`Lexical.eval` and `Lexical.exec` take the same fuel as `Exec.eval` and `Exec.exec`.
-/
import Lox.Session

namespace Lox.Lexical

/-- The local variables in sight, the nearest first, each with its cell. -/
abbrev Env := List (String × Nat)

/-- The cell of a name. -/
def Env.cell? (env : Env) (name : String) : Option Nat :=
  env.lookup name

/-- An instance: its class and its own fields. -/
structure Object where
  cls : Class Env
  fields : Bindings (Value Env)

/-- The state of a run: the cells, of which some are empty, the global variables,
the instances, and what else runs of programs share. -/
structure World where
  cells : Array (Option (Value Env))
  globals : Bindings (Value Env)
  instances : Array Object
  nextIdentity : Nat
  depth : Nat
  sink : Sink
  readings : Nat

/-- A world in which nothing was run. -/
def World.initial (sink : Sink) : World :=
  { cells := #[]
    globals := Bindings.ofList (Native.all.map fun f => (f.name, .native f))
    instances := #[]
    nextIdentity := 0
    depth := 0
    sink := sink
    readings := 0 }

/-- An action in a world. -/
abbrev Act := EStateM Abort World

/-- How a statement ends: with the variables in sight after it, or by a `return`. -/
inductive Ending where
  | normal (env : Env)
  | returned (value : Value Env)

variable {α : Type}

/-- Stops with an error at a line. -/
def fail (error : RuntimeError) (line : Nat) : Act α :=
  throw (.runtime error line)

/-- The value of an operator, whose errors are put on its line. -/
def ofExcept (line : Nat) : Except RuntimeError α → Act α
  | .ok a => pure a
  | .error error => fail error line

/-- A new cell. -/
def newCell (content : Option (Value Env)) : Act Nat := fun world =>
  .ok world.cells.size { world with cells := world.cells.push content }

/-- Fills a cell. -/
def fill (cell : Nat) (value : Value Env) : Act Unit := fun world =>
  .ok () { world with cells := world.cells.modify cell fun _ => some value }

/-- Binds a global name. -/
def defineGlobal (name : String) (value : Value Env) : Act Unit := fun world =>
  .ok () { world with globals := world.globals.put name value }

/-- What a name stands for. -/
def World.find? (world : World) (env : Env) (name : String) : Option (Value Env) :=
  match env.cell? name with
  | some cell => world.cells[cell]?.join
  | none => world.globals.find? name

/-- What a name stands for, if anything. -/
def look (env : Env) (name : String) : Act (Option (Value Env)) := fun world =>
  .ok (world.find? env name) world

/-- The value of a variable. -/
def read (env : Env) (name : Name) : Act (Value Env) := fun world =>
  match world.find? env name.text with
  | some value => .ok value world
  | none => .error (.runtime (.undefinedVariable name.text) name.line) world

/-- Assigns to a variable that holds a value already. -/
def write (env : Env) (name : Name) (value : Value Env) : Act Unit := fun world =>
  if (world.find? env name.text).isSome then
    match env.cell? name.text with
    | some cell => fill cell value world
    | none => defineGlobal name.text value world
  else .error (.runtime (.undefinedVariable name.text) name.line) world

/-- A new identity. -/
def newIdentity : Act Nat := fun world =>
  .ok world.nextIdentity { world with nextIdentity := world.nextIdentity + 1 }

/-- A new instance. -/
def newInstance (cls : Class Env) : Act Nat := fun world =>
  .ok world.instances.size { world with instances := world.instances.push ⟨cls, []⟩ }

/-- The instance at an address. -/
def instanceAt? (address : Nat) : Act (Option Object) := fun world =>
  .ok world.instances[address]? world

/-- Sets a field of an instance. -/
def setField (address : Nat) (name : String) (value : Value Env) : Act Unit := fun world =>
  .ok () { world with
    instances := world.instances.modify address fun i =>
      { i with fields := i.fields.put name value } }

/-- The name of the class of an instance. -/
def World.className (world : World) (address : Nat) : String :=
  (world.instances[address]?.map (·.cls.name)).getD ""

/-- Prints a value and a newline, or as much of them as the sink accepts. -/
def print (value : Value Env) : Act Unit := fun world =>
  let (accepted, sink) := world.sink.write (value.text world.className ++ "\n").toUTF8
  let world := { world with sink := sink }
  if accepted then .ok () world else .error .sinkFull world

/-- The next reading of the clock. -/
def readClock (host : Host) : Act (Value Env) := fun world =>
  .ok (.number (host.clock world.readings)) { world with readings := world.readings + 1 }

/-- Runs an action as the body of a call; fails when too many calls are active. -/
def frame (host : Host) (line : Nat) (action : Act α) : Act α := fun world =>
  let depth := world.depth
  if host.maxDepth.any (· ≤ depth) then
    .error (.runtime .stackOverflow line) world
  else
    match action { world with depth := depth + 1 } with
    | .ok a world => .ok a { world with depth := world.depth - 1 }
    | .error abort world => .error abort { world with depth := world.depth - 1 }

/-! ### Methods, classes and calls -/

/-- A method as a function of its own, with `this` in sight. -/
def bindMethod (method : Closure Env) (this : Nat) : Act (Closure Env) := do
  let cell ← newCell (some (.instanceRef this))
  return { method with env := ("this", cell) :: method.env }

/-- A new function value. -/
def makeFunction (closure : Closure Env) : Act (Value Env) := do
  return .function (← newIdentity) closure

/-- A field of an instance, or else a method of its class, bound to it. -/
def getProperty (object : Value Env) (name : Name) : Act (Value Env) := do
  match object with
  | .instanceRef address =>
    match ← instanceAt? address with
    | none => throw .dangling
    | some target =>
      match target.fields.find? name.text with
      | some value => return value
      | none =>
        match target.cls.method? name.text with
        | some method => makeFunction (← bindMethod method address)
        | none => fail (.undefinedProperty name.text) name.line
  | _ => fail .propertyOnNonInstance name.line

/-- The method that `super` names, bound to the nearest `this`. -/
def getSuper (env : Env) (method : Name) : Act (Value Env) := do
  match ← look env "super", ← look env "this" with
  | some (.classObject superclass), some (.instanceRef this) =>
    match superclass.method? method.text with
    | some found => makeFunction (← bindMethod found this)
    | none => fail (.undefinedProperty method.text) method.line
  | _, _ => throw .dangling

/-- The class that a class extends. -/
def getSuperclass (env : Env) : Option Reference → Act (Option (Class Env))
  | none => return none
  | some target => do
    match ← read env target.name with
    | .classObject superclass => return some superclass
    | _ => fail .superclassNotClass target.name.line

/-- The entry of a declared name, which is empty at first; a global name has none. -/
def enter (isLocal : Bool) (env : Env) (name : String) : Act Env := do
  if isLocal then
    return (name, ← newCell none) :: env
  else
    return env

/-- Gives a declared name its value. -/
def settle (isLocal : Bool) (env : Env) (name : String) (value : Value Env) : Act Unit :=
  match isLocal, env.cell? name with
  | true, some cell => fill cell value
  | _, _ => defineGlobal name value

/-- Declares a function, which has itself in sight. -/
def declareFunction (isLocal : Bool) (env : Env) (decl : FunctionDecl) : Act Env := do
  let env ← enter isLocal env decl.name.text
  let function ← makeFunction ⟨decl, env, false⟩
  settle isLocal env decl.name.text function
  return env

/-- The value of a class whose methods are made in the given environment. -/
def classValue {ρ : Type} (decl : ClassDecl) (superclass : Option (Class ρ)) (env : ρ) (id : Nat) :
    Value ρ :=
  .classObject ⟨id, decl.name.text,
    Bindings.ofList
      (decl.methods.map fun method => (method.name.text, ⟨method, env, method.isInitializer⟩)),
    superclass⟩

/-- Declares a class, whose methods have it in sight. -/
def declareClass (isLocal : Bool) (env : Env) (decl : ClassDecl) : Act Env := do
  let superclass ← getSuperclass env decl.superclass
  let env ← enter isLocal env decl.name.text
  let inside ←
    match superclass with
    | some c => do pure (("super", ← newCell (some (.classObject c))) :: env)
    | none => pure env
  settle isLocal env decl.name.text (classValue decl superclass inside (← newIdentity))
  return env

/-- The list with an entry for each parameter. -/
def enterEach (env : Env) : List (String × Value Env) → Act Env
  | [] => return env
  | (name, value) :: pairs => do
    let cell ← newCell (some value)
    enterEach ((name, cell) :: env) pairs

/-- The values of several expressions, from left to right. -/
def evalEach (evaluate : Expr → Act (Value Env)) : List Expr → Act (List (Value Env))
  | [] => return []
  | e :: es => do
    let value ← evaluate e
    let values ← evalEach evaluate es
    return value :: values

/-- Executes statements up to the first `return`, each with the variables in sight
after the one before. -/
def execEach (execute : Env → Stmt → Act Ending) : Env → List Stmt → Act Ending
  | env, [] => return .normal env
  | env, s :: ss => do
    match ← execute env s with
    | .normal env => execEach execute env ss
    | .returned value => return .returned value

/-- Executes the body as long as the condition holds, up to the first `return`. -/
def repeatWhile (env : Env) (condition : Act (Value Env)) (body : Act Ending) : Nat → Act Ending
  | 0 => throw .outOfFuel
  | fuel + 1 => do
    let value ← condition
    if value.isTruthy then
      match ← body with
      | .normal _ => repeatWhile env condition body fuel
      | .returned value => return .returned value
    else
      return .normal env

/-- Runs the body of a closure with its parameters in sight.  An initializer gives
back its instance. -/
def invoke (host : Host) (execute : Env → Stmt → Act Ending) (closure : Closure Env)
    (arguments : List (Value Env)) (line : Nat) : Act (Value Env) := do
  let env ← enterEach closure.env ((closure.decl.params.map Name.text).zip arguments)
  let ending ← frame host line (execEach execute env closure.decl.body)
  if closure.isInitializer then
    match ← look closure.env "this" with
    | some this => return this
    | none => throw .dangling
  else
    match ending with
    | .normal _ => return .nil
    | .returned value => return value

/-- A new instance, after its initializer has run. -/
def construct (host : Host) (execute : Env → Stmt → Act Ending) (cls : Class Env)
    (arguments : List (Value Env)) (line : Nat) : Act (Value Env) := do
  let address ← newInstance cls
  match cls.initializer? with
  | some initializer =>
    let bound ← bindMethod initializer address
    let _ ← invoke host execute bound arguments line
    return .instanceRef address
  | none => return .instanceRef address

/-- Calls a value; the closing parenthesis of the call is on the given line. -/
def call (host : Host) (execute : Env → Stmt → Act Ending) (callee : Value Env)
    (arguments : List (Value Env)) (line : Nat) : Act (Value Env) := do
  match callee.arity? with
  | none => fail .notCallable line
  | some arity =>
    if arguments.length ≠ arity then
      fail (.arityMismatch arity arguments.length) line
    else
      match callee with
      | .function _ closure => invoke host execute closure arguments line
      | .native .clock => readClock host
      | .classObject cls => construct host execute cls arguments line
      | _ => fail .notCallable line

/-! ### Evaluation -/

mutual

/-- The value of an expression, with the given variables in sight. -/
def eval (host : Host) : Nat → Env → Expr → Act (Value Env)
  | 0, _, _ => throw .outOfFuel
  | fuel + 1, env, expr => do
    match expr with
    | .literal value => return .ofLiteral value
    | .grouping inner => eval host fuel env inner
    | .unary op line operand =>
      let value ← eval host fuel env operand
      ofExcept line (op.apply value)
    | .binary left op line right =>
      let first ← eval host fuel env left
      let second ← eval host fuel env right
      ofExcept line (op.apply first second)
    | .logical left op right =>
      let first ← eval host fuel env left
      if op.decides first then return first else eval host fuel env right
    | .varRef target => read env target.name
    | .assign target value =>
      let value ← eval host fuel env value
      write env target.name value
      return value
    | .call callee arguments line =>
      let callee ← eval host fuel env callee
      let arguments ← evalEach (eval host fuel env) arguments
      call host (exec host fuel true) callee arguments line
    | .get object name =>
      let object ← eval host fuel env object
      getProperty object name
    | .set object name value =>
      match ← eval host fuel env object with
      | .instanceRef address =>
        let value ← eval host fuel env value
        setField address name.text value
        return value
      | _ => fail .fieldOnNonInstance name.line
    | .thisRef _ line => read env ⟨"this", line⟩
    | .superRef _ _ method => getSuper env method

/-- Executes a statement; `isLocal` says whether its declarations are local. -/
def exec (host : Host) : Nat → Bool → Env → Stmt → Act Ending
  | 0, _, _, _ => throw .outOfFuel
  | fuel + 1, isLocal, env, stmt => do
    match stmt with
    | .expression value =>
      let _ ← eval host fuel env value
      return .normal env
    | .print value =>
      let value ← eval host fuel env value
      print value
      return .normal env
    | .varDecl name initializer =>
      let env ← enter isLocal env name.text
      let value ←
        match initializer with
        | some value => eval host fuel env value
        | none => pure .nil
      settle isLocal env name.text value
      return .normal env
    | .block body =>
      match ← execEach (exec host fuel true) env body with
      | .normal _ => return .normal env
      | .returned value => return .returned value
    | .ifElse condition thenBranch elseBranch =>
      let value ← eval host fuel env condition
      if value.isTruthy then
        exec host fuel isLocal env thenBranch
      else
        match elseBranch with
        | some elseBranch => exec host fuel isLocal env elseBranch
        | none => return .normal env
    | .whileLoop condition body =>
      repeatWhile env (eval host fuel env condition) (exec host fuel isLocal env body) fuel
    | .funDecl decl => return .normal (← declareFunction isLocal env decl)
    | .returnValue _ value =>
      match value with
      | some value => return .returned (← eval host fuel env value)
      | none => return .returned .nil
    | .classDecl decl => return .normal (← declareClass isLocal env decl)

end

/-- Runs a program: its statements one after the other, with global declarations. -/
def runProgram (host : Host) (fuel : Nat) : Program → Act Unit
  | [] => return
  | s :: ss => do
    let _ ← exec host fuel false [] s
    runProgram host fuel ss

/-- Runs a program in a world.  The output is what this run prints. -/
def World.run (host : Host) (fuel : Nat) (world : World) (program : Program) :
    Outcome × World :=
  let prepared := { world with sink := { world.sink with written := .empty } }
  match runProgram host fuel program prepared with
  | .ok _ final => (⟨final.sink.written, none⟩, final)
  | .error abort final => (⟨final.sink.written, some (.aborted abort)⟩, final)

end Lox.Lexical
