/-
Evaluation within known calls.

`Exec.evalIn` and `Exec.execIn` evaluate like `Exec.eval` and `Exec.exec`.  They are
given the calls that are active, the innermost first, and call on a watch with them
whenever they reach an expression or a statement, and whenever they have entered the
body of a closure.  Plain functions, bound methods and initializers are entered in one
way, `Exec.invokeIn`; native functions and classes without initializer enter nothing.

* `Exec.runIn_unwatched` — under a watch that does nothing it is the same evaluation;
* `Exec.AlwaysIn` — what holds of the machine and the active calls all through a run.
-/
import Lox.Proofs.Reachable

namespace Lox

/-- An active call: the closure whose body is run, and the line of the closing
parenthesis. -/
structure Call where
  closure : Closure ScopeAddress
  line : Nat

/-- What is done at the moments of a run, given the active calls. -/
abbrev Watch := List Call → EStateM Abort Machine Unit

namespace Exec

variable (host : Host) (watch : Watch)

/-- Runs an action as the body of a call. -/
def enter (call : Call) (calls : List Call) {α : Type} (body : Exec α) : Exec α :=
  frame host call.line do
    watch (call :: calls)
    body

/-- Like `Exec.invoke`. -/
def invokeIn (execute : List Call → Stmt → Exec Flow) (calls : List Call)
    (closure : Closure ScopeAddress) (arguments : List Datum) (line : Nat) : Exec Datum := do
  let names := closure.decl.params.map Name.text
  let scope ← newScope closure.env (Bindings.ofList (names.zip arguments))
  let call : Call := ⟨closure, line⟩
  let flow ← enter host watch call calls
    (inScope scope (execEach (execute (call :: calls)) closure.decl.body))
  if closure.isInitializer then
    match ← getAt closure.env 0 "this" with
    | some this => return this
    | none => throw .dangling
  else
    return flow.result

/-- Like `Exec.construct`. -/
def constructIn (execute : List Call → Stmt → Exec Flow) (calls : List Call)
    (cls : Class ScopeAddress) (arguments : List Datum) (line : Nat) : Exec Datum := do
  let address ← newInstance cls
  match cls.initializer? with
  | some initializer =>
    let bound ← bindMethod initializer address
    let _ ← invokeIn host watch execute calls bound arguments line
    return .instanceRef address
  | none => return .instanceRef address

/-- Like `Exec.call`. -/
def callIn (execute : List Call → Stmt → Exec Flow) (calls : List Call) (callee : Datum)
    (arguments : List Datum) (line : Nat) : Exec Datum := do
  match callee.arity? with
  | none => fail .notCallable line
  | some arity =>
    if arguments.length ≠ arity then
      fail (.arityMismatch arity arguments.length) line
    else
      match callee with
      | .function _ closure => invokeIn host watch execute calls closure arguments line
      | .native .clock => readClock host
      | .classObject cls => constructIn host watch execute calls cls arguments line
      | _ => fail .notCallable line

mutual

/-- Like `Exec.eval`. -/
def evalIn : Nat → List Call → Expr → Exec Datum
  | 0, _, _ => throw .outOfFuel
  | fuel + 1, calls, expr => do
    watch calls
    match expr with
    | .literal value => return .ofLiteral value
    | .grouping inner => evalIn fuel calls inner
    | .unary op line operand =>
      let value ← evalIn fuel calls operand
      ofExcept line (op.apply value)
    | .binary left op line right =>
      let first ← evalIn fuel calls left
      let second ← evalIn fuel calls right
      ofExcept line (op.apply first second)
    | .logical left op right =>
      let first ← evalIn fuel calls left
      if op.decides first then return first else evalIn fuel calls right
    | .varRef target => read target
    | .assign target value =>
      let value ← evalIn fuel calls value
      write target value
      return value
    | .call callee arguments line =>
      let callee ← evalIn fuel calls callee
      let arguments ← evalEach (evalIn fuel calls) arguments
      callIn host watch (execIn fuel) calls callee arguments line
    | .get object name =>
      let object ← evalIn fuel calls object
      getProperty object name
    | .set object name value =>
      match ← evalIn fuel calls object with
      | .instanceRef address =>
        let value ← evalIn fuel calls value
        setField address name.text value
        return value
      | _ => fail .fieldOnNonInstance name.line
    | .thisRef id line => read ⟨id, ⟨"this", line⟩⟩
    | .superRef id _ method => getSuper id method

/-- Like `Exec.exec`. -/
def execIn : Nat → List Call → Stmt → Exec Flow
  | 0, _, _ => throw .outOfFuel
  | fuel + 1, calls, stmt => do
    watch calls
    match stmt with
    | .expression value =>
      let _ ← evalIn fuel calls value
      return .normal
    | .print value =>
      let value ← evalIn fuel calls value
      print value
      return .normal
    | .varDecl name initializer =>
      let value ←
        match initializer with
        | some value => evalIn fuel calls value
        | none => pure .nil
      define name.text value
      return .normal
    | .block body =>
      let scope ← newScope (← currentScope) []
      inScope scope (execEach (execIn fuel calls) body)
    | .ifElse condition thenBranch elseBranch =>
      let value ← evalIn fuel calls condition
      if value.isTruthy then
        execIn fuel calls thenBranch
      else
        match elseBranch with
        | some elseBranch => execIn fuel calls elseBranch
        | none => return .normal
    | .whileLoop condition body =>
      repeatWhile (evalIn fuel calls condition) (execIn fuel calls body) fuel
    | .funDecl decl =>
      declareFunction decl
      return .normal
    | .returnValue _ value =>
      match value with
      | some value => return .returned (← evalIn fuel calls value)
      | none => return .returned .nil
    | .classDecl decl =>
      declareClass decl
      return .normal

end

/-- Like `Exec.runProgram`: no call is active. -/
def runIn (fuel : Nat) : Program → Exec Unit
  | [] => return
  | s :: ss => do
    let _ ← execIn host watch fuel [] s
    runIn fuel ss

/-! ### Watching changes nothing -/

/-- The watch that does nothing. -/
def idleWatch : Watch :=
  fun _ => pure ()

theorem invokeIn_unwatched (execute : Stmt → Exec Flow) (calls : List Call)
    (closure : Closure ScopeAddress) (arguments : List Datum) (line : Nat) :
    invokeIn host idleWatch (fun _ => execute) calls closure arguments line =
      invoke host execute closure arguments line := by
  simp only [invokeIn, enter, idleWatch, pure_bind]
  rfl

theorem constructIn_unwatched (execute : Stmt → Exec Flow) (calls : List Call)
    (cls : Class ScopeAddress) (arguments : List Datum) (line : Nat) :
    constructIn host idleWatch (fun _ => execute) calls cls arguments line =
      construct host execute cls arguments line := by
  simp only [constructIn, invokeIn_unwatched]
  rfl

theorem callIn_unwatched (execute : Stmt → Exec Flow) (calls : List Call) (callee : Datum)
    (arguments : List Datum) (line : Nat) :
    callIn host idleWatch (fun _ => execute) calls callee arguments line =
      call host execute callee arguments line := by
  simp only [callIn, constructIn_unwatched, invokeIn_unwatched]
  rfl

theorem evaluation_unwatched (fuel : Nat) :
    (∀ calls e, evalIn host idleWatch fuel calls e = eval host fuel e) ∧
      ∀ calls s, execIn host idleWatch fuel calls s = exec host fuel s := by
  induction fuel with
  | zero => exact ⟨fun _ _ => rfl, fun _ _ => rfl⟩
  | succ fuel ih =>
    -- equations between functions, since evaluation is passed on to `evalEach` and others
    have heval : evalIn host idleWatch fuel = fun _ => eval host fuel :=
      funext fun calls => funext (ih.1 calls)
    have hexec : execIn host idleWatch fuel = fun _ => exec host fuel :=
      funext fun calls => funext (ih.2 calls)
    constructor
    · intro calls e
      cases e with
      | set object name value =>
        simp only [evalIn, idleWatch, pure_bind, heval]
        rfl
      | _ => simp only [evalIn, eval, idleWatch, pure_bind, heval, hexec, callIn_unwatched]
    · intro calls s
      cases s with
      | varDecl name initializer =>
        simp only [execIn, idleWatch, pure_bind, heval]
        rfl
      | ifElse condition thenBranch elseBranch =>
        simp only [execIn, idleWatch, pure_bind, heval, hexec]
        rfl
      | returnValue line value =>
        simp only [execIn, idleWatch, pure_bind, heval]
        rfl
      | _ => simp only [execIn, exec, idleWatch, pure_bind, heval, hexec]

/-- Under a watch that does nothing a program runs as it does without one. -/
theorem runIn_unwatched (fuel : Nat) (p : Program) :
    runIn host idleWatch fuel p = runProgram host fuel p := by
  induction p with
  | nil => rfl
  | cons s ss ih => rw [runIn, runProgram, (evaluation_unwatched host fuel).2 [] s, ih]

/-! ### All through a run -/

/-- The watch does nothing where the property holds of the machine and the active calls. -/
def IdleWhere (P : Machine → List Call → Prop) (watch : Watch) : Prop :=
  ∀ m calls, P m calls → watch calls m = .ok () m

theorem idleWhere_idleWatch (P : Machine → List Call → Prop) : IdleWhere P idleWatch :=
  fun _ _ _ => rfl

/-- The property holds at all moments of a run: a watch that may do anything where it
fails is never seen to do anything. -/
def AlwaysIn (host : Host) (fuel : Nat) (p : Program) (m : Machine)
    (P : Machine → List Call → Prop) : Prop :=
  ∀ watch, IdleWhere P watch → runIn host watch fuel p m = runProgram host fuel p m

end Exec

end Lox
