/-
Evaluation under watch.

`Exec.evalWatched` and `Exec.execWatched` evaluate like `Exec.eval` and `Exec.exec`,
and call on a watch at every moment at which they rely on names that were resolved
before: when they reach an expression, when they are about to assign and when they
enter the body of a closure.

* `Exec.runWatched_unwatched` — under a watch that does nothing it is the same evaluation;
* `Machine.keeps` — what resolution has promised for a moment;
* `Exec.refines_guard` — a watch that stops where a promise is broken changes nothing
  else.
-/
import Lox.Session

namespace Lox

/-- A moment of a run that relies on resolved names.  `pending` is the local variable
whose initializer is evaluated. -/
inductive Moment where
  | reach (pending : Option String) (expr : Expr)
  | assign (pending : Option String) (target : Reference)
  | enter (closure : Closure ScopeAddress)

namespace Exec

variable (host : Host) (watch : Moment → Exec Unit)

/-- Like `Exec.construct`. -/
def constructWatched (execute : Stmt → Exec Flow) (cls : Class ScopeAddress)
    (arguments : List Datum) (line : Nat) : Exec Datum := do
  let address ← newInstance cls
  match cls.initializer? with
  | some initializer =>
    let bound ← bindMethod initializer address
    watch (.enter bound)
    let _ ← invoke host execute bound arguments line
    return .instanceRef address
  | none => return .instanceRef address

/-- Like `Exec.call`. -/
def callWatched (execute : Stmt → Exec Flow) (callee : Datum) (arguments : List Datum)
    (line : Nat) : Exec Datum := do
  match callee.arity? with
  | none => fail .notCallable line
  | some arity =>
    if arguments.length ≠ arity then
      fail (.arityMismatch arity arguments.length) line
    else
      match callee with
      | .function _ closure =>
        watch (.enter closure)
        invoke host execute closure arguments line
      | .native .clock => readClock host
      | .classObject cls => constructWatched host watch execute cls arguments line
      | _ => fail .notCallable line

mutual

/-- Like `Exec.eval`. -/
def evalWatched : Nat → Option String → Expr → Exec Datum
  | 0, _, _ => throw .outOfFuel
  | fuel + 1, pending, expr => do
    watch (.reach pending expr)
    match expr with
    | .literal value => return .ofLiteral value
    | .grouping inner => evalWatched fuel pending inner
    | .unary op line operand =>
      let value ← evalWatched fuel pending operand
      ofExcept line (op.apply value)
    | .binary left op line right =>
      let first ← evalWatched fuel pending left
      let second ← evalWatched fuel pending right
      ofExcept line (op.apply first second)
    | .logical left op right =>
      let first ← evalWatched fuel pending left
      if op.decides first then return first else evalWatched fuel pending right
    | .varRef target => read target
    | .assign target value =>
      let value ← evalWatched fuel pending value
      watch (.assign pending target)
      write target value
      return value
    | .call callee arguments line =>
      let callee ← evalWatched fuel pending callee
      let arguments ← evalEach (evalWatched fuel pending) arguments
      callWatched host watch (execWatched fuel) callee arguments line
    | .get object name =>
      let object ← evalWatched fuel pending object
      getProperty object name
    | .set object name value =>
      match ← evalWatched fuel pending object with
      | .instanceRef address =>
        let value ← evalWatched fuel pending value
        setField address name.text value
        return value
      | _ => fail .fieldOnNonInstance name.line
    | .thisRef id line => read ⟨id, ⟨"this", line⟩⟩
    | .superRef id _ method => getSuper id method

/-- Like `Exec.exec`. -/
def execWatched : Nat → Stmt → Exec Flow
  | 0, _ => throw .outOfFuel
  | fuel + 1, stmt => do
    match stmt with
    | .expression value =>
      let _ ← evalWatched fuel none value
      return .normal
    | .print value =>
      let value ← evalWatched fuel none value
      print value
      return .normal
    | .varDecl name initializer =>
      let value ←
        match initializer with
        | some value => do
          let scope ← currentScope
          evalWatched fuel (if scope = Store.globals then none else some name.text) value
        | none => pure .nil
      define name.text value
      return .normal
    | .block body =>
      let scope ← newScope (← currentScope) []
      inScope scope (execEach (execWatched fuel) body)
    | .ifElse condition thenBranch elseBranch =>
      let value ← evalWatched fuel none condition
      if value.isTruthy then
        execWatched fuel thenBranch
      else
        match elseBranch with
        | some elseBranch => execWatched fuel elseBranch
        | none => return .normal
    | .whileLoop condition body =>
      repeatWhile (evalWatched fuel none condition) (execWatched fuel body) fuel
    | .funDecl decl =>
      declareFunction decl
      return .normal
    | .returnValue _ value =>
      match value with
      | some value => return .returned (← evalWatched fuel none value)
      | none => return .returned .nil
    | .classDecl decl =>
      match decl.superclass with
      | some target => watch (.reach none (.varRef target))
      | none => pure ()
      declareClass decl
      return .normal

end

/-- Like `Exec.runProgram`. -/
def runWatched (fuel : Nat) : Program → Exec Unit
  | [] => return
  | s :: ss => do
    let _ ← execWatched host watch fuel s
    runWatched fuel ss

/-! ### Watching changes nothing -/

variable {α β : Type}

/-- The first action does what the second does, unless it stops for a broken promise,
which it may only if `P`. -/
def Refines (P : Prop) (x y : Exec α) : Prop :=
  ∀ m, x m = y m ∨ P ∧ ∃ m', x m = .error .dangling m'

variable {P : Prop}

theorem Refines.refl (x : Exec α) : Refines P x x :=
  fun _ => .inl rfl

theorem Refines.bind {x y : Exec α} {f g : α → Exec β} (h : Refines P x y)
    (hfg : ∀ a, Refines P (f a) (g a)) : Refines P (x >>= f) (y >>= g) := by
  intro m
  show EStateM.bind x f m = EStateM.bind y g m ∨ P ∧ ∃ m', EStateM.bind x f m = .error .dangling m'
  unfold EStateM.bind
  rcases h m with h | ⟨hP, m', h⟩
  · rw [h]
    cases y m with
    | ok a m₁ => exact hfg a m₁
    | error e m₁ => exact .inl rfl
  · rw [h]
    exact .inr ⟨hP, m', rfl⟩

/-- The watch in front of an action. -/
theorem Refines.observe {watching : Exec Unit} {x y : Exec α} (h : Refines P watching (pure ()))
    (hxy : Refines P x y) : Refines P (watching >>= fun _ => x) y :=
  Refines.bind (y := pure ()) (g := fun _ => y) h fun _ => hxy

/-- The first action may look at the scope. -/
theorem Refines.currentScope {x : ScopeAddress → Exec α} {y : Exec α}
    (h : ∀ scope, Refines P (x scope) y) : Refines P (Exec.currentScope >>= x) y :=
  fun m => h m.scope m

theorem Refines.inScope {x y : Exec α} (h : Refines P x y) (scope : ScopeAddress) :
    Refines P (Exec.inScope scope x) (Exec.inScope scope y) := by
  intro m
  unfold Exec.inScope
  rcases h { m with scope := scope } with h | ⟨hP, m', h⟩
  · rw [h]
    exact .inl rfl
  · rw [h]
    exact .inr ⟨hP, _, rfl⟩

theorem Refines.frame {x y : Exec α} (h : Refines P x y) (line : Nat) :
    Refines P (Exec.frame host line x) (Exec.frame host line y) := by
  intro m
  unfold Exec.frame
  dsimp only
  split
  · exact .inl rfl
  · rcases h { m with depth := m.depth + 1 } with h | ⟨hP, m', h⟩
    · rw [h]
      exact .inl rfl
    · rw [h]
      exact .inr ⟨hP, _, rfl⟩

theorem refines_evalEach {f g : Expr → Exec Datum} (h : ∀ e, Refines P (f e) (g e))
    (es : List Expr) : Refines P (evalEach f es) (evalEach g es) := by
  induction es with
  | nil => exact .refl _
  | cons e es ih => exact (h e).bind fun _ => ih.bind fun _ => .refl _

theorem refines_execEach {f g : Stmt → Exec Flow} (h : ∀ s, Refines P (f s) (g s))
    (ss : List Stmt) : Refines P (execEach f ss) (execEach g ss) := by
  induction ss with
  | nil => exact .refl _
  | cons s ss ih =>
    refine (h s).bind fun flow => ?_
    cases flow with
    | normal => exact ih
    | returned value => exact .refl _

theorem refines_repeatWhile {c d : Exec Datum} {f g : Exec Flow} (h : Refines P c d)
    (h' : Refines P f g) (fuel : Nat) :
    Refines P (repeatWhile c f fuel) (repeatWhile d g fuel) := by
  induction fuel with
  | zero => exact .refl _
  | succ fuel ih =>
    refine h.bind fun value => ?_
    split
    · refine h'.bind fun flow => ?_
      cases flow with
      | normal => exact ih
      | returned value => exact .refl _
    · exact .refl _

theorem refines_invoke {f g : Stmt → Exec Flow} (h : ∀ s, Refines P (f s) (g s))
    (closure : Closure ScopeAddress) (arguments : List Datum) (line : Nat) :
    Refines P (invoke host f closure arguments line) (invoke host g closure arguments line) := by
  refine Refines.bind (.refl _) fun scope => Refines.bind ?_ fun _ => .refl _
  exact ((refines_execEach h _).inScope scope).frame host line

variable {watch} (hwatch : ∀ moment, Refines P (watch moment) (pure ()))
include hwatch

theorem refines_constructWatched {f g : Stmt → Exec Flow} (h : ∀ s, Refines P (f s) (g s))
    (cls : Class ScopeAddress) (arguments : List Datum) (line : Nat) :
    Refines P (constructWatched host watch f cls arguments line)
      (construct host g cls arguments line) := by
  refine Refines.bind (.refl _) fun address => ?_
  cases cls.initializer? with
  | none => exact .refl _
  | some initializer =>
    refine Refines.bind (.refl _) fun bound => .observe (hwatch _) ?_
    exact (refines_invoke host h bound arguments line).bind fun _ => .refl _

theorem refines_callWatched {f g : Stmt → Exec Flow} (h : ∀ s, Refines P (f s) (g s))
    (callee : Datum) (arguments : List Datum) (line : Nat) :
    Refines P (callWatched host watch f callee arguments line)
      (call host g callee arguments line) := by
  unfold callWatched call
  cases callee.arity? with
  | none => exact .refl _
  | some arity =>
    dsimp only
    split
    · exact .refl _
    · cases callee with
      | function id closure =>
        exact .observe (hwatch _) (refines_invoke host h closure arguments line)
      | classObject cls => exact refines_constructWatched host hwatch h cls arguments line
      | native f => cases f; exact .refl _
      | _ => exact .refl _

theorem refines_watched (fuel : Nat) :
    (∀ pending e, Refines P (evalWatched host watch fuel pending e) (eval host fuel e)) ∧
      ∀ s, Refines P (execWatched host watch fuel s) (exec host fuel s) := by
  induction fuel with
  | zero =>
    refine ⟨fun pending e => ?_, fun s => ?_⟩
    · rw [evalWatched, eval]
      exact .refl _
    · rw [execWatched, exec]
      exact .refl _
  | succ fuel ih =>
    obtain ⟨heval, hexec⟩ := ih
    refine ⟨fun pending e => ?_, fun s => ?_⟩
    · have reach : ∀ {x y : Exec Datum}, Refines P x y →
          Refines P (watch (.reach pending e) >>= fun _ => x) y := .observe (hwatch _)
      cases e with
      | literal value => exact reach (.refl _)
      | grouping inner => exact reach (heval pending inner)
      | unary op line operand => exact reach ((heval pending operand).bind fun _ => .refl _)
      | binary left op line right =>
        refine reach ((heval pending left).bind fun first => ?_)
        exact (heval pending right).bind fun _ => .refl _
      | logical left op right =>
        refine reach ((heval pending left).bind fun first => ?_)
        split
        · exact .refl _
        · exact heval pending right
      | varRef target => exact reach (.refl _)
      | assign target value =>
        refine reach ((heval pending value).bind fun value => ?_)
        exact .observe (hwatch _) (.refl _)
      | call callee arguments line =>
        refine reach ((heval pending callee).bind fun callee => ?_)
        refine (refines_evalEach (heval pending) arguments).bind fun arguments => ?_
        exact refines_callWatched host hwatch hexec callee arguments line
      | get object name => exact reach ((heval pending object).bind fun _ => .refl _)
      | set object name value =>
        refine reach ((heval pending object).bind fun object => ?_)
        cases object with
        | instanceRef address => exact (heval pending value).bind fun _ => .refl _
        | _ => exact .refl _
      | thisRef id line => exact reach (.refl _)
      | superRef id line method => exact reach (.refl _)
    · cases s with
      | expression value => exact (heval none value).bind fun _ => .refl _
      | print value => exact (heval none value).bind fun _ => .refl _
      | varDecl name initializer =>
        cases initializer with
        | none => exact .refl _
        | some value =>
          exact .currentScope fun scope => (heval _ value).bind fun _ => .refl _
      | block body =>
        refine Refines.bind (.refl _) fun scope => Refines.bind (.refl _) fun scope => ?_
        exact (refines_execEach hexec body).inScope scope
      | ifElse condition thenBranch elseBranch =>
        refine (heval none condition).bind fun value => ?_
        split
        · exact hexec thenBranch
        · cases elseBranch with
          | none => exact .refl _
          | some elseBranch => exact hexec elseBranch
      | whileLoop condition body => exact refines_repeatWhile (heval none condition) (hexec body) fuel
      | funDecl decl => exact .refl _
      | returnValue line value =>
        cases value with
        | none => exact .refl _
        | some value => exact (heval none value).bind fun _ => .refl _
      | classDecl decl =>
        obtain ⟨name, superclass, methods⟩ := decl
        cases superclass with
        | none => exact .refl _
        | some target => exact .observe (hwatch _) (.refl _)

theorem refines_runWatched (fuel : Nat) (p : Program) :
    Refines P (runWatched host watch fuel p) (runProgram host fuel p) := by
  induction p with
  | nil => exact .refl _
  | cons s ss ih => exact ((refines_watched host hwatch fuel).2 s).bind fun _ => ih

omit hwatch

/-- The watch that does nothing. -/
def unwatched (_ : Moment) : Exec Unit :=
  pure ()

/-- Under a watch that does nothing a program runs as it does without one. -/
theorem runWatched_unwatched (fuel : Nat) (p : Program) :
    runWatched host unwatched fuel p = runProgram host fuel p := by
  funext m
  have hwatch : ∀ moment, Refines False (unwatched moment) (pure ()) := fun _ => .refl _
  have h := refines_runWatched host hwatch fuel p m
  exact h.resolve_right fun h => h.1

end Exec

/-! ### The promises of resolution -/

/-- Is this an instance? -/
def Value.isInstance {ρ : Type} : Value ρ → Bool
  | .instanceRef _ => true
  | _ => false

/-- Is this a class? -/
def Value.isClass {ρ : Type} : Value ρ → Bool
  | .classObject _ => true
  | _ => false

namespace Machine

/-- There is a scope so many scopes out of the current one, it is not the global one,
and what the name is bound to in it is as it should be. -/
def binds (m : Machine) (distance : Nat) (name : String) (asItShould : Option Datum → Bool) :
    Bool :=
  (m.store.climb m.scope distance).any fun scope =>
    scope != Store.globals && asItShould (m.store.lookup scope name)

/-- What resolution has promised for a moment.  A variable is bound at its distance,
except if it is assigned in its own initializer, where it is not bound yet; `this` is
bound to an instance and `super` to a class, one scope further out. -/
def keeps (m : Machine) : Moment → Bool
  | .reach _ (.varRef target) =>
    m.distances[target.id]?.all (m.binds · target.name.text Option.isSome)
  | .reach pending (.assign target _) | .assign pending target =>
    m.distances[target.id]?.all (m.binds · target.name.text
      (if pending = some target.name.text then Option.isNone else Option.isSome))
  | .reach _ (.thisRef id _) =>
    m.distances[id]?.any (m.binds · "this" (Option.any Value.isInstance))
  | .reach _ (.superRef id _ _) =>
    m.distances[id]?.any fun distance =>
      0 < distance && m.binds distance "super" (Option.any Value.isClass) &&
        m.binds (distance - 1) "this" (Option.any Value.isInstance)
  | .reach _ _ => true
  | .enter closure =>
    !closure.isInitializer ||
      closure.env != Store.globals &&
        (m.store.lookup closure.env "this").any Value.isInstance

variable {m : Machine} {pending : Option String} {target : Reference} {distance : Nat}

theorem binds_iff {name : String} {asItShould : Option Datum → Bool} :
    m.binds distance name asItShould = true ↔ ∃ scope, m.store.climb m.scope distance = some scope ∧
      scope ≠ Store.globals ∧ asItShould (m.store.lookup scope name) = true := by
  simp only [binds, Option.any_eq_true, Bool.and_eq_true, bne_iff_ne]

/-- A variable that was located can be read. -/
theorem read_of_keeps (hd : m.distances[target.id]? = some distance)
    (h : m.keeps (.reach pending (.varRef target)) = true) :
    ∃ value, Exec.read target m = .ok value m := by
  rw [keeps, hd, Option.all_some] at h
  obtain ⟨scope, hclimb, -, hsome⟩ := binds_iff.mp h
  obtain ⟨value, hvalue⟩ := Option.isSome_iff_exists.mp hsome
  refine ⟨value, ?_⟩
  rw [Exec.read, hd]
  simp only [Store.getAt, hclimb, Option.bind_some, hvalue]

/-- A variable that was located can be assigned, but for its own initializer. -/
theorem write_of_keeps (value : Datum) (hd : m.distances[target.id]? = some distance)
    (h : m.keeps (.assign pending target) = true) (hne : pending ≠ some target.name.text) :
    ∃ m', Exec.write target value m = .ok () m' := by
  rw [keeps, hd, Option.all_some, if_neg hne] at h
  obtain ⟨scope, hclimb, -, hsome⟩ := binds_iff.mp h
  refine ⟨{ m with store := m.store.define scope target.name.text value }, ?_⟩
  rw [Exec.write, hd]
  simp only [Store.assignAt, hclimb, Store.replace, hsome, if_true]

/-- An assignment in the initializer of the variable itself fails. -/
theorem write_of_keeps_pending (value : Datum) (hd : m.distances[target.id]? = some distance)
    (h : m.keeps (.assign (some target.name.text) target) = true) :
    Exec.write target value m =
      .error (.runtime (.undefinedVariable target.name.text) target.name.line) m := by
  rw [keeps, hd, Option.all_some, if_pos rfl] at h
  obtain ⟨scope, hclimb, -, hnone⟩ := binds_iff.mp h
  rw [Option.isNone_iff_eq_none] at hnone
  rw [Exec.write, hd]
  simp only [Store.assignAt, hclimb, Store.replace, hnone, Option.isSome_none, if_false,
    Bool.false_eq_true]

end Machine

/-- The watch that stops where a promise is broken. -/
def Exec.guard (moment : Moment) : Exec Unit := fun m =>
  if m.keeps moment then .ok () m else .error .dangling m

theorem Exec.refines_guard (moment : Moment) : Exec.Refines True (Exec.guard moment) (pure ()) := by
  intro m
  unfold Exec.guard
  split
  · exact .inl rfl
  · exact .inr ⟨trivial, m, rfl⟩

end Lox
