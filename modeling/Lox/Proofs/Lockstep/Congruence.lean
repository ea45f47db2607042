/-
Relations that evaluation respects.

Two evaluations of one program, with different hosts, different watches or different
fuel, are compared by a relation between actions.  It depends on the active calls.  If
the few actions that evaluation is made of are related, and the ways to put them
together keep the relation, then so is all of evaluation, in one induction for all such
relations.

* `Exec.Congruence` — what is asked of the relation, one field for each of these actions;
* `Exec.Slack` — what else is asked if the second evaluation has more fuel;
* `Exec.Congruence.evaluation`, `Exec.Congruence.runIn` — evaluation is related.
-/
import Lox.Proofs.Lockstep.Actions
import Lox.Proofs.Lockstep.Calls

namespace Lox

namespace Exec

/-- The relation is kept by everything that evaluation is made of. -/
structure Congruence (host host' : Host) (watch watch' : Watch)
    (R : List Call → {α : Type} → Exec α → Exec α → Prop) : Prop where
  clock : host.clock = host'.clock
  watched : ∀ calls, R calls (watch calls) (watch' calls)
  quiet : ∀ {calls} {α : Type} {x : Exec α}, Quiet x → R calls x x
  print : ∀ {calls} value, R calls (print value) (print value)
  bind : ∀ {calls} {α β : Type} {x y : Exec α} {f g : α → Exec β}, R calls x y →
    (∀ a, R calls (f a) (g a)) → R calls (x >>= f) (y >>= g)
  inScope : ∀ {calls} {α : Type} {x y : Exec α} scope, R calls x y →
    R calls (inScope scope x) (inScope scope y)
  enter : ∀ {calls} {α : Type} {x y : Exec α} call, R (call :: calls) x y →
    R calls (enter host watch call calls x) (enter host' watch' call calls y)

/-- Where the first evaluation is out of fuel, the second one may go on with what it has
more. -/
structure Slack (host : Host) (watch : Watch)
    (R : List Call → {α : Type} → Exec α → Exec α → Prop) (extra : Nat) : Prop where
  eval : ∀ calls e, R calls (throw .outOfFuel) (evalIn host watch extra calls e)
  exec : ∀ calls s, R calls (throw .outOfFuel) (execIn host watch extra calls s)
  loop : ∀ fuel calls condition body, R calls (throw .outOfFuel)
    (repeatWhile (evalIn host watch fuel calls condition) (execIn host watch fuel calls body) extra)

namespace Congruence

variable {host host' : Host} {watch watch' : Watch} {calls : List Call} {extra fuel : Nat}
variable {R : List Call → {α : Type} → Exec α → Exec α → Prop}
variable (c : Congruence host host' watch watch' R)
include c

/-- With the same fuel both stop alike. -/
theorem noSlack : Slack host' watch' R 0 where
  eval _ _ := c.quiet (quiet_throw _)
  exec _ _ := c.quiet (quiet_throw _)
  loop _ _ _ _ := c.quiet (quiet_throw _)

theorem evalEach {f g : Expr → Exec Datum} (h : ∀ e, R calls (f e) (g e)) (es : List Expr) :
    R calls (evalEach f es) (evalEach g es) := by
  induction es with
  | nil => exact c.quiet (quiet_pure [])
  | cons e es ih => exact c.bind (h e) fun value => c.bind ih fun values => c.quiet (quiet_pure _)

theorem execEach {f g : Stmt → Exec Flow} (h : ∀ s, R calls (f s) (g s)) (ss : List Stmt) :
    R calls (execEach f ss) (execEach g ss) := by
  induction ss with
  | nil => exact c.quiet (quiet_pure Flow.normal)
  | cons s ss ih =>
    refine c.bind (h s) fun flow => ?_
    cases flow with
    | normal => exact ih
    | returned value => exact c.quiet (quiet_pure _)

/-- One round more of a loop on both sides. -/
theorem repeatWhile_succ {condition condition' : Exec Datum} {body body' : Exec Flow}
    (hcondition : R calls condition condition') (hbody : R calls body body') {fuel' : Nat}
    (hrest : R calls (repeatWhile condition body fuel) (repeatWhile condition' body' fuel')) :
    R calls (repeatWhile condition body (fuel + 1)) (repeatWhile condition' body' (fuel' + 1)) := by
  refine c.bind hcondition fun value => ?_
  split
  · refine c.bind hbody fun flow => ?_
    cases flow with
    | normal => exact hrest
    | returned value => exact c.quiet (quiet_pure _)
  · exact c.quiet (quiet_pure Flow.normal)

theorem repeatWhile (calls : List Call) (fuel : Nat) {condition condition' : Exec Datum}
    {body body' : Exec Flow}
    (hcondition : R calls condition condition') (hbody : R calls body body')
    (hstop : R calls (throw .outOfFuel) (repeatWhile condition' body' extra)) :
    R calls (repeatWhile condition body fuel) (repeatWhile condition' body' (fuel + extra)) := by
  induction fuel with
  | zero =>
    rw [Nat.zero_add]
    exact hstop
  | succ fuel ih =>
    rw [Nat.succ_add]
    exact c.repeatWhile_succ hcondition hbody ih

theorem readClock : R calls (readClock host) (readClock host') := by
  have hsame : Exec.readClock host' = Exec.readClock host := by
    unfold Exec.readClock
    rw [c.clock]
  rw [hsame]
  exact c.quiet (quiet_readClock host)

variable {f g : List Call → Stmt → Exec Flow} (h : ∀ calls s, R calls (f calls s) (g calls s))
include h

theorem invokeIn (closure : Closure ScopeAddress) (arguments : List Datum) (line : Nat) :
    R calls (invokeIn host watch f calls closure arguments line)
      (invokeIn host' watch' g calls closure arguments line) := by
  refine c.bind (c.quiet (quiet_newScope _ _)) fun scope => ?_
  refine c.bind (c.enter _ (c.inScope _ (c.execEach (h _) _))) fun flow => ?_
  split
  · refine c.bind (c.quiet (quiet_getAt _ _ _)) fun this => ?_
    cases this with
    | some this => exact c.quiet (quiet_pure this)
    | none => exact c.quiet (quiet_throw _)
  · exact c.quiet (quiet_pure _)

theorem constructIn (cls : Class ScopeAddress) (arguments : List Datum) (line : Nat) :
    R calls (constructIn host watch f calls cls arguments line)
      (constructIn host' watch' g calls cls arguments line) := by
  refine c.bind (c.quiet (quiet_newInstance cls)) fun address => ?_
  cases cls.initializer? with
  | none => exact c.quiet (quiet_pure _)
  | some initializer =>
    refine c.bind (c.quiet (quiet_bindMethod initializer address)) fun bound => ?_
    exact c.bind (c.invokeIn h bound arguments line) fun _ => c.quiet (quiet_pure _)

theorem callIn (callee : Datum) (arguments : List Datum) (line : Nat) :
    R calls (callIn host watch f calls callee arguments line)
      (callIn host' watch' g calls callee arguments line) := by
  unfold Exec.callIn
  cases callee.arity? with
  | none => exact c.quiet (quiet_fail _ _)
  | some arity =>
    dsimp only
    split
    · exact c.quiet (quiet_fail _ _)
    · cases callee with
      | function id closure => exact c.invokeIn h closure arguments line
      | classObject cls => exact c.constructIn h cls arguments line
      | native f =>
        cases f
        exact c.readClock
      | _ => exact c.quiet (quiet_fail _ _)

omit h
variable (slack : Slack host' watch' R extra)
include slack

/-- Expressions and statements with the fuel `fuel` on the one side, and so much more on
the other. -/
theorem evaluation (fuel : Nat) :
    (∀ calls e, R calls (evalIn host watch fuel calls e)
      (evalIn host' watch' (fuel + extra) calls e)) ∧
    ∀ calls s, R calls (execIn host watch fuel calls s)
      (execIn host' watch' (fuel + extra) calls s) := by
  -- the fuel of both sides goes down together, so what `extra` buys is asked for only once
  induction fuel with
  | zero =>
    rw [Nat.zero_add]
    exact ⟨slack.eval, slack.exec⟩
  | succ fuel ih =>
    obtain ⟨heval, hexec⟩ := ih
    rw [Nat.succ_add]
    refine ⟨fun calls e => ?_, fun calls s => ?_⟩
    · have after : ∀ {x y : Exec Datum}, R calls x y →
          R calls (watch calls >>= fun _ => x) (watch' calls >>= fun _ => y) :=
        fun hxy => c.bind (c.watched calls) fun _ => hxy
      cases e with
      | literal value => exact after (c.quiet (quiet_pure _))
      | grouping inner => exact after (heval calls inner)
      | unary op line operand =>
        exact after (c.bind (heval calls operand) fun _ => c.quiet (quiet_ofExcept _ _))
      | binary left op line right =>
        refine after (c.bind (heval calls left) fun first => ?_)
        exact c.bind (heval calls right) fun second => c.quiet (quiet_ofExcept _ _)
      | logical left op right =>
        refine after (c.bind (heval calls left) fun first => ?_)
        split
        · exact c.quiet (quiet_pure first)
        · exact heval calls right
      | varRef target => exact after (c.quiet (quiet_read target))
      | assign target value =>
        refine after (c.bind (heval calls value) fun value => ?_)
        exact c.bind (c.quiet (quiet_write target value)) fun _ => c.quiet (quiet_pure value)
      | call callee arguments line =>
        refine after (c.bind (heval calls callee) fun callee => ?_)
        refine c.bind (c.evalEach (heval calls) arguments) fun arguments => ?_
        exact c.callIn hexec callee arguments line
      | get object name =>
        exact after (c.bind (heval calls object) fun object => c.quiet (quiet_getProperty _ _))
      | set object name value =>
        refine after (c.bind (heval calls object) fun object => ?_)
        cases object with
        | instanceRef address =>
          refine c.bind (heval calls value) fun value => ?_
          exact c.bind (c.quiet (quiet_setField _ _ _)) fun _ => c.quiet (quiet_pure value)
        | _ => exact c.quiet (quiet_fail _ _)
      | thisRef id line => exact after (c.quiet (quiet_read _))
      | superRef id line method => exact after (c.quiet (quiet_getSuper id method))
    · have after : ∀ {x y : Exec Flow}, R calls x y →
          R calls (watch calls >>= fun _ => x) (watch' calls >>= fun _ => y) :=
        fun hxy => c.bind (c.watched calls) fun _ => hxy
      cases s with
      | expression value =>
        exact after (c.bind (heval calls value) fun _ => c.quiet (quiet_pure _))
      | print value =>
        refine after (c.bind (heval calls value) fun value => ?_)
        exact c.bind (c.print value) fun _ => c.quiet (quiet_pure _)
      | varDecl name initializer =>
        cases initializer with
        | none => exact after (c.quiet ((quiet_define _ _).bind fun _ => quiet_pure _))
        | some value =>
          refine after (c.bind (heval calls value) fun value => ?_)
          exact c.quiet ((quiet_define _ _).bind fun _ => quiet_pure _)
      | block body =>
        refine after (c.bind (c.quiet quiet_currentScope) fun parent => ?_)
        refine c.bind (c.quiet (quiet_newScope parent [])) fun scope => ?_
        exact c.inScope scope (c.execEach (hexec calls) body)
      | ifElse condition thenBranch elseBranch =>
        refine after (c.bind (heval calls condition) fun value => ?_)
        split
        · exact hexec calls thenBranch
        · cases elseBranch with
          | none => exact c.quiet (quiet_pure Flow.normal)
          | some elseBranch => exact hexec calls elseBranch
      | whileLoop condition body =>
        have hstop := slack.loop (fuel + extra) calls condition body
        exact after (c.repeatWhile calls fuel (heval calls condition) (hexec calls body) hstop)
      | funDecl decl =>
        exact after (c.quiet ((quiet_declareFunction decl).bind fun _ => quiet_pure _))
      | returnValue line value =>
        cases value with
        | none => exact after (c.quiet (quiet_pure _))
        | some value => exact after (c.bind (heval calls value) fun _ => c.quiet (quiet_pure _))
      | classDecl decl =>
        exact after (c.quiet ((quiet_declareClass decl).bind fun _ => quiet_pure _))

/-- Programs are run alike. -/
theorem runIn (fuel : Nat) (p : Program) :
    R [] (runIn host watch fuel p) (runIn host' watch' (fuel + extra) p) := by
  induction p with
  | nil => exact c.quiet (quiet_pure ())
  | cons s ss ih => exact c.bind ((c.evaluation slack fuel).2 [] s) fun _ => ih

end Congruence

end Exec

end Lox
