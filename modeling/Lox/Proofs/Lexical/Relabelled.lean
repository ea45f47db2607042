/-
Evaluation does not depend on lines and ids.

A relabelling can be put through a whole world.  Lexical evaluation of a relabelled
program in a relabelled world does what it does without the relabelling, but that it
reports errors on the new lines.

* `World.relabel` — a relabelling in a world, which is what its recoding does;
* `natural_eval_and_exec` — evaluation is natural;
* `runProgram_relabel` — so are runs of programs.
-/
import Lox.Proofs.Lexical.Recoded
import Lox.Proofs.Relabelling.Values

namespace Lox

/-- The reason on its new line. -/
def Abort.relabel (r : Relabelling) : Abort → Abort
  | .runtime error line => .runtime error (r.line line)
  | abort => abort

theorem Abort.recode_recoding (r : Relabelling) (abort : Abort) :
    abort.recode r.recoding = abort.relabel r := by
  cases abort <;> rfl

namespace Lexical

variable (r : Relabelling) (before : ByteArray)

/-- The instance with new lines and ids in its code. -/
def Object.relabel (object : Object) : Object :=
  ⟨object.cls.relabel r, object.fields.mapValues (Value.relabel r)⟩

/-- The world with new lines and ids in its code, where something more was printed
before. -/
def World.relabel (world : World) : World :=
  { world with
    cells := world.cells.map (Option.map (Value.relabel r))
    globals := world.globals.mapValues (Value.relabel r)
    instances := world.instances.map (Object.relabel r)
    sink := world.sink.after before }

variable {α β : Type}

/-- The result of an action with new lines and ids. -/
def relabelResult (f : α → β) :
    EStateM.Result Abort World α → EStateM.Result Abort World β
  | .ok a world => .ok (f a) (world.relabel r before)
  | .error abort world => .error (abort.relabel r) (world.relabel r before)

variable {r before}

theorem World.recode_recoding (world : World) :
    world.recode r.recoding before = world.relabel r before := by
  have hvalue : (Value.recode r.recoding : Value Env → Value Env) = Value.relabel r :=
    funext Value.recode_recoding
  have hobject : Object.recode r.recoding = Object.relabel r := by
    funext object
    rw [Object.recode, Object.relabel, Class.recode_recoding, hvalue]
  rw [recode, relabel, hvalue, hobject]

theorem recodeResult_recoding (f : α → β) (result : EStateM.Result Abort World α) :
    recodeResult r.recoding before f result = relabelResult r before f result := by
  cases result with
  | ok a world => rw [recodeResult, relabelResult, World.recode_recoding]
  | error abort world =>
    rw [recodeResult, relabelResult, World.recode_recoding, Abort.recode_recoding]

theorem natural_evalEach {evaluate evaluate' : Expr → Act (Value Env)}
    (h : ∀ e, Natural r.recoding before (Value.recode r.recoding) (evaluate e) (evaluate' (e.relabel r)))
    (es : List Expr) :
    Natural r.recoding before (List.map (Value.recode r.recoding)) (evalEach evaluate es)
      (evalEach evaluate' (Expr.relabelEach r es)) := by
  induction es with
  | nil => exact natural_pure _ []
  | cons e es ih =>
    refine (h e).bind fun value => ih.bind fun values => ?_
    exact natural_pure (List.map (Value.recode r.recoding)) (value :: values)

theorem natural_execEach {execute execute' : Env → Stmt → Act Ending}
    (h : ∀ env s, Natural r.recoding before (Ending.recode r.recoding) (execute env s) (execute' env (s.relabel r)))
    (env : Env) (ss : List Stmt) :
    Natural r.recoding before (Ending.recode r.recoding) (execEach execute env ss)
      (execEach execute' env (Stmt.relabelEach r ss)) := by
  induction ss generalizing env with
  | nil => exact natural_normal env
  | cons s ss ih =>
    refine (h env s).bind fun ending => ?_
    cases ending with
    | normal env => exact ih env
    | returned value => exact natural_returned value

/-- The bodies of functions are naturally executed if single statements are. -/
theorem natural_bodies {execute execute' : Env → Stmt → Act Ending}
    (h : ∀ env s, Natural r.recoding before (Ending.recode r.recoding) (execute env s)
      (execute' env (s.relabel r))) (env : Env) (f : FunctionDecl) :
    Natural r.recoding before (Ending.recode r.recoding) (execEach execute env f.body)
      (execEach execute' env (r.recoding.decl f).body) := by
  rw [show (r.recoding.decl f).body = Stmt.relabelEach r f.body from
    congrArg FunctionDecl.body f.relabel_eq]
  exact natural_execEach h env f.body

theorem recoded_relabel (decl : ClassDecl) : Recoded r.recoding decl (decl.relabel r) := by
  rw [ClassDecl.relabel_eq]
  refine ⟨rfl, ?_, FunctionDecl.relabelEach_eq_map _⟩
  rw [Option.map_map]
  rfl

/-! ### Evaluation -/

theorem natural_eval_and_exec (host : Host) (fuel : Nat) :
    (∀ env e, Natural r.recoding before (Value.recode r.recoding) (eval host fuel env e)
        (eval host fuel env (e.relabel r))) ∧
      ∀ isLocal env s, Natural r.recoding before (Ending.recode r.recoding) (exec host fuel isLocal env s)
        (exec host fuel isLocal env (s.relabel r)) := by
  induction fuel with
  | zero =>
    refine ⟨fun env e => ?_, fun isLocal env s => ?_⟩
    · rw [eval, eval]
      exact natural_throw _ .outOfFuel
    · rw [exec, exec]
      exact natural_throw _ .outOfFuel
  | succ fuel ih =>
    obtain ⟨heval, hexec⟩ := ih
    refine ⟨fun env e => ?_, fun isLocal env s => ?_⟩
    · cases e with
      | literal value =>
        exact natural_literal value
      | grouping inner => exact heval env inner
      | unary op line operand =>
        refine (heval env operand).bind fun value => ?_
        rw [UnaryOp.apply_recode]
        exact natural_ofExcept line _
      | binary left op line right =>
        refine (heval env left).bind fun first => (heval env right).bind fun second => ?_
        rw [BinaryOp.apply_recode]
        exact natural_ofExcept line _
      | logical left op right =>
        refine (heval env left).bind fun first => ?_
        rw [LogicalOp.decides_recode]
        split
        · exact natural_pure _ first
        · exact heval env right
      | varRef target => exact natural_read env target.name
      | assign target value =>
        refine (heval env value).bind fun value => ?_
        exact (natural_write env target.name value).bind fun _ => natural_pure _ value
      | call callee arguments line =>
        refine (heval env callee).bind fun callee => ?_
        refine (natural_evalEach (heval env) arguments).bind fun arguments => ?_
        exact natural_call host (natural_bodies (hexec true)) callee arguments line
      | get object name =>
        exact (heval env object).bind fun object => natural_getProperty object name
      | set object name value =>
        refine (heval env object).bind fun object => ?_
        cases object with
        | instanceRef address =>
          refine (heval env value).bind fun value => ?_
          exact (natural_setField address name.text value).bind fun _ => natural_pure _ value
        | _ => exact natural_fail _ _ name.line
      | thisRef id line => exact natural_read env ⟨"this", line⟩
      | superRef id line method => exact natural_getSuper env method
    · cases s with
      | expression value => exact (heval env value).bind fun _ => natural_normal env
      | print value =>
        refine (heval env value).bind fun value => ?_
        exact (natural_print value).bind fun _ => natural_normal env
      | varDecl name initializer =>
        cases initializer with
        | none =>
          refine (natural_enter isLocal env name.text).bind fun env => ?_
          exact (natural_settle isLocal env name.text .nil).bind fun _ => natural_normal env
        | some value =>
          refine (natural_enter isLocal env name.text).bind fun env => ?_
          refine (heval env value).bind fun value => ?_
          exact (natural_settle isLocal env name.text value).bind fun _ => natural_normal env
      | block body =>
        refine (natural_execEach (hexec true) env body).bind fun ending => ?_
        cases ending with
        | normal _ => exact natural_normal env
        | returned value => exact natural_returned value
      | ifElse condition thenBranch elseBranch =>
        cases elseBranch with
        | none =>
          refine (heval env condition).bind fun value => ?_
          rw [Value.isTruthy_recode]
          split
          · exact hexec isLocal env thenBranch
          · exact natural_normal env
        | some elseBranch =>
          refine (heval env condition).bind fun value => ?_
          rw [Value.isTruthy_recode]
          split
          · exact hexec isLocal env thenBranch
          · exact hexec isLocal env elseBranch
      | whileLoop condition body =>
        exact natural_repeatWhile env (heval env condition) (hexec isLocal env body) fuel
      | funDecl decl => exact (natural_declareFunction isLocal env decl).bind natural_normal
      | returnValue line value =>
        cases value with
        | none => exact natural_returned .nil
        | some value =>
          exact (heval env value).bind natural_returned
      | classDecl decl => exact (natural_declareClass isLocal env (recoded_relabel decl)).bind natural_normal

theorem natural_runProgram (host : Host) (fuel : Nat) (p : Program) :
    Natural r.recoding before id (runProgram host fuel p) (runProgram host fuel (p.relabel r)) := by
  induction p with
  | nil => exact natural_pure id ()
  | cons s ss ih => exact ((natural_eval_and_exec host fuel).2 false [] s).bind fun _ => ih

theorem runProgram_relabel (host : Host) (fuel : Nat) (p : Program) (world : World) :
    runProgram host fuel (p.relabel r) (world.relabel r before) =
      relabelResult r before id (runProgram host fuel p world) := by
  have hnatural : Natural r.recoding before id (runProgram host fuel p)
      (runProgram host fuel (p.relabel r)) := natural_runProgram host fuel p
  rw [← World.recode_recoding, hnatural, recodeResult_recoding]

/-! ### One relabelling after another -/

theorem World.relabel_relabel (s : Relabelling) (world : World) :
    (world.relabel r .empty).relabel s before = world.relabel (s.comp r) before := by
  have hvalue : (Value.relabel s : Value Env → Value Env) ∘ Value.relabel r =
      Value.relabel (s.comp r) := funext (Value.relabel_relabel s)
  have hobject : Object.relabel s ∘ Object.relabel r = Object.relabel (s.comp r) := by
    funext object
    simp only [Function.comp_apply, Object.relabel, Class.relabel_relabel,
      Bindings.mapValues_mapValues, hvalue]
  have hsink : (world.sink.after .empty).after before = world.sink.after before := by
    simp only [Sink.after, ByteArray.empty_append]
  simp only [relabel, Array.map_map, Option.map_comp_map, hvalue, hobject,
    Bindings.mapValues_mapValues, hsink]

end Lexical

end Lox
