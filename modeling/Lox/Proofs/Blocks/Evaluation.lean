/-
Code that differs in blocks only evaluates alike.

A statement that declares nothing does the same in a block of its own, one unit of fuel
later (`Lexical.exec_block`).  A `Resemblance` says when statements look alike: the first
one may have such blocks around it, the second one too, and inside of these their parts
look alike.  Then the one follows the other.

* `Wraps s t` — the first statement is the second one in blocks;
* `Twins r Like s t` — two statements of the same form whose parts look alike;
* `Resemblance r Like` — what statements that look alike have in common;
* `Lexical.follows_eval_and_exec` — such statements follow one another.
-/
import Lox.Proofs.Blocks.Faults
import Lox.Proofs.Lexical.Follows

namespace Lox

/-- The first statement is the second one in blocks, which declare nothing. -/
inductive Wraps : Stmt → Stmt → Prop
  | refl (s : Stmt) : Wraps s s
  | block {s t : Stmt} (hs : s.declares = false) (h : Wraps s t) : Wraps (.block [s]) t

/-- The statements have the same form, and their parts look alike. -/
inductive Twins (r : Recoding) (Like : Stmt → Stmt → Prop) : Stmt → Stmt → Prop
  | expression (value : Expr) : Twins r Like (.expression value) (.expression value)
  | print (value : Expr) : Twins r Like (.print value) (.print value)
  | varDecl (name : Name) (initializer : Option Expr) :
    Twins r Like (.varDecl name initializer) (.varDecl name initializer)
  | block {body body' : List Stmt} (h : List.Forall₂ Like body body') :
    Twins r Like (.block body) (.block body')
  | ifThen (condition : Expr) {s t : Stmt} (h : Like s t) :
    Twins r Like (.ifElse condition s none) (.ifElse condition t none)
  | ifElse (condition : Expr) {s t s' t' : Stmt} (h : Like s t) (h' : Like s' t') :
    Twins r Like (.ifElse condition s (some s')) (.ifElse condition t (some t'))
  | whileLoop (condition : Expr) {s t : Stmt} (h : Like s t) :
    Twins r Like (.whileLoop condition s) (.whileLoop condition t)
  | funDecl {f f' : FunctionDecl} (h : r.decl f = r.decl f') :
    Twins r Like (.funDecl f) (.funDecl f')
  | returnValue (line : Nat) (value : Option Expr) :
    Twins r Like (.returnValue line value) (.returnValue line value)
  | classDecl {name : Name} {superclass : Option Reference} {methods methods' : List FunctionDecl}
    (h : methods.map r.decl = methods'.map r.decl) :
    Twins r Like (.classDecl ⟨name, superclass, methods⟩) (.classDecl ⟨name, superclass, methods'⟩)

/-- Statements that look alike are twins inside of their blocks, and so are the bodies of
functions that the recoding does not tell apart. -/
structure Resemblance (r : Recoding) (Like : Stmt → Stmt → Prop) : Prop where
  unwrap {s s' : Stmt} : Like s s' →
    (∃ t, s = .block [t] ∧ t.declares = false ∧ Like t s') ∨
      ∃ t', Wraps s' t' ∧ Twins r Like s t'
  body {f f' : FunctionDecl} : r.decl f = r.decl f' → List.Forall₂ Like f.body f'.body

namespace Lexical

variable {host : Host} {fuel : Nat} {isLocal : Bool} {env : Env}

/-! ### Statements that declare nothing -/

/-- The ending of a block. -/
def Ending.leaving (env : Env) : Ending → Ending
  | .normal _ => .normal env
  | .returned value => .returned value

/-- The statement leaves the variables in sight as they are. -/
def Keeps (env : Env) (x : Act Ending) : Prop :=
  Ending.leaving env <$> x = x

theorem keeps_normal (env : Env) : Keeps env (pure (.normal env)) := rfl

theorem Keeps.bind {α : Type} {x : Act α} {k : α → Act Ending} (h : ∀ a, Keeps env (k a)) :
    Keeps env (x >>= k) := by
  rw [Keeps, map_bind]
  exact congrArg (x >>= ·) (funext h)

theorem keeps_leaving (x : Act Ending) :
    Keeps env (x >>= fun ending =>
      match ending with
      | .normal _ => pure (.normal env)
      | .returned value => pure (.returned value)) := by
  refine Keeps.bind fun ending => ?_
  cases ending <;> rfl

theorem keeps_repeatWhile (condition : Act (Value Env)) (body : Act Ending) (fuel : Nat) :
    Keeps env (repeatWhile env condition body fuel) := by
  induction fuel with
  | zero => rfl
  | succ fuel ih =>
    refine Keeps.bind fun value => ?_
    split
    · refine Keeps.bind fun ending => ?_
      cases ending with
      | normal _ => exact ih
      | returned value => rfl
    · exact keeps_normal env

/-- A statement that declares nothing leaves the variables in sight as they are, and does
the same at the top level as elsewhere. -/
theorem keeps_exec (host : Host) (fuel : Nat) : ∀ (isLocal : Bool) (env : Env) (s : Stmt),
    s.declares = false → Keeps env (exec host fuel isLocal env s) ∧
      exec host fuel isLocal env s = exec host fuel true env s := by
  induction fuel with
  | zero => exact fun _ _ _ _ => ⟨rfl, rfl⟩
  | succ fuel ih =>
    intro isLocal env s hs
    cases s with
    | expression value | print value =>
      refine ⟨Keeps.bind fun value => ?_, rfl⟩
      first | exact keeps_normal env | exact Keeps.bind fun _ => keeps_normal env
    | varDecl _ _ | funDecl _ | classDecl _ => simp [Stmt.declares] at hs
    | block body => exact ⟨keeps_leaving _, rfl⟩
    | ifElse condition thenBranch elseBranch =>
      cases elseBranch with
      | none =>
        rw [Stmt.declares] at hs
        obtain ⟨hthen, hlocal⟩ := ih isLocal env thenBranch hs
        refine ⟨Keeps.bind fun value => ?_, ?_⟩
        · split
          · exact hthen
          · exact keeps_normal env
        · rw [exec, exec, hlocal]
      | some elseBranch =>
        rw [Stmt.declares, Bool.or_eq_false_iff] at hs
        obtain ⟨hthen, hlocal⟩ := ih isLocal env thenBranch hs.1
        obtain ⟨helse, hlocal'⟩ := ih isLocal env elseBranch hs.2
        refine ⟨Keeps.bind fun value => ?_, ?_⟩
        · split
          · exact hthen
          · exact helse
        · rw [exec, exec, hlocal, hlocal']
    | whileLoop condition body =>
      rw [Stmt.declares] at hs
      refine ⟨keeps_repeatWhile _ _ fuel, ?_⟩
      rw [exec, exec, (ih isLocal env body hs).2]
    | returnValue line value =>
      cases value with
      | none => exact ⟨rfl, rfl⟩
      | some value => exact ⟨Keeps.bind fun _ => rfl, rfl⟩

/-- A block around a statement that declares nothing only takes fuel. -/
theorem exec_block {s : Stmt} (hs : s.declares = false) :
    exec host (fuel + 1) isLocal env (.block [s]) = exec host fuel isLocal env s := by
  obtain ⟨hkeeps, hlocal⟩ := keeps_exec host fuel isLocal env s hs
  have hblock : exec host (fuel + 1) isLocal env (.block [s]) =
      Ending.leaving env <$> exec host fuel true env s := by
    funext world
    show EStateM.bind (EStateM.bind (exec host fuel true env s) _) _ world =
      EStateM.map _ (exec host fuel true env s) world
    unfold EStateM.bind EStateM.map
    cases exec host fuel true env s world with
    | ok ending after => cases ending <;> rfl
    | error abort after => rfl
  -- The block puts the variables in sight back, which the statement has left as they were.
  rw [hblock, ← hlocal]
  exact hkeeps

/-! ### Rules -/

variable {r : Recoding} {Like : Stmt → Stmt → Prop}

theorem follows_normal (env : Env) :
    Follows r (Ending.recode r) (pure (.normal env)) fun _ => pure (.normal env) :=
  .of_natural (natural_normal env) (natural_normal env) rfl

theorem follows_returned {value value' : Value Env} (h : value'.recode r = value.recode r) :
    Follows r (Ending.recode r) (pure (.returned value)) fun _ => pure (.returned value') :=
  .of_natural (natural_returned value) (natural_returned value') (by rw [h])

theorem follows_value {value value' : Value Env} (h : value'.recode r = value.recode r) :
    Follows r (Value.recode r) (pure value) fun _ => pure value' :=
  .of_natural (natural_pure _ value) (natural_pure _ value') (by rw [h])

theorem follows_fail {α : Type} {f : α → α} (error : RuntimeError) (line : Nat) :
    Follows r f (fail error line) fun _ => fail error line :=
  .of_natural (natural_fail f error line) (natural_fail f error line) rfl

theorem follows_ofExcept (line : Nat) {result result' : Except RuntimeError (Value Env)}
    (h : result'.map (Value.recode r) = result.map (Value.recode r)) :
    Follows r (Value.recode r) (ofExcept line result) fun _ => ofExcept line result' :=
  .of_natural (natural_ofExcept line result) (natural_ofExcept line result') (by rw [h])

theorem Ending.recode_eq_normal {ending : Ending}
    (h : ending.recode r = Ending.recode r (.normal env)) : ending = .normal env := by
  cases ending with
  | normal _ => exact h
  | returned value => cases h

theorem Ending.recode_eq_returned {ending : Ending} {value : Value Env}
    (h : ending.recode r = Ending.recode r (.returned value)) :
    ∃ value', ending = .returned value' ∧ value'.recode r = value.recode r := by
  cases ending with
  | normal _ => cases h
  | returned value' => exact ⟨value', rfl, Ending.returned.inj h⟩

/-- What comes after a statement unless it returns. -/
theorem Follows.unlessReturned {x : Act Ending} {y : Nat → Act Ending} {k : Env → Act Ending}
    {k' : Nat → Env → Act Ending} (h : Follows r (Ending.recode r) x y)
    (hk : ∀ inside, Follows r (Ending.recode r) (k inside) fun fuel => k' fuel inside) :
    Follows r (Ending.recode r)
      (x >>= fun ending =>
        match ending with
        | .normal inside => k inside
        | .returned value => pure (.returned value))
      fun fuel => y fuel >>= fun ending =>
        match ending with
        | .normal inside => k' fuel inside
        | .returned value => pure (.returned value) := by
  refine h.bind fun ending ending' hending => ?_
  cases ending with
  | normal inside =>
    cases Ending.recode_eq_normal hending
    exact hk inside
  | returned value =>
    obtain ⟨value', rfl, hvalue⟩ := Ending.recode_eq_returned hending
    exact follows_returned hvalue

theorem isTruthy_of_recode {value value' : Value Env} (h : value'.recode r = value.recode r) :
    value'.isTruthy = value.isTruthy := by
  rw [← value'.isTruthy_recode, h, value.isTruthy_recode]

theorem follows_evalEach {evaluate : Expr → Act (Value Env)}
    {evaluate' : Nat → Expr → Act (Value Env)}
    (h : ∀ e, Follows r (Value.recode r) (evaluate e) fun fuel => evaluate' fuel e)
    (es : List Expr) :
    Follows r (List.map (Value.recode r)) (evalEach evaluate es) fun fuel =>
      evalEach (evaluate' fuel) es := by
  induction es with
  | nil => exact .of_natural (natural_pure _ []) (natural_pure _ []) rfl
  | cons e es ih =>
    refine (h e).bind fun value value' hvalue => ih.bind fun values values' hvalues => ?_
    refine .of_natural (natural_pure (List.map (Value.recode r)) (value :: values))
      (natural_pure _ (value' :: values')) ?_
    rw [List.map_cons, List.map_cons, hvalue, hvalues]

theorem follows_execEach {execute : Env → Stmt → Act Ending}
    {execute' : Nat → Env → Stmt → Act Ending}
    (h : ∀ env s s', Like s s' →
      Follows r (Ending.recode r) (execute env s) fun fuel => execute' fuel env s')
    {ss ss' : List Stmt} (hss : List.Forall₂ Like ss ss') (env : Env) :
    Follows r (Ending.recode r) (execEach execute env ss) fun fuel =>
      execEach (execute' fuel) env ss' := by
  induction hss generalizing env with
  | nil => exact follows_normal env
  | @cons s s' ss ss' hs _ ih => exact (h env s s' hs).unlessReturned ih

/-- The two loops may count different rounds, for the fuel of the second one is spent on
its body too. -/
theorem follows_repeatWhile (env : Env) {condition : Act (Value Env)} {body : Act Ending}
    {condition' : Nat → Act (Value Env)} {body' : Nat → Act Ending}
    (hcondition : Follows r (Value.recode r) condition condition')
    (hbody : Follows r (Ending.recode r) body body') (fuel : Nat) :
    Follows r (Ending.recode r) (repeatWhile env condition body fuel) fun fuel =>
      repeatWhile env (condition' fuel) (body' fuel) fuel := by
  -- Generalized: in its later rounds the second loop has less fuel for its condition and
  -- its body, which makes them other families of actions.
  induction fuel generalizing condition' body' with
  | zero => exact follows_outOfFuel
  | succ fuel ih =>
    refine Follows.succ (hcondition.shift.bind fun value value' hvalue => ?_)
    simp only [isTruthy_of_recode hvalue]
    split
    · exact hbody.shift.unlessReturned fun _ => ih hcondition.shift hbody.shift
    · exact follows_normal env

section

variable (host) (hlike : Resemblance r Like) {execute : Env → Stmt → Act Ending}
  {execute' : Nat → Env → Stmt → Act Ending}
  (h : ∀ env s s', Like s s' →
    Follows r (Ending.recode r) (execute env s) fun fuel => execute' fuel env s')
include hlike h

theorem follows_invoke {closure closure' : Closure Env}
    (hclosure : closure'.recode r = closure.recode r) {arguments arguments' : List (Value Env)}
    (harguments : arguments'.map (Value.recode r) = arguments.map (Value.recode r)) (line : Nat) :
    Follows r (Value.recode r) (invoke host execute closure arguments line) fun fuel =>
      invoke host (execute' fuel) closure' arguments' line := by
  obtain ⟨decl, env, isInitializer⟩ := closure
  obtain ⟨decl', env', isInitializer'⟩ := closure'
  obtain ⟨hdecl, rfl, rfl⟩ := Closure.mk.inj hclosure
  have hpairs : ((decl'.params.map Name.text).zip arguments').map
        (fun pair => (pair.1, pair.2.recode r)) =
      ((decl.params.map Name.text).zip arguments).map fun pair => (pair.1, pair.2.recode r) := by
    have hzip : ∀ (names : List String) (values : List (Value Env)),
        (names.zip values).map (fun pair => (pair.1, pair.2.recode r)) =
          names.zip (values.map (Value.recode r)) := by
      intro names values
      rw [List.zip_map_right]
      rfl
    rw [hzip, hzip, harguments, ← r.decl_params, hdecl, r.decl_params]
  unfold invoke
  refine Follows.bind (f := id) (.of_natural (natural_enterEach env' _)
    (natural_enterEach env' _) (by rw [hpairs])) fun inside inside' hinside => ?_
  cases hinside
  -- Here the bodies differ; all that is known of them is that they look alike.
  have hbody := follows_execEach h (hlike.body hdecl.symm) inside
  refine (hbody.frame host line).bind fun ending ending' hending => ?_
  cases isInitializer' with
  | true =>
    refine (Follows.of_natural (natural_look env' "this") (natural_look env' "this") rfl).bind
      fun this this' hthis => ?_
    cases this with
    | none =>
      cases Option.map_eq_none_iff.mp hthis
      exact .of_natural (natural_throw _ .dangling) (natural_throw _ .dangling) rfl
    | some this =>
      obtain ⟨this', rfl, hvalue⟩ := Option.map_eq_some_iff.mp hthis
      exact follows_value hvalue
  | false =>
    cases ending with
    | normal _ =>
      cases Ending.recode_eq_normal hending
      exact follows_value rfl
    | returned value =>
      obtain ⟨value', rfl, hvalue⟩ := Ending.recode_eq_returned hending
      exact follows_value hvalue

theorem follows_construct {cls cls' : Class Env} (hcls : cls'.recode r = cls.recode r)
    {arguments arguments' : List (Value Env)}
    (harguments : arguments'.map (Value.recode r) = arguments.map (Value.recode r)) (line : Nat) :
    Follows r (Value.recode r) (construct host execute cls arguments line) fun fuel =>
      construct host (execute' fuel) cls' arguments' line := by
  refine Follows.bind (f := id) (.of_natural (natural_newInstance cls) (natural_newInstance cls')
    (by rw [hcls])) fun address address' haddress => ?_
  cases haddress
  have hfound : cls'.initializer?.map (Closure.recode r) =
      cls.initializer?.map (Closure.recode r) := by
    rw [← Class.initializer?_recode, hcls, Class.initializer?_recode]
  cases hinitializer : cls.initializer? with
  | none =>
    rw [hinitializer] at hfound
    rw [Option.map_eq_none_iff.mp hfound]
    exact follows_value rfl
  | some initializer =>
    rw [hinitializer] at hfound
    obtain ⟨initializer', hinitializer', hrecode⟩ := Option.map_eq_some_iff.mp hfound
    rw [hinitializer']
    refine (Follows.of_natural (natural_bindMethod initializer address)
      (natural_bindMethod initializer' address) (by rw [hrecode])).bind fun bound bound' hbound => ?_
    refine (follows_invoke host hlike h hbound harguments line).bind fun _ _ _ => ?_
    exact follows_value rfl

theorem follows_call {callee callee' : Value Env} (hcallee : callee'.recode r = callee.recode r)
    {arguments arguments' : List (Value Env)}
    (harguments : arguments'.map (Value.recode r) = arguments.map (Value.recode r)) (line : Nat) :
    Follows r (Value.recode r) (call host execute callee arguments line) fun fuel =>
      call host (execute' fuel) callee' arguments' line := by
  have harity : callee'.arity? = callee.arity? := by
    rw [← callee'.arity?_recode, hcallee, callee.arity?_recode]
  have hlength : arguments'.length = arguments.length := by
    rw [← List.length_map, harguments, List.length_map]
  unfold call
  simp only [harity, hlength]
  cases callee.arity? with
  | none => exact follows_fail _ line
  | some arity =>
    dsimp only
    split
    · exact follows_fail _ line
    -- The same arity is not enough: a callee may only follow one of its own kind.
    · cases callee with
      | function id closure =>
        cases callee' with
        | function id' closure' =>
          obtain ⟨-, hclosure⟩ := Value.function.inj hcallee
          exact follows_invoke host hlike h hclosure harguments line
        | _ => cases hcallee
      | native f =>
        cases callee' with
        | native f' =>
          cases f
          cases f'
          exact .of_natural (natural_readClock host) (natural_readClock host) rfl
        | _ => cases hcallee
      | classObject cls =>
        cases callee' with
        | classObject cls' =>
          exact follows_construct host hlike h (Value.classObject.inj hcallee) harguments line
        | _ => cases hcallee
      | _ => cases callee' <;> first | exact follows_fail _ line | cases hcallee

end

/-! ### Evaluation -/

theorem follows_declareFunction (isLocal : Bool) (env : Env) {f f' : FunctionDecl}
    (h : r.decl f = r.decl f') :
    Follows r id (declareFunction isLocal env f) fun _ => declareFunction isLocal env f' :=
  .of_natural (natural_declareFunction isLocal env f) (natural_declareFunction isLocal env f')
    (by rw [h])

/-- Two classes whose methods the recoding does not tell apart become the same class. -/
theorem follows_declareClass (isLocal : Bool) (env : Env) {name : Name}
    {superclass : Option Reference} {methods methods' : List FunctionDecl}
    (h : methods.map r.decl = methods'.map r.decl) :
    Follows r id (declareClass isLocal env ⟨name, superclass, methods⟩) fun _ =>
      declareClass isLocal env ⟨name, superclass, methods'⟩ := by
  have hrecoded : ∀ fs : List FunctionDecl, Recoded r ⟨name, superclass, fs⟩
      ⟨name, superclass.map fun target => ⟨target.id, r.name target.name⟩, fs.map r.decl⟩ := by
    intro fs
    refine ⟨rfl, ?_, rfl⟩
    rw [Option.map_map]
    rfl
  exact .of_natural (natural_declareClass isLocal env (hrecoded methods))
    (natural_declareClass isLocal env (hrecoded methods')) (by rw [h])

/-- What follows is unwrapped. -/
theorem Follows.unwrap {x : Act Ending} {s t : Stmt} (hwraps : Wraps s t)
    (h : Follows r (Ending.recode r) x fun fuel => exec host fuel isLocal env t) :
    Follows r (Ending.recode r) x fun fuel => exec host fuel isLocal env s := by
  induction hwraps with
  | refl s => exact h
  | block hs _ ih =>
    refine Follows.succ ?_
    simp only [exec_block hs]
    exact ih h

/-- Of two statements that look alike the one follows the other.  The induction is on the
fuel of the first one: a block around it takes fuel, and so do its parts. -/
theorem follows_eval_and_exec (hlike : Resemblance r Like) (host : Host) (fuel : Nat) :
    (∀ env e, Follows r (Value.recode r) (eval host fuel env e) fun fuel => eval host fuel env e) ∧
      ∀ isLocal env s s', Like s s' → Follows r (Ending.recode r) (exec host fuel isLocal env s)
        fun fuel => exec host fuel isLocal env s' := by
  induction fuel with
  | zero =>
    refine ⟨fun env e => ?_, fun isLocal env s s' _ => ?_⟩
    · rw [eval]
      exact follows_outOfFuel
    · rw [exec]
      exact follows_outOfFuel
  | succ fuel ih =>
    obtain ⟨heval, hexec⟩ := ih
    refine ⟨fun env e => Follows.succ ?_, fun isLocal env s s' hs => ?_⟩
    · cases e with
      | literal value => exact follows_value rfl
      | grouping inner => exact heval env inner
      | unary op line operand =>
        refine (heval env operand).bind fun value value' hvalue => ?_
        refine follows_ofExcept line ?_
        rw [← UnaryOp.apply_recode, hvalue, UnaryOp.apply_recode]
      | binary left op line right =>
        refine (heval env left).bind fun first first' hfirst => ?_
        refine (heval env right).bind fun second second' hsecond => ?_
        refine follows_ofExcept line ?_
        rw [← BinaryOp.apply_recode, hfirst, hsecond, BinaryOp.apply_recode]
      | logical left op right =>
        refine (heval env left).bind fun first first' hfirst => ?_
        have hdecides : op.decides first' = op.decides first := by
          rw [← LogicalOp.decides_recode (r := r), hfirst, LogicalOp.decides_recode]
        simp only [hdecides]
        split
        · exact follows_value hfirst
        · exact heval env right
      | varRef target =>
        exact .of_natural (natural_read env target.name) (natural_read env target.name) rfl
      | assign target value =>
        refine (heval env value).bind fun value value' hvalue => ?_
        refine Follows.bind (f := id) (.of_natural (natural_write env target.name value)
          (natural_write env target.name value') (by rw [hvalue])) fun _ _ _ => ?_
        exact follows_value hvalue
      | call callee arguments line =>
        refine (heval env callee).bind fun callee callee' hcallee => ?_
        refine (follows_evalEach (heval env) arguments).bind fun values values' hvalues => ?_
        exact follows_call host hlike (hexec true) hcallee hvalues line
      | get object name =>
        refine (heval env object).bind fun object object' hobject => ?_
        exact .of_natural (natural_getProperty object name) (natural_getProperty object' name)
          (by rw [hobject])
      | set object name value =>
        refine (heval env object).bind fun object object' hobject => ?_
        cases object with
        | instanceRef address =>
          cases object' with
          | instanceRef address' =>
            cases hobject
            refine (heval env value).bind fun value value' hvalue => ?_
            refine Follows.bind (f := id) (.of_natural (natural_setField address name.text value)
              (natural_setField address name.text value') (by rw [hvalue])) fun _ _ _ => ?_
            exact follows_value hvalue
          | _ => cases hobject
        | _ => cases object' <;> first | exact follows_fail _ name.line | cases hobject
      | thisRef id line =>
        exact .of_natural (natural_read env ⟨"this", line⟩) (natural_read env ⟨"this", line⟩) rfl
      | superRef id line method =>
        exact .of_natural (natural_getSuper env method) (natural_getSuper env method) rfl
    · rcases hlike.unwrap hs with ⟨t, rfl, hdeclares, ht⟩ | ⟨t', hwraps, htwins⟩
      -- A block around the first statement takes fuel, on which the induction is.
      · rw [exec_block hdeclares]
        exact hexec isLocal env t s' ht
      -- Blocks around the second one are free, as its fuel has no bound.
      · refine Follows.unwrap hwraps (Follows.succ ?_)
        cases htwins with
        | expression value => exact (heval env value).bind fun _ _ _ => follows_normal env
        | print value =>
          refine (heval env value).bind fun value value' hvalue => ?_
          refine Follows.bind (f := id) (.of_natural (natural_print value) (natural_print value')
            (by rw [hvalue])) fun _ _ _ => ?_
          exact follows_normal env
        | varDecl name initializer =>
          have hsettle : ∀ inside (value value' : Value Env), value'.recode r = value.recode r →
              Follows r (Ending.recode r)
                (settle isLocal inside name.text value >>= fun _ => pure (.normal inside)) fun _ =>
                  settle isLocal inside name.text value' >>= fun _ => pure (.normal inside) := by
            intro inside value value' hvalue
            refine Follows.bind (f := id) (.of_natural (natural_settle isLocal inside name.text value)
              (natural_settle isLocal inside name.text value') (by rw [hvalue])) fun _ _ _ => ?_
            exact follows_normal inside
          refine Follows.bind (f := id) (.of_natural (natural_enter isLocal env name.text)
            (natural_enter isLocal env name.text) rfl) fun inside inside' hinside => ?_
          cases hinside
          cases initializer with
          | none => exact hsettle inside .nil .nil rfl
          | some value => exact (heval inside value).bind (hsettle inside)
        | block hbody =>
          exact (follows_execEach (hexec true) hbody env).unlessReturned fun _ =>
            follows_normal env
        | ifThen condition h =>
          refine (heval env condition).bind fun value value' hvalue => ?_
          simp only [isTruthy_of_recode hvalue]
          split
          · exact hexec isLocal env _ _ h
          · exact follows_normal env
        | ifElse condition h h' =>
          refine (heval env condition).bind fun value value' hvalue => ?_
          simp only [isTruthy_of_recode hvalue]
          split
          · exact hexec isLocal env _ _ h
          · exact hexec isLocal env _ _ h'
        | whileLoop condition h =>
          exact follows_repeatWhile env (heval env condition) (hexec isLocal env _ _ h) fuel
        | funDecl h =>
          refine (follows_declareFunction isLocal env h).bind fun inside inside' hinside => ?_
          cases hinside
          exact follows_normal inside
        | returnValue line value =>
          cases value with
          | none => exact follows_returned rfl
          | some value => exact (heval env value).bind fun _ _ hvalue => follows_returned hvalue
        | classDecl h =>
          refine (follows_declareClass isLocal env h).bind fun inside inside' hinside => ?_
          cases hinside
          exact follows_normal inside

theorem follows_runProgram (hlike : Resemblance r Like) (host : Host) (fuel : Nat) {p q : Program}
    (h : List.Forall₂ Like p q) :
    Follows r id (runProgram host fuel p) fun fuel => runProgram host fuel q := by
  induction h with
  | nil => exact .of_natural (natural_pure id ()) (natural_pure id ()) rfl
  | @cons s s' p q hs _ ih =>
    exact ((follows_eval_and_exec hlike host fuel).2 false [] s s' hs).bind fun _ _ _ => ih

end Lexical

end Lox
