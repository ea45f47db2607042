/-
A `for` loop does what its clauses say.

The reader builds a `for` loop from blocks and a `while` loop.  Run directly, a loop runs
its initializer once in a scope around it; then round after round it evaluates its
condition there, ends if that is falsy, runs its body, ends at once if that returns, and
evaluates its increment in the scope around the body.

* `Lexical.execFor` — a `for` loop that is run directly;
* `Lexical.settles_forLoop` — the built loop comes to an end if and only if that one does,
  and to the same end.
-/
import Lox.Proofs.Blocks.Evaluation

namespace Lox

/-! ### No recoding -/

/-- The recoding that changes nothing. -/
def Recoding.identity : Recoding where
  line := id
  decl := id
  decl_name := fun _ => rfl
  decl_params := fun _ => rfl

theorem Bindings.mapValues_id {α : Type} {f : α → α} (h : ∀ a, f a = a) (bindings : Bindings α) :
    bindings.mapValues f = bindings := by
  have hpair : (fun pair : String × α => (pair.1, f pair.2)) = id :=
    funext fun pair => by rw [h]; rfl
  rw [mapValues, hpair, List.map_id]

variable {ρ : Type}

theorem Class.recode_identity : ∀ c : Class ρ, c.recode .identity = c
  | ⟨_, _, methods, none⟩ => by
    rw [recode, Bindings.mapValues_id (f := Closure.recode .identity) fun _ => rfl]
  | ⟨_, _, methods, some superclass⟩ => by
    rw [recode, Bindings.mapValues_id (f := Closure.recode .identity) fun _ => rfl,
      superclass.recode_identity]

theorem Value.recode_identity (value : Value ρ) : value.recode .identity = value := by
  cases value with
  | classObject c => exact congrArg Value.classObject c.recode_identity
  | _ => rfl

theorem Twins.refl (s : Stmt) : Twins .identity Eq s s := by
  have hbody : ∀ ss : List Stmt, List.Forall₂ Eq ss ss := List.forall₂_refl
  cases s with
  | expression value => exact .expression value
  | print value => exact .print value
  | varDecl name initializer => exact .varDecl name initializer
  | block body => exact .block (hbody body)
  | ifElse condition thenBranch elseBranch =>
    cases elseBranch with
    | none => exact .ifThen condition rfl
    | some elseBranch => exact .ifElse condition rfl rfl
  | whileLoop condition body => exact .whileLoop condition rfl
  | funDecl f => exact .funDecl rfl
  | returnValue line value => exact .returnValue line value
  | classDecl c =>
    obtain ⟨name, superclass, methods⟩ := c
    exact .classDecl rfl

/-- Every statement looks like itself. -/
theorem resemblance_eq : Resemblance .identity Eq where
  unwrap {s s'} h := .inr ⟨s, h ▸ .refl s, .refl s⟩
  body {f f'} h := by
    cases (show f = f' from h)
    exact List.forall₂_refl _

namespace Lexical

theorem Ending.recode_identity (ending : Ending) : ending.recode .identity = ending := by
  cases ending with
  | normal env => rfl
  | returned value => exact congrArg Ending.returned value.recode_identity

theorem World.recode_identity (world : World) : world.recode .identity .empty = world := by
  -- The maps over the store are maps of functions, so these have to be the identity.
  have hvalue : (Value.recode .identity : Value Env → Value Env) = id :=
    funext Value.recode_identity
  have hobject : Object.recode .identity = id := by
    funext object
    rw [Object.recode, Class.recode_identity, Bindings.mapValues_id Value.recode_identity]
    rfl
  have hsink : world.sink.after .empty = world.sink := by
    rw [Sink.after, ByteArray.empty_append]
  rw [recode, hobject, hsink, hvalue, Bindings.mapValues_id (f := id) fun _ => rfl, Option.map_id,
    Array.map_id, Array.map_id]

variable {α : Type} {f : α → α}

theorem recodeResult_identity (hf : ∀ a, f a = a) (result : EStateM.Result Abort World α) :
    recodeResult .identity .empty f result = result := by
  cases result with
  | ok a world => rw [recodeResult, hf, World.recode_identity]
  | error abort world =>
    have habort : abort.recode .identity = abort := by cases abort <;> rfl
    rw [recodeResult, habort, World.recode_identity]

/-- What an action does without running out of fuel, an action that follows it comes to. -/
theorem Follows.settles (hf : ∀ a, f a = a) {x : Act α} {y : Nat → Act α}
    (h : Follows .identity f x y) {world : World} (hends : ¬ OutOfFuel (x world)) :
    Settles y world (x world) := by
  obtain ⟨result, hsettles, hresult⟩ := h world world rfl hends
  rw [recodeResult_identity hf, recodeResult_identity hf] at hresult
  exact hresult ▸ hsettles

/-- Actions that follow each other come to the same ends. -/
theorem settles_iff_of_follows (hf : ∀ a, f a = a) {x y : Nat → Act α}
    (hx : ∀ fuel, Follows .identity f (x fuel) y) (hy : ∀ fuel, Follows .identity f (y fuel) x)
    (world : World) {result : EStateM.Result Abort World α} (hends : ¬ OutOfFuel result) :
    Settles x world result ↔ Settles y world result := by
  have hforth : ∀ {x y : Nat → Act α}, (∀ fuel, Follows .identity f (x fuel) y) →
      Settles x world result → Settles y world result := by
    rintro x y hfollows ⟨least, hleast⟩
    -- One fuel with which the first action ends is enough to see where the second one ends.
    obtain rfl := hleast least (Nat.le_refl least)
    exact (hfollows least).settles hf hends
  exact ⟨hforth hx, hforth hy⟩

/-! ### Loops -/

/-- A loop as long as the condition holds, up to the first `return` in its body; the
increment comes after the body. -/
def rounds (env : Env) (condition : Act (Value Env)) (body : Act Ending) (increment : Act Unit) :
    Nat → Act Ending
  | 0 => throw .outOfFuel
  | fuel + 1 => do
    let value ← condition
    if value.isTruthy then
      match ← body with
      | .normal _ =>
        increment
        rounds env condition body increment fuel
      | .returned value => return .returned value
    else
      return .normal env

/-- The condition of a loop, which holds if it is missing. -/
def evalCondition (host : Host) (fuel : Nat) (env : Env) : Option Expr → Act (Value Env)
  | some e => eval host fuel env e
  | none => return .boolean true

/-- The increment of a loop, which may be missing. -/
def evalIncrement (host : Host) (fuel : Nat) (env : Env) : Option Expr → Act Unit
  | some e => do
    let _ ← eval host fuel env e
  | none => return

/-- A statement and what comes after it, in a scope of their own. -/
def inScope (env : Env) (first : Act Ending) (rest : Env → Act Ending) : Act Ending := do
  match ← first with
  | .normal inside =>
    match ← rest inside with
    | .normal _ => return .normal env
    | .returned value => return .returned value
  | .returned value => return .returned value

/-- A `for` loop that is run directly.  Its initializer is run once, in a scope around the
loop, in which everything else is run too. -/
def execFor (host : Host) (fuel : Nat) (env : Env) (initializer : Option Stmt)
    (cond incr : Option Expr) (body : Stmt) : Act Ending :=
  let loop (env : Env) : Act Ending :=
    rounds env (evalCondition host fuel env cond) (exec host fuel true env body)
      (evalIncrement host fuel env incr) fuel
  match initializer with
  | none => loop env
  | some first => inScope env (exec host fuel true env first) loop

/-- One round of a loop: its body, and the increment after it. -/
def round (env : Env) (body : Act Ending) (increment : Act Unit) : Act Ending := do
  match ← body with
  | .normal _ =>
    increment
    return .normal env
  | .returned value => return .returned value

variable {env : Env}

theorem rounds_eq (condition : Act (Value Env)) (body : Act Ending) (increment : Act Unit)
    (fuel : Nat) :
    rounds env condition body increment fuel =
      repeatWhile env condition (round env body increment) fuel := by
  induction fuel with
  | zero => rfl
  | succ fuel ih =>
    rw [rounds, repeatWhile]
    refine congrArg (condition >>= ·) (funext fun value => ?_)
    split
    · rw [round, bind_assoc]
      refine congrArg (body >>= ·) (funext fun ending => ?_)
      cases ending with
      | normal inside =>
        show (increment >>= fun _ => rounds env condition body increment fuel) =
          (increment >>= fun _ => pure (Ending.normal env)) >>= _
        rw [bind_assoc, ih]
        rfl
      | returned value => rfl
    · rfl

/-- Without an increment a round is the body. -/
theorem round_pure {body : Act Ending} (h : Keeps env body) : round env body (pure ()) = body := by
  refine Eq.trans ?_ h
  rw [round, ← bind_pure_comp]
  refine congrArg (body >>= ·) (funext fun ending => ?_)
  cases ending <;> rfl

/-- A block of two statements. -/
theorem exec_pair (host : Host) (fuel : Nat) (isLocal : Bool) (env : Env) (s t : Stmt) :
    exec host (fuel + 1) isLocal env (.block [s, t]) =
      inScope env (exec host fuel true env s) fun inside => exec host fuel true inside t := by
  funext world
  show EStateM.bind (EStateM.bind (exec host fuel true env s) _) _ world =
    EStateM.bind (exec host fuel true env s) _ world
  unfold EStateM.bind
  cases exec host fuel true env s world with
  | ok ending after =>
    cases ending with
    | normal inside =>
      show EStateM.bind (EStateM.bind (exec host fuel true inside t) _) _ after =
        EStateM.bind (exec host fuel true inside t) _ after
      unfold EStateM.bind
      cases exec host fuel true inside t after with
      | ok ending last => cases ending <;> rfl
      | error abort last => rfl
    | returned value => rfl
  | error abort after => rfl

/-- The block that the reader makes of body and increment is a round: the body leaves the
variables in sight as they are. -/
theorem exec_round (host : Host) (fuel : Nat) (isLocal : Bool) {body : Stmt}
    (h : body.declares = false) (step : Expr) :
    exec host (fuel + 2) isLocal env (.block [body, .expression step]) =
      round env (exec host (fuel + 1) true env body) (evalIncrement host fuel env (some step)) := by
  have hkeeps : Ending.leaving env <$> exec host (fuel + 1) true env body = _ :=
    (keeps_exec host (fuel + 1) true env body h).1
  have hexpression : ∀ inside, exec host (fuel + 1) true inside (.expression step) =
      eval host fuel inside step >>= fun _ => pure (.normal inside) := fun _ => rfl
  rw [exec_pair, inScope, round, ← hkeeps, bind_map_left, bind_map_left]
  refine congrArg (exec host (fuel + 1) true env body >>= ·) (funext fun ending => ?_)
  cases ending with
  | normal inside =>
    simp only [Ending.leaving, hexpression, evalIncrement, bind_assoc, pure_bind]
  | returned value => rfl

/-! ### The built loop -/

variable {r : Recoding} {host : Host}

theorem follows_round {x : Act Ending} {y : Nat → Act Ending} {i : Act Unit} {j : Nat → Act Unit}
    (hbody : Follows r (Ending.recode r) x y) (hincrement : Follows r id i j) :
    Follows r (Ending.recode r) (round env x i) fun fuel => round env (y fuel) (j fuel) := by
  exact hbody.unlessReturned fun _ => hincrement.bind fun _ _ _ => follows_normal env

theorem follows_inScope {x : Act Ending} {y : Nat → Act Ending} {k : Env → Act Ending}
    {k' : Nat → Env → Act Ending} (hfirst : Follows r (Ending.recode r) x y)
    (hrest : ∀ inside, Follows r (Ending.recode r) (k inside) fun fuel => k' fuel inside) :
    Follows r (Ending.recode r) (inScope env x k) fun fuel => inScope env (y fuel) (k' fuel) := by
  refine hfirst.unlessReturned fun inside => ?_
  exact (hrest inside).unlessReturned fun _ => follows_normal env

theorem follows_eval_self (fuel : Nat) (env : Env) (e : Expr) :
    Follows .identity (Value.recode .identity) (eval host fuel env e) fun fuel =>
      eval host fuel env e :=
  (follows_eval_and_exec resemblance_eq host fuel).1 env e

theorem follows_exec_self (fuel : Nat) (isLocal : Bool) (env : Env) (s : Stmt) :
    Follows .identity (Ending.recode .identity) (exec host fuel isLocal env s) fun fuel =>
      exec host fuel isLocal env s :=
  (follows_eval_and_exec resemblance_eq host fuel).2 isLocal env s s rfl

theorem follows_increment (fuel : Nat) (env : Env) (incr : Option Expr) :
    Follows .identity id (evalIncrement host fuel env incr) fun fuel =>
      evalIncrement host fuel env incr := by
  have hdone : Follows .identity id (pure () : Act Unit) fun _ => pure () :=
    .of_natural (natural_pure id ()) (natural_pure id ()) rfl
  cases incr with
  | none => exact hdone
  | some step => exact (follows_eval_self fuel env step).bind fun _ _ _ => hdone

/-- The condition of the built loop. -/
theorem follows_condition (fuel : Nat) (env : Env) (cond : Option Expr) :
    let built := fun fuel => eval host fuel env (cond.getD (.literal (.boolean true)))
    let direct := fun fuel => evalCondition host fuel env cond
    Follows .identity (Value.recode .identity) (built fuel) direct ∧
      Follows .identity (Value.recode .identity) (direct fuel) built := by
  cases cond with
  | none =>
    have hvalue : Follows .identity (Value.recode .identity)
        (pure (.boolean true) : Act (Value Env)) fun _ => pure (.boolean true) := follows_value rfl
    refine ⟨?_, Follows.succ hvalue⟩
    cases fuel with
    | zero => exact follows_outOfFuel
    | succ fuel => exact hvalue
  | some e => exact ⟨follows_eval_self fuel env e, follows_eval_self fuel env e⟩

/-- The body that the reader builds for a loop. -/
def withIncrement (body : Stmt) : Option Expr → Stmt
  | some step => .block [body, .expression step]
  | none => body

variable {body : Stmt} (h : body.declares = false)
include h

theorem follows_body (fuel : Nat) (isLocal : Bool) (env : Env) (incr : Option Expr) :
    let built := fun fuel => exec host fuel isLocal env (withIncrement body incr)
    let direct := fun fuel => round env (exec host fuel true env body)
      (evalIncrement host fuel env incr)
    Follows .identity (Ending.recode .identity) (built fuel) direct ∧
      Follows .identity (Ending.recode .identity) (direct fuel) built := by
  intro built direct
  cases incr with
  | none =>
    have hsame : direct = built := by
      funext fuel
      obtain ⟨hkeeps, -⟩ := keeps_exec host fuel true env body h
      exact (round_pure hkeeps).trans (keeps_exec host fuel isLocal env body h).2.symm
    rw [hsame]
    exact ⟨follows_exec_self fuel isLocal env body, follows_exec_self fuel isLocal env body⟩
  | some step =>
    have hbuilt : ∀ fuel, built (fuel + 2) = round env (exec host (fuel + 1) true env body)
        (evalIncrement host fuel env (some step)) := fun fuel => exec_round host fuel isLocal h step
    constructor
    · match fuel with
      | 0 | 1 => exact follows_outOfFuel
      | fuel + 2 =>
        rw [hbuilt]
        exact follows_round (follows_exec_self _ true env body) (follows_increment fuel env _)
    · refine Follows.succ (Follows.succ ?_)
      simp only [hbuilt]
      exact follows_round (follows_exec_self fuel true env body).shift
        (follows_increment fuel env _)

theorem follows_while (fuel : Nat) (isLocal : Bool) (env : Env) (cond incr : Option Expr) :
    let built := fun fuel => exec host fuel isLocal env
      (.whileLoop (cond.getD (.literal (.boolean true))) (withIncrement body incr))
    let direct := fun fuel => rounds env (evalCondition host fuel env cond)
      (exec host fuel true env body) (evalIncrement host fuel env incr) fuel
    Follows .identity (Ending.recode .identity) (built fuel) direct ∧
      Follows .identity (Ending.recode .identity) (direct fuel) built := by
  intro built direct
  have hdirect : direct = fun fuel => repeatWhile env (evalCondition host fuel env cond)
      (round env (exec host fuel true env body) (evalIncrement host fuel env incr)) fuel :=
    funext fun fuel => rounds_eq _ _ _ fuel
  rw [hdirect]
  constructor
  · cases fuel with
    | zero => exact follows_outOfFuel
    | succ fuel =>
      exact follows_repeatWhile env (follows_condition fuel env cond).1
        (follows_body h fuel isLocal env incr).1 fuel
  · exact Follows.succ (follows_repeatWhile env (follows_condition fuel env cond).2
      (follows_body h fuel isLocal env incr).2 fuel)

theorem follows_forLoop (fuel : Nat) (isLocal : Bool) (env : Env) (initializer : Option Stmt)
    (cond incr : Option Expr) :
    let built := fun fuel => exec host fuel isLocal env (Stmt.forLoop initializer cond incr body)
    let direct := fun fuel => execFor host fuel env initializer cond incr body
    Follows .identity (Ending.recode .identity) (built fuel) direct ∧
      Follows .identity (Ending.recode .identity) (direct fuel) built := by
  have hform : Stmt.forLoop initializer cond incr body =
      let loop := .whileLoop (cond.getD (.literal (.boolean true))) (withIncrement body incr)
      initializer.elim loop fun first => .block [first, loop] := by
    cases initializer <;> cases incr <;> rfl
  rw [hform]
  cases initializer with
  | none => exact follows_while h fuel isLocal env cond incr
  | some first =>
    dsimp only [Option.elim_some]
    have hbuilt (fuel : Nat) := exec_pair host fuel isLocal env first
      (.whileLoop (cond.getD (.literal (.boolean true))) (withIncrement body incr))
    constructor
    · cases fuel with
      | zero => exact follows_outOfFuel
      | succ fuel =>
        rw [hbuilt]
        exact follows_inScope (follows_exec_self fuel true env first) fun inside =>
          (follows_while h fuel true inside cond incr).1
    · refine Follows.succ ?_
      simp only [hbuilt]
      exact follows_inScope (follows_exec_self fuel true env first) fun inside =>
        (follows_while h fuel true inside cond incr).2

/-- With enough fuel a `for` loop comes to an end if and only if it does so when it is run
directly, and to the same end: with the same ending, error or output, and the same values
everywhere. -/
theorem settles_forLoop (host : Host) (isLocal : Bool) (env : Env) (initializer : Option Stmt)
    (cond incr : Option Expr) (world : World) {result : EStateM.Result Abort World Ending}
    (hends : ¬ OutOfFuel result) :
    Settles (fun fuel => exec host fuel isLocal env (Stmt.forLoop initializer cond incr body))
        world result ↔
      Settles (fun fuel => execFor host fuel env initializer cond incr body) world result :=
  settles_iff_of_follows Ending.recode_identity
    (fun fuel => (follows_forLoop h fuel isLocal env initializer cond incr).1)
    (fun fuel => (follows_forLoop h fuel isLocal env initializer cond incr).2) world hends

end Lexical

end Lox
