/-
Evaluation keeps every invariant.

Code runs in a scope in which it may, and the names that it may declare are open there.  An
expression declares nothing in the scope in which it is evaluated: the bodies of the calls
that it makes run in scopes of their own.

* `Stmt.declaredNames` — the names that a statement may declare in its scope;
* `Invariant.Watches` — the watch stops assignments that the invariant does not allow, and
  lets everything else pass, or has leave to stop the run;
* `Invariant.keeps_call`, `Invariant.keeps_declareClass` — calls and declarations;
* `Invariant.evaluates_and_executes`, `Invariant.keeps_runProgram` — all evaluation.
-/
import Lox.Proofs.Homes.Evaluation
import Lox.Proofs.Invariants.Actions

namespace Lox

/-- The names that a statement may declare in the scope in which it is executed. -/
def Stmt.declaredNames : Stmt → List String
  | .varDecl name _ => [name.text]
  | .funDecl function => [function.name.text]
  | .classDecl declared => [declared.name.text]
  | .ifElse _ thenBranch none => thenBranch.declaredNames
  | .ifElse _ thenBranch (some elseBranch) => thenBranch.declaredNames ++ elseBranch.declaredNames
  | .whileLoop _ body => body.declaredNames
  | .expression _ | .print _ | .block _ | .returnValue _ _ => []

/-- What holds of the scope of a closure whose body is entered. -/
def Moment.Enters (env : ScopeAddress → Prop) : Moment → Prop
  | .enter f => env f.env
  | _ => True

/-- What holds of the value that a statement gives back, if any. -/
def Flow.Returns (known : Datum → Prop) : Flow → Prop
  | .normal => True
  | .returned value => known value

namespace Invariant

variable (u : Invariant) (passing : Prop)

/-- The watch lets nothing pass that the invariant does not allow. -/
structure Watches (watch : Moment → Exec Unit) : Prop where
  lets : ∀ m moment, u.Sound m.store → u.Env m.store m.scope → moment.Enters (u.Env m.store) →
    Lets passing (watch moment) m
  free : ∀ m pending target owner, watch (.assign pending target) m = .ok () m →
    m.assigned? target = some owner → u.Free owner target.name.text

/-- Expressions keep the invariant wherever code may run. -/
def Evaluates (watched : Option String → Expr → Exec Datum) (plain : Expr → Exec Datum) : Prop :=
  ∀ {store scope} pending e, u.Env store scope →
    u.Keeps passing store scope u.Known (watched pending e) (plain e)

/-- Statements do, where the names that they declare are open too. -/
def Executes (watched plain : Stmt → Exec Flow) : Prop :=
  ∀ {store scope} s, u.Env store scope → (∀ name ∈ s.declaredNames, u.Open store scope name) →
    u.Keeps passing store scope (fun store' flow => flow.Returns (u.Known store')) (watched s)
      (plain s)

variable {u passing} {store : Store} {scope : ScopeAddress}
variable {evaluate : Option String → Expr → Exec Datum} {evaluate' : Expr → Exec Datum}
  {execute execute' : Stmt → Exec Flow}

/-! ### Lists and loops -/

theorem keeps_evalEach (heval : u.Evaluates passing evaluate evaluate') (pending : Option String)
    (es : List Expr) (henv : u.Env store scope) :
    u.Keeps passing store scope (fun store' values => ∀ value ∈ values, u.Known store' value)
      (Exec.evalEach (evaluate pending) es) (Exec.evalEach evaluate' es) := by
  induction es generalizing store with
  | nil => exact .pure (List.forall_mem_nil _)
  | cons e es ih =>
    refine (heval pending e henv).bind fun store₁ value hgrown hvalue => ?_
    refine (ih (u.env_mono hgrown henv)).bind fun store₂ values hgrown' hvalues => .pure ?_
    exact List.forall_mem_cons.mpr ⟨hvalue.mono hgrown', hvalues⟩

theorem keeps_execEach (hexec : u.Executes passing execute execute') (ss : List Stmt)
    (henv : u.Env store scope) (hopen : ∀ name, u.Open store scope name) :
    u.Keeps passing store scope (fun store' flow => flow.Returns (u.Known store'))
      (Exec.execEach execute ss) (Exec.execEach execute' ss) := by
  induction ss generalizing store with
  | nil => exact .pure trivial
  | cons s ss ih =>
    refine (hexec s henv fun name _ => hopen name).bind fun store₁ flow hgrown hflow => ?_
    cases flow with
    | normal => exact ih (u.env_mono hgrown henv) fun name => u.open_mono hgrown (hopen name)
    | returned value => exact .pure hflow

theorem keeps_repeatWhile {condition condition' : Exec Datum} {body body' : Exec Flow}
    (hcondition : ∀ store', u.Grown store store' →
      u.Keeps passing store' scope u.Known condition condition')
    (hbody : ∀ store', u.Grown store store' →
      u.Keeps passing store' scope (fun store' flow => flow.Returns (u.Known store')) body body')
    (fuel : Nat) :
    u.Keeps passing store scope (fun store' flow => flow.Returns (u.Known store'))
      (Exec.repeatWhile condition body fuel) (Exec.repeatWhile condition' body' fuel) := by
  induction fuel generalizing store with
  | zero => exact .throw _
  | succ fuel ih =>
    refine (hcondition store (u.refl _)).bind fun store₁ value hgrown _ => ?_
    split
    · refine (hbody store₁ hgrown).bind fun store₂ flow hgrown' hflow => ?_
      cases flow with
      | normal =>
        have hlater : ∀ store', u.Grown store₂ store' → u.Grown store store' :=
          fun store' h => u.trans (u.trans hgrown hgrown') h
        exact ih (fun store' h => hcondition store' (hlater store' h))
          fun store' h => hbody store' (hlater store' h)
      | returned value => exact .pure hflow
    · exact .pure trivial

/-! ### Calls -/

theorem keeps_invoke {host : Host} (hexec : u.Executes passing execute execute')
    {f : Closure ScopeAddress} (hf : u.Env store f.env) {arguments : List Datum}
    (harguments : ∀ value ∈ arguments, u.Known store value) (line : Nat) :
    u.Keeps passing store scope u.Known (Exec.invoke host execute f arguments line)
      (Exec.invoke host execute' f arguments line) := by
  refine (keeps_newScope hf fun name value hvalue => harguments value (Homes.find?_zip hvalue).2).bind
    fun store₁ inner _ hinner => ?_
  -- the scope of the call is new, so the body may declare any name in it
  have hbody := keeps_execEach hexec f.decl.body hinner.1 hinner.2
  refine (hbody.inScope.frame host line).bind fun store₂ flow _ hflow => ?_
  split
  · -- an initializer gives back its instance, whatever its body gives
    refine (keeps_getAt f.env 0 "this").bind fun store₃ found _ hfound => ?_
    cases found with
    | some this => exact .pure (hfound this rfl)
    | none => exact .throw _
  · cases flow with
    | normal => exact .pure trivial
    | returned value => exact .pure hflow

section

variable {watch : Moment → Exec Unit} {host : Host} (hwatch : u.Watches passing watch)
include hwatch

/-- A moment at which nothing is assigned. -/
theorem Watches.observe {α : Type} {R : Store → α → Prop} {moment : Moment} {x y : Exec α}
    (henv : u.Env store scope) (henters : moment.Enters (u.Env store))
    (h : u.Keeps passing store scope R x y) :
    u.Keeps passing store scope R (watch moment >>= fun _ => x) y := by
  refine .observe ?_ fun m _ sound hstore hscope => h m sound hstore hscope
  rintro m sound rfl rfl
  exact hwatch.lets m moment sound henv henters

/-- An assignment that the watch lets pass is allowed. -/
theorem Watches.write {pending : Option String} (target : Reference) {value : Datum}
    (henv : u.Env store scope) (hvalue : u.Known store value) :
    u.Keeps passing store scope u.Known
      (watch (.assign pending target) >>= fun _ =>
        Exec.write target value >>= fun _ => pure value)
      (Exec.write target value >>= fun _ => pure value) := by
  refine .observe ?_ ?_
  · rintro m sound rfl rfl
    exact hwatch.lets m _ sound henv trivial
  · rintro m hpass sound rfl rfl
    -- that the watch has let the assignment pass is what makes it allowed
    have hwrite := kept_write sound
      (fun owner howner => hwatch.free m pending target owner hpass howner) hvalue
    refine ⟨hwrite.bind fun m' _ sound' back grown _ => ?_, fun _ => rfl⟩
    exact .ok sound' back (u.refl _) (hvalue.mono grown)

/-- A call makes new scopes and runs its body there, so it may be made anywhere. -/
theorem keeps_construct (hexec : u.Executes passing execute execute') (henv : u.Env store scope)
    {c : Class ScopeAddress} (hc : u.Cls store c) {arguments : List Datum}
    (harguments : ∀ value ∈ arguments, u.Known store value) (line : Nat) :
    u.Keeps passing store scope u.Known
      (Exec.constructWatched host watch execute c arguments line)
      (Exec.construct host execute' c arguments line) := by
  refine (keeps_newInstance hc).bind fun store₁ address hgrown _ => ?_
  cases hinit : c.initializer? with
  | none => exact .pure trivial
  | some initializer =>
    have hmethod := u.method (u.cls_mono hgrown hc) hinit
    refine (keeps_bindMethod hmethod address).bind fun store₂ bound hgrown' hbound => ?_
    have hgrown'' := u.trans hgrown hgrown'
    refine hwatch.observe (u.env_mono hgrown'' henv) hbound ?_
    refine (keeps_invoke hexec hbound (fun value hvalue => ?_) line).bind
      fun _ _ _ _ => .pure trivial
    exact (harguments value hvalue).mono hgrown''

theorem keeps_call (hexec : u.Executes passing execute execute') (henv : u.Env store scope)
    {callee : Datum} (hcallee : u.Known store callee) {arguments : List Datum}
    (harguments : ∀ value ∈ arguments, u.Known store value) (line : Nat) :
    u.Keeps passing store scope u.Known
      (Exec.callWatched host watch execute callee arguments line)
      (Exec.call host execute' callee arguments line) := by
  unfold Exec.callWatched Exec.call
  cases callee.arity? with
  | none => exact .fail _ _
  | some arity =>
    dsimp only
    split
    · exact .fail _ _
    · cases callee with
      | function id f =>
        exact hwatch.observe henv hcallee (keeps_invoke hexec hcallee harguments line)
      | classObject c => exact keeps_construct hwatch hexec henv hcallee harguments line
      | native f =>
        cases f
        exact keeps_readClock host
      | _ => exact .fail _ _

end

/-! ### Declarations -/

theorem keeps_declareFunction {decl : FunctionDecl} (henv : u.Env store scope)
    (hopen : u.Open store scope decl.name.text) :
    u.Keeps passing store scope (fun _ _ => True) (Exec.declareFunction decl)
      (Exec.declareFunction decl) := by
  refine Keeps.currentScope ?_
  refine (keeps_makeFunction henv).bind fun store₁ value hgrown hvalue => ?_
  exact keeps_define (u.open_mono hgrown hopen) hvalue

theorem keeps_getSuperclass (superclass : Option Reference) :
    u.Keeps passing store scope (fun store' found => ∀ c, found = some c → u.Cls store' c)
      (Exec.getSuperclass superclass) (Exec.getSuperclass superclass) := by
  cases superclass with
  | none =>
    refine .pure fun c hc => ?_
    cases hc
  | some target =>
    refine (keeps_read target).bind fun store₁ value _ hvalue => ?_
    cases value with
    | classObject c =>
      refine .pure fun found heq => ?_
      cases heq
      exact hvalue
    | _ => exact .fail _ _

theorem keeps_declareClass {decl : ClassDecl} (henv : u.Env store scope)
    (hopen : u.Open store scope decl.name.text) :
    u.Keeps passing store scope (fun _ _ => True) (Exec.declareClass decl)
      (Exec.declareClass decl) := by
  rw [Lexical.declareClass_eq]
  refine (keeps_getSuperclass decl.superclass).bind fun store₁ superclass hgrown₁ hsuper => ?_
  have hopen₁ := u.open_mono hgrown₁ hopen
  refine (keeps_define hopen₁ known_nil).bind fun store₂ _ hgrown₂ _ => ?_
  have hgrown := u.trans hgrown₁ hgrown₂
  have hsuper₂ : ∀ c, superclass = some c → u.Cls store₂ c :=
    fun c hc => u.cls_mono hgrown₂ (hsuper c hc)
  refine Keeps.currentScope ?_
  cases superclass with
  | none =>
    refine (Keeps.pure (R := fun _ env => env = scope) rfl).bind fun store₃ env hgrown₃ henv₃ => ?_
    subst henv₃
    have hgrown' := u.trans hgrown hgrown₃
    refine (keeps_newClass (u.env_mono hgrown' henv) fun c hc => ?_).bind
      fun store₄ id hgrown₄ hclass => keeps_define ?_ hclass
    · cases hc
    · exact u.open_mono (u.trans hgrown' hgrown₄) hopen
  | some c =>
    have hc := hsuper₂ c rfl
    refine (keeps_newScope (u.env_mono hgrown henv) fun name value hvalue => ?_).bind
      fun store₃ inner hgrown₃ hinner => ?_
    · -- the scope of the methods has `super` only
      rw [Bindings.eq_of_find?_single hvalue]
      exact hc
    · have hgrown' := u.trans hgrown hgrown₃
      refine (keeps_newClass hinner.1 fun d hd => u.cls_mono hgrown₃ (hsuper₂ d hd)).bind
        fun store₄ id hgrown₄ hclass => keeps_define ?_ hclass
      exact u.open_mono (u.trans hgrown' hgrown₄) hopen

/-! ### Evaluation -/

section

variable {watch : Moment → Exec Unit} (hwatch : u.Watches passing watch)
include hwatch

/-- Expressions of the next depth. -/
theorem evaluates_succ {host : Host} {fuel : Nat}
    (heval : u.Evaluates passing (Exec.evalWatched host watch fuel) (Exec.eval host fuel))
    (hexec : u.Executes passing (Exec.execWatched host watch fuel) (Exec.exec host fuel)) :
    u.Evaluates passing (Exec.evalWatched host watch (fuel + 1)) (Exec.eval host (fuel + 1)) := by
  intro store scope pending e henv
  have reach : ∀ {x y : Exec Datum}, u.Keeps passing store scope u.Known x y →
      u.Keeps passing store scope u.Known (watch (.reach pending e) >>= fun _ => x) y :=
    hwatch.observe henv trivial
  cases e with
  | literal value => exact reach (.pure (known_of_not_code (by cases value <;> rfl)))
  | grouping inner => exact reach (heval pending inner henv)
  | unary op line operand =>
    refine reach ((heval pending operand henv).bind fun store₁ value _ _ => ?_)
    exact keeps_ofExcept line fun _ => UnaryOp.isCode_apply
  | binary left op line right =>
    refine reach ((heval pending left henv).bind fun store₁ first hgrown _ => ?_)
    refine (heval pending right (u.env_mono hgrown henv)).bind fun store₂ second _ _ => ?_
    exact keeps_ofExcept line fun _ => BinaryOp.isCode_apply
  | logical left op right =>
    refine reach ((heval pending left henv).bind fun store₁ first hgrown hfirst => ?_)
    split
    · exact .pure hfirst
    · exact heval pending right (u.env_mono hgrown henv)
  | varRef target => exact reach (keeps_read target)
  | assign target value =>
    refine reach ((heval pending value henv).bind fun store₁ value hgrown hvalue => ?_)
    exact hwatch.write target (u.env_mono hgrown henv) hvalue
  | call callee arguments line =>
    refine reach ((heval pending callee henv).bind fun store₁ callee hgrown hcallee => ?_)
    have henv₁ := u.env_mono hgrown henv
    refine (keeps_evalEach heval pending arguments henv₁).bind
      fun store₂ values hgrown' hvalues => ?_
    exact keeps_call hwatch hexec (u.env_mono hgrown' henv₁) (hcallee.mono hgrown') hvalues line
  | get object name =>
    refine reach ((heval pending object henv).bind fun store₁ object _ _ => ?_)
    exact keeps_getProperty name
  | set object name value =>
    refine reach ((heval pending object henv).bind fun store₁ object hgrown _ => ?_)
    cases object with
    | instanceRef address =>
      refine (heval pending value (u.env_mono hgrown henv)).bind fun store₂ value _ hvalue => ?_
      refine (keeps_setField address name.text hvalue).bind fun store₃ _ hgrown' _ => .pure ?_
      exact hvalue.mono hgrown'
    | _ => exact .fail _ _
  | thisRef id line => exact reach (keeps_read _)
  | superRef id line method => exact reach (keeps_getSuper id method)

/-- Statements of the next depth. -/
theorem executes_succ {host : Host} {fuel : Nat}
    (heval : u.Evaluates passing (Exec.evalWatched host watch fuel) (Exec.eval host fuel))
    (hexec : u.Executes passing (Exec.execWatched host watch fuel) (Exec.exec host fuel)) :
    u.Executes passing (Exec.execWatched host watch (fuel + 1)) (Exec.exec host (fuel + 1)) := by
  intro store scope s henv hopen
  -- a branch is executed in the same scope, after the condition has changed the store
  have hbranch : ∀ {store'} (s' : Stmt), u.Grown store store' →
      (∀ name ∈ s'.declaredNames, u.Open store scope name) →
        u.Keeps passing store' scope (fun store' flow => flow.Returns (u.Known store'))
          (Exec.execWatched host watch fuel s') (Exec.exec host fuel s') :=
    fun s' hgrown h =>
      hexec s' (u.env_mono hgrown henv) fun name hname => u.open_mono hgrown (h name hname)
  cases s with
  | expression value => exact (heval none value henv).bind fun _ _ _ _ => .pure trivial
  | print value =>
    refine (heval none value henv).bind fun store₁ value _ _ => ?_
    exact (keeps_print value).bind fun _ _ _ _ => .pure trivial
  | varDecl name initializer =>
    have hname := hopen name.text List.mem_cons_self
    cases initializer with
    | none => exact (keeps_define hname known_nil).bind fun _ _ _ _ => .pure trivial
    | some value =>
      refine Keeps.lookScope ((heval _ value henv).bind fun store₁ value hgrown hvalue => ?_)
      exact (keeps_define (u.open_mono hgrown hname) hvalue).bind fun _ _ _ _ => .pure trivial
  | block body =>
    refine Keeps.currentScope ?_
    refine (keeps_newScope henv fun name value hvalue => ?_).bind fun store₁ inner _ hinner => ?_
    · cases hvalue
    · exact (keeps_execEach hexec body hinner.1 hinner.2).inScope
  | ifElse condition thenBranch elseBranch =>
    refine (heval none condition henv).bind fun store₁ value hgrown _ => ?_
    cases elseBranch with
    | none =>
      split
      · exact hbranch thenBranch hgrown hopen
      · exact .pure trivial
    | some elseBranch =>
      obtain ⟨hthen, helse⟩ := List.forall_mem_append.mp hopen
      split
      · exact hbranch thenBranch hgrown hthen
      · exact hbranch elseBranch hgrown helse
  | whileLoop condition body =>
    exact keeps_repeatWhile (fun store' hgrown => heval none condition (u.env_mono hgrown henv))
      (fun store' hgrown => hbranch body hgrown hopen) fuel
  | funDecl decl =>
    exact (keeps_declareFunction henv (hopen _ List.mem_cons_self)).bind
      fun _ _ _ _ => .pure trivial
  | returnValue line value =>
    cases value with
    | none => exact .pure trivial
    | some value => exact (heval none value henv).bind fun _ _ _ hvalue => .pure hvalue
  | classDecl decl =>
    have hdeclare : u.Keeps passing store scope (fun store' flow => flow.Returns (u.Known store'))
        (Exec.declareClass decl >>= fun _ => pure Flow.normal)
        (Exec.declareClass decl >>= fun _ => pure Flow.normal) :=
      (keeps_declareClass henv (hopen _ List.mem_cons_self)).bind fun _ _ _ _ => .pure trivial
    obtain ⟨name, superclass, methods⟩ := decl
    cases superclass with
    | none => exact hdeclare
    | some target => exact hwatch.observe henv trivial hdeclare

theorem evaluates_and_executes (host : Host) (fuel : Nat) :
    u.Evaluates passing (Exec.evalWatched host watch fuel) (Exec.eval host fuel) ∧
      u.Executes passing (Exec.execWatched host watch fuel) (Exec.exec host fuel) := by
  induction fuel with
  | zero => exact ⟨fun _ _ _ => .throw _, fun _ _ _ => .throw _⟩
  | succ fuel ih =>
    exact ⟨evaluates_succ hwatch ih.1 ih.2, executes_succ hwatch ih.1 ih.2⟩

theorem keeps_runProgram (host : Host) (fuel : Nat) (p : Program) (henv : u.Env store scope)
    (hopen : ∀ name, u.Open store scope name) :
    u.Keeps passing store scope (fun _ _ => True) (Exec.runWatched host watch fuel p)
      (Exec.runProgram host fuel p) := by
  induction p generalizing store with
  | nil => exact .pure trivial
  | cons s ss ih =>
    obtain ⟨-, hexec⟩ := evaluates_and_executes hwatch host fuel
    refine (hexec s henv fun name _ => hopen name).bind fun store₁ _ hgrown _ => ?_
    exact ih (u.env_mono hgrown henv) fun name => u.open_mono hgrown (hopen name)

end

/-- A watch that does nothing, if all variables may be assigned. -/
theorem watches_unwatched (h : ∀ scope name, u.Free scope name) :
    u.Watches passing Exec.unwatched :=
  ⟨fun _ _ _ _ _ => .inl rfl, fun _ _ _ owner _ _ => h owner _⟩

end Invariant

end Lox
