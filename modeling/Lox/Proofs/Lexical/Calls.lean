/-
Sequences, loops, calls and declarations, given what evaluation does inside them.

`Evaluates` and `Executes` say that two ways of evaluating code do the same wherever
the code was resolved.  From them

* `sim_evalEach`, `sim_execEach`, `sim_repeatWhile` — lists and loops;
* `sim_invoke`, `sim_construct`, `sim_call` — calls;
* `sim_declareFunction`, `sim_declareClass` — declarations, which need neither.
-/
import Lox.Proofs.Lexical.Operations

namespace Lox.Lexical

/-- The ends of a statement: with an environment as it should be, or with related values. -/
inductive FlowRelated (l : Layout) (P : Env → Prop) : Flow → Ending → Prop
  | normal {env} (h : P env) : FlowRelated l P .normal (.normal env)
  | returned {a b} (h : Related l a b) : FlowRelated l P (.returned a) (.returned b)

/-- Expressions give related values wherever they were resolved. -/
def Evaluates (evaluate : Option String → Expr → Exec Datum)
    (evaluate' : Env → Expr → Act (Value Env)) : Prop :=
  ∀ {l σ scope env} (e : Expr), e.Placed l.table l.bound σ → InSight l σ scope env →
    Sim none l scope Related (evaluate σ.pending e) (evaluate' env e)

/-- Statements end alike wherever they were resolved. -/
def Executes (execute : Stmt → Exec Flow) (execute' : Bool → Env → Stmt → Act Ending) : Prop :=
  ∀ {l σ isLocal scope env} (s : Stmt), s.Placed l.table l.bound σ → σ.pending = none →
    Standing l σ isLocal scope env →
    Sim (some scope) l scope
      (fun l' => FlowRelated l' (Standing l' (σ.after s) isLocal scope)) (execute s)
      (execute' isLocal env s)

theorem after_pending (σ : Setting) (s : Stmt) : (σ.after s).pending = σ.pending := by
  cases s <;> first | rfl | exact Setting.declare_pending σ _

theorem after_of_not_isDeclaration (σ : Setting) {s : Stmt} (h : s.isDeclaration = false) :
    σ.after s = σ := by
  cases s <;> first | rfl | cases h

section

variable {l : Layout} {σ : Setting} {scope : ScopeAddress} {env : Env} {isLocal : Bool}
  {evaluate : Option String → Expr → Exec Datum} {evaluate' : Env → Expr → Act (Value Env)}
  {execute : Stmt → Exec Flow} {execute' : Bool → Env → Stmt → Act Ending}

/-! ### Lists and loops -/

theorem sim_evalEach (heval : Evaluates evaluate evaluate') (es : List Expr)
    (hplaced : Expr.PlacedEach l.table l.bound σ es) (h : InSight l σ scope env) :
    Sim none l scope (fun l' => List.Forall₂ (Related l'))
      (Exec.evalEach (evaluate σ.pending) es) (evalEach (evaluate' env) es) := by
  induction es generalizing l with
  | nil => exact .pure .nil
  | cons e es ih =>
    refine (heval e hplaced.1 h).bind fun l₁ a b hgrows hab => ?_
    refine (ih (Expr.placedEach_mono hgrows.agrees es hplaced.2) (h.mono hgrows)).bind
      fun l₂ as bs hgrows' habs => ?_
    exact .pure (.cons (hab.mono hgrows') habs)

theorem sim_execEach (hexec : Executes execute execute') (ss : List Stmt)
    (hplaced : Stmt.PlacedEach l.table l.bound σ ss) (hpending : σ.pending = none)
    (h : Standing l σ isLocal scope env) :
    Sim (some scope) l scope (fun l' => FlowRelated l' fun _ => True)
      (Exec.execEach execute ss) (execEach (execute' isLocal) env ss) := by
  induction ss generalizing l σ env with
  | nil => exact .pure (.normal trivial)
  | cons s ss ih =>
    refine (hexec s hplaced.1 hpending h).bind fun l' flow ending hgrows hflow => ?_
    cases hflow with
    | normal hstanding =>
      refine ih (Stmt.placedEach_mono hgrows.agrees ss hplaced.2) ?_ hstanding
      rw [after_pending, hpending]
    | returned hvalue => exact .pure (.returned hvalue)

/-- The condition and the body may rely on what stands before each round. -/
theorem sim_repeatWhile {condition : Exec Datum} {condition' : Act (Value Env)}
    {body : Exec Flow} {body' : Act Ending} (hpending : σ.pending = none)
    (hcondition : ∀ l', Grows (some scope) l l' → Standing l' σ isLocal scope env →
      Sim none l' scope Related condition condition')
    (hbody : ∀ l', Grows (some scope) l l' → Standing l' σ isLocal scope env →
      Sim (some scope) l' scope (fun l'' => FlowRelated l'' (Standing l'' σ isLocal scope))
        body body')
    (h : Standing l σ isLocal scope env) (fuel : Nat) :
    Sim (some scope) l scope (fun l' => FlowRelated l' (Standing l' σ isLocal scope))
      (Exec.repeatWhile condition body fuel) (repeatWhile env condition' body' fuel) := by
  induction fuel generalizing l with
  | zero => exact .throw nofun
  | succ fuel ih =>
    refine (hcondition l (.refl _ l) h).andThen fun l₁ a b hgrows hab => ?_
    rw [hab.isTruthy]
    have hstanding := h.mono hgrows
    have hgrows := hgrows.weaken (some scope)
    split
    · refine (hbody l₁ hgrows hstanding).bind fun l₂ flow ending hgrows' hflow => ?_
      have hall := hgrows.step hgrows'
      cases hflow with
      | normal hagain =>
        exact ih (fun l' hl' => hcondition l' (hall.step hl')) (fun l' hl' => hbody l' (hall.step hl'))
          (hstanding.again hpending hgrows' hagain)
      | returned hvalue => exact .pure (.returned hvalue)
    · exact .pure (.normal hstanding)

/-! ### Calls -/

theorem pairs_related {names : List Name} {arguments : List Datum} {arguments' : List (Value Env)}
    (hnames : ∀ name ∈ names, ¬ isReserved name.text)
    (harguments : List.Forall₂ (Related l) arguments arguments') :
    l.Bindings ((names.map Name.text).zip arguments) ((names.map Name.text).zip arguments') := by
  induction harguments generalizing names with
  | nil =>
    rw [List.zip_nil_right, List.zip_nil_right]
    exact .nil
  | cons hvalue _ ih =>
    cases names with
    | nil => exact .nil
    | cons name names =>
      exact .cons ⟨rfl, hvalue, fits_of_not_isReserved (hnames name List.mem_cons_self) _⟩
        (ih fun other hother => hnames other (List.mem_cons_of_mem _ hother))

theorem sim_invoke {host : Host} (hexec : Executes execute execute') {f : Closure ScopeAddress}
    {g : Closure Env} {arguments : List Datum} {arguments' : List (Value Env)} {line : Nat}
    (h : FunctionRelated l f g) (harguments : List.Forall₂ (Related l) arguments arguments')
    (hlength : arguments.length = f.arity) :
    Sim none l scope Related (Exec.invoke host execute f arguments line)
      (invoke host (execute' true) g arguments' line) := by
  obtain ⟨⟨name, params, body⟩, closed, isInitializer⟩ := f
  obtain ⟨decl, env, isInitializer'⟩ := g
  obtain ⟨hdecl, hinit, setting, hplaced, hpending, hchain, hbound⟩ := h
  dsimp only at hdecl hinit hchain hbound hplaced
  subst hdecl hinit
  obtain ⟨hnodup, hparams, hbody⟩ := hplaced
  have hfst : (((params.map Name.text).zip arguments).map Prod.fst) = params.map Name.text :=
    List.map_fst_zip (by rw [List.length_map, hlength]; exact Nat.le_refl _)
  have hscope : Sim none l scope (fun l' inner env' => l.store.scopes.size ≤ inner ∧
      Standing l' (setting.inside params) true inner env')
      (Exec.newScope closed (Bindings.ofList ((params.map Name.text).zip arguments)))
      (enterEach env ((params.map Name.text).zip arguments')) := by
    have h : Sim none l scope _ _ _ := sim_enterScope setting hchain hpending
      (pairs_related hparams harguments) (by rw [hfst]; exact hnodup)
    rwa [hfst] at h
  refine hscope.bind_inner (fun _ _ _ hinner => hinner.1) fun l₁ inner env' hgrows hinner => ?_
  have hbody' := Stmt.placedEach_mono hgrows.agrees body hbody
  have hinside : (setting.inside params).pending = none := hpending
  have hrun := sim_execEach hexec body hbody' hinside hinner.2
  refine hrun.inScope.frame.bind fun l₂ flow ending hgrows' hflow => ?_
  cases isInitializer with
  | true =>
    obtain ⟨scopes, hscopes⟩ := hbound rfl
    have hthis : setting.distance? "this" = some 0 := by
      rw [Setting.distance?, hscopes, List.findIdx?_cons, if_pos (by simp)]
    refine (sim_look ((hchain.mono hgrows).mono hgrows') (Option.some_ne_none _).symm hthis).weaken.bind
      fun l₃ x y _ hxy => ?_
    obtain ⟨a, b, rfl, rfl, hab, -⟩ := hxy
    exact .pure hab
  | false =>
    cases hflow with
    | normal _ => exact .pure .nil
    | returned hvalue => exact .pure hvalue

theorem FunctionRelated.keeps {f : Closure ScopeAddress} {g : Closure Env} {m : Machine}
    {w : World} (h : FunctionRelated l f g) (tied : Tied l m w) : m.keeps (.enter f) = true := by
  obtain ⟨-, -, setting, -, -, hchain, hbound⟩ := h
  rw [Machine.keeps]
  cases hinit : f.isInitializer with
  | false => rfl
  | true =>
    obtain ⟨scopes, hscopes⟩ := hbound hinit
    rw [hscopes] at hchain
    have hlocal := hchain.ne_globals tied.heap
    generalize g.env = env at hchain
    have hpending : (none : Option String) ≠ some "this" := (Option.some_ne_none _).symm
    cases hchain with
    | scope hparent hentries hnames hchain =>
      obtain ⟨value, hvalue⟩ := Option.isSome_iff_exists.mp (hnames "this" List.mem_cons_self hpending)
      obtain ⟨i, rfl⟩ := tied.heap.this _ value hlocal hvalue
      rw [tied.store, hvalue, bne_iff_ne.mpr hlocal]
      rfl

theorem sim_construct {host : Host} (hexec : Executes execute execute') {c : Class ScopeAddress}
    {d : Class Env} {arguments : List Datum} {arguments' : List (Value Env)} {line : Nat}
    (h : ClassRelated l c d) (harguments : List.Forall₂ (Related l) arguments arguments')
    (hlength : ∀ f, c.initializer? = some f → arguments.length = f.arity) :
    Sim none l scope Related
      (Exec.constructWatched host Exec.guard execute c arguments line)
      (construct host (execute' true) d arguments' line) := by
  refine (sim_newInstance h).bind fun l₁ this this' hgrows hthis => ?_
  obtain ⟨rfl, hlt⟩ := hthis
  have hmethod := (h.mono hgrows).method? initializerName
  rw [← Class.initializer?, ← Class.initializer?] at hmethod
  rcases optionRel_cases hmethod with ⟨hf, hg⟩ | ⟨f, g, hf, hg, hfg⟩
  · rw [hf, hg]
    exact .pure (.instanceRef hlt)
  · rw [hf, hg]
    refine (sim_bindMethod hfg hlt).bind fun l₂ bound bound' hgrows' hbound => ?_
    have harguments' := harguments.imp fun _ _ h => (h.mono hgrows).mono hgrows'
    have hlength' : arguments.length = bound.arity := by
      rw [Closure.arity, hbound.2]
      exact hlength f hf
    refine .guard (fun m w tied _ => hbound.1.keeps tied) ?_
    refine (sim_invoke hexec hbound.1 harguments' hlength').bind fun l₃ _ _ hgrows'' _ => ?_
    have hinstances := Nat.le_trans hgrows'.instances hgrows''.instances
    exact .pure (.instanceRef (Nat.lt_of_lt_of_le hlt hinstances))

theorem sim_call {host : Host} (hexec : Executes execute execute') {callee : Datum}
    {callee' : Value Env} {arguments : List Datum} {arguments' : List (Value Env)} {line : Nat}
    (h : Related l callee callee') (harguments : List.Forall₂ (Related l) arguments arguments') :
    Sim none l scope Related (Exec.callWatched host Exec.guard execute callee arguments line)
      (call host (execute' true) callee' arguments' line) := by
  unfold Exec.callWatched call
  rw [← h.arity?]
  cases harity : callee.arity? with
  | none => exact .fail _ _
  | some arity =>
    dsimp only
    rw [← harguments.length_eq]
    split
    · exact .fail _ _
    · rename_i hlength
      rw [ne_eq, not_not] at hlength
      cases h with
      | function h =>
        cases harity
        exact .guard (fun m w tied _ => h.keeps tied) (sim_invoke hexec h harguments hlength)
      | @classObject c d h =>
        refine sim_construct hexec h harguments fun f hf => ?_
        rw [Value.arity?, hf, Option.map_some, Option.getD_some, Option.some.injEq] at harity
        rw [hlength, harity]
      | native f =>
        cases f
        exact sim_readClock host
      | _ => exact .fail _ _

/-! ### Declarations -/

theorem sim_declareFunction {decl : FunctionDecl} (h : Standing l σ isLocal scope env)
    (hpending : σ.pending = none) (hadmits : σ.Admits decl.name)
    (hplaced : decl.Placed l.table l.bound { σ.declare decl.name with enclosing := .function }) :
    Sim (some scope) l scope
      (fun l' _ env' => Standing l' (σ.declare decl.name) isLocal scope env')
      (Exec.declareFunction decl) (declareFunction isLocal env decl) := by
  refine sim_enter h hpending hadmits fun l₁ env' hgrows hentered => ?_
  refine .currentScope ((sim_newFunction _ _).andThen fun l₂ a b hgrows' hab => ?_)
  obtain ⟨id, rfl, rfl⟩ := hab
  have hstanding := hentered.mono hgrows'
  have hsettled := hstanding.settled hpending (.function id ⟨decl, scope, false⟩)
  have hchain := hsettled.sight.chain
  rw [Setting.declare_pending, hpending] at hchain
  have hagrees := ((hgrows.step (hgrows'.weaken _)).step (grows_define scope decl.name.text
    (.function id ⟨decl, scope, false⟩))).agrees
  refine (sim_settle hstanding hpending hadmits (.function ?_)).returning fun _ _ _ h => h
  refine ⟨rfl, rfl, _, FunctionDecl.placed_mono hagrees decl hplaced, ?_, hchain, nofun⟩
  rw [Setting.declare_pending, hpending]

/-- What a class declaration does after its superclass is known, apart from binding its
name to `nil` in between. -/
def defineClass (decl : ClassDecl) (superclass : Option (Class ScopeAddress)) : Exec Unit := do
  let scope ← Exec.currentScope
  let scope ←
    match superclass with
    | some c => Exec.newScope scope (Bindings.ofList [("super", .classObject c)])
    | none => pure scope
  let id ← Exec.newIdentity
  Exec.define decl.name.text (classValue decl superclass scope id)

theorem declareClass_eq (decl : ClassDecl) :
    Exec.declareClass decl = Exec.getSuperclass decl.superclass >>= fun superclass =>
      Exec.define decl.name.text .nil >>= fun _ => defineClass decl superclass := rfl

/-- The name is bound anyway in the end. -/
theorem defineClass_eq {decl : ClassDecl} {superclass : Option (Class ScopeAddress)} {m : Machine}
    (h : m.scope < m.store.scopes.size) :
    (Exec.define decl.name.text .nil >>= fun _ => defineClass decl superclass) m =
      defineClass decl superclass m := by
  cases superclass with
  | none =>
    exact congrArg (fun store => EStateM.Result.ok () { m with store := store })
      (Store.define_define m.store.newIdentity.2 .nil)
  | some c =>
    -- the scope with `super` is made in between
    have hstore : ∀ inner id, ((m.store.define m.scope decl.name.text .nil).newScope m.scope
          (Bindings.ofList [("super", .classObject c)])).2.newIdentity.2.define m.scope
            decl.name.text (classValue decl (some c) inner id) =
        (m.store.newScope m.scope (Bindings.ofList [("super", .classObject c)])).2.newIdentity.2.define
          m.scope decl.name.text (classValue decl (some c) inner id) := by
      intro inner id
      rw [Store.newScope_define h]
      exact Store.define_define (m.store.newScope m.scope _).2.newIdentity.2 .nil
    show EStateM.Result.ok () { m with
        store := ((m.store.define m.scope decl.name.text .nil).newScope m.scope
          (Bindings.ofList [("super", .classObject c)])).2.newIdentity.2.define m.scope
            decl.name.text (classValue decl (some c)
              (m.store.define m.scope decl.name.text .nil).scopes.size m.store.nextIdentity) } = _
    rw [hstore, Store.define_size]
    rfl

theorem find?_foldl_put {α β : Type} {R : α → β → Prop} {ps : List (String × α)}
    {qs : List (String × β)} (h : List.Forall₂ (fun p q => p.1 = q.1 ∧ R p.2 q.2) ps qs)
    {bindings : Bindings α} {bindings' : Bindings β}
    (hbindings : ∀ key, Option.Rel R (bindings.find? key) (bindings'.find? key)) (key : String) :
    Option.Rel R ((ps.foldl (fun acc p => acc.put p.1 p.2) bindings).find? key)
      ((qs.foldl (fun acc q => acc.put q.1 q.2) bindings').find? key) := by
  induction h generalizing bindings bindings' with
  | nil => exact hbindings key
  | cons hpq _ ih =>
    refine ih fun other => ?_
    rw [Bindings.find?_put, Bindings.find?_put, hpq.1]
    split
    · exact .some hpq.2
    · exact hbindings other

/-- Lists of related bindings bind related things. -/
theorem find?_ofList {α β : Type} {R : α → β → Prop} {ps : List (String × α)}
    {qs : List (String × β)} (h : List.Forall₂ (fun p q => p.1 = q.1 ∧ R p.2 q.2) ps qs)
    (key : String) :
    Option.Rel R ((Bindings.ofList ps).find? key) ((Bindings.ofList qs).find? key) :=
  find?_foldl_put h (fun _ => .none) key

theorem methods_related {setting : Setting} {scopes : List (List String)} {inner : ScopeAddress}
    {methods : List FunctionDecl}
    (hplaced : FunctionDecl.PlacedEach l.table l.bound setting methods)
    (hpending : setting.pending = none) (hscopes : setting.scopes = ["this"] :: scopes)
    (hchain : Chain l none scopes inner env) :
    List.Forall₂ (fun p q => p.1 = q.1 ∧ MethodRelated l p.2 q.2)
      (methods.map fun method => (method.name.text, ⟨method, inner, method.isInitializer⟩))
      (methods.map fun method => (method.name.text, ⟨method, env, method.isInitializer⟩)) := by
  induction methods with
  | nil => exact .nil
  | cons method methods ih =>
    exact .cons ⟨rfl, rfl, rfl, _, scopes, hplaced.1, hpending, hscopes, hchain⟩ (ih hplaced.2)

theorem classValue_related {decl : ClassDecl} {setting : Setting} {scopes : List (List String)}
    {inner : ScopeAddress} {superclass : Option (Class ScopeAddress)}
    {superclass' : Option (Class Env)}
    (hsuper : Option.Rel (ClassRelated l) superclass superclass')
    (hplaced : FunctionDecl.PlacedEach l.table l.bound setting decl.methods)
    (hpending : setting.pending = none) (hscopes : setting.scopes = ["this"] :: scopes)
    (hchain : Chain l none scopes inner env) (id : Nat) :
    Related l (classValue decl superclass inner id) (classValue decl superclass' env id) := by
  have hmethods := methods_related hplaced hpending hscopes hchain
  refine .classObject ?_
  cases hsuper with
  | none => exact .base (find?_ofList hmethods)
  | some hsuper => exact .derived (find?_ofList hmethods) hsuper

/-- The name, the superclass and the methods of a class stand where they were resolved. -/
theorem ClassDecl.placed_cases {table : Distances} {bound : Nat} {decl : ClassDecl}
    (h : decl.Placed table bound σ) : σ.Admits decl.name ∧
      (∀ target, decl.superclass = some target →
        target.name.text ≠ decl.name.text ∧ σ.Locates table bound target.id target.name.text) ∧
      FunctionDecl.PlacedEach table bound (σ.insideClass decl) decl.methods := by
  obtain ⟨name, superclass, methods⟩ := decl
  cases superclass with
  | none => exact ⟨h.1, nofun, h.2⟩
  | some target =>
    refine ⟨h.1, fun target' heq => ?_, h.2.2.2⟩
    cases heq
    exact ⟨h.2.1, h.2.2.1⟩

/-- The end of a class declaration, when the environment of the methods is there. -/
theorem sim_settleClass {decl : ClassDecl} {superclass : Option (Class ScopeAddress)}
    {superclass' : Option (Class Env)} {scopes : List (List String)} {inner : ScopeAddress}
    {inside : Env} (h : Standing l (σ.initializing decl.name) isLocal scope env)
    (hpending : σ.pending = none) (hadmits : σ.Admits decl.name)
    (hsuper : Option.Rel (ClassRelated l) superclass superclass')
    (hmethods : FunctionDecl.PlacedEach l.table l.bound (σ.insideClass decl) decl.methods)
    (hscopes : (σ.insideClass decl).scopes = ["this"] :: scopes)
    (hinside : (σ.insideClass decl).pending = none)
    (hchain : ∀ l', Grows (some scope) l l' →
      Chain l' none (σ.declare decl.name).scopes scope env → Chain l' none scopes inner inside) :
    Sim (some scope) l scope
      (fun l' _ env' => Standing l' (σ.declare decl.name) isLocal scope env')
      (Exec.newIdentity >>= fun id =>
        Exec.define decl.name.text (classValue decl superclass inner id))
      (newIdentity >>= fun id => do
        settle isLocal env decl.name.text (classValue decl superclass' inside id)
        pure env) := by
  refine sim_newIdentity.andThen fun l₁ id id' hgrows heq => ?_
  subst heq
  have hstanding := h.mono hgrows
  have hsettled := hstanding.settled hpending (classValue decl superclass inner id)
  have hall := (hgrows.weaken (some scope)).step
    (grows_define scope decl.name.text (classValue decl superclass inner id))
  have hdeclared := hsettled.sight.chain
  rw [Setting.declare_pending, hpending] at hdeclared
  have hvalue := classValue_related (optionRel_imp hsuper fun _ _ h => h.mono hall)
    (FunctionDecl.placedEach_mono hall.agrees _ hmethods) hinside hscopes (hchain _ hall hdeclared) id
  exact (sim_settle hstanding hpending hadmits hvalue).returning fun _ _ _ h => h

theorem sim_declareClass {decl : ClassDecl} (h : Standing l σ isLocal scope env)
    (hpending : σ.pending = none) (hplaced : decl.Placed l.table l.bound σ) :
    Sim (some scope) l scope
      (fun l' _ env' => Standing l' (σ.declare decl.name) isLocal scope env')
      (Exec.declareClass decl) (declareClass isLocal env decl) := by
  obtain ⟨hadmits, hlocates, hmethods⟩ := ClassDecl.placed_cases hplaced
  rw [declareClass_eq]
  refine (sim_getSuperclass h.sight fun target ht => (hlocates target ht).2).andThen
    fun l₁ superclass superclass' hgrows₁ hsuper => ?_
  obtain ⟨hsuper, hwritten⟩ := hsuper
  refine Sim.congr ?_ fun m w tied back => defineClass_eq (by
    rw [tied.store, back]
    exact (h.mono hgrows₁).lt_size)
  refine sim_enter (h.mono hgrows₁) hpending hadmits fun l₂ env' hgrows₂ hentered => ?_
  have hgrows := (hgrows₁.weaken (some scope)).step hgrows₂
  have hmethods₂ := FunctionDecl.placedEach_mono hgrows.agrees _ hmethods
  refine .currentScope ?_
  cases hsuper with
  | none =>
    have hnone : decl.superclass = none := Option.not_isSome_iff_eq_none.mp (by simp [← hwritten])
    have hinside : σ.insideClass decl =
        { (σ.declare decl.name).push ["this"] with enclosingClass := .base } := by
      rw [Setting.insideClass, hnone]
    refine sim_settleClass hentered hpending hadmits .none hmethods₂ (by rw [hinside]; rfl) ?_
      fun _ _ hchain => hchain
    rw [hinside]
    exact (Setting.declare_pending σ decl.name).trans hpending
  | @some c d hclass =>
    obtain ⟨target, hsome⟩ := Option.isSome_iff_exists.mp hwritten.symm
    have hinside : σ.insideClass decl =
        { ((σ.declare decl.name).push ["super"]).push ["this"] with enclosingClass := .derived } := by
      rw [Setting.insideClass, hsome]
    have hclass₂ := hclass.mono hgrows₂
    have hpairs : Layout.Bindings _ [("super", .classObject c)] [("super", .classObject d)] :=
      .cons ⟨rfl, .classObject hclass₂, fits_super c⟩ .nil
    show Sim _ _ _ _ (Exec.newScope scope (Bindings.ofList [("super", .classObject c)]) >>=
        fun inner => Exec.newIdentity >>= fun id =>
          Exec.define decl.name.text (classValue decl (some c) inner id))
      (enterEach env' [("super", .classObject d)] >>= fun inside => newIdentity >>= fun id => do
        settle isLocal env' decl.name.text (classValue decl (some d) inside id)
        pure env')
    refine (sim_newScope hpairs (List.nodup_singleton _)).andThen
      fun l₃ inner inside hgrows₃ hinner => ?_
    obtain ⟨hfresh, hlt, hparent, entries, rfl, hfilled⟩ := hinner
    have hmethods₃ := FunctionDecl.placedEach_mono hgrows₃.agrees _ hmethods₂
    refine sim_settleClass
      (hentered.mono hgrows₃) hpending hadmits (.some (hclass₂.mono hgrows₃)) hmethods₃
      (by rw [hinside]; rfl) ?_ fun l' hl' hchain => ?_
    · rw [hinside]
      exact (Setting.declare_pending σ decl.name).trans hpending
    · have hother : some scope ≠ some inner := fun heq =>
        absurd hentered.lt_size (Nat.not_lt.mpr (Option.some.inj heq ▸ hfresh))
      exact (hfilled.mono hl' hother hlt).chain (hl'.parent _ _ hparent) hchain

end

end Lox.Lexical
