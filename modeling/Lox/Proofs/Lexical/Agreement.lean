/-
Machines and worlds run programs alike.

* `evaluates_and_executes` — evaluation with distances and a store of scopes, under a
  watch for broken promises, does what lexical evaluation does, by induction on the
  fuel;
* `sim_runProgram` — so do runs of programs.
-/
import Lox.Proofs.Lexical.Calls

namespace Lox.Lexical

variable {l : Layout} {σ : Setting} {scope : ScopeAddress} {env : Env} {isLocal : Bool}

/-- A statement that ends after an expression was evaluated. -/
theorem Sim.normal {α β : Type} {R : Layout → α → β → Prop} {x : Exec α} {y : Act β}
    (h : Sim none l scope R x y) (hstanding : Standing l σ isLocal scope env) :
    Sim (some scope) l scope (fun l' => FlowRelated l' (Standing l' σ isLocal scope))
      (x >>= fun _ => Pure.pure .normal) (y >>= fun _ => Pure.pure (.normal env)) :=
  h.andThen fun _ _ _ hgrows _ => .pure (.normal (hstanding.mono hgrows))

/-- A statement that declares nothing leaves what stands. -/
theorem Executes.branch {execute : Stmt → Exec Flow} {execute' : Bool → Env → Stmt → Act Ending}
    (hexec : Executes execute execute') {s : Stmt} (hdecl : s.isDeclaration = false)
    (hplaced : s.Placed l.table l.bound σ) (hpending : σ.pending = none)
    (h : Standing l σ isLocal scope env) :
    Sim (some scope) l scope (fun l' => FlowRelated l' (Standing l' σ isLocal scope)) (execute s)
      (execute' isLocal env s) := by
  have hsim := hexec s hplaced hpending h
  rwa [after_of_not_isDeclaration σ hdecl] at hsim

/-- A block has a scope of its own. -/
theorem Executes.block {execute : Stmt → Exec Flow} {execute' : Bool → Env → Stmt → Act Ending}
    (hexec : Executes execute execute') {body : List Stmt}
    (hplaced : Stmt.PlacedEach l.table l.bound (σ.push []) body) (hpending : σ.pending = none)
    (h : Standing l σ isLocal scope env) :
    Sim none l scope (fun l' => FlowRelated l' fun _ => True)
      (Exec.newScope scope [] >>= fun inner => Exec.inScope inner (Exec.execEach execute body))
      (execEach (execute' true) env body) := by
  have hchain := h.sight.chain
  rw [hpending] at hchain
  have hpairs : l.Bindings [] [] := .nil
  show Sim _ _ _ _ _ (enterEach env [] >>= fun env => execEach (execute' true) env body)
  refine (sim_enterScope σ hchain hpending hpairs List.nodup_nil).bind_inner
    (fun _ _ _ hinner => hinner.1) fun l₁ inner env' hgrows hinner => ?_
  have hbody := Stmt.placedEach_mono hgrows.agrees body hplaced
  exact (sim_execEach hexec body hbody hpending hinner.2).inScope

/-- A local variable is pending in its initializer. -/
theorem initializing_pending {name : Name} (hadmits : σ.Admits name)
    (h : InSight l (σ.initializing name) scope env) :
    (σ.initializing name).pending = if scope = Store.globals then none else some name.text := by
  have hchain := h.chain
  rw [initializing_scopes, Setting.declare_scopes] at hchain
  cases hscopes : σ.scopes with
  | nil =>
    rw [hscopes] at hchain
    have hglobal : scope = Store.globals := by
      generalize (σ.initializing name).pending = pending at hchain
      cases hchain
      rfl
    rw [if_pos hglobal]
    simp only [Setting.initializing, hscopes, ne_eq, not_true_eq_false, decide_false,
      Bool.false_and, Bool.false_eq_true, if_false]
  | cons names scopes =>
    have hpending : (σ.initializing name).pending = some name.text := by
      simp only [Setting.initializing, hscopes, hadmits.1, ne_eq, reduceCtorEq, not_false_eq_true,
        decide_true, Bool.not_false, Bool.and_true, if_true]
    rw [if_neg (h.pending _ hpending).1, hpending]

theorem evaluates_and_executes (host : Host) (fuel : Nat) :
    Evaluates (Exec.evalWatched host Exec.guard fuel) (eval host fuel) ∧
      Executes (Exec.execWatched host Exec.guard fuel) (exec host fuel) := by
  induction fuel with
  | zero => exact ⟨fun _ _ _ => .throw nofun, fun _ _ _ _ => .throw nofun⟩
  | succ fuel ih =>
    obtain ⟨heval, hexec⟩ := ih
    refine ⟨fun {l σ scope env} e hplaced h => ?_,
      fun {l σ isLocal scope env} s hplaced hpending h => ?_⟩
    · have reach : ∀ {x : Exec Datum} {y : Act (Value Env)}, Sim none l scope Related x y →
          Sim none l scope Related (Exec.guard (.reach σ.pending e) >>= fun _ => x) y :=
        .guard fun m w tied back => h.keeps tied back hplaced
      cases e with
      | literal value =>
        refine reach (.pure ?_)
        cases value with
        | number x => exact .number x
        | string s => exact .string s
        | boolean b => exact .boolean b
        | nil => exact .nil
      | grouping inner => exact reach (heval inner hplaced h)
      | unary op line operand =>
        refine reach ((heval operand hplaced h).bind fun l₁ a b hgrows hab => ?_)
        exact sim_ofExcept (hab.apply_unary op)
      | binary left op line right =>
        refine reach ((heval left hplaced.1 h).bind fun l₁ a b hgrows hab => ?_)
        refine (heval right (Expr.placed_mono hgrows.agrees right hplaced.2) (h.mono hgrows)).bind
          fun l₂ a' b' hgrows' hab' => ?_
        exact sim_ofExcept ((hab.mono hgrows').apply op hab')
      | logical left op right =>
        refine reach ((heval left hplaced.1 h).bind fun l₁ a b hgrows hab => ?_)
        rw [show op.decides a = op.decides b by cases op <;> simp only [LogicalOp.decides, hab.isTruthy]]
        split
        · exact .pure hab
        · exact heval right (Expr.placed_mono hgrows.agrees right hplaced.2) (h.mono hgrows)
      | varRef target => exact reach (sim_read h hplaced.2)
      | assign target value =>
        obtain ⟨hname, hlocates, hvalue⟩ := hplaced
        refine reach ((heval value hvalue h).bind fun l₁ a b hgrows hab => ?_)
        have h₁ := h.mono hgrows
        have hlocates₁ := hlocates.mono hgrows.agrees
        refine .guard (fun m w tied back => h₁.keeps_assign tied back hlocates₁) ?_
        exact (sim_write h₁ hlocates₁ hname hab).bind fun l₂ _ _ hgrows' _ =>
          .pure (hab.mono hgrows')
      | call callee arguments line =>
        refine reach ((heval callee hplaced.1 h).bind fun l₁ a b hgrows hab => ?_)
        refine (sim_evalEach heval arguments (Expr.placedEach_mono hgrows.agrees _ hplaced.2)
          (h.mono hgrows)).bind fun l₂ as bs hgrows' habs => ?_
        exact sim_call hexec (hab.mono hgrows') habs
      | get object name =>
        exact reach ((heval object hplaced h).bind fun l₁ a b hgrows hab => sim_getProperty hab)
      | set object name value =>
        refine reach ((heval object hplaced.1 h).bind fun l₁ a b hgrows hab => ?_)
        cases hab with
        | instanceRef hi =>
          refine (heval value (Expr.placed_mono hgrows.agrees value hplaced.2) (h.mono hgrows)).bind
            fun l₂ a' b' hgrows' hab' => ?_
          exact (sim_setField hab').bind fun l₃ _ _ hgrows'' _ => .pure (hab'.mono hgrows'')
        | _ => exact .fail _ _
      | thisRef id line => exact reach (sim_read h hplaced.1)
      | superRef id line method =>
        obtain ⟨hlocates, distance, hsuper, hthis⟩ := hplaced
        exact reach (sim_getSuper h hlocates hsuper hthis)
    · have heval' : ∀ {l'} (e : Expr), e.Placed l'.table l'.bound σ → InSight l' σ scope env →
          Sim none l' scope Related (Exec.evalWatched host Exec.guard fuel none e)
            (eval host fuel env e) := by
        intro l' e hplaced h
        have := heval e hplaced h
        rwa [hpending] at this
      cases s with
      | expression value => exact (heval' value hplaced h.sight).normal h
      | print value =>
        refine (heval' value hplaced h.sight).andThen fun l₁ a b hgrows hab => ?_
        exact (sim_print hab).normal (h.mono hgrows)
      | varDecl name initializer =>
        cases initializer with
        | none =>
          refine sim_enter h hpending hplaced fun l₁ env' hgrows hentered => ?_
          exact (sim_settle hentered hpending hplaced .nil).bind fun l₂ _ _ _ hsettled =>
            .pure (.normal hsettled)
        | some value =>
          obtain ⟨hadmits, hvalue⟩ := hplaced
          refine sim_enter h hpending hadmits fun l₁ env' hgrows hentered => .currentScope ?_
          rw [← initializing_pending hadmits hentered.sight]
          refine (heval value (Expr.placed_mono hgrows.agrees value hvalue)
            hentered.sight).andThen fun l₂ a b hgrows' hab => ?_
          have hsettle := sim_settle (hentered.mono hgrows') hpending hadmits
            (hab.mono (grows_define scope name.text a))
          exact hsettle.bind fun l₃ _ _ _ hsettled => .pure (.normal hsettled)
      | block body =>
        have hblock := hexec.block hplaced hpending h
        refine .currentScope ?_
        rw [← bind_pure (Exec.newScope scope [] >>= _)]
        refine hblock.andThen fun l₁ flow ending hgrows hflow => ?_
        cases hflow with
        | normal _ => exact .pure (.normal (h.mono hgrows))
        | returned hvalue => exact .pure (.returned hvalue)
      | ifElse condition thenBranch elseBranch =>
        cases elseBranch with
        | none =>
          obtain ⟨hcondition, hdecl, hthen⟩ := hplaced
          refine (heval' condition hcondition h.sight).andThen fun l₁ a b hgrows hab => ?_
          rw [hab.isTruthy]
          split
          · exact hexec.branch hdecl (Stmt.placed_mono hgrows.agrees _ hthen) hpending (h.mono hgrows)
          · exact .pure (.normal (h.mono hgrows))
        | some elseBranch =>
          obtain ⟨hcondition, ⟨hdecl, hthen⟩, hdecl', helse⟩ := hplaced
          refine (heval' condition hcondition h.sight).andThen fun l₁ a b hgrows hab => ?_
          rw [hab.isTruthy]
          split
          · exact hexec.branch hdecl (Stmt.placed_mono hgrows.agrees _ hthen) hpending (h.mono hgrows)
          · exact hexec.branch hdecl' (Stmt.placed_mono hgrows.agrees _ helse) hpending
              (h.mono hgrows)
      | whileLoop condition body =>
        obtain ⟨hcondition, hdecl, hbody⟩ := hplaced
        refine sim_repeatWhile hpending (fun l' hl' h' => ?_) (fun l' hl' h' => ?_) h fuel
        · exact heval' condition (Expr.placed_mono hl'.agrees condition hcondition) h'.sight
        · exact hexec.branch hdecl (Stmt.placed_mono hl'.agrees body hbody) hpending h'
      | funDecl decl =>
        obtain ⟨hadmits, hdecl⟩ := hplaced
        exact (sim_declareFunction h hpending hadmits hdecl).bind fun l₁ _ env' _ hdeclared =>
          .pure (.normal hdeclared)
      | returnValue line value =>
        cases value with
        | none => exact .pure (.returned .nil)
        | some value =>
          exact (heval' value hplaced h.sight).andThen fun l₁ a b hgrows hab => .pure (.returned hab)
      | classDecl decl =>
        have hclass := sim_declareClass h hpending hplaced
        obtain ⟨name, superclass, methods⟩ := decl
        cases superclass with
        | none => exact hclass.bind fun l₁ _ env' _ hdeclared => .pure (.normal hdeclared)
        | some target =>
          refine .guard (fun m w tied back => ?_) ?_
          · exact h.sight.keeps_varRef tied back hplaced.2.2.1 (by rw [hpending]; nofun)
          · exact hclass.bind fun l₁ _ env' _ hdeclared => .pure (.normal hdeclared)

/-- At the top level no variable is local. -/
theorem standing_topLevel {w : World} (h : Holds l w) :
    Standing l .topLevel false Store.globals [] :=
  ⟨⟨.globals, nofun⟩, rfl, fun name hname => absurd rfl (h.linked _ name hname).1, h.inhabited⟩

/-- Programs run alike. -/
theorem sim_runProgram (host : Host) (fuel : Nat) (p : Program)
    (hplaced : Stmt.PlacedEach l.table l.bound .topLevel p) :
    Sim (some Store.globals) l Store.globals (fun _ _ _ => True)
      (Exec.runWatched host Exec.guard fuel p) (runProgram host fuel p) := by
  induction p generalizing l with
  | nil => exact .pure trivial
  | cons s ss ih =>
    have hafter : Setting.topLevel.after s = .topLevel := by cases s <;> rfl
    obtain ⟨hs, hss⟩ := hplaced
    rw [hafter] at hss
    intro m w tied back
    have hstep := (evaluates_and_executes host fuel).2 s hs rfl (standing_topLevel tied.heap)
    exact hstep.bind (fun l₁ _ _ hgrows _ => ih (Stmt.placedEach_mono hgrows.agrees ss hss)) m w
      tied back

end Lox.Lexical
