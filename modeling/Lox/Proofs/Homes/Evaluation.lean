/-
Evaluation keeps machines lawful, and the watch sees only code that is at home.

`Fits b m moment` says what is known of a moment: the expression that is reached stands
where it was resolved and lies in its home, and the closure that is entered is settled.

* `Evaluates`, `Executes` — code that is at home keeps the machine lawful;
* `keeps_invoke`, `keeps_declareClass` — calls and declarations do;
* `evaluates_succ`, `executes_succ`, `evaluates_and_executes` — so does all code, if the
  watch lets pass what fits;
* `keeps_runProgram` — so do whole programs.
-/
import Lox.Proofs.Homes.Actions
import Lox.Proofs.Lexical.Calls
import Lox.Proofs.Relabelling.Findings
import Lox.Proofs.Watched

namespace Lox.Homes

/-- What is known of a moment of a run. -/
def Fits (b : Basis) (m : Machine) : Moment → Prop
  | .reach _ e => ∃ (σ : Setting) (home : Option Home), e.Placed b.table b.bound σ ∧
      Housed m.store σ.scopes m.scope home ∧ Owns home e.mentions
  | .assign _ _ => True
  | .enter f => f.Settled b m.store

/-- Statements stand in a scope that may get more names. -/
structure Stands (store : Store) (scope : ScopeAddress) (σ : Setting) (home : Option Home) :
    Prop where
  housed : Housed store σ.scopes scope home
  pending : σ.pending = none
  head : ∀ names ∈ σ.scopes.head?, ∀ name ∈ names, ¬ isReserved name

variable {b : Basis} {store store' : Store} {scope : ScopeAddress} {σ : Setting}
  {home : Option Home}

theorem Stands.mono (h : Stands store scope σ home) (hext : store.Extends store') :
    Stands store' scope σ home :=
  ⟨h.housed.mono hext, h.pending, h.head⟩

/-- A declared name is added to a scope that no class has made. -/
theorem Stands.declare (h : Stands store scope σ home) {name : Name}
    (hname : ¬ isReserved name.text) : Stands store scope (σ.declare name) home := by
  have hhoused := h.housed
  have hhead := h.head
  refine ⟨?_, (Setting.declare_pending σ name).trans h.pending, ?_⟩
  · rw [Setting.declare_scopes]
    cases hscopes : σ.scopes with
    | nil =>
      rw [hscopes] at hhoused
      exact hhoused
    | cons names scopes =>
      rw [hscopes] at hhoused hhead
      have hplain : ∀ other ∈ names, ¬ isReserved other := hhead names rfl
      cases hhoused with
      | plain hparent _ hthis hrest =>
        exact .plain hparent (List.forall_mem_cons.mpr ⟨hname, hplain⟩) hthis hrest
      | base => exact absurd (.inl rfl) (hplain "this" (by simp))
      | derived => exact absurd (.inl rfl) (hplain "this" (by simp))
  · rw [Setting.declare_scopes]
    cases hscopes : σ.scopes with
    | nil => nofun
    | cons names scopes =>
      rw [hscopes] at hhead
      intro found hfound
      cases hfound
      exact List.forall_mem_cons.mpr ⟨hname, hhead names rfl⟩

theorem Stands.after (h : Stands store scope σ home) {s : Stmt}
    (hplaced : s.Placed b.table b.bound σ) : Stands store scope (σ.after s) home := by
  cases s with
  | varDecl name initializer =>
    cases initializer with
    | none => exact h.declare (hplaced : σ.Admits name).2
    | some value => exact h.declare (hplaced : σ.Admits name ∧ _).1.2
  | funDecl function => exact h.declare (hplaced : σ.Admits function.name ∧ _).1.2
  | classDecl declared => exact h.declare (Lexical.ClassDecl.placed_cases hplaced).1.2
  | _ => exact h

/-- A new scope for names that are not reserved. -/
theorem Stands.inner {bindings : Bindings Datum} {names : List String} (hpending : σ.pending = none)
    (hnames : ∀ name ∈ names, ¬ isReserved name) (hthis : bindings.find? "this" = none)
    (h : Housed store σ.scopes scope home) :
    Stands (store.newScope scope bindings).2 store.scopes.size (σ.push names) home := by
  refine ⟨.plain ?_ hnames ?_ (h.mono (Store.extends_newScope scope bindings)), hpending, ?_⟩
  · rw [Store.parent?_newScope, if_pos rfl]
  · rw [Store.lookup_newScope, if_pos rfl, hthis]
  · intro found hfound
    cases hfound
    exact hnames

/-- Settled values. -/
abbrev SettledValue (b : Basis) (store : Store) (value : Datum) : Prop :=
  value.Settled b store

/-- Settled endings. -/
abbrev SettledFlow (b : Basis) (store : Store) (flow : Flow) : Prop :=
  flow.Settled b store

/-- Expressions that are at home keep the machine lawful. -/
def Evaluates (b : Basis) (watched : Option String → Expr → Exec Datum)
    (plain : Expr → Exec Datum) : Prop :=
  ∀ {store scope σ home} (pending : Option String) (e : Expr), e.Placed b.table b.bound σ →
    Housed store σ.scopes scope home → Owns home e.mentions →
    Keeps b store scope (SettledValue b) (watched pending e) (plain e)

/-- Statements that are at home keep the machine lawful. -/
def Executes (b : Basis) (watched plain : Stmt → Exec Flow) : Prop :=
  ∀ {store scope σ home} (s : Stmt), s.Placed b.table b.bound σ → s.texts ⊆ b.texts →
    Owns home s.ownMentions → Stands store scope σ home →
    Keeps b store scope (SettledFlow b) (watched s) (plain s)

/-! ### Lists and loops -/

variable {evaluate : Option String → Expr → Exec Datum} {evaluate' : Expr → Exec Datum}
  {execute execute' : Stmt → Exec Flow}

theorem keeps_evalEach (heval : Evaluates b evaluate evaluate') (pending : Option String)
    (es : List Expr) (hplaced : Expr.PlacedEach b.table b.bound σ es)
    (h : Housed store σ.scopes scope home) (howns : Owns home (Expr.mentionsEach es)) :
    Keeps b store scope (fun store' values => ∀ value ∈ values, value.Settled b store')
      (Exec.evalEach (evaluate pending) es) (Exec.evalEach evaluate' es) := by
  induction es generalizing store with
  | nil => exact .pure nofun
  | cons e es ih =>
    rw [Expr.mentionsEach] at howns
    obtain ⟨hfirst, hrest⟩ := howns.split
    refine (heval pending e hplaced.1 h hfirst).bind fun store₁ value hext hvalue => ?_
    refine (ih hplaced.2 (h.mono hext) hrest).bind fun store₂ values hext' hvalues => .pure ?_
    exact List.forall_mem_cons.mpr ⟨Value.Settled.mono hvalue (.refl b) hext', hvalues⟩

theorem keeps_execEach (hexec : Executes b execute execute') (ss : List Stmt)
    (hplaced : Stmt.PlacedEach b.table b.bound σ ss) (htexts : Stmt.textsEach ss ⊆ b.texts)
    (howns : Owns home (Stmt.ownMentionsEach ss)) (h : Stands store scope σ home) :
    Keeps b store scope (SettledFlow b) (Exec.execEach execute ss) (Exec.execEach execute' ss) := by
  induction ss generalizing store σ with
  | nil => exact .pure trivial
  | cons s ss ih =>
    rw [Stmt.ownMentionsEach] at howns
    rw [Stmt.textsEach, List.append_subset] at htexts
    obtain ⟨hfirst, hrest⟩ := howns.split
    refine (hexec s hplaced.1 htexts.1 hfirst h).bind fun store₁ flow hext hflow => ?_
    cases flow with
    | normal =>
      exact ih hplaced.2 htexts.2 hrest ((h.after hplaced.1).mono hext)
    | returned value => exact .pure hflow

theorem keeps_repeatWhile {condition condition' : Exec Datum} {body body' : Exec Flow}
    (hcondition : ∀ store', store.Extends store' →
      Keeps b store' scope (SettledValue b) condition condition')
    (hbody : ∀ store', store.Extends store' → Keeps b store' scope (SettledFlow b) body body')
    (fuel : Nat) :
    Keeps b store scope (SettledFlow b) (Exec.repeatWhile condition body fuel)
      (Exec.repeatWhile condition' body' fuel) := by
  induction fuel generalizing store with
  | zero => exact .throw _
  | succ fuel ih =>
    refine (hcondition store (.refl _)).bind fun store₁ value hext _ => ?_
    split
    · refine (hbody store₁ hext).bind fun store₂ flow hext' hflow => ?_
      have hlater : ∀ store', store₂.Extends store' → store.Extends store' :=
        fun store' h => (hext.trans hext').trans h
      cases flow with
      | normal =>
        exact ih (fun store' h => hcondition store' (hlater store' h))
          fun store' h => hbody store' (hlater store' h)
      | returned value => exact .pure hflow
    · exact .pure trivial

/-! ### Calls -/

theorem find?_zip {names : List String} {arguments : List Datum} {name : String} {value : Datum}
    (h : (Bindings.ofList (names.zip arguments)).find? name = some value) :
    name ∈ names ∧ value ∈ arguments := by
  rw [Bindings.find?_ofList] at h
  obtain ⟨pair, hpair, rfl⟩ := Option.map_eq_some_iff.mp h
  have hname := List.find?_some hpair
  have hmem := List.mem_reverse.mp (List.mem_of_find?_eq_some hpair)
  simp only [decide_eq_true_eq] at hname
  subst hname
  exact List.of_mem_zip hmem

theorem keeps_invoke {host : Host} (hexec : Executes b execute execute')
    {f : Closure ScopeAddress} (hf : f.Settled b store) {arguments : List Datum}
    (harguments : ∀ value ∈ arguments, value.Settled b store) (line : Nat) :
    Keeps b store scope (SettledValue b) (Exec.invoke host execute f arguments line)
      (Exec.invoke host execute' f arguments line) := by
  obtain ⟨htexts, -, σ, home, hplaced, hpending, hhoused, howns⟩ := hf
  obtain ⟨⟨name, params, body⟩, env, isInitializer⟩ := f
  obtain ⟨-, hparams, hbody⟩ := hplaced
  have hnames : ∀ name ∈ (params.map Name.text).reverse, ¬ isReserved name := by
    intro name hname
    obtain ⟨param, hparam, rfl⟩ := List.mem_map.mp (List.mem_reverse.mp hname)
    exact hparams param hparam
  have hthis : (Bindings.ofList ((params.map Name.text).zip arguments)).find? "this" = none := by
    cases hfound : (Bindings.ofList ((params.map Name.text).zip arguments)).find? "this" with
    | none => rfl
    | some value =>
      have hmem := (find?_zip hfound).1
      exact absurd (.inl rfl) (hnames "this" (List.mem_reverse.mpr hmem))
  refine (keeps_newScope env fun key value hvalue => harguments value (find?_zip hvalue).2).bind
    fun store₁ inner hext hinner => ?_
  obtain ⟨rfl, rfl⟩ := hinner
  rw [FunctionDecl.texts, List.cons_subset] at htexts
  rw [FunctionDecl.ownMentions] at howns
  have hrun := keeps_execEach hexec body hbody htexts.2 howns (.inner hpending hnames hthis hhoused)
  refine (hrun.inScope.frame host line).bind fun store₂ flow _ hflow => ?_
  split
  · refine (keeps_getAt env 0 "this").bind fun store₃ found _ hfound => ?_
    cases found with
    | some this => exact .pure (hfound this rfl)
    | none => exact .throw _
  · cases flow with
    | normal => exact .pure trivial
    | returned value => exact .pure hflow

section

variable {watch : Moment → Exec Unit} {host : Host}
  (hwatch : ∀ m moment, Lawful b m → m.store.Extends b.last → Fits b m moment →
    watch moment m = .ok () m)
include hwatch

theorem keeps_construct (hexec : Executes b execute execute') {c : Class ScopeAddress}
    (hc : c.Settled b store) {arguments : List Datum}
    (harguments : ∀ value ∈ arguments, value.Settled b store) (line : Nat) :
    Keeps b store scope (SettledValue b)
      (Exec.constructWatched host watch execute c arguments line)
      (Exec.construct host execute' c arguments line) := by
  refine (keeps_newInstance hc).bind fun store₁ address hext haddress => ?_
  cases hinit : c.initializer? with
  | none => exact .pure trivial
  | some initializer =>
    refine (keeps_boundMethod (hc.mono (.refl b) hext) hinit haddress (List.Subset.refl _)).bind
      fun store₂ bound hext' hbound => ?_
    refine Keeps.observe (fun m lawful hstore _ hway => hwatch m _ lawful hway ?_) ?_
    · subst hstore
      exact hbound
    · refine (keeps_invoke hexec hbound (fun value hvalue => ?_) line).bind
        fun _ _ _ _ => .pure trivial
      exact Value.Settled.mono (harguments value hvalue) (.refl b) (hext.trans hext')

theorem keeps_call (hexec : Executes b execute execute') {callee : Datum}
    (hcallee : callee.Settled b store) {arguments : List Datum}
    (harguments : ∀ value ∈ arguments, value.Settled b store) (line : Nat) :
    Keeps b store scope (SettledValue b)
      (Exec.callWatched host watch execute callee arguments line)
      (Exec.call host execute' callee arguments line) := by
  unfold Exec.callWatched Exec.call
  cases callee.arity? with
  | none => exact .fail _ _
  | some arity =>
    dsimp only
    split
    · exact .fail _ _
    · cases callee with
      | function id f =>
        refine Keeps.observe (fun m lawful hstore _ hway => hwatch m _ lawful hway ?_)
          (keeps_invoke hexec hcallee harguments line)
        subst hstore
        exact hcallee
      | classObject c => exact keeps_construct hwatch hexec hcallee harguments line
      | native f =>
        cases f
        exact keeps_readClock host
      | _ => exact .fail _ _

end

/-! ### Declarations -/

theorem keeps_declareFunction {decl : FunctionDecl} (hadmits : σ.Admits decl.name)
    (hplaced : decl.Placed b.table b.bound
      { σ.declare decl.name with enclosing := .function })
    (htexts : decl.texts ⊆ b.texts) (howns : Owns home decl.ownMentions)
    (h : Stands store scope σ home) :
    Keeps b store scope (fun _ _ => True) (Exec.declareFunction decl)
      (Exec.declareFunction decl) := by
  have hdeclared := h.declare hadmits.2
  have hfunction : Closure.Settled b store ⟨decl, scope, false⟩ :=
    ⟨htexts, nofun, _, home, hplaced, hdeclared.pending, hdeclared.housed, howns⟩
  refine Keeps.currentScope ?_
  exact (keeps_makeFunction hfunction).bind fun _ _ _ hvalue => keeps_define hadmits.2 hvalue

theorem keeps_getSuperclass (superclass : Option Reference) :
    Keeps b store scope
      (fun store' found => found.isSome = superclass.isSome ∧
        ∀ c, found = some c → c.Settled b store')
      (Exec.getSuperclass superclass) (Exec.getSuperclass superclass) := by
  cases superclass with
  | none => exact .pure ⟨rfl, nofun⟩
  | some target =>
    refine (keeps_read target).bind fun store₁ value _ hvalue => ?_
    cases value with
    | classObject c =>
      refine .pure ⟨rfl, fun found heq => ?_⟩
      cases heq
      exact hvalue
    | _ => exact .fail _ _

/-- A class is made by its declaration, in the scope that it stands in or in the one with
`super` inside it. -/
theorem settled_classValue {decl : ClassDecl} {superclass : Option (Class ScopeAddress)}
    {env : ScopeAddress} {id : Nat} {scopes : List (List String)}
    (htexts : decl.texts ⊆ b.texts) (hsame : superclass.isSome = decl.superclass.isSome)
    (hplaced : FunctionDecl.PlacedEach b.table b.bound (σ.insideClass decl) decl.methods)
    (hpending : (σ.insideClass decl).pending = none)
    (hscopes : (σ.insideClass decl).scopes = ["this"] :: scopes)
    (hrooted : ∀ c : Class ScopeAddress, c.superclass = superclass → Rooted store scopes c env)
    (hsuper : ∀ c, superclass = some c → c.Settled b store) :
    (Lexical.classValue decl superclass env id : Datum).Settled b store := by
  have hdeclared := Class.declaredBy decl superclass hsame env id
  have hmade : Class.Made b store ⟨id, decl.name.text, decl.methodsIn env, superclass⟩ :=
    ⟨decl, env, _, scopes, htexts, hdeclared, hplaced, hpending, hscopes, hrooted _ rfl⟩
  intro d hd
  cases superclass with
  | none =>
    rw [Class.lineage, List.mem_singleton] at hd
    subst hd
    exact hmade
  | some c =>
    rw [Class.lineage] at hd
    rcases List.mem_cons.mp hd with rfl | hd
    · exact hmade
    · exact hsuper c rfl d hd

theorem keeps_declareClass {decl : ClassDecl} (hplaced : decl.Placed b.table b.bound σ)
    (htexts : decl.texts ⊆ b.texts) (h : Stands store scope σ home) :
    Keeps b store scope (fun _ _ => True) (Exec.declareClass decl) (Exec.declareClass decl) := by
  obtain ⟨hadmits, -, hmethods⟩ := Lexical.ClassDecl.placed_cases hplaced
  rw [Lexical.declareClass_eq]
  refine (keeps_getSuperclass decl.superclass).bind fun store₁ superclass hext₁ hsuper => ?_
  obtain ⟨hsame, hsuper⟩ := hsuper
  -- the name is in scope before the methods are made, so they stand inside it
  have hnil : Value.Settled b store₁ .nil := trivial
  refine (keeps_define hadmits.2 hnil).bind fun store₂ _ hext₂ _ => ?_
  have hdeclared := (h.declare hadmits.2).mono (hext₁.trans hext₂)
  refine Keeps.currentScope ?_
  cases superclass with
  | none =>
    have hnone : decl.superclass = none := Option.not_isSome_iff_eq_none.mp (by simp [← hsame])
    have hinside : σ.insideClass decl =
        { (σ.declare decl.name).push ["this"] with enclosingClass := .base } := by
      rw [Setting.insideClass, hnone]
    refine (Keeps.pure (R := fun _ env => env = scope) rfl).bind fun store₃ env hext₃ henv => ?_
    subst henv
    refine keeps_newIdentity.bind fun store₄ id hext₄ _ => keeps_define hadmits.2 ?_
    refine settled_classValue htexts hsame hmethods (by rw [hinside]; exact hdeclared.pending)
      (by rw [hinside]; rfl) (fun c hc => ?_) fun c hc => by cases hc
    rw [Rooted, hc]
    exact ⟨home, hdeclared.housed.mono (hext₃.trans hext₄)⟩
  | some c =>
    obtain ⟨target, hsome⟩ := Option.isSome_iff_exists.mp hsame.symm
    have hinside : σ.insideClass decl =
        { ((σ.declare decl.name).push ["super"]).push ["this"] with
          enclosingClass := .derived } := by
      rw [Setting.insideClass, hsome]
    have hc : c.Settled b store₂ := (hsuper c rfl).mono (.refl b) hext₂
    have hsingle := settled_single "super" (show Value.Settled b store₂ (.classObject c) from hc)
    refine (keeps_newScope scope hsingle).bind fun store₃ inner hext₃ hinner => ?_
    obtain ⟨rfl, rfl⟩ := hinner
    refine keeps_newIdentity.bind fun store₄ id hext₄ _ => keeps_define hadmits.2 ?_
    refine settled_classValue htexts hsame hmethods (by rw [hinside]; exact hdeclared.pending)
      (by rw [hinside]; rfl) (fun d hd => ?_) fun d hd => ?_
    · rw [Rooted, hd]
      refine ⟨_, scope, home, rfl, hext₄.lookup (.inr rfl) ?_, hext₄.parent? ?_,
        hdeclared.housed.mono (hext₃.trans hext₄)⟩
      · rw [Store.lookup_newScope, if_pos rfl]
        rfl
      · rw [Store.parent?_newScope, if_pos rfl]
    · cases hd
      exact hc.mono (.refl b) (hext₃.trans hext₄)

/-! ### Evaluation -/

section

variable {watch : Moment → Exec Unit}
  (hwatch : ∀ m moment, Lawful b m → m.store.Extends b.last → Fits b m moment →
    watch moment m = .ok () m)
include hwatch

/-- A watch lets pass code that is at home. -/
theorem Keeps.reach {R : Store → Datum → Prop} {x y : Exec Datum} {pending : Option String}
    {e : Expr} (hplaced : e.Placed b.table b.bound σ) (h : Housed store σ.scopes scope home)
    (howns : Owns home e.mentions) (hxy : Keeps b store scope R x y) :
    Keeps b store scope R (watch (.reach pending e) >>= fun _ => x) y := by
  refine .observe (fun m lawful hstore hscope hway => hwatch m _ lawful hway ?_) hxy
  subst hstore hscope
  exact ⟨σ, home, hplaced, h, howns⟩

/-- Expressions of the next depth. -/
theorem evaluates_succ {host : Host} {fuel : Nat}
    (heval : Evaluates b (Exec.evalWatched host watch fuel) (Exec.eval host fuel))
    (hexec : Executes b (Exec.execWatched host watch fuel) (Exec.exec host fuel)) :
    Evaluates b (Exec.evalWatched host watch (fuel + 1)) (Exec.eval host (fuel + 1)) := by
  intro store scope σ home pending e hplaced h howns
  have reach : ∀ {x y : Exec Datum}, Keeps b store scope (SettledValue b) x y →
      Keeps b store scope (SettledValue b) (watch (.reach pending e) >>= fun _ => x) y :=
    Keeps.reach hwatch hplaced h howns
  cases e with
  | literal value => exact reach (.pure (by cases value <;> trivial))
  | grouping inner => exact reach (heval pending inner hplaced h howns)
  | unary op line operand =>
    refine reach ((heval pending operand hplaced h howns).bind fun store₁ value _ _ => ?_)
    exact keeps_ofExcept line fun _ h => settled_of_not_code (UnaryOp.isCode_apply h)
  | binary left op line right =>
    rw [Expr.mentions] at howns
    obtain ⟨hleft, hright⟩ := howns.split
    refine reach ((heval pending left hplaced.1 h hleft).bind fun store₁ first hext _ => ?_)
    refine (heval pending right hplaced.2 (h.mono hext) hright).bind fun store₂ second _ _ => ?_
    exact keeps_ofExcept line fun _ h => settled_of_not_code (BinaryOp.isCode_apply h)
  | logical left op right =>
    rw [Expr.mentions] at howns
    obtain ⟨hleft, hright⟩ := howns.split
    refine reach ((heval pending left hplaced.1 h hleft).bind fun store₁ first hext hfirst => ?_)
    split
    · exact .pure hfirst
    · exact heval pending right hplaced.2 (h.mono hext) hright
  | varRef target => exact reach (keeps_read target)
  | assign target value =>
    obtain ⟨hname, -, hvalue⟩ := hplaced
    rw [Expr.mentions] at howns
    have hmentions := howns.subset (List.subset_cons_self _ _)
    refine reach ((heval pending value hvalue h hmentions).bind fun store₁ value _ hvalue => ?_)
    refine Keeps.observe (fun m lawful _ _ hway => hwatch m _ lawful hway trivial) ?_
    refine (keeps_write hname hvalue).bind fun store₂ _ hext _ => .pure ?_
    exact Value.Settled.mono hvalue (.refl b) hext
  | call callee arguments line =>
    rw [Expr.mentions] at howns
    obtain ⟨hcallee, hrest⟩ := howns.split
    refine reach ((heval pending callee hplaced.1 h hcallee).bind
      fun store₁ callee hext hvalue => ?_)
    refine (keeps_evalEach heval pending arguments hplaced.2 (h.mono hext) hrest).bind
      fun store₂ values hext' hvalues => ?_
    exact keeps_call hwatch hexec (Value.Settled.mono hvalue (.refl b) hext') hvalues line
  | get object name =>
    refine reach ((heval pending object hplaced h howns).bind fun store₁ object _ _ => ?_)
    exact keeps_getProperty name
  | set object name value =>
    rw [Expr.mentions] at howns
    obtain ⟨hobject, hvalue⟩ := howns.split
    refine reach ((heval pending object hplaced.1 h hobject).bind fun store₁ object hext _ => ?_)
    cases object with
    | instanceRef address =>
      refine (heval pending value hplaced.2 (h.mono hext) hvalue).bind
        fun store₂ value _ hsettled => ?_
      refine (keeps_setField address name.text hsettled).bind fun store₃ _ hext' _ => .pure ?_
      exact Value.Settled.mono hsettled (.refl b) hext'
    | _ => exact .fail _ _
  | thisRef id line => exact reach (keeps_read _)
  | superRef id line method => exact reach (keeps_getSuper h hplaced)

/-- Statements of the next depth. -/
theorem executes_succ {host : Host} {fuel : Nat}
    (heval : Evaluates b (Exec.evalWatched host watch fuel) (Exec.eval host fuel))
    (hexec : Executes b (Exec.execWatched host watch fuel) (Exec.exec host fuel)) :
    Executes b (Exec.execWatched host watch (fuel + 1)) (Exec.exec host (fuel + 1)) := by
  intro store scope σ home s hplaced htexts howns h
  have heval' : ∀ {store'} (e : Expr), store.Extends store' → e.Placed b.table b.bound σ →
      Owns home e.mentions → Keeps b store' scope (SettledValue b)
        (Exec.evalWatched host watch fuel none e) (Exec.eval host fuel e) :=
    fun e hext hplaced howns => heval none e hplaced (h.mono hext).housed howns
  cases s with
  | expression value =>
    exact (heval' value (.refl _) hplaced howns).bind fun _ _ _ _ => .pure trivial
  | print value =>
    refine (heval' value (.refl _) hplaced howns).bind fun store₁ value _ _ => ?_
    exact (keeps_print value).bind fun _ _ _ _ => .pure trivial
  | varDecl name initializer =>
    cases initializer with
    | none =>
      have hnil : Value.Settled b store .nil := trivial
      exact (keeps_define (hplaced : σ.Admits name).2 hnil).bind fun _ _ _ _ => .pure trivial
    | some value =>
      obtain ⟨hadmits, hvalue⟩ := hplaced
      -- the initializer already stands in the scope that has the name
      have hinside := (h.declare hadmits.2).housed
      refine Keeps.lookScope ((heval _ value hvalue hinside howns).bind
        fun store₁ value _ hsettled => ?_)
      exact (keeps_define hadmits.2 hsettled).bind fun _ _ _ _ => .pure trivial
  | block body =>
    refine Keeps.currentScope ?_
    have hempty : ∀ (name : String) (value : Datum),
        Bindings.find? ([] : Bindings Datum) name = some value → value.Settled b store := by
      intro name value hvalue
      cases hvalue
    refine (keeps_newScope scope hempty).bind fun store₁ inner _ hinner => ?_
    obtain ⟨rfl, rfl⟩ := hinner
    exact (keeps_execEach hexec body hplaced htexts howns
      (.inner h.pending (List.forall_mem_nil _) rfl h.housed)).inScope
  | ifElse condition thenBranch elseBranch =>
    cases elseBranch with
    | none =>
      obtain ⟨hcondition, -, hthen⟩ := hplaced
      rw [Stmt.ownMentions] at howns
      obtain ⟨hfirst, hsecond⟩ := howns.split
      refine (heval' condition (.refl _) hcondition hfirst).bind fun store₁ value hext _ => ?_
      split
      · exact hexec thenBranch hthen htexts hsecond (h.mono hext)
      · exact .pure trivial
    | some elseBranch =>
      obtain ⟨hcondition, ⟨-, hthen⟩, -, helse⟩ := hplaced
      rw [Stmt.ownMentions] at howns
      rw [Stmt.texts, List.append_subset] at htexts
      obtain ⟨hfirst, hthird⟩ := howns.split
      obtain ⟨hfirst, hsecond⟩ := hfirst.split
      refine (heval' condition (.refl _) hcondition hfirst).bind fun store₁ value hext _ => ?_
      split
      · exact hexec thenBranch hthen htexts.1 hsecond (h.mono hext)
      · exact hexec elseBranch helse htexts.2 hthird (h.mono hext)
  | whileLoop condition body =>
    obtain ⟨hcondition, -, hbody⟩ := hplaced
    rw [Stmt.ownMentions] at howns
    obtain ⟨hfirst, hsecond⟩ := howns.split
    exact keeps_repeatWhile (fun store' hext => heval' condition hext hcondition hfirst)
      (fun store' hext => hexec body hbody htexts hsecond (h.mono hext)) fuel
  | funDecl decl =>
    obtain ⟨hadmits, hfunction⟩ := hplaced
    exact (keeps_declareFunction hadmits hfunction htexts howns h).bind
      fun _ _ _ _ => .pure trivial
  | returnValue line value =>
    cases value with
    | none => exact .pure trivial
    | some value =>
      exact (heval' value (.refl _) hplaced howns).bind fun _ _ _ hvalue => .pure hvalue
  | classDecl decl =>
    have hdeclare := (keeps_declareClass hplaced htexts h).bind
      fun _ _ _ _ => Keeps.pure (R := SettledFlow b) (a := Flow.normal) trivial
    obtain ⟨name, superclass, methods⟩ := decl
    cases superclass with
    | none => exact hdeclare
    | some target =>
      have hlocates := (Lexical.ClassDecl.placed_cases hplaced).2.1 target rfl
      refine Keeps.observe (fun m lawful hstore hscope hway => hwatch m _ lawful hway ?_) hdeclare
      subst hstore hscope
      refine ⟨σ, home, ⟨?_, hlocates.2⟩, h.housed, howns⟩
      rw [h.pending]
      intro hpending
      cases hpending

theorem evaluates_and_executes (host : Host) (fuel : Nat) :
    Evaluates b (Exec.evalWatched host watch fuel) (Exec.eval host fuel) ∧
      Executes b (Exec.execWatched host watch fuel) (Exec.exec host fuel) := by
  induction fuel with
  | zero => exact ⟨fun _ _ _ _ _ => .throw _, fun _ _ _ _ _ => .throw _⟩
  | succ fuel ih =>
    exact ⟨evaluates_succ hwatch ih.1 ih.2, executes_succ hwatch ih.1 ih.2⟩

theorem keeps_runProgram (host : Host) (fuel : Nat) (p : Program)
    (hplaced : Stmt.PlacedEach b.table b.bound .topLevel p) (htexts : Stmt.textsEach p ⊆ b.texts) :
    Keeps b store Store.globals (fun _ _ => True) (Exec.runWatched host watch fuel p)
      (Exec.runProgram host fuel p) := by
  induction p generalizing store with
  | nil => exact .pure trivial
  | cons s ss ih =>
    have htop : Stands store Store.globals .topLevel none := ⟨.globals, rfl, nofun⟩
    rw [Stmt.textsEach, List.append_subset] at htexts
    obtain ⟨-, hexec⟩ := evaluates_and_executes hwatch host fuel
    refine (hexec s hplaced.1 htexts.1 (owns_none _) htop).bind fun store₁ _ _ _ => ih ?_ htexts.2
    have hrest := hplaced.2
    rwa [Program.after_topLevel] at hrest

end

end Lox.Homes
