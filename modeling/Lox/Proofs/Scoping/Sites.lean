/-
Where the names, mentions and returns of a program stand.

A `Site` is a token about which the scoping rules have something to say, with the
layers of code around it, innermost first.  The layers are read off the tree; no
state is carried through the program.

* `Program.sites` — all sites of a program, in the order in which they are looked at;
* `DeclaredIn`, `Innermost` — which local scope around a site has a name;
* `Program.findings_eq_sites` — the findings of a program are those of its sites.
-/
import Lox.Syntax.Declaration
import Lox.Proofs.Lexical.Placement

namespace Lox

/-! ### Layers -/

/-- The name that a statement declares in the scope it stands in. -/
def Stmt.declares? : Stmt → Option Name
  | .varDecl name _ => some name
  | .funDecl function => some function.name
  | .classDecl declared => some declared.name
  | _ => none

/-- Code around a piece of code. -/
inductive Layer where
  /-- A list of statements, in which these come before. -/
  | after (earlier : List Stmt)
  /-- The declaration of a variable, around its initializer. -/
  | initializer (name : Name)
  /-- The declaration of a function or class, around its inside. -/
  | named (name : Name)
  | block
  | function (decl : FunctionDecl) (role : FunctionRole)
  /-- The parameters of a function, of which these come before. -/
  | params (earlier : List Name)
  /-- The scope of `this` around the methods of a class. -/
  | this (decl : ClassDecl)
  /-- The scope of `super` around that of `this`. -/
  | super

namespace Layer

/-- The names that a layer declares for the code in it. -/
def names : Layer → List String
  | after earlier => (earlier.filterMap Stmt.declares?).map Name.text
  | initializer name | named name => [name.text]
  | block | function _ _ => []
  | params earlier => earlier.map Name.text
  | this _ => ["this"]
  | super => ["super"]

/-- Does the layer open a scope of its own?  The other layers put their names into
the scope around them. -/
def opens : Layer → Bool
  | block | function _ _ | this _ | super => true
  | after _ | initializer _ | named _ | params _ => false

/-- The function or method of a layer. -/
def function? : Layer → Option (FunctionDecl × FunctionRole)
  | function decl role => some (decl, role)
  | _ => none

/-- The class of a layer. -/
def cls? : Layer → Option ClassDecl
  | this decl => some decl
  | _ => none

end Layer

variable {layer : Layer} {layers outer : List Layer} {name : String} {d : Nat}

/-- The local scope `d`, counted from the inside out, has the name.  A layer puts its
names into the scope that it opens, or into that of the next layer outside it which
opens one; what is outside of all of them is global. -/
def DeclaredIn (layers : List Layer) (d : Nat) (name : String) : Prop :=
  d < layers.countP Layer.opens ∧
    ∃ i : Fin layers.length,
      (layers.take i).countP Layer.opens = d ∧ name ∈ layers[i].names

instance (layers : List Layer) (d : Nat) (name : String) : Decidable (DeclaredIn layers d name) :=
  inferInstanceAs (Decidable (_ ∧ _))

/-- The local scope `d` is the innermost one that has the name. -/
def Innermost (layers : List Layer) (d : Nat) (name : String) : Prop :=
  DeclaredIn layers d name ∧ ∀ k < d, ¬ DeclaredIn layers k name

instance (layers : List Layer) (d : Nat) (name : String) : Decidable (Innermost layers d name) :=
  inferInstanceAs (Decidable (_ ∧ _))

theorem not_declaredIn_nil : ¬ DeclaredIn [] d name :=
  fun h => Nat.not_lt_zero _ h.1

/-- Inside a layer that opens a scope, the scopes outside are one further away. -/
theorem declaredIn_cons_of_opens (h : layer.opens = true) :
    DeclaredIn (layer :: outer) d name ↔
      (d = 0 ∧ name ∈ layer.names) ∨ ∃ k, d = k + 1 ∧ DeclaredIn outer k name := by
  simp only [DeclaredIn, List.length_cons, Fin.exists_fin_succ, List.countP_cons, h, if_true,
    Fin.val_zero, Fin.val_succ, List.take_zero, List.countP_nil, List.take_succ_cons,
    Fin.getElem_fin, List.getElem_cons_zero, List.getElem_cons_succ]
  constructor
  · rintro ⟨hlt, ⟨hd, hmem⟩ | ⟨i, hd, hmem⟩⟩
    · exact .inl ⟨hd.symm, hmem⟩
    · exact .inr ⟨_, hd.symm, by omega, i, rfl, hmem⟩
  · rintro (⟨rfl, hmem⟩ | ⟨k, rfl, hlt, i, hk, hmem⟩)
    · exact ⟨Nat.succ_pos _, .inl ⟨rfl, hmem⟩⟩
    · exact ⟨by omega, .inr ⟨i, by omega, hmem⟩⟩

/-- The names of a layer that opens no scope are in the innermost scope, if there is
one. -/
theorem declaredIn_cons_of_not_opens (h : layer.opens = false) :
    DeclaredIn (layer :: outer) d name ↔
      (d = 0 ∧ 0 < outer.countP Layer.opens ∧ name ∈ layer.names) ∨ DeclaredIn outer d name := by
  simp only [DeclaredIn, List.length_cons, Fin.exists_fin_succ, List.countP_cons, h,
    Fin.val_zero, Fin.val_succ, List.take_zero, List.countP_nil, List.take_succ_cons,
    Fin.getElem_fin, List.getElem_cons_zero, List.getElem_cons_succ, Bool.false_eq_true,
    if_false, Nat.add_zero]
  constructor
  · rintro ⟨hlt, ⟨rfl, hmem⟩ | hinner⟩
    · exact .inl ⟨rfl, hlt, hmem⟩
    · exact .inr ⟨hlt, hinner⟩
  · rintro (⟨rfl, hlt, hmem⟩ | ⟨hlt, hinner⟩)
    · exact ⟨hlt, .inl ⟨rfl, hmem⟩⟩
    · exact ⟨hlt, .inr hinner⟩

/-! ### Sites -/

/-- What stands at a site. -/
inductive Node where
  /-- The name of a variable, function, class or parameter, where it is declared. -/
  | declares (name : Name)
  | reads (target : Reference)
  | writes (target : Reference)
  | this (id line : Nat)
  | super (id line : Nat) (method : Name)
  | returns (line : Nat) (withValue : Bool)
  /-- The name of a superclass, as part of the declaration of the class. -/
  | inherits (superclass cls : Name)

/-- A token of a program and the layers around it, innermost first. -/
structure Site where
  node : Node
  layers : List Layer

mutual

/-- The sites in an expression. -/
def Expr.sites (around : List Layer) : Expr → List Site
  | .literal _ => []
  | .grouping inner => inner.sites around
  | .unary _ _ operand => operand.sites around
  | .binary left _ _ right => left.sites around ++ right.sites around
  | .logical left _ right => left.sites around ++ right.sites around
  | .varRef target => [⟨.reads target, around⟩]
  | .assign target value => value.sites around ++ [⟨.writes target, around⟩]
  | .call callee arguments _ => callee.sites around ++ Expr.sitesEach around arguments
  | .get object _ => object.sites around
  | .set object _ value => value.sites around ++ object.sites around
  | .thisRef id line => [⟨.this id line, around⟩]
  | .superRef id line method => [⟨.super id line method, around⟩]

/-- The sites in several expressions. -/
def Expr.sitesEach (around : List Layer) : List Expr → List Site
  | [] => []
  | e :: es => e.sites around ++ Expr.sitesEach around es

end

/-- The sites of parameters. -/
def Name.sitesEach (around : List Layer) (earlier : List Name) : List Name → List Site
  | [] => []
  | name :: names =>
    ⟨.declares name, .params earlier :: around⟩ :: Name.sitesEach around (earlier ++ [name]) names

mutual

/-- The sites in a statement. -/
def Stmt.sites (around : List Layer) : Stmt → List Site
  | .expression value => value.sites around
  | .print value => value.sites around
  | .varDecl name none => [⟨.declares name, around⟩]
  | .varDecl name (some value) =>
    ⟨.declares name, around⟩ :: value.sites (.initializer name :: around)
  | .block body => Stmt.sitesEach (.block :: around) [] body
  | .ifElse condition thenBranch none => condition.sites around ++ thenBranch.sites around
  | .ifElse condition thenBranch (some elseBranch) =>
    condition.sites around ++ thenBranch.sites around ++ elseBranch.sites around
  | .whileLoop condition body => condition.sites around ++ body.sites around
  | .funDecl function =>
    ⟨.declares function.name, around⟩ ::
      function.sites .function (.named function.name :: around)
  | .returnValue line none => [⟨.returns line false, around⟩]
  | .returnValue line (some value) => ⟨.returns line true, around⟩ :: value.sites around
  | .classDecl declared => declared.sites around

/-- The sites in a list of statements, before which the given ones come. -/
def Stmt.sitesEach (around : List Layer) (earlier : List Stmt) : List Stmt → List Site
  | [] => []
  | s :: ss => s.sites (.after earlier :: around) ++ Stmt.sitesEach around (earlier ++ [s]) ss

/-- The sites in a function, its parameters first. -/
def FunctionDecl.sites (role : FunctionRole) (around : List Layer) : FunctionDecl → List Site
  | ⟨name, params, body⟩ =>
    Name.sitesEach (.function ⟨name, params, body⟩ role :: around) [] params ++
      Stmt.sitesEach (.params params :: .function ⟨name, params, body⟩ role :: around) [] body

/-- The sites in the methods of a class. -/
def FunctionDecl.sitesEach (around : List Layer) : List FunctionDecl → List Site
  | [] => []
  | f :: fs => f.sites .method around ++ FunctionDecl.sitesEach around fs

/-- The sites in a class. -/
def ClassDecl.sites (around : List Layer) : ClassDecl → List Site
  | ⟨name, none, methods⟩ =>
    ⟨.declares name, around⟩ ::
      FunctionDecl.sitesEach (.this ⟨name, none, methods⟩ :: .named name :: around) methods
  | ⟨name, some superclass, methods⟩ =>
    ⟨.declares name, around⟩ :: ⟨.inherits superclass.name name, around⟩ ::
      ⟨.reads superclass, .named name :: around⟩ ::
      FunctionDecl.sitesEach
        (.this ⟨name, some superclass, methods⟩ :: .super :: .named name :: around) methods

end

/-- The sites of a program. -/
def Program.sites (program : Program) : List Site :=
  Stmt.sitesEach [] [] program

/-! ### The setting of a site -/

namespace Setting

/-- The innermost scope with more names; at the top level nothing changes. -/
def declareEach (setting : Setting) (names : List String) : Setting :=
  match setting.scopes with
  | [] => setting
  | scope :: scopes => { setting with scopes := (names.reverse ++ scope) :: scopes }

/-- What a `return` in the function would leave. -/
def leaving (decl : FunctionDecl) : FunctionRole → Enclosing
  | .function => .function
  | .method => if decl.isInitializer then .initializer else .function

/-- The setting that the given layers make. -/
def within : List Layer → Setting
  | [] => topLevel
  | layer :: outer =>
    let around := { within outer with pending := none }
    match layer with
    | .initializer name => around.initializing name
    | .function decl role => { around.push [] with enclosing := leaving decl role }
    | .this decl =>
      { around.push ["this"] with
        enclosingClass := if decl.superclass.isSome then .derived else .base }
    | .block => around.push []
    | .super => around.push ["super"]
    | .after _ | .named _ | .params _ => around.declareEach layer.names

theorem declareEach_nil (setting : Setting) : setting.declareEach [] = setting := by
  unfold declareEach
  split <;> rename_i h
  · rfl
  · rw [List.reverse_nil, List.nil_append, ← h]

theorem declareEach_singleton (setting : Setting) (name : Name) :
    setting.declareEach [name.text] = setting.declare name := rfl

theorem declareEach_append (setting : Setting) (names more : List String) :
    setting.declareEach (names ++ more) = (setting.declareEach names).declareEach more := by
  unfold declareEach
  rcases h : setting.scopes with _ | ⟨scope, scopes⟩
  · simp only [h]
  · simp only [List.reverse_append, List.append_assoc]

theorem after_eq_declareEach (setting : Setting) (s : Stmt) :
    setting.after s = setting.declareEach (s.declares?.toList.map Name.text) := by
  cases s with
  | varDecl name initializer => rfl
  | funDecl function => rfl
  | classDecl declared => rfl
  | expression value => exact (declareEach_nil setting).symm
  | print value => exact (declareEach_nil setting).symm
  | block body => exact (declareEach_nil setting).symm
  | ifElse condition thenBranch elseBranch => exact (declareEach_nil setting).symm
  | whileLoop condition body => exact (declareEach_nil setting).symm
  | returnValue line value => exact (declareEach_nil setting).symm

theorem declareEach_pending (setting : Setting) (names : List String) :
    (setting.declareEach names).pending = setting.pending := by
  unfold declareEach
  split <;> rfl

theorem declareEach_enclosing (setting : Setting) (names : List String) :
    (setting.declareEach names).enclosing = setting.enclosing := by
  unfold declareEach
  split <;> rfl

theorem declareEach_enclosingClass (setting : Setting) (names : List String) :
    (setting.declareEach names).enclosingClass = setting.enclosingClass := by
  unfold declareEach
  split <;> rfl

theorem within_after_pending (earlier : List Stmt) :
    (within (.after earlier :: outer)).pending = none :=
  declareEach_pending _ _

theorem within_named_pending (name : Name) : (within (.named name :: outer)).pending = none :=
  declareEach_pending _ _

theorem within_params_pending (earlier : List Name) :
    (within (.params earlier :: outer)).pending = none :=
  declareEach_pending _ _

/-- Without a pending variable, entering a layer starts from the setting around it. -/
theorem within_settled (h : (within outer).pending = none) :
    { within outer with pending := none } = within outer := by
  rw [← h]

end Setting

/-! ### The findings at a site -/

/-- The findings at a site, in the setting of its layers. -/
def Site.findings (site : Site) : List Finding :=
  let setting := Setting.within site.layers
  match site.node with
  | .declares name => setting.declaration name
  | .reads target => setting.read target
  | .writes target => setting.locate target.id target.name.text
  | .this id line => setting.readThis id line
  | .super id line _ => setting.readSuper id line
  | .returns line withValue => setting.leave line withValue
  | .inherits superclass cls =>
    if superclass.text = cls.text then [.fault .inheritsFromItself superclass] else []

mutual

theorem Expr.findings_within (layers : List Layer) : ∀ e : Expr,
    e.findings (Setting.within layers) = (e.sites layers).flatMap Site.findings
  | .literal _ => rfl
  | .grouping inner => inner.findings_within layers
  | .unary _ _ operand => operand.findings_within layers
  | .binary left _ _ right => by
    rw [Expr.findings, Expr.sites, List.flatMap_append, left.findings_within,
      right.findings_within]
  | .logical left _ right => by
    rw [Expr.findings, Expr.sites, List.flatMap_append, left.findings_within,
      right.findings_within]
  | .varRef target => (List.append_nil _).symm
  | .assign target value => by
    rw [Expr.findings, Expr.sites, List.flatMap_append, value.findings_within,
      List.flatMap_singleton]
    rfl
  | .call callee arguments _ => by
    rw [Expr.findings, Expr.sites, List.flatMap_append, callee.findings_within,
      Expr.findingsEach_within]
  | .get object _ => object.findings_within layers
  | .set object _ value => by
    rw [Expr.findings, Expr.sites, List.flatMap_append, value.findings_within,
      object.findings_within]
  | .thisRef _ _ => (List.append_nil _).symm
  | .superRef _ _ _ => (List.append_nil _).symm

theorem Expr.findingsEach_within (layers : List Layer) : ∀ es : List Expr,
    Expr.findingsEach (Setting.within layers) es = (Expr.sitesEach layers es).flatMap Site.findings
  | [] => rfl
  | e :: es => by
    rw [Expr.findingsEach, Expr.sitesEach, List.flatMap_append, e.findings_within,
      Expr.findingsEach_within]

end

namespace Setting

/-- Parameters are declared one after the other. -/
theorem parameters_within : ∀ (params earlier : List Name),
    (within (.params earlier :: outer)).parameters params =
      ((Name.sitesEach outer earlier params).flatMap Site.findings,
        within (.params (earlier ++ params) :: outer))
  | [], earlier => by rw [parameters, Name.sitesEach, List.flatMap_nil, List.append_nil]
  | param :: params, earlier => by
    have hdeclare : (within (.params earlier :: outer)).declare param =
        within (.params (earlier ++ [param]) :: outer) := by
      show _ = declareEach _ ((earlier ++ [param]).map Name.text)
      rw [List.map_append, declareEach_append]
      rfl
    rw [parameters, hdeclare, parameters_within params, Name.sitesEach, List.flatMap_cons,
      List.append_assoc]
    rfl

/-- The statements before a statement are declared one after the other. -/
theorem after_within (earlier : List Stmt) (s : Stmt) :
    (within (.after earlier :: outer)).after s = within (.after (earlier ++ [s]) :: outer) := by
  show _ = declareEach _ (((earlier ++ [s]).filterMap Stmt.declares?).map Name.text)
  rw [List.filterMap_append, List.map_append, declareEach_append, after_eq_declareEach]
  cases hs : s.declares? with
  | none => rw [List.filterMap_cons_none hs]; rfl
  | some name => rw [List.filterMap_cons_some hs]; rfl

theorem within_after_nil (h : (within outer).pending = none) :
    within (.after [] :: outer) = within outer := by
  show declareEach _ [] = _
  rw [declareEach_nil, within_settled h]

theorem within_params_nil (h : (within outer).pending = none) :
    within (.params [] :: outer) = within outer := by
  show declareEach _ [] = _
  rw [declareEach_nil, within_settled h]

theorem within_named (h : (within outer).pending = none) (name : Name) :
    within (.named name :: outer) = (within outer).declare name := by
  show declareEach _ [name.text] = _
  rw [declareEach_singleton, within_settled h]

theorem within_initializer (h : (within outer).pending = none) (name : Name) :
    within (.initializer name :: outer) = (within outer).initializing name := by
  show initializing _ name = _
  rw [within_settled h]

theorem within_block (h : (within outer).pending = none) :
    within (.block :: outer) = (within outer).push [] := by
  show push _ [] = _
  rw [within_settled h]

theorem within_function (h : (within outer).pending = none) (decl : FunctionDecl)
    (role : FunctionRole) :
    within (.function decl role :: outer) =
      { within outer with enclosing := leaving decl role }.push [] := by
  simp only [within, push, h]

/-- The setting of the methods of a class. -/
theorem within_this (h : (within outer).pending = none) (decl : ClassDecl) :
    within (.this decl :: outer) =
      { (within outer).push ["this"] with
        enclosingClass := if decl.superclass.isSome then .derived else .base } := by
  simp only [within, within_settled h]

theorem within_super (h : (within outer).pending = none) :
    within (.super :: outer) = (within outer).push ["super"] := by
  show push _ ["super"] = _
  rw [within_settled h]

end Setting

open Setting in
mutual

theorem Stmt.findings_within : ∀ (s : Stmt) {layers : List Layer},
    (within layers).pending = none →
      s.findings (within layers) = (s.sites layers).flatMap Site.findings
  | .expression value, _, _ => value.findings_within _
  | .print value, _, _ => value.findings_within _
  | .varDecl name none, _, _ => (List.append_nil _).symm
  | .varDecl name (some value), _, h => by
    rw [Stmt.findings, Stmt.sites, List.flatMap_cons, ← within_initializer h,
      value.findings_within]
    rfl
  | .block body, _, h => by
    rw [Stmt.findings, Stmt.sites, ← within_block h, ← within_after_nil rfl,
      Stmt.findingsEach_within body rfl]
  | .ifElse condition thenBranch none, _, h => by
    rw [Stmt.findings, Stmt.sites, List.flatMap_append, condition.findings_within,
      thenBranch.findings_within h]
  | .ifElse condition thenBranch (some elseBranch), _, h => by
    rw [Stmt.findings, Stmt.sites, List.flatMap_append, List.flatMap_append,
      condition.findings_within, thenBranch.findings_within h, elseBranch.findings_within h]
  | .whileLoop condition body, _, h => by
    rw [Stmt.findings, Stmt.sites, List.flatMap_append, condition.findings_within,
      body.findings_within h]
  | .funDecl function, _, h => by
    rw [Stmt.findings, Stmt.sites, List.flatMap_cons, ← within_named h,
      ← function.findings_within .function (within_named_pending _)]
    rfl
  | .returnValue line none, _, _ => (List.append_nil _).symm
  | .returnValue line (some value), _, _ => by
    rw [Stmt.findings, Stmt.sites, List.flatMap_cons, value.findings_within]
    rfl
  | .classDecl declared, _, h => declared.findings_within h

theorem Stmt.findingsEach_within : ∀ (ss : List Stmt) {outer : List Layer} {earlier : List Stmt},
    (within outer).pending = none →
      Stmt.findingsEach (within (.after earlier :: outer)) ss =
        (Stmt.sitesEach outer earlier ss).flatMap Site.findings
  | [], _, _, _ => rfl
  | s :: ss, _, _, h => by
    rw [Stmt.findingsEach, Stmt.sitesEach, List.flatMap_append, after_within,
      Stmt.findingsEach_within ss h, s.findings_within (within_after_pending _)]

theorem FunctionDecl.findings_within : ∀ (f : FunctionDecl) (role : FunctionRole)
    {layers : List Layer}, (within layers).pending = none →
      f.findings { within layers with enclosing := leaving f role } =
        (f.sites role layers).flatMap Site.findings
  | ⟨name, params, body⟩, role, layers, h => by
    rw [FunctionDecl.findings, ← within_function h, ← within_params_nil rfl, parameters_within,
      FunctionDecl.sites, List.flatMap_append, List.nil_append]
    rw [← Stmt.findingsEach_within body (within_params_pending _),
      within_after_nil (within_params_pending _)]

theorem FunctionDecl.findingsEach_within : ∀ (fs : List FunctionDecl) {layers : List Layer},
    (within layers).pending = none →
      FunctionDecl.findingsEach (within layers) fs =
        (FunctionDecl.sitesEach layers fs).flatMap Site.findings
  | [], _, _ => rfl
  | f :: fs, _, h => by
    rw [FunctionDecl.findingsEach, FunctionDecl.sitesEach, List.flatMap_append,
      FunctionDecl.findingsEach_within fs h, ← f.findings_within .method h]
    rfl

theorem ClassDecl.findings_within : ∀ (c : ClassDecl) {layers : List Layer},
    (within layers).pending = none →
      c.findings (within layers) = (c.sites layers).flatMap Site.findings
  | ⟨name, none, methods⟩, layers, h => by
    have hnamed : (within (.named name :: layers)).pending = none := within_named_pending name
    rw [ClassDecl.findings, ClassDecl.sites, List.flatMap_cons,
      ← FunctionDecl.findingsEach_within methods rfl, within_this hnamed, within_named h]
    rfl
  | ⟨name, some superclass, methods⟩, layers, h => by
    have hnamed : (within (.named name :: layers)).pending = none := within_named_pending name
    rw [ClassDecl.findings, ClassDecl.sites, List.flatMap_cons, List.flatMap_cons,
      List.flatMap_cons, ← FunctionDecl.findingsEach_within methods rfl, within_this rfl,
      within_super hnamed, List.append_assoc, List.append_assoc, ← within_named h]
    rfl

end

/-- The findings of a program are those of its sites. -/
theorem Program.findings_eq_sites (p : Program) : p.findings = p.sites.flatMap Site.findings := by
  rw [Program.sites, ← Stmt.findingsEach_within p rfl, Setting.within_after_nil rfl]
  rfl

end Lox
