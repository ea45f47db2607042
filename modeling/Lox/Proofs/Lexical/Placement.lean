/-
Code that stands where it was resolved.

`Placed table bound setting` says of a piece of code that it has no scoping fault in
this setting, that its references have ids below `bound`, and that the table has for
each of them the distance of its name, or nothing for a global name.  This is all
that a run needs to know about how its program was resolved.

* `Stmt.Placed`, `FunctionDecl.Placed`, `ClassDecl.Placed` — the judgement;
* `Stmt.placed_mono` and its kin — it stays true when the table gets distances for
  other ids.
-/
import Lox.Scoping.Findings
import Lox.Syntax.Mentions

namespace Lox

/-- The words under which an instance and a superclass are bound. -/
def isReserved (name : String) : Prop :=
  name = "this" ∨ name = "super"

/-- The second table is good for more ids, and the same for the ids of the first. -/
structure Distances.Agrees (table : Distances) (bound : Nat) (table' : Distances)
    (bound' : Nat) : Prop where
  le : bound ≤ bound'
  eq : ∀ id < bound, table'[id]? = table[id]?

/-- Is this a statement that declares a name? -/
def Stmt.isDeclaration : Stmt → Bool
  | .varDecl _ _ | .funDecl _ | .classDecl _ => true
  | _ => false

namespace Setting

/-- The name may be declared here. -/
def Admits (setting : Setting) (name : Name) : Prop :=
  setting.isDeclared name = false ∧ ¬ isReserved name.text

/-- The table says where the name of this reference is bound. -/
def Locates (table : Distances) (bound : Nat) (setting : Setting) (id : Nat) (name : String) :
    Prop :=
  id < bound ∧ table[id]? = setting.distance? name

/-- The setting of the body of a function. -/
def inside (setting : Setting) (params : List Name) : Setting :=
  setting.push (params.map Name.text).reverse

/-- The setting of the methods of a class. -/
def insideClass (setting : Setting) (decl : ClassDecl) : Setting :=
  match decl.superclass with
  | none => { (setting.declare decl.name).push ["this"] with enclosingClass := .base }
  | some _ =>
    { ((setting.declare decl.name).push ["super"]).push ["this"] with enclosingClass := .derived }

end Setting

variable (table : Distances) (bound : Nat)

mutual

/-- The expression stands where it was resolved. -/
def Expr.Placed (setting : Setting) : Expr → Prop
  | .literal _ => True
  | .grouping inner => inner.Placed setting
  | .unary _ _ operand => operand.Placed setting
  | .binary left _ _ right => left.Placed setting ∧ right.Placed setting
  | .logical left _ right => left.Placed setting ∧ right.Placed setting
  | .varRef target =>
    setting.pending ≠ some target.name.text ∧
      setting.Locates table bound target.id target.name.text
  | .assign target value =>
    ¬ isReserved target.name.text ∧ setting.Locates table bound target.id target.name.text ∧
      value.Placed setting
  | .call callee arguments _ =>
    callee.Placed setting ∧ Expr.PlacedEach setting arguments
  | .get object _ => object.Placed setting
  | .set object _ value => object.Placed setting ∧ value.Placed setting
  | .thisRef id _ =>
    setting.Locates table bound id "this" ∧ ∃ scopes, setting.distance? "this" = some scopes
  | .superRef id _ _ =>
    setting.Locates table bound id "super" ∧
      ∃ scopes, setting.distance? "super" = some (scopes + 1) ∧
        setting.distance? "this" = some scopes

/-- The expressions stand where they were resolved. -/
def Expr.PlacedEach (setting : Setting) : List Expr → Prop
  | [] => True
  | e :: es => e.Placed setting ∧ Expr.PlacedEach setting es

end

mutual

/-- The statement stands where it was resolved. -/
def Stmt.Placed (setting : Setting) : Stmt → Prop
  | .expression value => value.Placed table bound setting
  | .print value => value.Placed table bound setting
  | .varDecl name none => setting.Admits name
  | .varDecl name (some value) =>
    setting.Admits name ∧ value.Placed table bound (setting.initializing name)
  | .block body => Stmt.PlacedEach (setting.push []) body
  | .ifElse condition thenBranch none =>
    condition.Placed table bound setting ∧
      thenBranch.isDeclaration = false ∧ thenBranch.Placed setting
  | .ifElse condition thenBranch (some elseBranch) =>
    condition.Placed table bound setting ∧
      (thenBranch.isDeclaration = false ∧ thenBranch.Placed setting) ∧
      elseBranch.isDeclaration = false ∧ elseBranch.Placed setting
  | .whileLoop condition body =>
    condition.Placed table bound setting ∧ body.isDeclaration = false ∧ body.Placed setting
  | .funDecl function =>
    setting.Admits function.name ∧
      function.Placed { setting.declare function.name with enclosing := .function }
  | .returnValue _ none => True
  | .returnValue _ (some value) => value.Placed table bound setting
  | .classDecl declared => declared.Placed setting

/-- The statements stand where they were resolved. -/
def Stmt.PlacedEach (setting : Setting) : List Stmt → Prop
  | [] => True
  | s :: ss => s.Placed setting ∧ Stmt.PlacedEach (setting.after s) ss

/-- The body of the function stands where it was resolved. -/
def FunctionDecl.Placed (setting : Setting) : FunctionDecl → Prop
  | ⟨_, params, body⟩ =>
    (params.map Name.text).Nodup ∧ (∀ param ∈ params, ¬ isReserved param.text) ∧
      Stmt.PlacedEach (setting.inside params) body

/-- The methods stand where they were resolved. -/
def FunctionDecl.PlacedEach (setting : Setting) : List FunctionDecl → Prop
  | [] => True
  | f :: fs =>
    f.Placed { setting with enclosing := if f.isInitializer then .initializer else .function } ∧
      FunctionDecl.PlacedEach setting fs

/-- The class stands where it was resolved. -/
def ClassDecl.Placed (setting : Setting) : ClassDecl → Prop
  | ⟨name, none, methods⟩ =>
    setting.Admits name ∧
      FunctionDecl.PlacedEach (setting.insideClass ⟨name, none, methods⟩) methods
  | ⟨name, some superclass, methods⟩ =>
    setting.Admits name ∧ superclass.name.text ≠ name.text ∧
      setting.Locates table bound superclass.id superclass.name.text ∧
      FunctionDecl.PlacedEach (setting.insideClass ⟨name, some superclass, methods⟩) methods

end

/-! ### Distances -/

namespace Setting

variable {table bound}

@[simp] theorem push_pending (setting : Setting) (names : List String) :
    (setting.push names).pending = setting.pending := rfl

@[simp] theorem push_scopes (setting : Setting) (names : List String) :
    (setting.push names).scopes = names :: setting.scopes := rfl

@[simp] theorem declare_pending (setting : Setting) (name : Name) :
    (setting.declare name).pending = setting.pending := by
  unfold declare
  split <;> rfl

@[simp] theorem declare_enclosingClass (setting : Setting) (name : Name) :
    (setting.declare name).enclosingClass = setting.enclosingClass := by
  unfold declare
  split <;> rfl

theorem declare_scopes (setting : Setting) (name : Name) :
    (setting.declare name).scopes =
      match setting.scopes with
      | [] => []
      | scope :: scopes => (name.text :: scope) :: scopes := by
  unfold declare
  split <;> rename_i h <;> simp only [h]

theorem distance?_push (setting : Setting) (names : List String) (name : String) :
    (setting.push names).distance? name =
      if name ∈ names then some 0 else (setting.distance? name).map (· + 1) := by
  simp only [distance?, push_scopes, List.findIdx?_cons]
  by_cases h : name ∈ names <;> simp [h]

/-- A declaration does not change where other names are bound. -/
theorem distance?_declare (setting : Setting) {name : Name} {other : String}
    (h : other ≠ name.text) : (setting.declare name).distance? other = setting.distance? other := by
  simp only [distance?, declare_scopes]
  cases setting.scopes with
  | nil => rfl
  | cons scope scopes => simp [List.findIdx?_cons, h]

theorem Locates.mono {table' : Distances} {bound' : Nat} {setting : Setting} {id : Nat}
    {name : String} (h : setting.Locates table bound id name)
    (agree : table.Agrees bound table' bound') : setting.Locates table' bound' id name :=
  ⟨Nat.lt_of_lt_of_le h.1 agree.le, by rw [agree.eq id h.1, h.2]⟩

end Setting

/-! ### Tables with more distances -/

section

variable {table bound} {table' : Distances} {bound' : Nat}

mutual

theorem Expr.placed_mono (agree : table.Agrees bound table' bound') {setting : Setting} :
    ∀ e : Expr, e.Placed table bound setting →
    e.Placed table' bound' setting
  | .literal _, _ => trivial
  | .grouping inner, h => Expr.placed_mono agree inner h
  | .unary _ _ operand, h => Expr.placed_mono agree operand h
  | .binary left _ _ right, ⟨h, h'⟩ =>
    ⟨Expr.placed_mono agree left h, Expr.placed_mono agree right h'⟩
  | .logical left _ right, ⟨h, h'⟩ =>
    ⟨Expr.placed_mono agree left h, Expr.placed_mono agree right h'⟩
  | .varRef _, ⟨h, h'⟩ => ⟨h, h'.mono agree⟩
  | .assign _ value, ⟨h, h', h''⟩ => ⟨h, h'.mono agree, Expr.placed_mono agree value h''⟩
  | .call callee arguments _, ⟨h, h'⟩ =>
    ⟨Expr.placed_mono agree callee h, Expr.placedEach_mono agree arguments h'⟩
  | .get object _, h => Expr.placed_mono agree object h
  | .set object _ value, ⟨h, h'⟩ =>
    ⟨Expr.placed_mono agree object h, Expr.placed_mono agree value h'⟩
  | .thisRef _ _, ⟨h, h'⟩ => ⟨h.mono agree, h'⟩
  | .superRef _ _ _, ⟨h, h'⟩ => ⟨h.mono agree, h'⟩

theorem Expr.placedEach_mono (agree : table.Agrees bound table' bound') {setting : Setting} :
    ∀ es : List Expr,
    Expr.PlacedEach table bound setting es → Expr.PlacedEach table' bound' setting es
  | [], _ => trivial
  | e :: es, ⟨h, h'⟩ => ⟨Expr.placed_mono agree e h, Expr.placedEach_mono agree es h'⟩

end

mutual

theorem Stmt.placed_mono (agree : table.Agrees bound table' bound') :
    ∀ (s : Stmt) {setting : Setting}, s.Placed table bound setting →
    s.Placed table' bound' setting
  | .expression value, _, h => Expr.placed_mono agree value h
  | .print value, _, h => Expr.placed_mono agree value h
  | .varDecl _ none, _, h => h
  | .varDecl _ (some value), _, ⟨h, h'⟩ => ⟨h, Expr.placed_mono agree value h'⟩
  | .block body, _, h => Stmt.placedEach_mono agree body h
  | .ifElse condition thenBranch none, _, ⟨h, hd, h'⟩ =>
    ⟨Expr.placed_mono agree condition h, hd, Stmt.placed_mono agree thenBranch h'⟩
  | .ifElse condition thenBranch (some elseBranch), _, ⟨h, ⟨hd, h'⟩, hd', h''⟩ =>
    ⟨Expr.placed_mono agree condition h, ⟨hd, Stmt.placed_mono agree thenBranch h'⟩, hd',
      Stmt.placed_mono agree elseBranch h''⟩
  | .whileLoop condition body, _, ⟨h, hd, h'⟩ =>
    ⟨Expr.placed_mono agree condition h, hd, Stmt.placed_mono agree body h'⟩
  | .funDecl function, _, ⟨h, h'⟩ => ⟨h, FunctionDecl.placed_mono agree function h'⟩
  | .returnValue _ none, _, _ => trivial
  | .returnValue _ (some value), _, h => Expr.placed_mono agree value h
  | .classDecl declared, _, h => ClassDecl.placed_mono agree declared h

theorem Stmt.placedEach_mono (agree : table.Agrees bound table' bound') :
    ∀ (ss : List Stmt) {setting : Setting},
    Stmt.PlacedEach table bound setting ss → Stmt.PlacedEach table' bound' setting ss
  | [], _, _ => trivial
  | s :: ss, _, ⟨h, h'⟩ => ⟨Stmt.placed_mono agree s h, Stmt.placedEach_mono agree ss h'⟩

theorem FunctionDecl.placed_mono (agree : table.Agrees bound table' bound') :
    ∀ (f : FunctionDecl) {setting : Setting},
    f.Placed table bound setting → f.Placed table' bound' setting
  | ⟨_, _, body⟩, _, ⟨h, h', h''⟩ => ⟨h, h', Stmt.placedEach_mono agree body h''⟩

theorem FunctionDecl.placedEach_mono (agree : table.Agrees bound table' bound') :
    ∀ (fs : List FunctionDecl) {setting : Setting},
    FunctionDecl.PlacedEach table bound setting fs →
      FunctionDecl.PlacedEach table' bound' setting fs
  | [], _, _ => trivial
  | f :: fs, _, ⟨h, h'⟩ =>
    ⟨FunctionDecl.placed_mono agree f h, FunctionDecl.placedEach_mono agree fs h'⟩

theorem ClassDecl.placed_mono (agree : table.Agrees bound table' bound') :
    ∀ (c : ClassDecl) {setting : Setting},
    c.Placed table bound setting → c.Placed table' bound' setting
  | ⟨_, none, methods⟩, _, ⟨h, h'⟩ => ⟨h, FunctionDecl.placedEach_mono agree methods h'⟩
  | ⟨_, some _, methods⟩, _, ⟨h, hne, h', h''⟩ =>
    ⟨h, hne, h'.mono agree, FunctionDecl.placedEach_mono agree methods h''⟩

end

end

end Lox
