/-
The faults of code depend on little of its surroundings.

Outer scopes matter for distances only.  The faults of a statement depend on the names of
the innermost scope, on the pending variable and on the function and the class around it;
those of a statement that declares nothing do not depend on any scope.  So a block around
such a statement has its faults.

* `Stmt.declares` — whether a statement leaves names behind;
* `Setting.Akin`, `Setting.Alike` — settings that differ in their scopes, or in their
  outer scopes;
* `Stmt.faults_alike`, `Stmt.faults_akin` — statements have the same faults in these.
-/
import Lox.Proofs.Lexical.Resolution

namespace Lox

/-- The diagnostics of findings. -/
def faults (findings : List Finding) : List Diagnostic :=
  findings.filterMap Finding.diagnostic?

theorem faults_append (first second : List Finding) :
    faults (first ++ second) = faults first ++ faults second :=
  List.filterMap_append

/-- Does the statement declare names in the scope that it stands in? -/
def Stmt.declares : Stmt → Bool
  | .varDecl _ _ | .funDecl _ | .classDecl _ => true
  | .ifElse _ thenBranch none => thenBranch.declares
  | .ifElse _ thenBranch (some elseBranch) => thenBranch.declares || elseBranch.declares
  | .whileLoop _ body => body.declares
  | .expression _ | .print _ | .block _ | .returnValue _ _ => false

/-- Branches declare nothing if the statement is proper. -/
theorem Stmt.declares_of_proper : ∀ s : Stmt, s.isDeclaration = false → s.Proper →
    s.declares = false
  | .expression _, _, _ | .print _, _, _ | .block _, _, _ | .returnValue _ _, _, _ => rfl
  | .varDecl _ _, h, _ | .funDecl _, h, _ | .classDecl _, h, _ => nomatch h
  | .ifElse _ thenBranch none, _, ⟨_, hthen, hproper⟩ => by
    rw [declares]
    exact thenBranch.declares_of_proper hthen hproper
  | .ifElse _ thenBranch (some elseBranch), _, ⟨_, ⟨hthen, hproper⟩, helse, hproper'⟩ => by
    rw [declares, thenBranch.declares_of_proper hthen hproper,
      elseBranch.declares_of_proper helse hproper']
    rfl
  | .whileLoop _ body, _, ⟨_, hbody, hproper⟩ => by
    rw [declares]
    exact body.declares_of_proper hbody hproper

/-! ### Settings -/

namespace Setting

/-- The settings differ in nothing but their scopes. -/
structure Akin (σ τ : Setting) : Prop where
  pending : σ.pending = τ.pending
  enclosing : σ.enclosing = τ.enclosing
  enclosingClass : σ.enclosingClass = τ.enclosingClass

/-- The settings differ in nothing but their outer scopes. -/
structure Alike (σ τ : Setting) : Prop extends Akin σ τ where
  innermost : σ.scopes.head? = τ.scopes.head?

variable {σ τ : Setting}

theorem akin_push (σ : Setting) (names : List String) : Akin (σ.push names) σ :=
  ⟨rfl, rfl, rfl⟩

theorem Akin.push (h : Akin σ τ) (names : List String) : Alike (σ.push names) (τ.push names) :=
  ⟨⟨h.pending, h.enclosing, h.enclosingClass⟩, rfl⟩

theorem Alike.withEnclosing (h : Alike σ τ) (enclosing : Enclosing) :
    Alike { σ with enclosing := enclosing } { τ with enclosing := enclosing } :=
  ⟨⟨h.pending, rfl, h.enclosingClass⟩, h.innermost⟩

theorem Alike.withClass (h : Alike σ τ) (enclosingClass : EnclosingClass) :
    Alike { σ with enclosingClass := enclosingClass } { τ with enclosingClass := enclosingClass } :=
  ⟨⟨h.pending, h.enclosing, rfl⟩, h.innermost⟩

theorem Alike.declare (h : Alike σ τ) (name : Name) : Alike (σ.declare name) (τ.declare name) := by
  obtain ⟨scopes, pending, enclosing, cls⟩ := σ
  obtain ⟨scopes', pending', enclosing', cls'⟩ := τ
  obtain ⟨⟨rfl, rfl, rfl⟩, hhead⟩ := h
  cases scopes with
  | nil =>
    cases List.head?_eq_none_iff.mp hhead.symm
    exact ⟨⟨rfl, rfl, rfl⟩, rfl⟩
  | cons scope scopes =>
    obtain ⟨others, rfl⟩ := List.head?_eq_some_iff.mp hhead.symm
    exact ⟨⟨rfl, rfl, rfl⟩, rfl⟩

theorem Alike.isDeclared (h : Alike σ τ) (name : Name) : σ.isDeclared name = τ.isDeclared name := by
  rw [Setting.isDeclared, Setting.isDeclared, h.innermost]

theorem Alike.declaration (h : Alike σ τ) (name : Name) :
    σ.declaration name = τ.declaration name := by
  rw [Setting.declaration, Setting.declaration, h.isDeclared]

theorem Alike.initializing (h : Alike σ τ) (name : Name) :
    Alike (σ.initializing name) (τ.initializing name) := by
  -- Whether there is any scope can be seen from the innermost one.
  have hempty : σ.scopes = [] ↔ τ.scopes = [] := by
    rw [← List.head?_eq_none_iff, ← List.head?_eq_none_iff, h.innermost]
  have hdeclare := h.declare name
  refine ⟨⟨?_, hdeclare.enclosing, hdeclare.enclosingClass⟩, hdeclare.innermost⟩
  simp only [Setting.initializing, h.isDeclared, ne_eq, hempty]

theorem Alike.after (h : Alike σ τ) (s : Stmt) : Alike (σ.after s) (τ.after s) := by
  cases s with
  | varDecl name _ => exact h.declare name
  | funDecl function => exact h.declare function.name
  | classDecl declared => exact h.declare declared.name
  | _ => exact h

theorem Alike.parameters (h : Alike σ τ) (params : List Name) :
    (σ.parameters params).1 = (τ.parameters params).1 ∧
      Alike (σ.parameters params).2 (τ.parameters params).2 := by
  induction params generalizing σ τ with
  | nil => exact ⟨rfl, h⟩
  | cons name params ih =>
    obtain ⟨hfindings, hfinal⟩ := ih (h.declare name)
    refine ⟨?_, hfinal⟩
    show σ.declaration name ++ _ = τ.declaration name ++ _
    rw [h.declaration, hfindings]

/-- No name is at fault for its distance. -/
@[simp] theorem faults_locate (σ : Setting) (id : Nat) (name : String) :
    faults (σ.locate id name) = [] := by
  unfold locate
  split <;> rfl

theorem Akin.read (h : Akin σ τ) (target : Reference) :
    faults (σ.read target) = faults (τ.read target) := by
  -- What is left is the pending variable: to resolve a name in no scope is no fault.
  simp only [Setting.read, faults_append, faults_locate, h.pending]

theorem Akin.readThis (h : Akin σ τ) (id line : Nat) :
    faults (σ.readThis id line) = faults (τ.readThis id line) := by
  rw [Setting.readThis, Setting.readThis, h.enclosingClass]
  split <;> simp only [faults_locate]

theorem Akin.readSuper (h : Akin σ τ) (id line : Nat) :
    faults (σ.readSuper id line) = faults (τ.readSuper id line) := by
  simp only [Setting.readSuper, faults_append, faults_locate, h.enclosingClass]

theorem Akin.leave (h : Akin σ τ) (line : Nat) (withValue : Bool) :
    σ.leave line withValue = τ.leave line withValue := by
  rw [Setting.leave, Setting.leave, h.enclosing]

end Setting

open Setting

variable {σ τ : Setting}

/-! ### Code -/

mutual

/-- The faults of an expression do not depend on scopes. -/
theorem Expr.faults_akin : ∀ (e : Expr) {σ τ : Setting}, Akin σ τ →
    faults (e.findings σ) = faults (e.findings τ)
  | .literal _, _, _, _ => rfl
  | .grouping inner, _, _, h => inner.faults_akin h
  | .unary _ _ operand, _, _, h => operand.faults_akin h
  | .binary left _ _ right, _, _, h | .logical left _ right, _, _, h => by
    rw [findings, findings, faults_append, faults_append, left.faults_akin h, right.faults_akin h]
  | .varRef target, _, _, h => h.read target
  | .assign target value, _, _, h => by
    simp only [findings, faults_append, faults_locate, value.faults_akin h]
  | .call callee arguments _, _, _, h => by
    rw [findings, findings, faults_append, faults_append, callee.faults_akin h,
      Expr.faultsEach_akin arguments h]
  | .get object _, _, _, h => object.faults_akin h
  | .set object _ value, _, _, h => by
    rw [findings, findings, faults_append, faults_append, object.faults_akin h,
      value.faults_akin h]
  | .thisRef id line, _, _, h => h.readThis id line
  | .superRef id line _, _, _, h => h.readSuper id line

theorem Expr.faultsEach_akin : ∀ (es : List Expr) {σ τ : Setting}, Akin σ τ →
    faults (Expr.findingsEach σ es) = faults (Expr.findingsEach τ es)
  | [], _, _, _ => rfl
  | e :: es, _, _, h => by
    rw [findingsEach, findingsEach, faults_append, faults_append, e.faults_akin h,
      Expr.faultsEach_akin es h]

end

mutual

/-- The faults of a statement do not depend on outer scopes. -/
theorem Stmt.faults_alike : ∀ (s : Stmt) {σ τ : Setting}, Alike σ τ →
    faults (s.findings σ) = faults (s.findings τ)
  | .expression value, _, _, h | .print value, _, _, h => value.faults_akin h.toAkin
  | .varDecl name none, _, _, h => congrArg faults (h.declaration name)
  | .varDecl name (some value), _, _, h => by
    rw [Stmt.findings, Stmt.findings, faults_append, faults_append, h.declaration,
      value.faults_akin (h.initializing name).toAkin]
  | .block body, _, _, h => Stmt.faultsEach_alike body (h.toAkin.push [])
  | .ifElse condition thenBranch none, _, _, h => by
    rw [Stmt.findings, Stmt.findings, faults_append, faults_append, condition.faults_akin h.toAkin,
      thenBranch.faults_alike h]
  | .ifElse condition thenBranch (some elseBranch), _, _, h => by
    simp only [Stmt.findings, faults_append, condition.faults_akin h.toAkin,
      thenBranch.faults_alike h, elseBranch.faults_alike h]
  | .whileLoop condition body, _, _, h => by
    rw [Stmt.findings, Stmt.findings, faults_append, faults_append, condition.faults_akin h.toAkin,
      body.faults_alike h]
  | .funDecl function, _, _, h => by
    rw [Stmt.findings, Stmt.findings, faults_append, faults_append, h.declaration,
      function.faults_alike ((h.declare function.name).withEnclosing .function)]
  | .returnValue line none, _, _, h => congrArg faults (h.toAkin.leave line false)
  | .returnValue line (some value), _, _, h => by
    rw [Stmt.findings, Stmt.findings, faults_append, faults_append, h.toAkin.leave,
      value.faults_akin h.toAkin]
  | .classDecl declared, _, _, h => declared.faults_alike h

theorem Stmt.faultsEach_alike : ∀ (ss : List Stmt) {σ τ : Setting}, Alike σ τ →
    faults (Stmt.findingsEach σ ss) = faults (Stmt.findingsEach τ ss)
  | [], _, _, _ => rfl
  | s :: ss, _, _, h => by
    rw [Stmt.findingsEach, Stmt.findingsEach, faults_append, faults_append, s.faults_alike h,
      Stmt.faultsEach_alike ss (h.after s)]

theorem FunctionDecl.faults_alike : ∀ (f : FunctionDecl) {σ τ : Setting}, Alike σ τ →
    faults (f.findings σ) = faults (f.findings τ)
  | ⟨_, params, body⟩, σ, τ, h => by
    obtain ⟨hfindings, hinside⟩ := (h.toAkin.push []).parameters params
    show faults (((σ.push []).parameters params).1 ++ _) =
      faults (((τ.push []).parameters params).1 ++ _)
    rw [faults_append, faults_append, hfindings, Stmt.faultsEach_alike body hinside]

theorem FunctionDecl.faultsEach_alike : ∀ (fs : List FunctionDecl) {σ τ : Setting}, Alike σ τ →
    faults (FunctionDecl.findingsEach σ fs) = faults (FunctionDecl.findingsEach τ fs)
  | [], _, _, _ => rfl
  | f :: fs, _, _, h => by
    rw [FunctionDecl.findingsEach, FunctionDecl.findingsEach, faults_append, faults_append,
      f.faults_alike (h.withEnclosing _), FunctionDecl.faultsEach_alike fs h]

theorem ClassDecl.faults_alike : ∀ (c : ClassDecl) {σ τ : Setting}, Alike σ τ →
    faults (c.findings σ) = faults (c.findings τ)
  | ⟨name, none, methods⟩, _, _, h => by
    have hmethods := ((h.declare name).toAkin.push ["this"]).withClass .base
    rw [ClassDecl.findings, ClassDecl.findings, faults_append, faults_append, h.declaration,
      FunctionDecl.faultsEach_alike methods hmethods]
  | ⟨name, some superclass, methods⟩, _, _, h => by
    have hmethods :=
      (((h.declare name).toAkin.push ["super"]).toAkin.push ["this"]).withClass .derived
    simp only [ClassDecl.findings, faults_append, h.declaration, (h.declare name).toAkin.read,
      FunctionDecl.faultsEach_alike methods hmethods]

end

/-- The faults of a statement that declares nothing do not depend on scopes. -/
theorem Stmt.faults_akin : ∀ (s : Stmt), s.declares = false → ∀ {σ τ : Setting}, Akin σ τ →
    faults (s.findings σ) = faults (s.findings τ)
  | .expression value, _, _, _, h | .print value, _, _, _, h => value.faults_akin h
  | .varDecl _ _, hs, _, _, _ | .funDecl _, hs, _, _, _ | .classDecl _, hs, _, _, _ => by
    simp only [declares, reduceCtorEq] at hs
  | .block body, _, _, _, h => Stmt.faultsEach_alike body (h.push [])
  | .ifElse condition thenBranch none, hs, _, _, h => by
    rw [declares] at hs
    rw [findings, findings, faults_append, faults_append, condition.faults_akin h,
      thenBranch.faults_akin hs h]
  | .ifElse condition thenBranch (some elseBranch), hs, _, _, h => by
    rw [declares, Bool.or_eq_false_iff] at hs
    simp only [findings, faults_append, condition.faults_akin h, thenBranch.faults_akin hs.1 h,
      elseBranch.faults_akin hs.2 h]
  | .whileLoop condition body, hs, _, _, h => by
    rw [declares] at hs
    rw [findings, findings, faults_append, faults_append, condition.faults_akin h,
      body.faults_akin hs h]
  | .returnValue line none, _, _, _, h => congrArg faults (h.leave line false)
  | .returnValue line (some value), _, _, _, h => by
    rw [findings, findings, faults_append, faults_append, h.leave, value.faults_akin h]

/-- A block around a statement that declares nothing has its faults. -/
theorem Stmt.faults_block {s : Stmt} (h : s.declares = false) (σ : Setting) :
    faults (Stmt.findings σ (.block [s])) = faults (s.findings σ) := by
  show faults (s.findings (σ.push []) ++ []) = _
  rw [List.append_nil]
  exact s.faults_akin h (akin_push σ [])

end Lox
