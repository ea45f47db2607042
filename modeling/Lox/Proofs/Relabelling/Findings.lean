/-
Scoping does not depend on lines and ids.

The findings in a relabelled program are those of the program, relabelled, so both
have a fault or none has.  At the top level no statement changes the setting of the
next one, so programs may follow one another.

* `Stmt.findings_relabel` and its kin — findings are relabelled with their code;
* `Program.scopingFaults_relabel`, `Program.scopingFaults_append` — freedom from
  faults.
-/
import Lox.Proofs.Relabelling.Syntax
import Lox.Scoping.Findings

namespace Lox

/-- The finding on its new line and with its new id. -/
def Finding.relabel (r : Relabelling) : Finding → Finding
  | .distance id scopes => .distance (r.id id) scopes
  | .fault error name => .fault error (name.relabel r)

variable {r : Relabelling}

/-- A fault that is there under a condition. -/
theorem fault_relabel (c : Prop) [Decidable c] (error : ScopingError) (name : Name) :
    (if c then [Finding.fault error (name.relabel r)] else []) =
      (if c then [Finding.fault error name] else []).map (Finding.relabel r) := by
  by_cases h : c
  · rw [if_pos h, if_pos h]
    rfl
  · rw [if_neg h, if_neg h]
    rfl

namespace Setting

variable (setting : Setting)

theorem declare_relabel (name : Name) : setting.declare (name.relabel r) = setting.declare name :=
  rfl

theorem initializing_relabel (name : Name) :
    setting.initializing (name.relabel r) = setting.initializing name :=
  rfl

theorem declaration_relabel (name : Name) :
    setting.declaration (name.relabel r) = (setting.declaration name).map (Finding.relabel r) :=
  fault_relabel _ _ name

theorem locate_relabel (id : Nat) (name : String) :
    setting.locate (r.id id) name = (setting.locate id name).map (Finding.relabel r) := by
  unfold locate
  split <;> rfl

theorem read_relabel (target : Reference) :
    setting.read (target.relabel r) = (setting.read target).map (Finding.relabel r) := by
  unfold read
  rw [List.map_append, ← locate_relabel, ← fault_relabel]
  rfl

theorem readThis_relabel (id line : Nat) :
    setting.readThis (r.id id) (r.line line) =
      (setting.readThis id line).map (Finding.relabel r) := by
  unfold readThis
  split
  · rfl
  · exact setting.locate_relabel id "this"

theorem readSuper_relabel (id line : Nat) :
    setting.readSuper (r.id id) (r.line line) =
      (setting.readSuper id line).map (Finding.relabel r) := by
  unfold readSuper
  rw [List.map_append, ← locate_relabel]
  split <;> rfl

theorem leave_relabel (line : Nat) (withValue : Bool) :
    setting.leave (r.line line) withValue =
      (setting.leave line withValue).map (Finding.relabel r) := by
  unfold leave
  split
  · rfl
  · split <;> rfl
  · rfl

theorem parameters_relabel (setting : Setting) (params : List Name) :
    setting.parameters (params.map (Name.relabel r)) =
      ((setting.parameters params).1.map (Finding.relabel r), (setting.parameters params).2) := by
  induction params generalizing setting with
  | nil => rfl
  | cons param params ih =>
    simp only [List.map_cons, parameters, declare_relabel, ih, declaration_relabel,
      List.map_append]

theorem after_relabel (s : Stmt) : setting.after (s.relabel r) = setting.after s := by
  cases s with
  | varDecl name initializer => cases initializer <;> rfl
  | ifElse condition thenBranch elseBranch => cases elseBranch <;> rfl
  | returnValue line value => cases value <;> rfl
  | funDecl function =>
    show setting.declare (function.relabel r).name = _
    rw [FunctionDecl.relabel_name]
    rfl
  | classDecl declared =>
    show setting.declare (declared.relabel r).name = _
    rw [ClassDecl.relabel_name]
    rfl
  | _ => rfl

end Setting

mutual

theorem Expr.findings_relabel : ∀ (e : Expr) (setting : Setting),
    (e.relabel r).findings setting = (e.findings setting).map (Finding.relabel r)
  | .literal _, _ => rfl
  | .grouping inner, setting => inner.findings_relabel setting
  | .unary _ _ operand, setting => operand.findings_relabel setting
  | .binary left _ _ right, setting => by
    simp only [Expr.relabel, Expr.findings, List.map_append, left.findings_relabel setting,
      right.findings_relabel setting]
  | .logical left _ right, setting => by
    simp only [Expr.relabel, Expr.findings, List.map_append, left.findings_relabel setting,
      right.findings_relabel setting]
  | .varRef target, setting => setting.read_relabel target
  | .assign target value, setting => by
    simp only [Expr.relabel, Expr.findings, List.map_append, value.findings_relabel setting,
      Reference.relabel_id, Reference.relabel_name, Name.relabel_text, setting.locate_relabel]
  | .call callee arguments _, setting => by
    simp only [Expr.relabel, Expr.findings, List.map_append, callee.findings_relabel setting,
      Expr.findingsEach_relabel arguments setting]
  | .get object _, setting => object.findings_relabel setting
  | .set object _ value, setting => by
    simp only [Expr.relabel, Expr.findings, List.map_append, object.findings_relabel setting,
      value.findings_relabel setting]
  | .thisRef id line, setting => setting.readThis_relabel id line
  | .superRef id line _, setting => setting.readSuper_relabel id line

theorem Expr.findingsEach_relabel : ∀ (es : List Expr) (setting : Setting),
    Expr.findingsEach setting (Expr.relabelEach r es) =
      (Expr.findingsEach setting es).map (Finding.relabel r)
  | [], _ => rfl
  | e :: es, setting => by
    simp only [Expr.relabelEach, Expr.findingsEach, List.map_append, e.findings_relabel setting,
      Expr.findingsEach_relabel es setting]

end

mutual

theorem Stmt.findings_relabel : ∀ (s : Stmt) (setting : Setting),
    (s.relabel r).findings setting = (s.findings setting).map (Finding.relabel r)
  | .expression value, setting => value.findings_relabel setting
  | .print value, setting => value.findings_relabel setting
  | .varDecl name none, setting => setting.declaration_relabel name
  | .varDecl name (some value), setting => by
    simp only [Stmt.relabel, Stmt.findings, List.map_append, setting.declaration_relabel,
      setting.initializing_relabel, value.findings_relabel]
  | .block body, setting => Stmt.findingsEach_relabel body (setting.push [])
  | .ifElse condition thenBranch none, setting => by
    simp only [Stmt.relabel, Stmt.findings, List.map_append, condition.findings_relabel setting,
      thenBranch.findings_relabel setting]
  | .ifElse condition thenBranch (some elseBranch), setting => by
    simp only [Stmt.relabel, Stmt.findings, List.map_append, condition.findings_relabel setting,
      thenBranch.findings_relabel setting, elseBranch.findings_relabel setting]
  | .whileLoop condition body, setting => by
    simp only [Stmt.relabel, Stmt.findings, List.map_append, condition.findings_relabel setting,
      body.findings_relabel setting]
  | .funDecl function, setting => by
    simp only [Stmt.relabel, Stmt.findings, List.map_append, FunctionDecl.relabel_name,
      setting.declaration_relabel, setting.declare_relabel, function.findings_relabel]
  | .returnValue line none, setting => setting.leave_relabel line false
  | .returnValue line (some value), setting => by
    simp only [Stmt.relabel, Stmt.findings, List.map_append, setting.leave_relabel,
      value.findings_relabel setting]
  | .classDecl declared, setting => declared.findings_relabel setting

theorem Stmt.findingsEach_relabel : ∀ (ss : List Stmt) (setting : Setting),
    Stmt.findingsEach setting (Stmt.relabelEach r ss) =
      (Stmt.findingsEach setting ss).map (Finding.relabel r)
  | [], _ => rfl
  | s :: ss, setting => by
    simp only [Stmt.relabelEach, Stmt.findingsEach, List.map_append, s.findings_relabel setting,
      setting.after_relabel, Stmt.findingsEach_relabel ss]

theorem FunctionDecl.findings_relabel : ∀ (f : FunctionDecl) (setting : Setting),
    (f.relabel r).findings setting = (f.findings setting).map (Finding.relabel r)
  | ⟨_, params, body⟩, setting => by
    simp only [FunctionDecl.relabel, FunctionDecl.findings, Setting.parameters_relabel,
      List.map_append, Stmt.findingsEach_relabel body]

theorem FunctionDecl.findingsEach_relabel : ∀ (fs : List FunctionDecl) (setting : Setting),
    FunctionDecl.findingsEach setting (FunctionDecl.relabelEach r fs) =
      (FunctionDecl.findingsEach setting fs).map (Finding.relabel r)
  | [], _ => rfl
  | f :: fs, setting => by
    simp only [FunctionDecl.relabelEach, FunctionDecl.findingsEach, List.map_append,
      FunctionDecl.relabel_isInitializer, f.findings_relabel,
      FunctionDecl.findingsEach_relabel fs setting]

theorem ClassDecl.findings_relabel : ∀ (c : ClassDecl) (setting : Setting),
    (c.relabel r).findings setting = (c.findings setting).map (Finding.relabel r)
  | ⟨name, none, methods⟩, setting => by
    simp only [ClassDecl.relabel, Option.map_none, ClassDecl.findings, List.map_append,
      setting.declaration_relabel, setting.declare_relabel, FunctionDecl.findingsEach_relabel methods]
  | ⟨name, some superclass, methods⟩, setting => by
    have hself : (if (superclass.relabel r).name.text = (name.relabel r).text then
          [Finding.fault .inheritsFromItself (superclass.relabel r).name] else []) =
        (if superclass.name.text = name.text then
          [Finding.fault .inheritsFromItself superclass.name] else []).map (Finding.relabel r) :=
      fault_relabel _ _ superclass.name
    simp only [ClassDecl.relabel, Option.map_some, ClassDecl.findings, List.map_append,
      setting.declaration_relabel, setting.declare_relabel, Setting.read_relabel, hself,
      FunctionDecl.findingsEach_relabel methods]

end

/-! ### Programs -/

namespace Program

theorem findings_relabel (p : Program) :
    (p.relabel r).findings = p.findings.map (Finding.relabel r) :=
  Stmt.findingsEach_relabel p .topLevel

/-- A program and the program with other lines and ids have a fault, or none has. -/
theorem scopingFaults_relabel (p : Program) :
    (p.relabel r).scopingFaults = [] ↔ p.scopingFaults = [] := by
  simp only [scopingFaults, findings_relabel, List.filterMap_eq_nil_iff, List.forall_mem_map]
  refine forall₂_congr fun finding _ => ?_
  cases finding <;> simp [Finding.relabel, Finding.diagnostic?]

/-- Other ids do not show in the diagnostics of the faults. -/
theorem scopingFaults_ids (f : Nat → Nat) (p : Program) :
    (p.relabel (.ids f)).scopingFaults = p.scopingFaults := by
  rw [scopingFaults, findings_relabel, List.filterMap_map]
  refine congrArg (fun diagnostic => p.findings.filterMap diagnostic) (funext fun finding => ?_)
  cases finding <;> rfl

/-- With other ids a program is accepted likewise. -/
theorem checked_ids (f : Nat → Nat) (p : Program) :
    (p.relabel (.ids f)).checked = p.checked.map (relabel (.ids f)) := by
  unfold checked
  rw [scopingFaults_ids]
  split <;> rfl

theorem after_topLevel (s : Stmt) : Setting.topLevel.after s = .topLevel := by
  cases s <;> rfl

theorem findings_append (p q : Program) : findings (p ++ q) = p.findings ++ q.findings := by
  induction p with
  | nil => rfl
  | cons s p ih =>
    have hcons : ∀ q : Program, findings (s :: q) = s.findings .topLevel ++ q.findings := by
      intro q
      rw [findings, Stmt.findingsEach, after_topLevel]
      rfl
    rw [List.cons_append, hcons, hcons, List.append_assoc]
    exact congrArg _ ih

theorem scopingFaults_append (p q : Program) :
    scopingFaults (p ++ q) = p.scopingFaults ++ q.scopingFaults := by
  rw [scopingFaults, findings_append, List.filterMap_append]
  rfl

end Program

end Lox
