/-
The rules for `return`, and what they promise of a run.

* `Stmt.returns` — the `return`s of a statement that leave the code around it, so not
  those of functions in it;
* `Exec.gives_exec` — a statement that does not end normally ends by one of them;
* `Program.returnsEach_eq_nil`, `Program.returns_of_initializer` — a program without
  scoping faults has no `return` at the top level, and none with a value in a method
  that is an initializer.
-/
import Lox.Proofs.Homes.Sessions

namespace Lox

/-! ### The `return`s of a statement -/

mutual

/-- The lines and values of the `return`s in a statement, but for those of functions. -/
def Stmt.returns : Stmt → List (Nat × Option Expr)
  | .block body => Stmt.returnsEach body
  | .ifElse _ thenBranch none => thenBranch.returns
  | .ifElse _ thenBranch (some elseBranch) => thenBranch.returns ++ elseBranch.returns
  | .whileLoop _ body => body.returns
  | .returnValue line value => [(line, value)]
  | .expression _ | .print _ | .varDecl _ _ | .funDecl _ | .classDecl _ => []

/-- The `return`s in several statements, but for those of functions. -/
def Stmt.returnsEach : List Stmt → List (Nat × Option Expr)
  | [] => []
  | s :: ss => s.returns ++ Stmt.returnsEach ss

end

theorem Stmt.returns_subset {s : Stmt} {ss : List Stmt} (h : s ∈ ss) :
    s.returns ⊆ Stmt.returnsEach ss := by
  induction ss with
  | nil => cases h
  | cons first ss ih =>
    rw [returnsEach]
    rcases List.mem_cons.mp h with rfl | h
    · exact List.subset_append_left _ _
    · exact List.subset_append_of_subset_right _ (ih h)

/-- Code with these `return`s may end so: one without a value gives `nil`. -/
inductive Flow.From (returns : List (Nat × Option Expr)) : Flow → Prop
  | normal : From returns .normal
  | returned {line value given} (mem : (line, value) ∈ returns)
    (given_nil : value = none → given = .nil) : From returns (.returned given)

theorem Flow.From.mono {returns more : List (Nat × Option Expr)} {flow : Flow}
    (h : flow.From returns) (hsub : returns ⊆ more) : flow.From more := by
  cases h with
  | normal => exact .normal
  | returned mem given_nil => exact .returned (hsub mem) given_nil

namespace Exec

open Homes

variable {α : Type} {host : Host} {returns : List (Nat × Option Expr)} {x y : Exec Flow}

/-- Whatever machine it is done on, the action ends by one of the `return`s, if not
normally. -/
def Gives (returns : List (Nat × Option Expr)) (x : Exec Flow) : Prop :=
  ∀ m flow m', x m = .ok flow m' → flow.From returns

theorem Gives.normal : Gives returns (pure .normal) := by
  intro m flow m' h
  cases h
  exact .normal

theorem Gives.throw (abort : Abort) : Gives returns (throw abort) := by
  intro m flow m' h
  cases h

theorem Gives.mono {more : List (Nat × Option Expr)} (h : Gives returns x)
    (hsub : returns ⊆ more) : Gives more x :=
  fun m flow m' hx => (h m flow m' hx).mono hsub

theorem Gives.after {z : Exec α} {f : α → Exec Flow} (h : ∀ a, Gives returns (f a)) :
    Gives returns (z >>= f) := by
  intro m flow m' hx
  obtain ⟨a, between, -, hf⟩ := ok_of_bind_ok hx
  exact h a between flow m' hf

/-- What comes after code that may return. -/
theorem Gives.bind (h : Gives returns x) (h' : Gives returns y) :
    Gives returns (x >>= fun flow =>
      match flow with
      | .normal => y
      | .returned value => pure (.returned value)) := by
  intro m flow m' hx
  obtain ⟨first, between, hfirst, hrest⟩ := ok_of_bind_ok hx
  cases first with
  | normal => exact h' between flow m' hrest
  | returned value =>
    cases hrest
    exact h m _ _ hfirst

theorem Gives.inScope (h : Gives returns x) (scope : ScopeAddress) :
    Gives returns (inScope scope x) := by
  intro m flow m' hx
  unfold Exec.inScope at hx
  dsimp only at hx
  cases hinner : x { m with scope := scope } with
  | ok found left =>
    rw [hinner] at hx
    cases hx
    exact h _ _ _ hinner
  | error abort left =>
    rw [hinner] at hx
    cases hx

theorem gives_execEach {execute : Stmt → Exec Flow} (h : ∀ s, Gives s.returns (execute s))
    (ss : List Stmt) : Gives (Stmt.returnsEach ss) (execEach execute ss) := by
  induction ss with
  | nil => exact .normal
  | cons s ss ih =>
    rw [Stmt.returnsEach]
    exact ((h s).mono (List.subset_append_left _ _)).bind
      (ih.mono (List.subset_append_right _ _))

theorem gives_repeatWhile {condition : Exec Datum} (h : Gives returns x) (fuel : Nat) :
    Gives returns (repeatWhile condition x fuel) := by
  induction fuel with
  | zero => exact .throw _
  | succ fuel ih =>
    refine .after fun value => ?_
    split
    · exact h.bind ih
    · exact .normal

/-- A statement ends normally or by one of its own `return`s. -/
theorem gives_exec (fuel : Nat) (s : Stmt) : Gives s.returns (exec host fuel s) := by
  induction fuel generalizing s with
  | zero =>
    rw [exec]
    exact .throw _
  | succ fuel ih =>
    cases s with
    | expression value => exact .after fun _ => .normal
    | print value => exact .after fun _ => .after fun _ => .normal
    | varDecl name initializer =>
      cases initializer <;> exact .after fun _ => .after fun _ => .normal
    | block body =>
      rw [Stmt.returns]
      exact .after fun _ => .after fun scope => (gives_execEach ih body).inScope scope
    | ifElse condition thenBranch elseBranch =>
      refine .after fun value => ?_
      cases elseBranch with
      | none =>
        split
        · exact ih thenBranch
        · exact .normal
      | some elseBranch =>
        rw [Stmt.returns]
        split
        · exact (ih thenBranch).mono (List.subset_append_left _ _)
        · exact (ih elseBranch).mono (List.subset_append_right _ _)
    | whileLoop condition body =>
      rw [Stmt.returns]
      exact gives_repeatWhile (ih body) fuel
    | funDecl decl => exact .after fun _ => .normal
    | classDecl decl => exact .after fun _ => .normal
    | returnValue line value =>
      rw [Stmt.returns]
      cases value with
      | none =>
        intro m flow m' h
        cases h
        exact .returned List.mem_cons_self fun _ => rfl
      | some value =>
        refine .after fun given m flow m' h => ?_
        cases h
        exact .returned List.mem_cons_self fun hnone => absurd hnone (Option.some_ne_none value)

end Exec

/-! ### The findings for them -/

namespace Setting

variable {setting setting' : Setting}

/-- What a `return` leaves does not depend on the scopes. -/
theorem leave_congr (h : setting'.enclosing = setting.enclosing) (line : Nat) (withValue : Bool) :
    setting'.leave line withValue = setting.leave line withValue := by
  unfold leave
  rw [h]

theorem declare_enclosing (setting : Setting) (name : Name) :
    (setting.declare name).enclosing = setting.enclosing := by
  unfold declare
  split <;> rfl

theorem after_enclosing (setting : Setting) (s : Stmt) :
    (setting.after s).enclosing = setting.enclosing := by
  cases s with
  | varDecl name initializer => exact declare_enclosing setting name
  | funDecl function => exact declare_enclosing setting function.name
  | classDecl declared => exact declare_enclosing setting declared.name
  | _ => rfl

theorem parameters_enclosing (params : List Name) (setting : Setting) :
    (setting.parameters params).2.enclosing = setting.enclosing := by
  induction params generalizing setting with
  | nil => rfl
  | cons param params ih =>
    exact (ih (setting.declare param)).trans (setting.declare_enclosing param)

end Setting

variable {line : Nat} {value : Option Expr}

mutual

theorem Stmt.leave_subset : ∀ (s : Stmt) (setting : Setting), (line, value) ∈ s.returns →
    setting.leave line value.isSome ⊆ s.findings setting
  | .block body, setting, h => by
    rw [Stmt.findings]
    exact Stmt.leaveEach_subset body (setting.push []) h
  | .ifElse condition thenBranch none, setting, h => by
    rw [Stmt.findings]
    exact List.subset_append_of_subset_right _ (thenBranch.leave_subset setting h)
  | .ifElse condition thenBranch (some elseBranch), setting, h => by
    rw [Stmt.returns] at h
    rw [Stmt.findings]
    rcases List.mem_append.mp h with h | h
    · exact List.subset_append_of_subset_left _
        (List.subset_append_of_subset_right _ (thenBranch.leave_subset setting h))
    · exact List.subset_append_of_subset_right _ (elseBranch.leave_subset setting h)
  | .whileLoop condition body, setting, h => by
    rw [Stmt.findings]
    exact List.subset_append_of_subset_right _ (body.leave_subset setting h)
  | .returnValue line none, setting, h => by
    cases List.mem_singleton.mp h
    exact List.Subset.refl _
  | .returnValue line (some given), setting, h => by
    cases List.mem_singleton.mp h
    exact List.subset_append_left _ _
  | .expression _, _, h | .print _, _, h | .varDecl _ _, _, h | .funDecl _, _, h
  | .classDecl _, _, h => by cases h

theorem Stmt.leaveEach_subset : ∀ (ss : List Stmt) (setting : Setting),
    (line, value) ∈ Stmt.returnsEach ss →
      setting.leave line value.isSome ⊆ Stmt.findingsEach setting ss
  | [], _, h => by cases h
  | s :: ss, setting, h => by
    rw [Stmt.findingsEach]
    rcases List.mem_append.mp h with h | h
    · exact List.subset_append_of_subset_left _ (s.leave_subset setting h)
    · rw [← Setting.leave_congr (setting.after_enclosing s)]
      exact List.subset_append_of_subset_right _ (Stmt.leaveEach_subset ss (setting.after s) h)

end

/-- The findings for a `return` in the body of a function are among those of the function. -/
theorem FunctionDecl.leave_subset (f : FunctionDecl) (setting : Setting)
    (h : (line, value) ∈ Stmt.returnsEach f.body) :
    setting.leave line value.isSome ⊆ f.findings setting := by
  obtain ⟨name, params, body⟩ := f
  have hinside : ((setting.push []).parameters params).2.enclosing = setting.enclosing :=
    Setting.parameters_enclosing params (setting.push [])
  rw [FunctionDecl.findings, ← Setting.leave_congr hinside]
  exact List.subset_append_of_subset_right _ (Stmt.leaveEach_subset body _ h)

/-- The findings of a method are among those of its class. -/
theorem FunctionDecl.findings_subset {f : FunctionDecl} {fs : List FunctionDecl} (hf : f ∈ fs)
    (setting : Setting) :
    f.findings { setting with enclosing := if f.isInitializer then .initializer else .function } ⊆
      FunctionDecl.findingsEach setting fs := by
  induction fs with
  | nil => cases hf
  | cons g fs ih =>
    rw [FunctionDecl.findingsEach]
    rcases List.mem_cons.mp hf with rfl | hf
    · exact List.subset_append_left _ _
    · exact List.subset_append_of_subset_right _ (ih hf)

theorem ClassDecl.findings_subset (c : ClassDecl) (setting : Setting) :
    ∃ inside, FunctionDecl.findingsEach inside c.methods ⊆ c.findings setting := by
  obtain ⟨name, superclass, methods⟩ := c
  cases superclass <;> exact ⟨_, List.subset_append_right _ _⟩

/-- What is found in a class, wherever it stands, is among these findings. -/
def ClassDecl.FoundIn (c : ClassDecl) (found : List Finding) : Prop :=
  ∃ setting, c.findings setting ⊆ found

namespace ClassDecl.FoundIn

variable {c : ClassDecl} {found more : List Finding}

theorem before (h : c.FoundIn found) : c.FoundIn (found ++ more) :=
  h.imp fun _ => List.subset_append_of_subset_left more

theorem behind (h : c.FoundIn more) : c.FoundIn (found ++ more) :=
  h.imp fun _ => List.subset_append_of_subset_right found

end ClassDecl.FoundIn

variable {c : ClassDecl}

mutual

theorem Stmt.foundIn_findings : ∀ (s : Stmt) (setting : Setting), .cls c ∈ s.texts →
    c.FoundIn (s.findings setting)
  | .block body, _, h => Stmt.foundIn_findingsEach body _ h
  | .ifElse _ thenBranch none, setting, h => (thenBranch.foundIn_findings setting h).behind
  | .ifElse _ thenBranch (some elseBranch), setting, h => by
    rw [Stmt.texts] at h
    rcases List.mem_append.mp h with h | h
    · exact (thenBranch.foundIn_findings setting h).behind.before
    · exact (elseBranch.foundIn_findings setting h).behind
  | .whileLoop _ body, setting, h => (body.foundIn_findings setting h).behind
  | .funDecl function, _, h => (function.foundIn_findings _ h).behind
  | .classDecl declared, setting, h => declared.foundIn_findings setting h
  | .expression _, _, h | .print _, _, h | .varDecl _ _, _, h | .returnValue _ _, _, h => by cases h

theorem Stmt.foundIn_findingsEach : ∀ (ss : List Stmt) (setting : Setting),
    .cls c ∈ Stmt.textsEach ss → c.FoundIn (Stmt.findingsEach setting ss)
  | [], _, h => by cases h
  | s :: ss, setting, h => by
    rcases List.mem_append.mp h with h | h
    · exact (s.foundIn_findings setting h).before
    · exact (Stmt.foundIn_findingsEach ss (setting.after s) h).behind

theorem FunctionDecl.foundIn_findings : ∀ (f : FunctionDecl) (setting : Setting),
    .cls c ∈ f.texts → c.FoundIn (f.findings setting)
  | ⟨_, _, body⟩, _, h => by
    rcases List.mem_cons.mp h with heq | h
    · cases heq
    · exact (Stmt.foundIn_findingsEach body _ h).behind

theorem FunctionDecl.foundIn_findingsEach : ∀ (fs : List FunctionDecl) (setting : Setting),
    .cls c ∈ FunctionDecl.textsEach fs → c.FoundIn (FunctionDecl.findingsEach setting fs)
  | [], _, h => by cases h
  | f :: fs, setting, h => by
    rcases List.mem_append.mp h with h | h
    · exact (f.foundIn_findings _ h).before
    · exact (FunctionDecl.foundIn_findingsEach fs setting h).behind

theorem ClassDecl.foundIn_findings : ∀ (d : ClassDecl) (setting : Setting),
    .cls c ∈ d.texts → c.FoundIn (d.findings setting)
  | ⟨_, none, methods⟩, setting, h => by
    rcases List.mem_cons.mp h with heq | h
    · cases heq
      exact ⟨setting, List.Subset.refl _⟩
    · exact (FunctionDecl.foundIn_findingsEach methods _ h).behind
  | ⟨_, some _, methods⟩, setting, h => by
    rcases List.mem_cons.mp h with heq | h
    · cases heq
      exact ⟨setting, List.Subset.refl _⟩
    · exact (FunctionDecl.foundIn_findingsEach methods _ h).behind

end

/-! ### Programs without faults -/

namespace Program

variable {p : Program} (hfaults : p.scopingFaults = [])
include hfaults

theorem not_mem_findings (error : ScopingError) (name : Name) :
    Finding.fault error name ∉ p.findings := by
  rw [scopingFaults, List.filterMap_eq_nil_iff] at hfaults
  intro hmem
  cases hfaults _ hmem

/-- There is no `return` at the top level. -/
theorem returnsEach_eq_nil : Stmt.returnsEach p = [] := by
  rw [List.eq_nil_iff_forall_not_mem]
  rintro ⟨line, value⟩ hmem
  exact not_mem_findings hfaults .returnFromTopLevel ⟨"return", line⟩
    (Stmt.leaveEach_subset p .topLevel hmem List.mem_cons_self)

/-- No `return` of an initializer has a value. -/
theorem returns_of_initializer {c : ClassDecl} (hc : .cls c ∈ Stmt.textsEach p)
    {method : FunctionDecl} (hmethod : method ∈ c.methods) (hinit : method.isInitializer = true)
    (hmem : (line, value) ∈ Stmt.returnsEach method.body) : value = none := by
  obtain ⟨setting, hclass⟩ := Stmt.foundIn_findingsEach p .topLevel hc
  obtain ⟨inside, hmethods⟩ := c.findings_subset setting
  have hfindings := List.Subset.trans hmethods hclass
  have hmethod := List.Subset.trans (FunctionDecl.findings_subset hmethod inside) hfindings
  have hleave := List.Subset.trans (method.leave_subset _ hmem) hmethod
  cases value with
  | none => rfl
  | some given =>
    rw [hinit] at hleave
    exact absurd (hleave List.mem_cons_self)
      (not_mem_findings hfaults .returnFromInitializer ⟨"return", line⟩)

end Program

end Lox
