/-
The scoping faults of a program, site by site.

* `Site.Violates` — the rule that a site breaks, in terms of the layers around it;
* `Site.error?` — the same, computed;
* `Program.scopingFaults_exact` — the diagnostics of a program are those of its sites,
  in order.
-/
import Lox.Proofs.Scoping.Distances

namespace Lox

/-! ### The rules -/

namespace Site

/-- The token at a site, to which a diagnostic points. -/
def token (site : Site) : Name :=
  match site.node with
  | .declares name => name
  | .reads target | .writes target => target.name
  | .this _ line => ⟨"this", line⟩
  | .super _ line _ => ⟨"super", line⟩
  | .returns line _ => ⟨"return", line⟩
  | .inherits superclass _ => superclass

/-- The site breaks a rule. -/
inductive Violates : Site → ScopingError → Prop
  /-- A name that an earlier declaration in the same local scope has. -/
  | alreadyDeclared {name : Name} {layers : List Layer}
      (declared : DeclaredIn layers 0 name.text) :
      Violates ⟨.declares name, layers⟩ .alreadyDeclared
  /-- A read of the local variable that is being initialized, unless the name was
  declared in the same scope before. -/
  | readInOwnInitializer {target : Reference} {name : Name} {outer : List Layer}
      (same : target.name.text = name.text) (isLocal : 0 < outer.countP Layer.opens)
      (fresh : ¬ DeclaredIn outer 0 name.text) :
      Violates ⟨.reads target, .initializer name :: outer⟩ .readInOwnInitializer
  /-- A `return` without a function or method around it. -/
  | returnFromTopLevel {line : Nat} {withValue : Bool} {layers : List Layer}
      (outside : layers.findSome? Layer.function? = none) :
      Violates ⟨.returns line withValue, layers⟩ .returnFromTopLevel
  /-- A `return` with a value in a method named `init`. -/
  | returnFromInitializer {line : Nat} {layers : List Layer} {f : FunctionDecl}
      (innermost : layers.findSome? Layer.function? = some (f, .method))
      (named : f.name.text = "init") :
      Violates ⟨.returns line true, layers⟩ .returnFromInitializer
  /-- A `this` without a class around it. -/
  | thisOutsideClass {id line : Nat} {layers : List Layer}
      (outside : layers.findSome? Layer.cls? = none) :
      Violates ⟨.this id line, layers⟩ .thisOutsideClass
  /-- A `super` without a class around it. -/
  | superOutsideClass {id line : Nat} {method : Name} {layers : List Layer}
      (outside : layers.findSome? Layer.cls? = none) :
      Violates ⟨.super id line method, layers⟩ .superOutsideClass
  /-- A `super` in a class without a superclass. -/
  | superWithoutSuperclass {id line : Nat} {method : Name} {layers : List Layer}
      {decl : ClassDecl} (innermost : layers.findSome? Layer.cls? = some decl)
      (base : decl.superclass = none) :
      Violates ⟨.super id line method, layers⟩ .superWithoutSuperclass
  /-- A superclass with the name of the class itself. -/
  | inheritsFromItself {superclass cls : Name} {layers : List Layer}
      (same : superclass.text = cls.text) :
      Violates ⟨.inherits superclass cls, layers⟩ .inheritsFromItself

/-- The rule that a site breaks, if it breaks one. -/
def error? (site : Site) : Option ScopingError :=
  match site.node with
  | .declares name => if DeclaredIn site.layers 0 name.text then some .alreadyDeclared else none
  | .reads target =>
    match site.layers with
    | .initializer name :: outer =>
      if target.name.text = name.text ∧ 0 < outer.countP Layer.opens ∧
          ¬ DeclaredIn outer 0 name.text then
        some .readInOwnInitializer
      else none
    | _ => none
  | .writes _ => none
  | .this _ _ =>
    match site.layers.findSome? Layer.cls? with
    | none => some .thisOutsideClass
    | some _ => none
  | .super _ _ _ =>
    match site.layers.findSome? Layer.cls? with
    | none => some .superOutsideClass
    | some decl => if decl.superclass.isNone then some .superWithoutSuperclass else none
  | .returns _ withValue =>
    match site.layers.findSome? Layer.function? with
    | none => some .returnFromTopLevel
    | some (f, .method) =>
      if withValue ∧ f.name.text = "init" then some .returnFromInitializer else none
    | some (_, .function) => none
  | .inherits superclass cls =>
    if superclass.text = cls.text then some .inheritsFromItself else none

/-- The diagnostic of a site, if it breaks a rule. -/
def diagnostic? (site : Site) : Option Diagnostic :=
  site.error?.map fun error => ⟨site.token.line, .token site.token.text, error.message⟩

/-- The computed rule is one that the site breaks. -/
theorem Violates.of_error? {site : Site} {error : ScopingError} (h : site.error? = some error) :
    site.Violates error := by
  obtain ⟨node, layers⟩ := site
  cases node with
  | declares name =>
    obtain ⟨hdeclared, ⟨⟩⟩ := Option.ite_none_right_eq_some.mp h
    exact .alreadyDeclared hdeclared
  | reads target =>
    simp only [error?] at h
    split at h
    · obtain ⟨⟨hsame, hlocal, hfresh⟩, ⟨⟩⟩ := Option.ite_none_right_eq_some.mp h
      exact .readInOwnInitializer hsame hlocal hfresh
    · cases h
  | writes target => cases h
  | this id line =>
    simp only [error?] at h
    split at h <;> cases h
    exact .thisOutsideClass ‹_›
  | super id line method =>
    simp only [error?] at h
    split at h
    · cases h
      exact .superOutsideClass ‹_›
    · obtain ⟨hbase, ⟨⟩⟩ := Option.ite_none_right_eq_some.mp h
      exact .superWithoutSuperclass ‹_› (Option.isNone_iff_eq_none.mp hbase)
  | returns line withValue =>
    simp only [error?] at h
    split at h
    · cases h
      exact .returnFromTopLevel ‹_›
    · obtain ⟨⟨rfl, hnamed⟩, ⟨⟩⟩ := Option.ite_none_right_eq_some.mp h
      exact .returnFromInitializer ‹_› hnamed
    · cases h
  | inherits superclass cls =>
    obtain ⟨hsame, ⟨⟩⟩ := Option.ite_none_right_eq_some.mp h
    exact .inheritsFromItself hsame

/-- A site breaks one rule at most, and it is the computed one. -/
theorem error?_eq_some_iff {site : Site} {error : ScopingError} :
    site.error? = some error ↔ site.Violates error := by
  refine ⟨Violates.of_error?, fun h => ?_⟩
  cases h with
  | alreadyDeclared declared => exact if_pos declared
  | readInOwnInitializer same isLocal fresh => exact if_pos ⟨same, isLocal, fresh⟩
  | returnFromTopLevel outside => simp only [error?, outside]
  | returnFromInitializer innermost named => simp [error?, innermost, named]
  | thisOutsideClass outside => simp only [error?, outside]
  | superOutsideClass outside => simp only [error?, outside]
  | superWithoutSuperclass innermost base => simp [error?, innermost, base]
  | inheritsFromItself same => exact if_pos same

end Site

/-! ### What a setting knows of its layers -/

namespace Setting

variable {layer : Layer} {layers outer : List Layer}

/-- A name is declared if the innermost scope has it. -/
theorem isDeclared_within (name : Name) :
    (within layers).isDeclared name = true ↔ DeclaredIn layers 0 name.text := by
  rw [← mem_scopes_within, isDeclared, Option.any_eq_true, List.head?_eq_getElem?]
  simp

/-- What a `return` leaves is settled by the innermost function. -/
theorem within_enclosing : ∀ layers : List Layer,
    (within layers).enclosing =
      match layers.findSome? Layer.function? with
      | none => .topLevel
      | some (f, role) => leaving f role
  | [] => rfl
  | layer :: outer => by
    have ih := within_enclosing outer
    cases layer with
    | after _ | named _ | params _ => exact (declareEach_enclosing _ _).trans ih
    | initializer name => exact (declareEach_enclosing _ [name.text]).trans ih
    | block | this _ | super => exact ih
    | function decl role => rfl

/-- The variable that is being initialized, if it is local and new in its scope. -/
theorem within_initializer_pending (name : Name) :
    (within (.initializer name :: outer)).pending =
      if 0 < outer.countP Layer.opens ∧ ¬ DeclaredIn outer 0 name.text then some name.text
      else none := by
  have hscopes : (within outer).scopes ≠ [] ↔ 0 < outer.countP Layer.opens := by
    rw [← within_scopes_length, List.length_pos_iff]
  have hdeclared : isDeclared { within outer with pending := none } name = true ↔
      DeclaredIn outer 0 name.text := isDeclared_within name
  simp only [within, initializing, ← hscopes, ← hdeclared, Bool.and_eq_true, decide_eq_true_eq,
    Bool.not_eq_true', Bool.not_eq_true]

/-- Only the initializer of a variable has a pending one. -/
theorem within_pending_eq_some {text : String} :
    (within layers).pending = some text ↔
      ∃ name outer, layers = .initializer name :: outer ∧ text = name.text ∧
        0 < outer.countP Layer.opens ∧ ¬ DeclaredIn outer 0 name.text := by
  cases layers with
  | nil => simp [within, topLevel]
  | cons layer outer =>
    cases layer with
    | initializer name =>
      rw [within_initializer_pending, Option.ite_none_right_eq_some, Option.some.injEq]
      constructor
      · rintro ⟨⟨hlocal, hfresh⟩, rfl⟩
        exact ⟨name, outer, rfl, rfl, hlocal, hfresh⟩
      · rintro ⟨_, _, ⟨⟩, rfl, hlocal, hfresh⟩
        exact ⟨⟨hlocal, hfresh⟩, rfl⟩
    | after _ => simp [within_after_pending]
    | named _ => simp [within_named_pending]
    | params _ => simp [within_params_pending]
    | block | function _ _ | this _ | super => simp [within, push]

end Setting

/-! ### The faults at a site -/

theorem Finding.diagnostic?_locate (setting : Setting) (id : Nat) (name : String) :
    (setting.locate id name).filterMap Finding.diagnostic? = [] := by
  unfold Setting.locate
  split <;> rfl

open Setting in
/-- The faults that are found at a site are what its rule says. -/
theorem Site.diagnostics_findings (site : Site) :
    site.findings.filterMap Finding.diagnostic? = site.diagnostic?.toList := by
  obtain ⟨node, layers⟩ := site
  cases node with
  | declares name =>
    simp only [findings, declaration, isDeclared_within, diagnostic?, error?]
    split <;> rfl
  | reads target =>
    have hread : Site.findings ⟨.reads target, layers⟩ = (within layers).read target := rfl
    rw [hread, Setting.read, List.filterMap_append, Finding.diagnostic?_locate, List.append_nil]
    by_cases h : (within layers).pending = some target.name.text
    · obtain ⟨name, outer, rfl, hsame, hlocal, hfresh⟩ := within_pending_eq_some.mp h
      rw [if_pos h, diagnostic?, error?_eq_some_iff.mpr (.readInOwnInitializer hsame hlocal hfresh)]
      rfl
    · have hnone : error? ⟨.reads target, layers⟩ = none := by
        refine Option.eq_none_iff_forall_ne_some.mpr fun error herror => h ?_
        cases error?_eq_some_iff.mp herror with
        | readInOwnInitializer same isLocal fresh =>
          exact within_pending_eq_some.mpr ⟨_, _, rfl, same, isLocal, fresh⟩
      rw [if_neg h, diagnostic?, hnone]
      rfl
  | writes target => exact Finding.diagnostic?_locate _ _ _
  | this id line =>
    simp only [findings, readThis, within_enclosingClass, diagnostic?, error?]
    cases layers.findSome? Layer.cls? with
    | none => rfl
    | some decl =>
      cases h : decl.superclass <;> simp [h, Finding.diagnostic?_locate]
  | super id line method =>
    simp only [findings, readSuper, within_enclosingClass, diagnostic?, error?,
      List.filterMap_append, Finding.diagnostic?_locate, List.append_nil]
    cases layers.findSome? Layer.cls? with
    | none => rfl
    | some decl => cases h : decl.superclass <;> simp [h, Finding.diagnostic?, token]
  | returns line withValue =>
    simp only [findings, leave, within_enclosing, diagnostic?, error?]
    rcases layers.findSome? Layer.function? with _ | ⟨f, _ | _⟩
    · rfl
    · rfl
    · by_cases hnamed : f.name.text = "init"
      · have hinit : f.isInitializer = true := decide_eq_true hnamed
        cases withValue <;> simp [leaving, hinit, hnamed, Finding.diagnostic?, token]
      · have hinit : f.isInitializer = false := decide_eq_false hnamed
        simp [leaving, hinit, hnamed]
  | inherits superclass cls =>
    simp only [findings, diagnostic?, error?]
    split <;> rfl

namespace Program

/-- The diagnostics of a program are those of its sites, in the order in which these are
looked at and one at most for each; and the one of a site is about the rule that the
site breaks. -/
theorem scopingFaults_exact (p : Program) :
    p.scopingFaults = p.sites.filterMap Site.diagnostic? ∧
      ∀ (site : Site) (diagnostic : Diagnostic), site.diagnostic? = some diagnostic ↔
        ∃ error, site.Violates error ∧
          diagnostic = ⟨site.token.line, .token site.token.text, error.message⟩ := by
  refine ⟨?_, fun site diagnostic => ?_⟩
  · rw [scopingFaults, findings_eq_sites, List.filterMap_flatMap,
      List.filterMap_eq_flatMap_toList]
    exact congrArg (p.sites.flatMap ·) (funext Site.diagnostics_findings)
  · rw [Site.diagnostic?, Option.map_eq_some_iff]
    simp only [Site.error?_eq_some_iff, @eq_comm _ diagnostic]

end Program

end Lox
