/-
Machines whose functions and classes are as they are written.

A `Basis` says what is written so far, what is known of its references, and between which
stores evaluation goes on.  Relative to a basis

* `Closure.Settled` — a function is written there, and runs where it is written; if it is
  an initializer, it is a bound method;
* `Class.DeclaredBy`, `Class.Made` — a class has the methods that its declaration gives it,
  of several with one name the last one, and they are made where they are written;
* `Lawful` — all values that a machine holds are settled;
* `Class.Made.bind` — a method that is bound to an instance is a home of its own.

All of it stays true when the store is extended, and when the basis grows.
-/
import Lox.Evaluation
import Lox.Proofs.Homes.Store

namespace Lox

/-! ### Methods by their names -/

theorem Bindings.find?_foldl_put {α : Type} (pairs : List (String × α)) (bindings : Bindings α)
    (name : String) :
    (pairs.foldl (fun bindings pair => bindings.put pair.1 pair.2) bindings).find? name =
      ((pairs.reverse.find? (·.1 = name)).map Prod.snd).or (bindings.find? name) := by
  induction pairs generalizing bindings with
  | nil => rfl
  | cons pair pairs ih =>
    rw [List.foldl_cons, ih, List.reverse_cons, List.find?_append, Bindings.find?_put]
    cases pairs.reverse.find? (·.1 = name) with
    | some found => rfl
    | none =>
      by_cases hname : pair.1 = name
      · simp [hname]
      · simp [hname, Ne.symm hname]

/-- Of several bindings for one name the last one counts. -/
theorem Bindings.find?_ofList (pairs : List (String × α)) (name : String) :
    (Bindings.ofList pairs).find? name = (pairs.reverse.find? (·.1 = name)).map Prod.snd := by
  rw [ofList, find?_foldl_put, find?_nil, Option.or_none]

/-- A single binding is all that can be found. -/
theorem Bindings.eq_of_find?_single {α : Type} {key name : String} {a found : α}
    (h : (Bindings.ofList [(key, a)]).find? name = some found) : found = a := by
  have hif : (if key = name then some a else none) = some found := h
  split at hif
  · exact (Option.some.inj hif).symm
  · cases hif

/-- The methods that a declaration gives its class, made in the given scope. -/
def ClassDecl.methodsIn (decl : ClassDecl) (env : ScopeAddress) :
    Bindings (Closure ScopeAddress) :=
  Bindings.ofList
    (decl.methods.map fun method => (method.name.text, ⟨method, env, method.isInitializer⟩))

/-- A method by its name is the last one that is declared with it. -/
theorem ClassDecl.find?_methodsIn (decl : ClassDecl) (env : ScopeAddress) (name : String) :
    (decl.methodsIn env).find? name =
      (decl.methods.reverse.find? (·.name.text = name)).map
        fun method => ⟨method, env, method.isInitializer⟩ := by
  rw [methodsIn, Bindings.find?_ofList, ← List.map_reverse, List.find?_map, Option.map_map]
  rfl

/-- The class is what the declaration makes in the scope: of several methods with one name
it has the last one, and it extends a class if the declaration says so. -/
structure Class.DeclaredBy (decl : ClassDecl) (env : ScopeAddress) (c : Class ScopeAddress) :
    Prop where
  name : c.name = decl.name.text
  methods : ∀ name, c.methods.find? name =
    (decl.methods.reverse.find? (·.name.text = name)).map
      fun method => ⟨method, env, method.isInitializer⟩
  derived : c.superclass.isSome = decl.superclass.isSome

theorem Class.declaredBy (decl : ClassDecl) (superclass : Option (Class ScopeAddress))
    (h : superclass.isSome = decl.superclass.isSome) (env : ScopeAddress) (id : Nat) :
    DeclaredBy decl env ⟨id, decl.name.text, decl.methodsIn env, superclass⟩ :=
  ⟨rfl, decl.find?_methodsIn env, h⟩

/-- The methods of a class are made of those in its declaration. -/
theorem Class.DeclaredBy.method {decl : ClassDecl} {env : ScopeAddress} {c : Class ScopeAddress}
    {name : String} {f : Closure ScopeAddress} (h : c.DeclaredBy decl env)
    (hf : c.methods.find? name = some f) : f.decl ∈ decl.methods ∧ f.env = env := by
  rw [h.methods] at hf
  obtain ⟨method, hfound, rfl⟩ := Option.map_eq_some_iff.mp hf
  exact ⟨List.mem_reverse.mp (List.mem_of_find?_eq_some hfound), rfl⟩

/-! ### Functions and classes -/

/-- Is this a function or a class? -/
def Value.isCode {ρ : Type} : Value ρ → Bool
  | .function _ _ | .classObject _ => true
  | _ => false

/-- No operator makes a function or a class. -/
theorem UnaryOp.isCode_apply {ρ : Type} {op : UnaryOp} {operand value : Value ρ}
    (h : op.apply operand = .ok value) : value.isCode = false := by
  cases op with
  | not =>
    cases h
    rfl
  | negate =>
    -- only a number has a negation
    cases operand <;> cases h
    rfl

theorem BinaryOp.isCode_apply {ρ : Type} {op : BinaryOp} {left right value : Value ρ}
    (h : op.apply left right = .ok value) : value.isCode = false := by
  cases op with
  | equal | notEqual =>
    cases h
    rfl
  | less | lessEqual | greater | greaterEqual | minus | times | divide =>
    simp only [BinaryOp.apply, BinaryOp.onNumbers] at h
    split at h
    · cases h
      rfl
    · cases h
  | plus =>
    have hadd : left.add right = .ok value := h
    unfold Value.add at hadd
    split at hadd <;> cases hadd <;> rfl

/-! ### What is settled -/

/-- The texts of functions and classes so far, the distances of the references with ids
below a bound, the store from which all started, and a store that is reached later. -/
structure Basis where
  texts : List Text
  table : Distances
  bound : Nat
  base : Store
  last : Store

/-- More is written, and the references so far have the distances that they had. -/
structure Basis.Grows (b b' : Basis) : Prop where
  texts : b.texts ⊆ b'.texts
  agrees : b.table.Agrees b.bound b'.table b'.bound

variable (b : Basis) (store : Store)

/-- The function is an initializer: a class has it as such, and its scope binds it to an
instance. -/
def Closure.Initializes (f : Closure ScopeAddress) : Prop :=
  ∃ home : Home, home.Bound store ∧ f = { home.method with env := home.scope }

/-- The function is written, stands where it was resolved, and captures a scope that
belongs to the place where it is written.  Initializers are bound methods. -/
def Closure.Settled (f : Closure ScopeAddress) : Prop :=
  f.decl.texts ⊆ b.texts ∧ (f.isInitializer = true → f.Initializes store) ∧
    ∃ (σ : Setting) (home : Option Home),
      f.decl.Placed b.table b.bound σ ∧ σ.pending = none ∧ Housed store σ.scopes f.env home ∧
        Owns home f.decl.ownMentions

/-- The class is what a declaration made of it, and its methods stand where they were
resolved. -/
def Class.Made (c : Class ScopeAddress) : Prop :=
  ∃ (decl : ClassDecl) (env : ScopeAddress) (σ : Setting) (scopes : List (List String)),
    decl.texts ⊆ b.texts ∧ c.DeclaredBy decl env ∧
      FunctionDecl.PlacedEach b.table b.bound σ decl.methods ∧ σ.pending = none ∧
      σ.scopes = ["this"] :: scopes ∧ Rooted store scopes c env

/-- The class and all that it extends are made by declarations. -/
def Class.Settled (c : Class ScopeAddress) : Prop :=
  ∀ d ∈ c.lineage, d.Made b store

/-- The value is a settled function or class, or any other value. -/
def Value.Settled : Datum → Prop
  | .function _ f => f.Settled b store
  | .classObject c => c.Settled b store
  | _ => True

/-- The instance is one of a settled class, and its fields are settled. -/
structure Instance.Settled (target : Instance) : Prop where
  cls : target.cls.Settled b store
  fields : ∀ name value, target.fields.find? name = some value → value.Settled b store

/-- The ending has a settled value. -/
def Flow.Settled : Flow → Prop
  | .normal => True
  | .returned value => value.Settled b store

/-- The machine knows the distances, its store extends the first one, and all that it
holds is settled. -/
structure Lawful (m : Machine) : Prop where
  table : m.distances = b.table
  grown : b.base.Extends m.store
  values : ∀ scope name value, m.store.lookup scope name = some value → value.Settled b m.store
  instances : ∀ (i : InstanceAddress) target, m.store.instances[i]? = some target →
    target.Settled b m.store

/-! ### What stays settled -/

variable {b store} {b' : Basis} {store' : Store}

theorem Basis.Grows.refl (b : Basis) : b.Grows b :=
  ⟨List.Subset.refl _, Nat.le_refl _, fun _ _ => rfl⟩

theorem Closure.Initializes.mono {f : Closure ScopeAddress} (h : f.Initializes store)
    (hext : store.Extends store') : f.Initializes store' := by
  obtain ⟨home, hbound, heq⟩ := h
  exact ⟨home, hbound.mono hext, heq⟩

theorem Closure.Settled.mono {f : Closure ScopeAddress} (h : f.Settled b store)
    (hgrows : b.Grows b') (hext : store.Extends store') : f.Settled b' store' := by
  obtain ⟨htexts, hinit, σ, home, hplaced, hpending, hhoused, howns⟩ := h
  exact ⟨List.Subset.trans htexts hgrows.texts, fun h => (hinit h).mono hext, σ, home,
    FunctionDecl.placed_mono hgrows.agrees _ hplaced, hpending, hhoused.mono hext, howns⟩

theorem Class.Made.mono {c : Class ScopeAddress} (h : c.Made b store) (hgrows : b.Grows b')
    (hext : store.Extends store') : c.Made b' store' := by
  obtain ⟨decl, env, σ, scopes, htexts, hdeclared, hplaced, hpending, hscopes, hrooted⟩ := h
  exact ⟨decl, env, σ, scopes, List.Subset.trans htexts hgrows.texts, hdeclared,
    FunctionDecl.placedEach_mono hgrows.agrees _ hplaced, hpending, hscopes, hrooted.mono hext⟩

theorem Class.Settled.mono {c : Class ScopeAddress} (h : c.Settled b store)
    (hgrows : b.Grows b') (hext : store.Extends store') : c.Settled b' store' :=
  fun d hd => (h d hd).mono hgrows hext

theorem Value.Settled.mono {value : Datum} (h : value.Settled b store) (hgrows : b.Grows b')
    (hext : store.Extends store') : value.Settled b' store' := by
  cases value with
  | function id f => exact Closure.Settled.mono h hgrows hext
  | classObject c => exact Class.Settled.mono h hgrows hext
  | _ => trivial

theorem Instance.Settled.mono {target : Instance} (h : target.Settled b store)
    (hgrows : b.Grows b') (hext : store.Extends store') : target.Settled b' store' :=
  ⟨h.cls.mono hgrows hext, fun name value hvalue => (h.fields name value hvalue).mono hgrows hext⟩

/-! ### Methods of settled classes -/

/-- Each of several methods that stand where they were resolved does so. -/
theorem FunctionDecl.placed_of_mem {table : Distances} {bound : Nat} {σ : Setting}
    {method : FunctionDecl} {methods : List FunctionDecl}
    (h : FunctionDecl.PlacedEach table bound σ methods) (hmem : method ∈ methods) :
    ∃ enclosing, method.Placed table bound { σ with enclosing := enclosing } := by
  induction methods with
  | nil => cases hmem
  | cons first methods ih =>
    rcases List.mem_cons.mp hmem with rfl | hmem
    · exact ⟨_, h.1⟩
    · exact ih h.2 hmem

/-- What is known of a method that a class has. -/
theorem Class.Made.method {c : Class ScopeAddress} (h : c.Made b store) {name : String}
    {f : Closure ScopeAddress} (hf : c.methods.find? name = some f) :
    f.decl.texts ⊆ b.texts ∧ ∃ (σ : Setting) (scopes : List (List String)),
      f.decl.Placed b.table b.bound σ ∧ σ.pending = none ∧ σ.scopes = ["this"] :: scopes ∧
        Rooted store scopes c f.env := by
  obtain ⟨decl, env, σ, scopes, htexts, hdeclared, hplaced, hpending, hscopes, hrooted⟩ := h
  obtain ⟨hmem, rfl⟩ := hdeclared.method hf
  have hwritten : f.decl.texts ⊆ decl.texts := by
    rw [ClassDecl.texts_eq]
    exact List.subset_cons_of_subset _ (FunctionDecl.texts_subset hmem)
  obtain ⟨enclosing, hmethod⟩ := FunctionDecl.placed_of_mem hplaced hmem
  exact ⟨List.Subset.trans hwritten htexts, _, scopes, hmethod, hpending, hscopes, hrooted⟩

/-- A method that is bound is settled, with itself as its home. -/
theorem Class.Made.bind {c : Class ScopeAddress} (h : c.Made b store) {f : Closure ScopeAddress}
    {scope : ScopeAddress} {this : InstanceAddress}
    (hbound : Home.Bound store ⟨c, f, scope, this⟩) : { f with env := scope }.Settled b store := by
  -- the method stands within `this`, and `this` is what the scope of the home holds
  obtain ⟨name, hf⟩ := hbound.own
  obtain ⟨htexts, σ, scopes, hplaced, hpending, hscopes, hrooted⟩ := h.method hf
  refine ⟨htexts, fun _ => ⟨_, hbound, rfl⟩, σ, some ⟨c, f, scope, this⟩, hplaced, hpending, ?_,
    fun found heq => ?_⟩
  · rw [hscopes]
    exact hrooted.housed hbound
  · cases heq
    exact List.Subset.refl _

end Lox
