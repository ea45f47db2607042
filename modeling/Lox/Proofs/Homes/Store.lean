/-
Where code lies: the bound method around it, its home.

A method is bound to an instance by a new scope that holds `this`.  Code of the method
runs in scopes within that one, so it finds its home by the chain of scopes alone.

* `Class.lineage` — a class and the classes that it extends, the nearest first;
* `Home.Bound` — a scope holds the `this` of a method of a class;
* `Housed` — code with given static scopes runs in a scope and lies in a home, if in any;
* `Housed.this`, `Housed.super` — the distances of `this` and `super` lead to the home;
* `Store.Extends` — what evaluation does to a store: no scope gets another parent, no
  `this` and no `super` another value, and no instance another class.
-/
import Lox.Machine
import Lox.Proofs.Homes.Texts
import Lox.Proofs.Lexical.Placement
import Lox.Proofs.Store.Laws

namespace Lox

/-! ### Lineages -/

/-- The class and the classes that it extends, the nearest first. -/
def Class.lineage {ρ : Type} : Class ρ → List (Class ρ)
  | ⟨id, name, methods, none⟩ => [⟨id, name, methods, none⟩]
  | ⟨id, name, methods, some superclass⟩ =>
    ⟨id, name, methods, some superclass⟩ :: superclass.lineage

namespace Class

variable {ρ : Type}

/-- A method is looked up in the nearest class that has it. -/
theorem method?_eq_findSome? (name : String) : ∀ c : Class ρ,
    c.method? name = c.lineage.findSome? (·.methods.find? name)
  | ⟨_, _, methods, none⟩ => by
    rw [method?, lineage, List.findSome?_cons]
    cases methods.find? name <;> rfl
  | ⟨_, _, methods, some superclass⟩ => by
    rw [method?, lineage, List.findSome?_cons, method?_eq_findSome? name superclass]
    cases methods.find? name <;> rfl

/-- A method that is found is one of a class of the lineage. -/
theorem mem_lineage_of_method? {c : Class ρ} {name : String} {f : Closure ρ}
    (h : c.method? name = some f) : ∃ d ∈ c.lineage, d.methods.find? name = some f := by
  rw [method?_eq_findSome?] at h
  obtain ⟨before, d, after, hlineage, hfound, -⟩ := List.findSome?_eq_some_iff.mp h
  refine ⟨d, ?_, hfound⟩
  rw [hlineage]
  exact List.mem_append_right _ List.mem_cons_self

/-- What a class of the lineage extends is of the lineage too. -/
theorem lineage_subset {d e : Class ρ} (he : d.superclass = some e) : ∀ c : Class ρ,
    d ∈ c.lineage → e.lineage ⊆ c.lineage
  | ⟨id, name, methods, none⟩, h => by
    rw [lineage, List.mem_singleton] at h
    subst h
    cases he
  | ⟨id, name, methods, some superclass⟩, h => by
    rw [lineage] at h ⊢
    rcases List.mem_cons.mp h with rfl | h
    · cases he
      exact List.subset_cons_self _ _
    · exact List.subset_cons_of_subset _ (lineage_subset he superclass h)

end Class

/-! ### Homes -/

/-- A method of a class, bound to an instance by a scope. -/
structure Home where
  cls : Class ScopeAddress
  method : Closure ScopeAddress
  scope : ScopeAddress
  this : InstanceAddress

/-- The method is one of the class, and the scope holds the instance as its `this`.  The
class is one of those that the instance was made of. -/
structure Home.Bound (store : Store) (home : Home) : Prop where
  own : ∃ name, home.cls.methods.find? name = some home.method
  parent : store.parent? home.scope = some home.method.env
  this : store.lookup home.scope "this" = some (.instanceRef home.this)
  ofClass : ∃ target, store.instances[home.this]? = some target ∧ home.cls ∈ target.cls.lineage

/-- Code with these static scopes runs in `scope`, and lies in the bound method `home`, if
in any.  Scopes that no class has made hold neither `this` nor `super`. -/
inductive Housed (store : Store) : List (List String) → ScopeAddress → Option Home → Prop
  | globals : Housed store [] Store.globals none
  | plain {names scopes scope parent home}
    (hparent : store.parent? scope = some parent) (hnames : ∀ name ∈ names, ¬ isReserved name)
    (hthis : store.lookup scope "this" = none) (h : Housed store scopes parent home) :
    Housed store (names :: scopes) scope home
  | base {scopes outer} {home : Home} (hbound : home.Bound store)
    (hclass : home.cls.superclass = none) (h : Housed store scopes home.method.env outer) :
    Housed store (["this"] :: scopes) home.scope (some home)
  | derived {scopes outer superclass parent} {home : Home} (hbound : home.Bound store)
    (hclass : home.cls.superclass = some superclass)
    (hsuper : store.lookup home.method.env "super" = some (.classObject superclass))
    (hparent : store.parent? home.method.env = some parent) (h : Housed store scopes parent outer) :
    Housed store (["this"] :: ["super"] :: scopes) home.scope (some home)

/-- The methods of a class with these static scopes around `this` are made in `env`. -/
def Rooted (store : Store) (scopes : List (List String)) (c : Class ScopeAddress)
    (env : ScopeAddress) : Prop :=
  match c.superclass with
  | none => ∃ outer, Housed store scopes env outer
  | some superclass => ∃ rest parent outer, scopes = ["super"] :: rest ∧
      store.lookup env "super" = some (.classObject superclass) ∧
      store.parent? env = some parent ∧ Housed store rest parent outer

/-- The mentions are in the text of the method that is the home, if there is one. -/
def Owns (home : Option Home) (mentions : List Mention) : Prop :=
  ∀ h, home = some h → mentions ⊆ h.method.decl.ownMentions

variable {store store' : Store} {scopes : List (List String)} {scope : ScopeAddress}
  {home : Option Home}

/-- Code outside of all classes has no home. -/
theorem owns_none (mentions : List Mention) : Owns none mentions := by
  intro h heq
  cases heq

theorem Owns.subset {ms ns : List Mention} (h : Owns home ms) (hsub : ns ⊆ ms) : Owns home ns :=
  fun found heq => List.Subset.trans hsub (h found heq)

theorem Owns.split {ms ns : List Mention} (h : Owns home (ms ++ ns)) :
    Owns home ms ∧ Owns home ns :=
  ⟨h.subset (List.subset_append_left _ _), h.subset (List.subset_append_right _ _)⟩

/-- A bound method is its own home. -/
theorem Rooted.housed {c : Class ScopeAddress} {f : Closure ScopeAddress} {this : InstanceAddress}
    (h : Rooted store scopes c f.env) (hbound : Home.Bound store ⟨c, f, scope, this⟩) :
    Housed store (["this"] :: scopes) scope (some ⟨c, f, scope, this⟩) := by
  rw [Rooted] at h
  cases hsuper : c.superclass with
  | none =>
    rw [hsuper] at h
    obtain ⟨outer, hhoused⟩ := h
    exact Housed.base hbound hsuper hhoused
  | some superclass =>
    rw [hsuper] at h
    obtain ⟨rest, parent, outer, rfl, hlookup, hparent, hhoused⟩ := h
    exact Housed.derived hbound hsuper hlookup hparent hhoused

theorem this_not_mem {names : List String} (h : ∀ name ∈ names, ¬ isReserved name) :
    "this" ∉ names :=
  fun hmem => h _ hmem (.inl rfl)

theorem super_not_mem {names : List String} (h : ∀ name ∈ names, ¬ isReserved name) :
    "super" ∉ names :=
  fun hmem => h _ hmem (.inr rfl)

theorem findIdx?_cons_of_not_mem {names : List String} {name : String} {distance : Nat}
    (hname : name ∉ names) (h : (names :: scopes).findIdx? (name ∈ ·) = some distance) :
    ∃ rest, scopes.findIdx? (name ∈ ·) = some rest ∧ distance = rest + 1 := by
  rw [List.findIdx?_cons, if_neg (by simpa using hname)] at h
  obtain ⟨rest, hrest, rfl⟩ := Option.map_eq_some_iff.mp h
  exact ⟨rest, hrest, rfl⟩

/-- The distance of `this` leads to the home, over scopes that do not hold a `this`. -/
theorem Housed.this {distance : Nat} (h : Housed store scopes scope home)
    (hd : scopes.findIdx? ("this" ∈ ·) = some distance) :
    ∃ found, home = some found ∧ found.Bound store ∧
      store.climb scope distance = some found.scope ∧
      ∀ k < distance, ∀ s, store.climb scope k = some s → store.lookup s "this" = none := by
  induction h generalizing distance with
  | globals => cases hd
  | @plain names scopes scope parent home hparent hnames hthis _ ih =>
    -- no name of this scope is `this`, so the search went on outside it
    obtain ⟨rest, hrest, rfl⟩ := findIdx?_cons_of_not_mem (this_not_mem hnames) hd
    obtain ⟨found, hhome, hbound, hclimb, hbetween⟩ := ih hrest
    refine ⟨found, hhome, hbound, ?_, fun k hk s hs => ?_⟩
    · rw [Store.climb_succ, hparent]
      exact hclimb
    · cases k with
      | zero =>
        cases hs
        exact hthis
      | succ k =>
        rw [Store.climb_succ, hparent] at hs
        exact hbetween k (by omega) s hs
  | base hbound =>
    cases hd
    exact ⟨_, rfl, hbound, rfl, fun k hk => by omega⟩
  | derived hbound =>
    cases hd
    exact ⟨_, rfl, hbound, rfl, fun k hk => by omega⟩

/-- No scope that code runs in is a scope with `super`. -/
theorem Housed.head_ne_super {names : List String} (h : Housed store (names :: scopes) scope home) :
    "super" ∉ names := by
  cases h with
  | plain _ hnames => exact super_not_mem hnames
  | base => simp
  | derived => simp

/-- One scope outside of its `this` the home finds what its class extends. -/
theorem Housed.super {distance : Nat} (h : Housed store scopes scope home)
    (hd : scopes.findIdx? ("this" ∈ ·) = some distance)
    (hd' : scopes.findIdx? ("super" ∈ ·) = some (distance + 1)) :
    ∃ found superclass, home = some found ∧ found.cls.superclass = some superclass ∧
      store.lookup found.method.env "super" = some (.classObject superclass) ∧
      store.getAt scope (distance + 1) "super" = some (.classObject superclass) := by
  induction h generalizing distance with
  | globals => cases hd
  | @plain names scopes scope parent home hparent hnames hthis _ ih =>
    obtain ⟨rest, hrest, rfl⟩ := findIdx?_cons_of_not_mem (this_not_mem hnames) hd
    obtain ⟨rest', hrest', heq⟩ := findIdx?_cons_of_not_mem (super_not_mem hnames) hd'
    have hrest'' : rest' = rest + 1 := by omega
    subst hrest''
    obtain ⟨found, superclass, hhome, hclass, hlookup, hget⟩ := ih hrest hrest'
    refine ⟨found, superclass, hhome, hclass, hlookup, ?_⟩
    rw [Store.getAt, Store.climb_succ, hparent]
    exact hget
  | @base scopes outer found hbound hclass hinner =>
    -- `super` would have to be the name of a scope around the class
    cases hd
    obtain ⟨rest, hrest, heq⟩ := findIdx?_cons_of_not_mem (by simp) hd'
    cases scopes with
    | nil => cases hrest
    | cons names scopes =>
      have hzero : rest = 0 := by omega
      subst hzero
      obtain ⟨rest, -, hne⟩ := findIdx?_cons_of_not_mem hinner.head_ne_super hrest
      omega
  | @derived scopes outer superclass parent found hbound hclass hsuper hparent =>
    cases hd
    refine ⟨found, superclass, rfl, hclass, hsuper, ?_⟩
    rw [Store.getAt, Store.climb_succ, hbound.parent]
    exact hsuper

/-! ### Stores that grow -/

/-- No scope has another parent or another `this` or `super`, and no instance another
class. -/
structure Store.Extends (store store' : Store) : Prop where
  size : store.scopes.size ≤ store'.scopes.size
  parent : ∀ scope < store.scopes.size, store'.parent? scope = store.parent? scope
  reserved : ∀ scope < store.scopes.size, ∀ name, isReserved name →
    store'.lookup scope name = store.lookup scope name
  cls : ∀ (i : InstanceAddress) target, store.instances[i]? = some target →
    ∃ target', store'.instances[i]? = some target' ∧ target'.cls = target.cls

namespace Store

theorem Extends.refl (store : Store) : store.Extends store :=
  ⟨Nat.le_refl _, fun _ _ => rfl, fun _ _ _ _ => rfl, fun _ target h => ⟨target, h, rfl⟩⟩

theorem Extends.trans {store'' : Store} (h : store.Extends store')
    (h' : store'.Extends store'') : store.Extends store'' := by
  constructor
  case size => exact Nat.le_trans h.size h'.size
  case parent =>
    intro scope hlt
    rw [h'.parent scope (Nat.lt_of_lt_of_le hlt h.size), h.parent scope hlt]
  case reserved =>
    intro scope hlt name hname
    rw [h'.reserved scope (Nat.lt_of_lt_of_le hlt h.size) name hname, h.reserved scope hlt name hname]
  case cls =>
    intro i target htarget
    obtain ⟨middle, hmiddle, hsame⟩ := h.cls i target htarget
    obtain ⟨final, hfinal, hsame'⟩ := h'.cls i middle hmiddle
    exact ⟨final, hfinal, hsame'.trans hsame⟩

/-- An assignment defines the name again in the scope that binds it, or changes nothing. -/
theorem replace_snd (store : Store) (target : ScopeAddress) (name : String) (value : Datum) :
    (store.replace target name value).2 = store ∨
      (store.replace target name value).2 = store.define target name value := by
  unfold replace
  split
  · exact .inr rfl
  · exact .inl rfl

theorem assignAt_snd (store : Store) (scope : ScopeAddress) (distance : Nat) (name : String)
    (value : Datum) : (store.assignAt scope distance name value).2 = store ∨
      ∃ target, (store.assignAt scope distance name value).2 = store.define target name value := by
  unfold assignAt
  cases store.climb scope distance with
  | none => exact .inl rfl
  | some target => exact (store.replace_snd target name value).imp_right fun h => ⟨target, h⟩

theorem assign_snd (store : Store) (scope : ScopeAddress) (name : String) (value : Datum) :
    (store.assign scope name value).2 = store ∨
      ∃ target, (store.assign scope name value).2 = store.define target name value := by
  unfold assign
  cases store.owner? scope name with
  | none => exact .inl rfl
  | some target => exact (store.replace_snd target name value).imp_right fun h => ⟨target, h⟩

/-- Only names that are not reserved are defined. -/
theorem extends_define {name : String} (hname : ¬ isReserved name) (value : Datum) :
    store.Extends (store.define scope name value) := by
  refine ⟨Nat.le_of_eq define_size.symm, fun _ _ => parent?_define, fun other _ key hkey => ?_,
    fun _ target h => ⟨target, h, rfl⟩⟩
  refine lookup_define_of_ne (.inr fun heq => hname ?_)
  rw [← heq]
  exact hkey

theorem extends_newScope (parent : ScopeAddress) (bindings : Bindings Datum) :
    store.Extends (store.newScope parent bindings).2 := by
  refine ⟨by rw [newScope_size]; omega, fun scope hlt => ?_, fun scope hlt name _ => ?_,
    fun _ target h => ⟨target, h, rfl⟩⟩
  · rw [parent?_newScope, if_neg (Nat.ne_of_lt hlt)]
  · rw [lookup_newScope, if_neg (Nat.ne_of_lt hlt)]

theorem instances_newInstance {c : Class ScopeAddress} {i : InstanceAddress} :
    (store.newInstance c).2.instances[i]? =
      if i = store.instances.size then some ⟨c, []⟩ else store.instances[i]? :=
  Array.getElem?_push

theorem extends_newInstance (c : Class ScopeAddress) :
    store.Extends (store.newInstance c).2 := by
  refine ⟨Nat.le_refl _, fun _ _ => rfl, fun _ _ _ _ => rfl, fun i target h => ⟨target, ?_, rfl⟩⟩
  have hlt := (Array.getElem?_eq_some_iff.mp h).1
  rw [instances_newInstance, if_neg (Nat.ne_of_lt hlt)]
  exact h

theorem instances_setField (i address : InstanceAddress) (name : String) (value : Datum) :
    (store.setField address name value).instances[i]? =
      if address = i then
        store.instances[i]?.map fun target =>
          { target with fields := target.fields.put name value }
      else store.instances[i]? := by
  rw [setField, Array.getElem?_modify]

theorem extends_setField (address : InstanceAddress) (name : String) (value : Datum) :
    store.Extends (store.setField address name value) := by
  refine ⟨Nat.le_refl _, fun _ _ => rfl, fun _ _ _ _ => rfl, fun i target h => ?_⟩
  rw [instances_setField]
  by_cases heq : address = i
  · rw [if_pos heq, h]
    exact ⟨_, rfl, rfl⟩
  · rw [if_neg heq]
    exact ⟨target, h, rfl⟩

theorem extends_newIdentity : store.Extends store.newIdentity.2 :=
  ⟨Nat.le_refl _, fun _ _ => rfl, fun _ _ _ _ => rfl, fun _ target h => ⟨target, h, rfl⟩⟩

theorem Extends.parent? {parent : ScopeAddress} (h : store.Extends store')
    (hparent : store.parent? scope = some parent) : store'.parent? scope = some parent := by
  rw [h.parent scope (lt_size_of_parent? hparent), hparent]

theorem Extends.lookup {name : String} {value : Datum} (h : store.Extends store')
    (hname : isReserved name) (hvalue : store.lookup scope name = some value) :
    store'.lookup scope name = some value := by
  have hlt : scope < store.scopes.size := lt_size_of_lookup (by rw [hvalue]; rfl)
  rw [h.reserved scope hlt name hname, hvalue]

end Store

theorem Home.Bound.mono {home : Home} (h : home.Bound store) (hext : store.Extends store') :
    home.Bound store' := by
  obtain ⟨target, htarget, hmem⟩ := h.ofClass
  obtain ⟨target', htarget', hsame⟩ := hext.cls _ target htarget
  refine ⟨h.own, hext.parent? h.parent, hext.lookup (.inl rfl) h.this, target', htarget', ?_⟩
  rw [hsame]
  exact hmem

theorem Housed.mono (h : Housed store scopes scope home) (hext : store.Extends store') :
    Housed store' scopes scope home := by
  induction h with
  | globals => exact .globals
  | plain hparent hnames hthis _ ih =>
    refine .plain (hext.parent? hparent) hnames ?_ ih
    rw [hext.reserved _ (Store.lt_size_of_parent? hparent) _ (.inl rfl), hthis]
  | base hbound hclass _ ih => exact .base (hbound.mono hext) hclass ih
  | derived hbound hclass hsuper hparent _ ih =>
    exact .derived (hbound.mono hext) hclass (hext.lookup (.inr rfl) hsuper) (hext.parent? hparent) ih

theorem Rooted.mono {c : Class ScopeAddress} {env : ScopeAddress} (h : Rooted store scopes c env)
    (hext : store.Extends store') : Rooted store' scopes c env := by
  rw [Rooted] at h ⊢
  cases hsuper : c.superclass with
  | none =>
    rw [hsuper] at h
    obtain ⟨outer, hhoused⟩ := h
    exact ⟨outer, hhoused.mono hext⟩
  | some superclass =>
    rw [hsuper] at h
    obtain ⟨rest, parent, outer, rfl, hlookup, hparent, hhoused⟩ := h
    exact ⟨rest, parent, outer, rfl, hext.lookup (.inr rfl) hlookup, hext.parent? hparent,
      hhoused.mono hext⟩

end Lox
