/-
Values, chains of scopes and whole states that correspond.

A `Layout` names the variable behind every cell: `links` lists, cell by cell, the
scope and the name.  Relative to a layout

* `Chain` relates the static scopes at a piece of code, the scope in which a machine
  runs it and the list of variables in sight in which a world does;
* `Related` relates values: closures when they have the same code, it is placed, and
  their environments are a chain;
* `Tied` relates a machine and a world;
* `Grows` says how a layout may change, and `Related.mono` and `Chain.mono` that
  everything that is related stays so.
-/
import Mathlib.Data.List.Forall2
import Lox.Proofs.Lexical.Placement
import Lox.Proofs.Lexical.Semantics
import Lox.Proofs.Store.Laws

namespace Lox.Lexical

/-- The table of distances and the first id it does not cover, the store, and the
variable behind every cell. -/
structure Layout where
  table : Distances
  bound : Nat
  store : Store
  links : List (ScopeAddress × String)

/-- The entries are those of the names, all in the given scope. -/
def Layout.Entries (l : Layout) (scope : ScopeAddress) : List String → Env → Prop :=
  List.Forall₂ fun name entry => entry.1 = name ∧ l.links[entry.2]? = some (scope, name)

/-- A machine in `scope` has the variables of `env` in sight, which belong to the given
static scopes.  All of them have a value, but for the pending one in the innermost
scope. -/
inductive Chain (l : Layout) : Option String → List (List String) → ScopeAddress → Env → Prop
  | globals {pending} : Chain l pending [] Store.globals []
  | scope {pending names scopes scope parent entries env}
    (hparent : l.store.parent? scope = some parent) (hentries : l.Entries scope names entries)
    (hbound : ∀ name ∈ names, pending ≠ some name → (l.store.lookup scope name).isSome)
    (h : Chain l none scopes parent env) :
    Chain l pending (names :: scopes) scope (entries ++ env)

/-- The closures have the same code, which stands where it was resolved.  The closure
of an initializer is bound: `this` is alone in its innermost scope. -/
def FunctionRelated (l : Layout) (f : Closure ScopeAddress) (g : Closure Env) : Prop :=
  f.decl = g.decl ∧ f.isInitializer = g.isInitializer ∧ ∃ setting : Setting,
    f.decl.Placed l.table l.bound setting ∧ setting.pending = none ∧
      Chain l none setting.scopes f.env g.env ∧
      (f.isInitializer = true → ∃ scopes, setting.scopes = ["this"] :: scopes)

/-- As methods, the closures still lack the scope with `this`. -/
def MethodRelated (l : Layout) (f : Closure ScopeAddress) (g : Closure Env) : Prop :=
  f.decl = g.decl ∧ f.isInitializer = g.isInitializer ∧ ∃ (setting : Setting) (scopes : _),
    f.decl.Placed l.table l.bound setting ∧ setting.pending = none ∧
      setting.scopes = ["this"] :: scopes ∧ Chain l none scopes f.env g.env

/-- The classes have the same identity and name, and related methods and superclasses. -/
inductive ClassRelated (l : Layout) : Class ScopeAddress → Class Env → Prop
  | base {id name methods methods'}
    (hmethods : ∀ key, Option.Rel (MethodRelated l) (methods.find? key) (methods'.find? key)) :
    ClassRelated l ⟨id, name, methods, none⟩ ⟨id, name, methods', none⟩
  | derived {id name methods methods' c d}
    (hmethods : ∀ key, Option.Rel (MethodRelated l) (methods.find? key) (methods'.find? key))
    (hsuper : ClassRelated l c d) :
    ClassRelated l ⟨id, name, methods, some c⟩ ⟨id, name, methods', some d⟩

/-- The values are the same up to their environments. -/
inductive Related (l : Layout) : Datum → Value Env → Prop
  | number (x) : Related l (.number x) (.number x)
  | string (s) : Related l (.string s) (.string s)
  | boolean (b) : Related l (.boolean b) (.boolean b)
  | nil : Related l .nil .nil
  | native (f) : Related l (.native f) (.native f)
  | function {id f g} (h : FunctionRelated l f g) : Related l (.function id f) (.function id g)
  | classObject {c d} (h : ClassRelated l c d) : Related l (.classObject c) (.classObject d)
  | instanceRef {i} (h : i < l.store.instances.size) : Related l (.instanceRef i) (.instanceRef i)

/-- Related classes and related fields. -/
structure ObjectRelated (l : Layout) (a : Instance) (b : Object) : Prop where
  cls : ClassRelated l a.cls b.cls
  fields : ∀ name, Option.Rel (Related l) (a.fields.find? name) (b.fields.find? name)

/-- All variables and instances have related values.  Outside the global scope `this`
is bound to instances and `super` to classes. -/
structure Holds (l : Layout) (w : World) : Prop where
  root : l.store.parent? Store.globals = none
  inhabited : Store.globals < l.store.scopes.size
  links_length : l.links.length = w.cells.size
  nodup : l.links.Nodup
  linked : ∀ scope name, (scope, name) ∈ l.links →
    scope ≠ Store.globals ∧ scope < l.store.scopes.size
  total : ∀ scope name, scope ≠ Store.globals → (l.store.lookup scope name).isSome →
    (scope, name) ∈ l.links
  cells : ∀ (cell : Nat) scope name, l.links[cell]? = some (scope, name) →
    Option.Rel (Related l) (l.store.lookup scope name) w.cells[cell]?.join
  globals : ∀ name,
    Option.Rel (Related l) (l.store.lookup Store.globals name) (w.globals.find? name)
  instances_size : l.store.instances.size = w.instances.size
  instances : ∀ i : Nat, Option.Rel (ObjectRelated l) l.store.instances[i]? w.instances[i]?
  nextIdentity : l.store.nextIdentity = w.nextIdentity
  this : ∀ scope value, scope ≠ Store.globals → l.store.lookup scope "this" = some value →
    ∃ i, value = .instanceRef i
  super : ∀ scope value, scope ≠ Store.globals → l.store.lookup scope "super" = some value →
    ∃ c, value = .classObject c

/-- The machine and the world have related values everywhere and agree on the rest. -/
structure Tied (l : Layout) (m : Machine) (w : World) : Prop where
  store : m.store = l.store
  table : m.distances = l.table
  heap : Holds l w
  depth : m.depth = w.depth
  sink : m.sink = w.sink
  readings : m.readings = w.readings

/-- The layout may only get more of everything.  New variables are in new scopes, or in
the scope `own` whose code is run, and only there and among the global variables may a
name get its first value. -/
structure Grows (own : Option ScopeAddress) (l l' : Layout) : Prop where
  agrees : l.table.Agrees l.bound l'.table l'.bound
  links : l.links <+: l'.links
  parent : ∀ scope parent, l.store.parent? scope = some parent →
    l'.store.parent? scope = some parent
  bound : ∀ scope name, (l.store.lookup scope name).isSome → (l'.store.lookup scope name).isSome
  instances : l.store.instances.size ≤ l'.store.instances.size
  scopes : l.store.scopes.size ≤ l'.store.scopes.size
  fresh : ∀ scope name, (scope, name) ∈ l'.links →
    (scope, name) ∈ l.links ∨ own = some scope ∨ l.store.scopes.size ≤ scope
  unbound : ∀ scope name, own ≠ some scope → scope ≠ Store.globals →
    scope < l.store.scopes.size → l.store.lookup scope name = none →
    l'.store.lookup scope name = none

variable {own : Option ScopeAddress} {l l' l'' : Layout}

theorem Grows.refl (own : Option ScopeAddress) (l : Layout) : Grows own l l :=
  ⟨⟨Nat.le_refl _, fun _ _ => rfl⟩, List.prefix_refl _, fun _ _ h => h, fun _ _ h => h,
    Nat.le_refl _, Nat.le_refl _, fun _ _ h => .inl h, fun _ _ _ _ _ h => h⟩

theorem Grows.trans {own' : Option ScopeAddress} (h : Grows own l l') (h' : Grows own' l' l'')
    (hown : ∀ scope, own' = some scope → own = some scope ∨ l.store.scopes.size ≤ scope) :
    Grows own l l'' := by
  refine ⟨⟨Nat.le_trans h.agrees.le h'.agrees.le, fun id hid => ?_⟩, h.links.trans h'.links,
    fun s p hp => h'.parent s p (h.parent s p hp), fun s n hn => h'.bound s n (h.bound s n hn),
    Nat.le_trans h.instances h'.instances, Nat.le_trans h.scopes h'.scopes, fun s n hn => ?_,
    fun s n hs hlocal hlt hn => ?_⟩
  · rw [h'.agrees.eq id (Nat.lt_of_lt_of_le hid h.agrees.le), h.agrees.eq id hid]
  · rcases h'.fresh s n hn with hn | hs | hs
    · exact h.fresh s n hn
    · exact .inr (hown s hs)
    · exact .inr (.inr (Nat.le_trans h.scopes hs))
  · refine h'.unbound s n (fun hs' => ?_) hlocal (Nat.lt_of_lt_of_le hlt h.scopes)
      (h.unbound s n hs hlocal hlt hn)
    exact (hown s hs').elim hs (Nat.not_le_of_lt hlt)

/-- Two steps of code of the same scope. -/
theorem Grows.step (h : Grows own l l') (h' : Grows own l' l'') : Grows own l l'' :=
  h.trans h' fun _ hs => .inl hs

theorem Grows.weaken (h : Grows none l l') (own : Option ScopeAddress) : Grows own l l' :=
  (Grows.refl own l).trans h nofun

/-! ### What is related stays related -/

theorem Grows.link (h : Grows own l l') {cell : Nat} {variable' : ScopeAddress × String}
    (hlink : l.links[cell]? = some variable') : l'.links[cell]? = some variable' := by
  obtain ⟨hlt, rfl⟩ := List.getElem?_eq_some_iff.mp hlink
  exact List.prefix_iff_getElem?.mp h.links cell hlt

theorem Layout.Entries.mono {scope : ScopeAddress} {names : List String} {env : Env}
    (h : l.Entries scope names env) (hgrows : Grows own l l') : l'.Entries scope names env :=
  h.imp fun _ _ ⟨hname, hlink⟩ => ⟨hname, hgrows.link hlink⟩

theorem Chain.mono {pending : Option String} {scopes : List (List String)} {scope : ScopeAddress}
    {env : Env} (h : Chain l pending scopes scope env) (hgrows : Grows own l l') :
    Chain l' pending scopes scope env := by
  induction h with
  | globals => exact .globals
  | scope hparent hentries hbound h ih =>
    exact .scope (hgrows.parent _ _ hparent) (hentries.mono hgrows)
      (fun name hname hne => hgrows.bound _ _ (hbound name hname hne)) ih

theorem FunctionRelated.mono {f : Closure ScopeAddress} {g : Closure Env}
    (h : FunctionRelated l f g) (hgrows : Grows own l l') : FunctionRelated l' f g := by
  obtain ⟨hdecl, hinit, setting, hplaced, hpending, hchain, hbound⟩ := h
  exact ⟨hdecl, hinit, setting, FunctionDecl.placed_mono hgrows.agrees _ hplaced, hpending,
    hchain.mono hgrows, hbound⟩

theorem MethodRelated.mono {f : Closure ScopeAddress} {g : Closure Env}
    (h : MethodRelated l f g) (hgrows : Grows own l l') : MethodRelated l' f g := by
  obtain ⟨hdecl, hinit, setting, scopes, hplaced, hpending, hscopes, hchain⟩ := h
  exact ⟨hdecl, hinit, setting, scopes, FunctionDecl.placed_mono hgrows.agrees _ hplaced, hpending,
    hscopes, hchain.mono hgrows⟩

theorem optionRel_imp {α β : Type} {R S : α → β → Prop} {a : Option α} {b : Option β}
    (h : Option.Rel R a b) (himp : ∀ a b, R a b → S a b) : Option.Rel S a b := by
  cases h with
  | some h => exact .some (himp _ _ h)
  | none => exact .none

theorem optionRel_cases {α β : Type} {R : α → β → Prop} {a : Option α} {b : Option β}
    (h : Option.Rel R a b) : (a = none ∧ b = none) ∨ ∃ x y, a = some x ∧ b = some y ∧ R x y := by
  cases h with
  | none => exact .inl ⟨rfl, rfl⟩
  | some h => exact .inr ⟨_, _, rfl, rfl, h⟩

theorem ClassRelated.mono {c : Class ScopeAddress} {d : Class Env} (h : ClassRelated l c d)
    (hgrows : Grows own l l') : ClassRelated l' c d := by
  induction h with
  | base hmethods => exact .base fun key => optionRel_imp (hmethods key) fun _ _ h => h.mono hgrows
  | derived hmethods _ ih =>
    exact .derived (fun key => optionRel_imp (hmethods key) fun _ _ h => h.mono hgrows) ih

theorem Related.mono {a : Datum} {b : Value Env} (h : Related l a b) (hgrows : Grows own l l') :
    Related l' a b := by
  cases h with
  | number x => exact .number x
  | string s => exact .string s
  | boolean b => exact .boolean b
  | nil => exact .nil
  | native f => exact .native f
  | function h => exact .function (h.mono hgrows)
  | classObject h => exact .classObject (h.mono hgrows)
  | instanceRef h => exact .instanceRef (Nat.lt_of_lt_of_le h hgrows.instances)

theorem ObjectRelated.mono {a : Instance} {b : Object} (h : ObjectRelated l a b)
    (hgrows : Grows own l l') : ObjectRelated l' a b :=
  ⟨h.cls.mono hgrows, fun name => optionRel_imp (h.fields name) fun _ _ h => h.mono hgrows⟩

/-! ### Looking names up -/

theorem Layout.Entries.find? {scope : ScopeAddress} {names : List String} {env rest : Env}
    {name : String} (h : l.Entries scope names env) (hname : name ∈ names) :
    ∃ cell, Env.cell? (env ++ rest) name = some cell ∧ l.links[cell]? = some (scope, name) := by
  induction h with
  | nil => cases hname
  | @cons other entry names env hentry h ih =>
    obtain ⟨key, cell⟩ := entry
    obtain ⟨rfl, hlink⟩ := hentry
    by_cases heq : name = key
    · subst heq
      exact ⟨cell, by simp [Env.cell?], hlink⟩
    · obtain ⟨cell', hcell', hlink'⟩ := ih ((List.mem_cons.mp hname).resolve_left heq)
      refine ⟨cell', ?_, hlink'⟩
      rw [List.cons_append, Env.cell?, List.lookup_cons, beq_false_of_ne heq]
      exact hcell'

theorem Layout.Entries.cell?_of_not_mem {scope : ScopeAddress} {names : List String}
    {env rest : Env} {name : String} (h : l.Entries scope names env) (hname : name ∉ names) :
    Env.cell? (env ++ rest) name = Env.cell? rest name := by
  induction h with
  | nil => rfl
  | @cons other entry names env hentry h ih =>
    obtain ⟨key, cell⟩ := entry
    obtain ⟨rfl, -⟩ := hentry
    rw [List.mem_cons, not_or] at hname
    rw [List.cons_append, Env.cell?, List.lookup_cons, beq_false_of_ne hname.1]
    exact ih hname.2

/-- A name that is found at a distance is bound there, in the scope behind its cell. -/
theorem Chain.found {pending : Option String} {scopes : List (List String)} {scope : ScopeAddress}
    {env : Env} {name : String} {distance : Nat} (h : Chain l pending scopes scope env)
    (hd : scopes.findIdx? (name ∈ ·) = some distance) :
    ∃ target cell, l.store.climb scope distance = some target ∧ env.cell? name = some cell ∧
      l.links[cell]? = some (target, name) ∧
      (pending ≠ some name ∨ distance ≠ 0 → (l.store.lookup target name).isSome) := by
  induction h generalizing distance with
  | globals => cases hd
  | @scope pending names scopes scope parent entries env hparent hentries hbound h ih =>
    rw [List.findIdx?_cons] at hd
    by_cases hname : name ∈ names
    · rw [if_pos (decide_eq_true hname), Option.some.injEq] at hd
      subst hd
      obtain ⟨cell, hcell, hlink⟩ := hentries.find? hname
      refine ⟨scope, cell, rfl, hcell, hlink, fun hne => ?_⟩
      exact hbound name hname (hne.resolve_right (fun hd => hd rfl))
    · rw [if_neg (by simpa using hname)] at hd
      obtain ⟨distance, hd', rfl⟩ := Option.map_eq_some_iff.mp hd
      obtain ⟨target, cell, hclimb, hcell, hlink, hsome⟩ := ih hd'
      refine ⟨target, cell, ?_, ?_, hlink, fun _ => hsome (.inl nofun)⟩
      · rw [Store.climb_succ, hparent]
        exact hclimb
      · rw [hentries.cell?_of_not_mem hname]
        exact hcell

/-- A name of no static scope has no entry. -/
theorem Chain.missing {pending : Option String} {scopes : List (List String)}
    {scope : ScopeAddress} {env : Env} {name : String} (h : Chain l pending scopes scope env)
    (hd : scopes.findIdx? (name ∈ ·) = none) : env.cell? name = none := by
  induction h with
  | globals => rfl
  | @scope pending names scopes scope parent entries env hparent hentries hbound h ih =>
    rw [List.findIdx?_cons] at hd
    by_cases hname : name ∈ names
    · rw [if_pos (decide_eq_true hname)] at hd
      cases hd
    · rw [if_neg (by simpa using hname), Option.map_eq_none_iff] at hd
      rw [hentries.cell?_of_not_mem hname]
      exact ih hd

end Lox.Lexical
