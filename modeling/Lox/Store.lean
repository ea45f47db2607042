/-
The store of a running program: its scopes, its instances and a supply of
identities.

Scopes and instances are addressed by their position and never removed, so an
address stays good for ever and may be shared.  A scope names its parent; the
scope at `Store.globals` has none.

There are two ways to reach a binding: at an exact distance (`getAt`,
`assignAt`), and in the nearest scope that has the name (`get`, `assign`).  No
assignment makes a binding; only `define` does.
-/
import Lox.Value

namespace Lox

/-- Where a scope is. -/
abbrev ScopeAddress := Nat

/-- Where an instance is. -/
abbrev InstanceAddress := Nat

/-- The value of a variable in a running program: closures refer to scopes. -/
abbrev Datum := Value ScopeAddress

/-- The variables of a block, call or class, and the scope around it. -/
structure Scope where
  bindings : Bindings Datum
  parent : Option ScopeAddress

/-- An instance: its class and its own fields. -/
structure Instance where
  cls : Class ScopeAddress
  fields : Bindings Datum

/-- Everything that closures and instances share. -/
structure Store where
  scopes : Array Scope
  instances : Array Instance
  nextIdentity : Nat

namespace Store

/-- The scope of all global variables. -/
def globals : ScopeAddress := 0

/-- A store with the native functions as its only global variables. -/
def initial : Store :=
  { scopes := #[⟨Bindings.ofList (Native.all.map fun f => (f.name, .native f)), none⟩]
    instances := #[]
    nextIdentity := 0 }

/-- What a name is bound to in exactly this scope. -/
def lookup (store : Store) (scope : ScopeAddress) (name : String) : Option Datum :=
  store.scopes[scope]?.bind (·.bindings.find? name)

/-- The scope around this one. -/
def parent? (store : Store) (scope : ScopeAddress) : Option ScopeAddress :=
  store.scopes[scope]?.bind Scope.parent

/-- Binds a name in exactly this scope. -/
def define (store : Store) (scope : ScopeAddress) (name : String) (value : Datum) : Store :=
  { store with
    scopes := store.scopes.modify scope fun s => { s with bindings := s.bindings.put name value } }

/-- Changes what a name is bound to in exactly this scope, and says whether it
was bound there. -/
def replace (store : Store) (scope : ScopeAddress) (name : String) (value : Datum) :
    Bool × Store :=
  if (store.lookup scope name).isSome then (true, store.define scope name value)
  else (false, store)

/-- The scope that lies this many scopes further out. -/
def climb (store : Store) (scope : ScopeAddress) : Nat → Option ScopeAddress
  | 0 => some scope
  | distance + 1 => (store.parent? scope).bind (store.climb · distance)

/-- What a name is bound to exactly this many scopes out. -/
def getAt (store : Store) (scope : ScopeAddress) (distance : Nat) (name : String) :
    Option Datum :=
  (store.climb scope distance).bind (store.lookup · name)

/-- Changes what a name is bound to exactly this many scopes out, and says
whether it was bound there. -/
def assignAt (store : Store) (scope : ScopeAddress) (distance : Nat) (name : String)
    (value : Datum) : Bool × Store :=
  match store.climb scope distance with
  | some target => store.replace target name value
  | none => (false, store)

/-- The nearest scope that binds the name, among this scope and at most `steps`
scopes around it. -/
def ownerWithin (store : Store) (name : String) : Nat → ScopeAddress → Option ScopeAddress
  | 0, scope => if (store.lookup scope name).isSome then some scope else none
  | steps + 1, scope =>
    if (store.lookup scope name).isSome then some scope
    else (store.parent? scope).bind (store.ownerWithin name steps)

/-- The nearest scope that binds the name.  A chain that does not repeat a scope
is not longer than the store. -/
def owner? (store : Store) (scope : ScopeAddress) (name : String) : Option ScopeAddress :=
  store.ownerWithin name store.scopes.size scope

/-- What a name is bound to in the nearest scope that binds it. -/
def get (store : Store) (scope : ScopeAddress) (name : String) : Option Datum :=
  (store.owner? scope name).bind (store.lookup · name)

/-- Changes what a name is bound to in the nearest scope that binds it, and says
whether there is one. -/
def assign (store : Store) (scope : ScopeAddress) (name : String) (value : Datum) :
    Bool × Store :=
  match store.owner? scope name with
  | some target => store.replace target name value
  | none => (false, store)

/-- A new scope inside `parent`. -/
def newScope (store : Store) (parent : ScopeAddress) (bindings : Bindings Datum) :
    ScopeAddress × Store :=
  (store.scopes.size, { store with scopes := store.scopes.push ⟨bindings, some parent⟩ })

/-- A new instance without fields. -/
def newInstance (store : Store) (cls : Class ScopeAddress) : InstanceAddress × Store :=
  (store.instances.size, { store with instances := store.instances.push ⟨cls, []⟩ })

/-- An identity that nothing in the store has. -/
def newIdentity (store : Store) : Nat × Store :=
  (store.nextIdentity, { store with nextIdentity := store.nextIdentity + 1 })

/-- Sets a field of an instance. -/
def setField (store : Store) (instanceAt : InstanceAddress) (name : String) (value : Datum) :
    Store :=
  { store with
    instances := store.instances.modify instanceAt fun i =>
      { i with fields := i.fields.put name value } }

/-- The name of the class of an instance. -/
def className (store : Store) (instanceAt : InstanceAddress) : String :=
  (store.instances[instanceAt]?.map (·.cls.name)).getD ""

end Store

end Lox
