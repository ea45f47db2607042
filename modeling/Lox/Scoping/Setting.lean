/-
Where a statement or expression stands: the local scopes around it, innermost
first, and the function and class it belongs to.

The global scope is not listed; a name that is in no listed scope is global.
`Setting.distance?` counts the scopes between a use of a name and its binding.
-/
import Lox.Syntax

namespace Lox

/-- Faults in how names, `return`, `this` and `super` are used. -/
inductive ScopingError where
  | alreadyDeclared
  | readInOwnInitializer
  | returnFromTopLevel
  | returnFromInitializer
  | thisOutsideClass
  | superOutsideClass
  | superWithoutSuperclass
  | inheritsFromItself
  deriving DecidableEq, Repr

/-- The words of a scoping error. -/
def ScopingError.message : ScopingError → String
  | alreadyDeclared => "Already a variable with this name in this scope."
  | readInOwnInitializer => "Can't read local variable in its own initializer."
  | returnFromTopLevel => "Can't return from top-level code."
  | returnFromInitializer => "Can't return a value from an initializer."
  | thisOutsideClass => "Can't use 'this' outside of a class."
  | superOutsideClass => "Can't use 'super' outside of a class."
  | superWithoutSuperclass => "Can't use 'super' in a class with no superclass."
  | inheritsFromItself => "A class can't inherit from itself."

/-- What a look at a program brings up: how many scopes out the binding of a
reference is, or a fault at a name. -/
inductive Finding where
  | distance (id : Nat) (scopes : Nat)
  | fault (error : ScopingError) (name : Name)
  deriving DecidableEq, Repr

/-- The code that a `return` would leave. -/
inductive Enclosing where
  | topLevel | function | initializer
  deriving DecidableEq, Repr

/-- The innermost class around a piece of code. -/
inductive EnclosingClass where
  | none | base | derived
  deriving DecidableEq, Repr

/-- The surroundings of a piece of code.  `pending` is the local variable whose
initializer this is, unless its name was declared before in the same scope. -/
structure Setting where
  scopes : List (List String)
  pending : Option String
  enclosing : Enclosing
  enclosingClass : EnclosingClass
  deriving DecidableEq, Repr

namespace Setting

/-- The top level of a program. -/
def topLevel : Setting :=
  ⟨[], none, .topLevel, .none⟩

/-- A new innermost scope with the given names. -/
def push (setting : Setting) (names : List String) : Setting :=
  { setting with scopes := names :: setting.scopes }

/-- The innermost scope with one more name; at the top level nothing changes. -/
def declare (setting : Setting) (name : Name) : Setting :=
  match setting.scopes with
  | [] => setting
  | scope :: scopes => { setting with scopes := (name.text :: scope) :: scopes }

/-- Is the name in the innermost scope? -/
def isDeclared (setting : Setting) (name : Name) : Bool :=
  setting.scopes.head?.any (name.text ∈ ·)

/-- The number of scopes between here and the nearest one with the given name. -/
def distance? (setting : Setting) (name : String) : Option Nat :=
  setting.scopes.findIdx? (name ∈ ·)

/-- The findings for a declared name: a local scope takes each name once. -/
def declaration (setting : Setting) (name : Name) : List Finding :=
  if setting.isDeclared name then [.fault .alreadyDeclared name] else []

/-- The setting of the initializer of a variable. -/
def initializing (setting : Setting) (name : Name) : Setting :=
  let fresh := setting.scopes ≠ [] && !setting.isDeclared name
  { setting.declare name with pending := if fresh then some name.text else none }

/-- The findings for a reference to a name: its distance, if it is local. -/
def locate (setting : Setting) (id : Nat) (name : String) : List Finding :=
  match setting.distance? name with
  | some scopes => [.distance id scopes]
  | none => []

/-- The findings for a variable that is read. -/
def read (setting : Setting) (target : Reference) : List Finding :=
  (if setting.pending = some target.name.text then
      [.fault .readInOwnInitializer target.name]
    else []) ++ setting.locate target.id target.name.text

/-- The findings for a `this`; outside of a class it is located nowhere. -/
def readThis (setting : Setting) (id line : Nat) : List Finding :=
  match setting.enclosingClass with
  | .none => [.fault .thisOutsideClass ⟨"this", line⟩]
  | _ => setting.locate id "this"

/-- The findings for a `super`. -/
def readSuper (setting : Setting) (id line : Nat) : List Finding :=
  (match setting.enclosingClass with
    | .none => [.fault .superOutsideClass ⟨"super", line⟩]
    | .base => [.fault .superWithoutSuperclass ⟨"super", line⟩]
    | .derived => []) ++ setting.locate id "super"

/-- The findings for a `return`, apart from its value. -/
def leave (setting : Setting) (line : Nat) (withValue : Bool) : List Finding :=
  match setting.enclosing with
  | .topLevel => [.fault .returnFromTopLevel ⟨"return", line⟩]
  | .initializer => if withValue then [.fault .returnFromInitializer ⟨"return", line⟩] else []
  | .function => []

/-- The findings for a list of parameters, and the setting after them. -/
def parameters : Setting → List Name → List Finding × Setting
  | setting, [] => ([], setting)
  | setting, name :: names =>
    let (findings, final) := parameters (setting.declare name) names
    (setting.declaration name ++ findings, final)

end Setting

end Lox
