/-
Values that programs compute with.

A closure keeps the environment it was made in.  How it refers to that
environment is the parameter `ρ`: an address in a store, or the environment
itself.

Functions, classes and instances have an identity, given as a number when they
are made.  A class holds its superclass, so a chain of classes is finite.
-/
import Lox.Bindings
import Lox.Syntax

namespace Lox

/-- A function with the environment it was made in.  A call of an `initializer`
gives back its instance. -/
structure Closure (ρ : Type) where
  decl : FunctionDecl
  env : ρ
  isInitializer : Bool

/-- The number of arguments that a closure takes. -/
def Closure.arity {ρ : Type} (closure : Closure ρ) : Nat :=
  closure.decl.params.length

/-- A class: its identity, its name, its own methods and the class it extends. -/
structure Class (ρ : Type) where
  id : Nat
  name : String
  methods : Bindings (Closure ρ)
  superclass : Option (Class ρ)

/-- The method with the given name: the class's own, or else its superclass's. -/
def Class.method? {ρ : Type} : Class ρ → String → Option (Closure ρ)
  | ⟨_, _, methods, none⟩, name => methods.find? name
  | ⟨_, _, methods, some superclass⟩, name =>
    (methods.find? name).or (superclass.method? name)

/-- The method that runs when an instance is created. -/
def Class.initializer? {ρ : Type} (c : Class ρ) : Option (Closure ρ) :=
  c.method? initializerName

/-- Functions that are not written in the language. -/
inductive Native where
  | clock
  deriving DecidableEq, Repr

/-- The name under which a native function is found. -/
def Native.name : Native → String
  | clock => "clock"

/-- Every native function. -/
def Native.all : List Native :=
  [clock]

/-- The number of arguments that a native function takes. -/
def Native.arity : Native → Nat
  | clock => 0

/-- Values.  A function value has an identity besides its closure; an instance is
its identity. -/
inductive Value (ρ : Type) where
  | number (value : Float)
  | string (value : String)
  | boolean (value : Bool)
  | nil
  | native (function : Native)
  | function (id : Nat) (closure : Closure ρ)
  | classObject (c : Class ρ)
  | instanceRef (id : Nat)

namespace Value

variable {ρ : Type}

/-- The value of a constant. -/
def ofLiteral : Literal → Value ρ
  | .number x => number x
  | .string s => string s
  | .boolean b => boolean b
  | .nil => nil

/-- Only `nil` and `false` do not count as true. -/
def isTruthy : Value ρ → Bool
  | nil => false
  | boolean b => b
  | _ => true

/-- The number of arguments that a value takes when it is called, none if it
cannot be called.  A class takes those of its initializer. -/
def arity? : Value ρ → Option Nat
  | native f => some f.arity
  | function _ closure => some closure.arity
  | classObject c => some ((c.initializer?.map Closure.arity).getD 0)
  | _ => none

/-- Equality.  Functions, classes and instances are compared by identity, and
unlike in IEEE arithmetic a NaN equals a NaN. -/
def same : Value ρ → Value ρ → Bool
  | number x, number y => x == y || (x.isNaN && y.isNaN)
  | string s, string t => s = t
  | boolean b, boolean c => b = c
  | nil, nil => true
  | native f, native g => f = g
  | function i _, function j _ => i = j
  | classObject c, classObject d => c.id = d.id
  | instanceRef i, instanceRef j => i = j
  | _, _ => false

/-- The text of a number that is printed. -/
def numberText (x : Float) : String :=
  Decimal.text "Infinity" x

/-- The text of a value that is printed; `className` gives the class names of
instances. -/
def text (className : Nat → String) : Value ρ → String
  | number x => numberText x
  | string s => s
  | boolean b => if b then "true" else "false"
  | nil => "nil"
  | native _ => "<native fn>"
  | function _ closure => "<fn " ++ closure.decl.name.text ++ ">"
  | classObject c => c.name
  | instanceRef id => className id ++ " instance"

end Value

end Lox
