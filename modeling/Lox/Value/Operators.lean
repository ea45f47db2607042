/-
Operators on values, and all that can go wrong while a program runs.

`+` joins two strings or adds two numbers; `==` and `!=` take any operands; all
other operators take numbers only.
-/
import Lox.Syntax.Text
import Lox.Value

namespace Lox

/-- What can go wrong while a program runs. -/
inductive RuntimeError where
  | operandNotNumber (op : UnaryOp)
  | operandsNotNumbers (op : BinaryOp)
  | invalidAddOperands
  | undefinedVariable (name : String)
  | notCallable
  | arityMismatch (expected got : Nat)
  | propertyOnNonInstance
  | fieldOnNonInstance
  | undefinedProperty (name : String)
  | superclassNotClass
  | stackOverflow
  deriving DecidableEq, Repr

namespace RuntimeError

/-- The words of a runtime error. -/
def message : RuntimeError → String
  | operandNotNumber _ => "Operand must be a number."
  | operandsNotNumbers _ => "Operands must be numbers."
  | invalidAddOperands => "Operands must be two numbers or two strings."
  | undefinedVariable name => "Undefined variable '" ++ name ++ "'."
  | notCallable => "Can only call functions and classes."
  | arityMismatch expected got =>
    "Expected " ++ toString expected ++ " arguments but got " ++ toString got ++ "."
  | propertyOnNonInstance => "Only instances have properties."
  | fieldOnNonInstance => "Only instances have fields."
  | undefinedProperty name => "Undefined property '" ++ name ++ "'."
  | superclassNotClass => "Superclass must be a class."
  | stackOverflow => "Stack overflow."

/-- The operator whose operands were of the wrong kind. -/
def operator? : RuntimeError → Option String
  | operandNotNumber op => some op.text
  | operandsNotNumbers op => some op.text
  | invalidAddOperands => some BinaryOp.plus.text
  | _ => none

end RuntimeError

variable {ρ : Type}

/-- The value of an operator with one operand. -/
def UnaryOp.apply : UnaryOp → Value ρ → Except RuntimeError (Value ρ)
  | negate, .number x => .ok (.number (-x))
  | negate, _ => .error (.operandNotNumber negate)
  | not, value => .ok (.boolean (!value.isTruthy))

/-- The sum of two numbers, or one string after the other. -/
def Value.add : Value ρ → Value ρ → Except RuntimeError (Value ρ)
  | number x, number y => .ok (number (x + y))
  | string s, string t => .ok (string (s ++ t))
  | _, _ => .error .invalidAddOperands

namespace BinaryOp

/-- A function of two numbers as a function of values. -/
def onNumbers (op : BinaryOp) (f : Float → Float → Value ρ) :
    Value ρ → Value ρ → Except RuntimeError (Value ρ)
  | .number x, .number y => .ok (f x y)
  | _, _ => .error (.operandsNotNumbers op)

/-- The value of an operator with two operands. -/
def apply (op : BinaryOp) (left right : Value ρ) : Except RuntimeError (Value ρ) :=
  match op with
  | equal => .ok (.boolean (left.same right))
  | notEqual => .ok (.boolean (!left.same right))
  | less => onNumbers op (fun x y => .boolean (x < y)) left right
  | lessEqual => onNumbers op (fun x y => .boolean (x ≤ y)) left right
  | greater => onNumbers op (fun x y => .boolean (y < x)) left right
  | greaterEqual => onNumbers op (fun x y => .boolean (y ≤ x)) left right
  | plus => left.add right
  | minus => onNumbers op (fun x y => .number (x - y)) left right
  | times => onNumbers op (fun x y => .number (x * y)) left right
  | divide => onNumbers op (fun x y => .number (x / y)) left right

end BinaryOp

/-- Does the left operand alone give the value? -/
def LogicalOp.decides (op : LogicalOp) (left : Value ρ) : Bool :=
  match op with
  | .or => left.isTruthy
  | .and => !left.isTruthy

end Lox
