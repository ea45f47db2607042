/-
Changing the code in values.

A value holds code: a closure its function, a class its methods.  A `Recoding` puts other
functions in their place, with the same names, and other lines on which errors are
reported.  Nothing that is seen of a value depends on the code in it.

* `Closure.recode`, `Class.recode`, `Value.recode` — a recoding inside a value;
* `Value.text_recode`, `Value.same_recode`, `Value.arity?_recode` — a recoded value is
  printed, compared and called like before;
* `UnaryOp.apply_recode`, `BinaryOp.apply_recode` — operators do not look inside.
-/
import Lox.Value.Operators

namespace Lox

variable {α β : Type}

/-! ### Bindings -/

namespace Bindings

/-- The names bound to the images of what they were bound to. -/
def mapValues (f : α → β) (bindings : Bindings α) : Bindings β :=
  bindings.map fun pair => (pair.1, f pair.2)

variable (f : α → β)

theorem find?_mapValues (bindings : Bindings α) (name : String) :
    (bindings.mapValues f).find? name = (bindings.find? name).map f := by
  induction bindings with
  | nil => rfl
  | cons pair bindings ih =>
    obtain ⟨bound, a⟩ := pair
    show (if bound = name then some (f a) else find? (mapValues f bindings) name) =
      (if bound = name then some a else find? bindings name).map f
    rw [ih]
    split <;> rfl

theorem put_mapValues (bindings : Bindings α) (name : String) (a : α) :
    (bindings.mapValues f).put name (f a) = (bindings.put name a).mapValues f := by
  induction bindings with
  | nil => rfl
  | cons pair bindings ih =>
    obtain ⟨bound, b⟩ := pair
    show (if bound = name then (name, f a) :: mapValues f bindings
        else (bound, f b) :: put (mapValues f bindings) name (f a)) =
      mapValues f (if bound = name then (name, a) :: bindings else (bound, b) :: put bindings name a)
    rw [ih]
    split <;> rfl

theorem ofList_mapValues (pairs : List (String × α)) :
    ofList (pairs.map fun pair => (pair.1, f pair.2)) = (ofList pairs).mapValues f := by
  have hfold : ∀ bindings : Bindings α,
      (pairs.map fun pair => (pair.1, f pair.2)).foldl (fun b pair => put b pair.1 pair.2)
          (bindings.mapValues f) =
        (pairs.foldl (fun b pair => put b pair.1 pair.2) bindings).mapValues f := by
    induction pairs with
    | nil => exact fun _ => rfl
    | cons pair pairs ih =>
      intro bindings
      rw [List.map_cons, List.foldl_cons, List.foldl_cons, put_mapValues, ih]
  exact hfold []

end Bindings

theorem Bindings.mapValues_mapValues {γ : Type} (f : α → β) (g : β → γ) (bindings : Bindings α) :
    (bindings.mapValues f).mapValues g = bindings.mapValues (g ∘ f) := by
  simp only [mapValues, List.map_map]
  rfl

/-! ### Recodings -/

/-- Other functions with the same names and the names of the same parameters, and other
lines for the errors. -/
structure Recoding where
  line : Nat → Nat
  decl : FunctionDecl → FunctionDecl
  decl_name : ∀ f, (decl f).name.text = f.name.text
  decl_params : ∀ f, (decl f).params.map Name.text = f.params.map Name.text

namespace Recoding

/-- The name on its new line. -/
def name (r : Recoding) (name : Name) : Name :=
  ⟨name.text, r.line name.line⟩

@[simp] theorem name_text (r : Recoding) (name : Name) : (r.name name).text = name.text := rfl

variable (r : Recoding)

@[simp] theorem isInitializer_decl (f : FunctionDecl) :
    (r.decl f).isInitializer = f.isInitializer := by
  unfold FunctionDecl.isInitializer
  rw [r.decl_name]

@[simp] theorem length_params (f : FunctionDecl) :
    (r.decl f).params.length = f.params.length := by
  have hlength := congrArg List.length (r.decl_params f)
  rwa [List.length_map, List.length_map] at hlength

end Recoding

/-! ### Values -/

variable {ρ : Type} (r : Recoding)

/-- The closure with other code. -/
def Closure.recode (closure : Closure ρ) : Closure ρ :=
  { closure with decl := r.decl closure.decl }

/-- The class with other methods. -/
def Class.recode : Class ρ → Class ρ
  | ⟨id, name, methods, none⟩ => ⟨id, name, methods.mapValues (Closure.recode r), none⟩
  | ⟨id, name, methods, some superclass⟩ =>
    ⟨id, name, methods.mapValues (Closure.recode r), some superclass.recode⟩

/-- The value with other code. -/
def Value.recode : Value ρ → Value ρ
  | .function id closure => .function id (closure.recode r)
  | .classObject c => .classObject (c.recode r)
  | value => value

variable {r}

theorem Class.recode_eq (c : Class ρ) :
    c.recode r = ⟨c.id, c.name, c.methods.mapValues (Closure.recode r),
      c.superclass.map (Class.recode r)⟩ := by
  obtain ⟨id, name, methods, superclass⟩ := c
  cases superclass <;> rw [Class.recode] <;> rfl

@[simp] theorem Class.recode_id (c : Class ρ) : (c.recode r).id = c.id := by
  rw [recode_eq]

@[simp] theorem Class.recode_name (c : Class ρ) : (c.recode r).name = c.name := by
  rw [recode_eq]

@[simp] theorem Closure.arity_recode (closure : Closure ρ) :
    (closure.recode r).arity = closure.arity := by
  simp only [arity, recode, Recoding.length_params]

theorem Class.method?_recode : ∀ (c : Class ρ) (name : String),
    (c.recode r).method? name = (c.method? name).map (Closure.recode r)
  | ⟨_, _, methods, none⟩, name => methods.find?_mapValues _ name
  | ⟨_, _, methods, some superclass⟩, name => by
    -- The superclass is asked only if the class has no such method, before and after.
    rw [Class.recode, Class.method?, Class.method?, Bindings.find?_mapValues,
      superclass.method?_recode name]
    cases methods.find? name <;> rfl

theorem Class.initializer?_recode (c : Class ρ) :
    (c.recode r).initializer? = c.initializer?.map (Closure.recode r) :=
  c.method?_recode initializerName

namespace Value

@[simp] theorem recode_ofLiteral (value : Literal) :
    (ofLiteral value : Value ρ).recode r = ofLiteral value := by
  cases value <;> rfl

@[simp] theorem isTruthy_recode (value : Value ρ) :
    (value.recode r).isTruthy = value.isTruthy := by
  cases value <;> rfl

theorem arity?_recode (value : Value ρ) : (value.recode r).arity? = value.arity? := by
  cases value with
  | function id closure => exact congrArg some closure.arity_recode
  | classObject c =>
    show some (((c.recode r).initializer?.map Closure.arity).getD 0) = _
    rw [c.initializer?_recode, Option.map_map]
    exact congrArg (fun arity : Closure ρ → Nat => some ((c.initializer?.map arity).getD 0))
      (funext Closure.arity_recode)
  | _ => rfl

theorem same_recode (left right : Value ρ) :
    (left.recode r).same (right.recode r) = left.same right := by
  cases left <;> cases right <;> simp only [recode, same, Class.recode_id]

theorem text_recode (className : Nat → String) (value : Value ρ) :
    (value.recode r).text className = value.text className := by
  cases value with
  | function id closure =>
    simp only [recode, text, Closure.recode, r.decl_name]
  | classObject c => exact c.recode_name
  | _ => rfl

end Value

/-! ### Operators -/

theorem UnaryOp.apply_recode (op : UnaryOp) (value : Value ρ) :
    op.apply (value.recode r) = (op.apply value).map (Value.recode r) := by
  cases op with
  | negate => cases value <;> rfl
  | not =>
    show Except.ok (Value.boolean (!(value.recode r).isTruthy)) = _
    rw [Value.isTruthy_recode]
    rfl

theorem Value.add_recode (left right : Value ρ) :
    (left.recode r).add (right.recode r) = (left.add right).map (Value.recode r) := by
  cases left <;> cases right <;> rfl

theorem BinaryOp.onNumbers_recode (op : BinaryOp) {f : Float → Float → Value ρ}
    (h : ∀ x y, (f x y).recode r = f x y) (left right : Value ρ) :
    onNumbers op f (left.recode r) (right.recode r) =
      (onNumbers op f left right).map (Value.recode r) := by
  cases left with
  | number x =>
    cases right with
    | number y => exact congrArg Except.ok (h x y).symm
    | _ => rfl
  | _ => cases right <;> rfl

theorem BinaryOp.apply_recode (op : BinaryOp) (left right : Value ρ) :
    op.apply (left.recode r) (right.recode r) = (op.apply left right).map (Value.recode r) := by
  cases op with
  | equal | notEqual =>
    simp only [apply, Value.same_recode]
    rfl
  | plus => exact left.add_recode right
  | less | lessEqual | greater | greaterEqual | minus | times | divide =>
    exact onNumbers_recode _ (fun _ _ => rfl) left right

theorem LogicalOp.decides_recode (op : LogicalOp) (value : Value ρ) :
    op.decides (value.recode r) = op.decides value := by
  cases op <;> simp only [decides, Value.isTruthy_recode]

end Lox
