/-
Changing the lines and the ids in values.

* `Relabelling.recoding` — the recoding that a relabelling is;
* `Closure.relabel`, `Class.relabel`, `Value.relabel` — a relabelling inside a value;
* `Value.recode_recoding` — which is what its recoding does;
* `Value.relabel_relabel` — one relabelling after another.
-/
import Lox.Proofs.Recoding.Values
import Lox.Proofs.Relabelling.Syntax

namespace Lox

/-- New lines and ids in all functions. -/
def Relabelling.recoding (r : Relabelling) : Recoding where
  line := r.line
  decl := FunctionDecl.relabel r
  decl_name f := by rw [FunctionDecl.relabel_name, Name.relabel_text]
  decl_params f := by
    rw [FunctionDecl.relabel_eq, List.map_map]
    rfl

variable {ρ : Type} (r : Relabelling)

/-- The closure with new lines and ids in its code. -/
def Closure.relabel (closure : Closure ρ) : Closure ρ :=
  { closure with decl := closure.decl.relabel r }

/-- The class with new lines and ids in its methods. -/
def Class.relabel : Class ρ → Class ρ
  | ⟨id, name, methods, none⟩ => ⟨id, name, methods.mapValues (Closure.relabel r), none⟩
  | ⟨id, name, methods, some superclass⟩ =>
    ⟨id, name, methods.mapValues (Closure.relabel r), some superclass.relabel⟩

/-- The value with new lines and ids in its code. -/
def Value.relabel : Value ρ → Value ρ
  | .function id closure => .function id (closure.relabel r)
  | .classObject c => .classObject (c.relabel r)
  | value => value

variable {r}

theorem Class.recode_recoding : ∀ c : Class ρ, c.recode r.recoding = c.relabel r
  | ⟨_, _, _, none⟩ => rfl
  | ⟨id, name, methods, some superclass⟩ => by
    rw [Class.recode, Class.relabel, superclass.recode_recoding]
    rfl

theorem Value.recode_recoding (value : Value ρ) : value.recode r.recoding = value.relabel r := by
  cases value with
  | classObject c => exact congrArg Value.classObject c.recode_recoding
  | _ => rfl

/-! ### One relabelling after another -/

theorem Closure.relabel_relabel (s : Relabelling) :
    Closure.relabel s ∘ Closure.relabel r = (Closure.relabel (s.comp r) : Closure ρ → Closure ρ) := by
  funext closure
  simp only [Function.comp_apply, relabel, FunctionDecl.relabel_relabel]

theorem Class.relabel_relabel (s : Relabelling) : ∀ c : Class ρ,
    (c.relabel r).relabel s = c.relabel (s.comp r)
  | ⟨_, _, methods, none⟩ => by
    simp only [Class.relabel, Bindings.mapValues_mapValues, Closure.relabel_relabel]
  | ⟨_, _, methods, some superclass⟩ => by
    simp only [Class.relabel, Bindings.mapValues_mapValues, Closure.relabel_relabel,
      superclass.relabel_relabel s]

theorem Value.relabel_relabel (s : Relabelling) (value : Value ρ) :
    (value.relabel r).relabel s = value.relabel (s.comp r) := by
  cases value with
  | function id closure =>
    exact congrArg (Value.function id) (congrFun (Closure.relabel_relabel s) closure)
  | classObject c => exact congrArg Value.classObject (c.relabel_relabel s)
  | _ => rfl

end Lox
