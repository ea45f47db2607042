/-
Names bound to things, each name at most once.

`find?` looks a name up, `put` binds it, replacing what it was bound to:

* `find?_put` — what a name is bound to after a `put`;
* `names_put` — the names that are bound after a `put`.
-/

namespace Lox

/-- Pairs of a name and what it is bound to, the oldest name first. -/
abbrev Bindings (α : Type) := List (String × α)

namespace Bindings

variable {α : Type}

/-- What the name is bound to. -/
def find? : Bindings α → String → Option α
  | [], _ => none
  | (bound, a) :: rest, name => if bound = name then some a else find? rest name

/-- Binds the name, in its old place if it is bound already. -/
def put : Bindings α → String → α → Bindings α
  | [], name, a => [(name, a)]
  | (bound, b) :: rest, name, a =>
    if bound = name then (name, a) :: rest else (bound, b) :: put rest name a

/-- Binds several names, one after the other. -/
def ofList (pairs : List (String × α)) : Bindings α :=
  pairs.foldl (fun bindings (name, a) => put bindings name a) []

/-- The names that are bound. -/
def names (bindings : Bindings α) : List String :=
  bindings.map Prod.fst

@[simp] theorem find?_nil (name : String) : find? ([] : Bindings α) name = none := rfl

theorem find?_put (bindings : Bindings α) (name other : String) (a : α) :
    find? (put bindings name a) other = if other = name then some a else find? bindings other := by
  induction bindings with
  | nil => simp [put, find?, eq_comm]
  | cons pair rest ih =>
    obtain ⟨bound, b⟩ := pair
    by_cases hb : bound = name
    · subst hb
      by_cases ho : bound = other
      · simp [put, find?, ho]
      · simp [put, find?, ho, Ne.symm ho]
    · by_cases ho : bound = other
      · subst ho
        simp [put, find?, hb]
      · simp [put, find?, hb, ho, ih]

/-- Of two bindings of a name the later one counts. -/
theorem put_put (bindings : Bindings α) (name : String) (a b : α) :
    (bindings.put name a).put name b = bindings.put name b := by
  induction bindings with
  | nil => simp [put]
  | cons pair rest ih =>
    obtain ⟨bound, c⟩ := pair
    by_cases hb : bound = name <;> simp [put, hb, ih]

theorem find?_isSome_iff {bindings : Bindings α} {name : String} :
    (find? bindings name).isSome ↔ name ∈ names bindings := by
  induction bindings with
  | nil => simp [find?, names]
  | cons pair rest ih =>
    obtain ⟨bound, b⟩ := pair
    by_cases hb : bound = name
    · simp [find?, names, hb]
    · simp only [names] at ih
      simp [find?, names, hb, Ne.symm hb, ih]

/-- A `put` adds its name at the end if it is new, and no name otherwise. -/
theorem names_put (bindings : Bindings α) (name : String) (a : α) :
    names (put bindings name a) =
      if name ∈ names bindings then names bindings else names bindings ++ [name] := by
  induction bindings with
  | nil => simp [put, names]
  | cons pair rest ih =>
    obtain ⟨bound, b⟩ := pair
    by_cases hb : bound = name
    · simp [put, names, hb]
    · simp only [names] at ih
      by_cases hm : name ∈ rest.map Prod.fst
      · simp [put, names, hb, ih, hm]
      · simp [put, names, hb, Ne.symm hb, ih, hm]

end Bindings

end Lox
