/-
Laws of the store: what each operation does to lookups and to parents.

* `Store.lookup_define`, `Store.lookup_newScope` — lookups in exactly one scope;
* `Store.parent?_define`, `Store.parent?_newScope` — the scope around a scope;
* `Store.newScope_put` — the bindings of a new scope may also be defined later.
-/
import Lox.Store

namespace Lox.Store

variable {store : Store} {scope other : ScopeAddress} {name key : String} {value : Datum}

/-! ### Definitions -/

theorem define_getElem? :
    (store.define scope name value).scopes[other]? =
      if scope = other then
        store.scopes[other]?.map fun s => { s with bindings := s.bindings.put name value }
      else store.scopes[other]? := by
  rw [define, Array.getElem?_modify]

@[simp] theorem define_size :
    (store.define scope name value).scopes.size = store.scopes.size := by
  rw [define, Array.size_modify]

@[simp] theorem define_instances : (store.define scope name value).instances = store.instances :=
  rfl

@[simp] theorem parent?_define :
    (store.define scope name value).parent? other = store.parent? other := by
  rw [parent?, parent?, define_getElem?]
  split
  · cases store.scopes[other]? <;> rfl
  · rfl

theorem lookup_define :
    (store.define scope name value).lookup other key =
      if other = scope ∧ key = name ∧ scope < store.scopes.size then some value
      else store.lookup other key := by
  rw [lookup, lookup, define_getElem?]
  by_cases hs : scope = other
  · subst hs
    rw [if_pos rfl]
    by_cases hlt : scope < store.scopes.size
    · rw [Array.getElem?_eq_getElem hlt]
      simp [Bindings.find?_put, hlt]
    · rw [Array.getElem?_eq_none (Nat.le_of_not_lt hlt)]
      simp [hlt]
  · rw [if_neg hs, if_neg fun h => hs h.1.symm]

theorem lookup_define_self (h : scope < store.scopes.size) :
    (store.define scope name value).lookup scope name = some value := by
  rw [lookup_define, if_pos ⟨rfl, rfl, h⟩]

theorem lookup_define_of_ne (h : other ≠ scope ∨ key ≠ name) :
    (store.define scope name value).lookup other key = store.lookup other key := by
  rw [lookup_define, if_neg]
  rintro ⟨rfl, rfl, -⟩
  rcases h with h | h <;> exact h rfl

theorem isSome_lookup_define (h : (store.lookup other key).isSome) :
    ((store.define scope name value).lookup other key).isSome := by
  rw [lookup_define]
  split
  · rfl
  · exact h

/-- Only scopes of the store bind names. -/
theorem lt_size_of_lookup (h : (store.lookup scope name).isSome) : scope < store.scopes.size := by
  rw [lookup] at h
  by_cases hlt : scope < store.scopes.size
  · exact hlt
  · rw [Array.getElem?_eq_none (Nat.le_of_not_lt hlt)] at h
    cases h

theorem lt_size_of_parent? {parent : ScopeAddress} (h : store.parent? scope = some parent) :
    scope < store.scopes.size := by
  rw [parent?] at h
  by_cases hlt : scope < store.scopes.size
  · exact hlt
  · rw [Array.getElem?_eq_none (Nat.le_of_not_lt hlt)] at h
    cases h

/-! ### New scopes -/

variable {parent : ScopeAddress} {bindings : Bindings Datum}

@[simp] theorem newScope_fst : (store.newScope parent bindings).1 = store.scopes.size := rfl

@[simp] theorem newScope_size :
    (store.newScope parent bindings).2.scopes.size = store.scopes.size + 1 :=
  Array.size_push _

@[simp] theorem newScope_instances :
    (store.newScope parent bindings).2.instances = store.instances := rfl

theorem newScope_getElem? :
    (store.newScope parent bindings).2.scopes[scope]? =
      if scope = store.scopes.size then some ⟨bindings, some parent⟩ else store.scopes[scope]? :=
  Array.getElem?_push

theorem lookup_newScope :
    (store.newScope parent bindings).2.lookup scope name =
      if scope = store.scopes.size then bindings.find? name else store.lookup scope name := by
  rw [lookup, lookup, newScope_getElem?]
  split <;> rfl

theorem parent?_newScope :
    (store.newScope parent bindings).2.parent? scope =
      if scope = store.scopes.size then some parent else store.parent? scope := by
  rw [parent?, parent?, newScope_getElem?]
  split <;> rfl

/-- A binding of a new scope may also be defined after the scope was made. -/
theorem newScope_put :
    (store.newScope parent (bindings.put name value)).2 =
      (store.newScope parent bindings).2.define store.scopes.size name value := by
  simp only [newScope, define]
  congr 1
  refine Array.ext_getElem? fun i => ?_
  rw [Array.getElem?_modify, Array.getElem?_push, Array.getElem?_push]
  by_cases hi : i = store.scopes.size
  · simp [hi]
  · simp [hi, Ne.symm hi]

/-- Of two definitions the later one counts. -/
theorem define_define (store : Store) (v : Datum) :
    (store.define scope name v).define scope name value = store.define scope name value := by
  simp only [define]
  congr 1
  refine Array.ext_getElem? fun i => ?_
  rw [Array.getElem?_modify, Array.getElem?_modify, Array.getElem?_modify]
  split
  · cases store.scopes[i]? with
    | none => rfl
    | some s => simp only [Option.map_some, Bindings.put_put]
  · rfl

/-- A definition may be made before or after a scope. -/
theorem newScope_define (h : scope < store.scopes.size) :
    ((store.define scope name value).newScope parent bindings).2 =
      (store.newScope parent bindings).2.define scope name value := by
  simp only [newScope, define]
  congr 1
  refine Array.ext_getElem? fun i => ?_
  rw [Array.getElem?_modify, Array.getElem?_push, Array.getElem?_push, Array.getElem?_modify,
    Array.size_modify]
  by_cases hi : i = store.scopes.size
  · rw [if_pos hi, if_pos hi, if_neg (hi ▸ Nat.ne_of_lt h)]
  · rw [if_neg hi, if_neg hi]

theorem newScope_foldl_put (pairs : List (String × Datum)) :
    (store.newScope parent
        (pairs.foldl (fun bindings p => bindings.put p.1 p.2) bindings)).2 =
      pairs.foldl (fun s p => s.define store.scopes.size p.1 p.2)
        (store.newScope parent bindings).2 := by
  induction pairs generalizing bindings with
  | nil => rfl
  | cons p pairs ih => rw [List.foldl_cons, List.foldl_cons, ih, newScope_put]

/-- The bindings of a new scope may be defined one after the other. -/
theorem newScope_ofList (pairs : List (String × Datum)) :
    (store.newScope parent (Bindings.ofList pairs)).2 =
      pairs.foldl (fun s p => s.define store.scopes.size p.1 p.2) (store.newScope parent []).2 :=
  newScope_foldl_put pairs

/-! ### Chains of scopes -/

@[simp] theorem climb_zero : store.climb scope 0 = some scope := rfl

theorem climb_succ {distance : Nat} :
    store.climb scope (distance + 1) = (store.parent? scope).bind (store.climb · distance) := rfl

/-- At a scope without a parent only the scope itself is searched. -/
theorem owner?_of_no_parent (h : store.parent? scope = none) :
    store.owner? scope name =
      if (store.lookup scope name).isSome then some scope else none := by
  rw [owner?]
  cases store.scopes.size with
  | zero => rfl
  | succ steps =>
    rw [ownerWithin, h]
    rfl

theorem get_of_no_parent (h : store.parent? scope = none) :
    store.get scope name = store.lookup scope name := by
  rw [get, owner?_of_no_parent h]
  cases hl : store.lookup scope name with
  | none => rfl
  | some value => exact hl

theorem assign_of_no_parent (h : store.parent? scope = none) :
    store.assign scope name value = store.replace scope name value := by
  rw [assign, owner?_of_no_parent h]
  cases hl : (store.lookup scope name).isSome with
  | false => simp [replace, hl]
  | true => rfl

end Lox.Store
