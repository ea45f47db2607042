/-
Chains of scopes, and the two ways to reach a binding along them.

A binding is read and assigned at an exact distance, or in the nearest scope that has the
name.  Several handles may lead to one scope, each at a distance of its own.

* `Store.climb_inj` — a chain that comes to an end does not repeat a scope;
* `Store.distance_le_size` — so it is not longer than the store, and a search along it is
  not cut short;
* `Store.owner?_of_nearest` — the search stops at the least distance at which the name is
  found;
* `Store.binding_laws` — what reads give after assignments, at a distance and by name.
-/
import Mathlib.Data.Fintype.Card
import Mathlib.Data.Nat.Find
import Lox.Proofs.Store.Laws

namespace Lox.Store

variable {store : Store} {scope other target : ScopeAddress} {distance distance' steps : Nat}
  {name key : String} {value : Datum}

/-! ### Chains that end -/

/-- The chain of the scopes around this one comes to an end. -/
def Ends (store : Store) (scope : ScopeAddress) : Prop :=
  ∃ distance, store.climb scope distance = none

theorem climb_add (first second : Nat) :
    store.climb scope (first + second) =
      (store.climb scope first).bind (store.climb · second) := by
  induction first generalizing scope with
  | zero => rw [Nat.zero_add, climb_zero, Option.bind_some]
  | succ first ih =>
    rw [Nat.succ_add, climb_succ, climb_succ, Option.bind_assoc]
    congr 1
    exact funext fun parent => ih

/-- Beyond the end there is nothing. -/
theorem climb_eq_none_of_le (h : store.climb scope distance = none) (hle : distance ≤ distance') :
    store.climb scope distance' = none := by
  obtain ⟨more, rfl⟩ := Nat.exists_eq_add_of_le hle
  rw [climb_add, h, Option.bind_none]

theorem lt_of_climb (hend : store.climb scope distance' = none)
    (h : store.climb scope distance = some target) : distance < distance' := by
  by_contra hle
  rw [climb_eq_none_of_le hend (by omega)] at h
  cases h

/-- What lies further out than a scope does not depend on how the scope was reached. -/
theorem climb_of_climb (h : store.climb scope distance = some target)
    (h' : store.climb scope distance' = some target) (more : Nat) :
    store.climb scope (distance + more) = store.climb scope (distance' + more) := by
  rw [climb_add, climb_add, h, h']

/-- A chain that ends does not come back to a scope. -/
theorem climb_inj (hends : store.Ends scope) (h : store.climb scope distance = some target)
    (h' : store.climb scope distance' = some target) : distance = distance' := by
  -- otherwise the chain would go on behind its end as it does behind the earlier visit
  have hnot : ∀ near far, near < far → store.climb scope near = some target →
      store.climb scope far ≠ some target := by
    intro near far hlt hnear hfar
    have hlast := Nat.find_spec hends
    have hfirst : far < Nat.find hends := lt_of_climb hlast hfar
    have hsame := climb_of_climb hfar hnear (Nat.find hends - far)
    rw [show far + (Nat.find hends - far) = Nat.find hends by omega, hlast] at hsame
    exact Nat.find_min hends (by omega) hsame.symm
  rcases Nat.lt_trichotomy distance distance' with hlt | heq | hlt
  · exact absurd h' (hnot _ _ hlt h)
  · exact heq
  · exact absurd h (hnot _ _ hlt h')

/-- A scope with another one around it is in the store. -/
theorem lt_size_of_climb (h : store.climb scope (distance + 1) = some target) :
    ∃ inner < store.scopes.size, store.climb scope distance = some inner := by
  rw [climb_add] at h
  obtain ⟨inner, hinner, hstep⟩ := Option.bind_eq_some_iff.mp h
  rw [climb_succ] at hstep
  obtain ⟨parent, hparent, -⟩ := Option.bind_eq_some_iff.mp hstep
  exact ⟨inner, lt_size_of_parent? hparent, hinner⟩

/-- A chain that ends is not longer than the store. -/
theorem distance_le_size (hends : store.Ends scope)
    (h : store.climb scope distance = some target) : distance ≤ store.scopes.size := by
  -- the scopes on the way out are different ones of the store
  have hinner : ∀ i : Fin distance, ∃ inner : Fin store.scopes.size,
      store.climb scope i = some inner.val := by
    intro i
    have hsome : store.climb scope (i + 1) ≠ none := by
      intro hnone
      rw [climb_eq_none_of_le hnone i.isLt] at h
      cases h
    obtain ⟨outer, houter⟩ := Option.ne_none_iff_exists'.mp hsome
    obtain ⟨inner, hlt, hclimb⟩ := lt_size_of_climb houter
    exact ⟨⟨inner, hlt⟩, hclimb⟩
  choose visited hvisited using hinner
  have hinjective : Function.Injective visited := by
    intro i j heq
    refine Fin.ext (climb_inj hends (hvisited i) ?_)
    rw [heq]
    exact hvisited j
  simpa using Fintype.card_le_of_injective visited hinjective

/-! ### The nearest scope with a name -/

/-- The name is found at this distance, and at none that is smaller. -/
structure IsNearest (store : Store) (scope : ScopeAddress) (name : String) (distance : Nat) :
    Prop where
  found : (store.getAt scope distance name).isSome
  least : ∀ smaller < distance, store.getAt scope smaller name = none

theorem getAt_succ (hparent : store.parent? scope = some other) :
    store.getAt scope (distance + 1) name = store.getAt other distance name := by
  rw [getAt, climb_succ, hparent]
  rfl

theorem IsNearest.outward (h : store.IsNearest scope name (distance + 1)) :
    store.lookup scope name = none ∧
      ∃ parent, store.parent? scope = some parent ∧ store.IsNearest parent name distance := by
  have hfound := h.found
  refine ⟨h.least 0 (Nat.succ_pos _), ?_⟩
  cases hparent : store.parent? scope with
  | none =>
    rw [getAt, climb_succ, hparent] at hfound
    cases hfound
  | some parent =>
    rw [getAt_succ hparent] at hfound
    refine ⟨parent, rfl, hfound, fun smaller hlt => ?_⟩
    have hnone := h.least (smaller + 1) (by omega)
    rwa [getAt_succ hparent] at hnone

theorem ownerWithin_of_nearest (h : store.IsNearest scope name distance) (hle : distance ≤ steps) :
    store.ownerWithin name steps scope = store.climb scope distance := by
  induction distance generalizing scope steps with
  | zero =>
    have hfound : (store.lookup scope name).isSome := h.found
    cases steps with
    | zero => rw [ownerWithin, if_pos hfound, climb_zero]
    | succ steps => rw [ownerWithin, if_pos hfound, climb_zero]
  | succ distance ih =>
    obtain ⟨hlookup, parent, hparent, hnear⟩ := h.outward
    cases steps with
    | zero => omega
    | succ steps =>
      rw [ownerWithin, hlookup, climb_succ, hparent]
      exact ih hnear (by omega)

theorem ownerWithin_of_not_found (h : ∀ distance, store.getAt scope distance name = none) :
    store.ownerWithin name steps scope = none := by
  induction steps generalizing scope with
  | zero =>
    have hlookup : store.lookup scope name = none := h 0
    rw [ownerWithin, hlookup]
    rfl
  | succ steps ih =>
    have hlookup : store.lookup scope name = none := h 0
    rw [ownerWithin, hlookup]
    cases hparent : store.parent? scope with
    | none => rfl
    | some parent => exact ih fun distance => (getAt_succ hparent).symm.trans (h (distance + 1))

/-- The search for a name stops at the least distance at which it is found. -/
theorem owner?_of_nearest (hends : store.Ends scope) (h : store.IsNearest scope name distance) :
    store.owner? scope name = store.climb scope distance := by
  have hfound := h.found
  -- the search takes as many steps as the store has scopes, which is enough
  refine ownerWithin_of_nearest h ?_
  cases hclimb : store.climb scope distance with
  | none =>
    rw [getAt, hclimb] at hfound
    cases hfound
  | some target => exact distance_le_size hends hclimb

theorem get_of_nearest (hends : store.Ends scope) (h : store.IsNearest scope name distance) :
    store.get scope name = store.getAt scope distance name := by
  rw [get, owner?_of_nearest hends h, getAt]

theorem assign_of_nearest (hends : store.Ends scope) (h : store.IsNearest scope name distance) :
    store.assign scope name value = store.assignAt scope distance name value := by
  rw [assign, owner?_of_nearest hends h, assignAt]

theorem owner?_of_not_found (h : ∀ distance, store.getAt scope distance name = none) :
    store.owner? scope name = none :=
  ownerWithin_of_not_found h

/-- A name that is found at some distance is found at a least one. -/
theorem exists_nearest (h : store.getAt scope distance name ≠ none) :
    ∃ least, store.IsNearest scope name least := by
  classical
  have hex : ∃ distance, store.getAt scope distance name ≠ none := ⟨distance, h⟩
  refine ⟨Nat.find hex, Option.isSome_iff_ne_none.mpr (Nat.find_spec hex), fun smaller hlt => ?_⟩
  exact not_not.mp (Nat.find_min hex hlt)

theorem get_eq_none_iff (hends : store.Ends scope) :
    store.get scope name = none ↔ ∀ distance, store.getAt scope distance name = none := by
  constructor
  · intro hnone distance
    by_contra hfound
    obtain ⟨least, hnear⟩ := exists_nearest hfound
    rw [get_of_nearest hends hnear] at hnone
    have hsome := hnear.found
    rw [hnone] at hsome
    cases hsome
  · intro h
    rw [get, owner?_of_not_found h, Option.bind_none]

/-! ### Assignments -/

/-- The store has the same scopes in the same places, and they bind the same names. -/
structure SameNames (store store' : Store) : Prop where
  size : store'.scopes.size = store.scopes.size
  parent : ∀ scope, store'.parent? scope = store.parent? scope
  names : ∀ scope name, (store'.lookup scope name).isSome = (store.lookup scope name).isSome

theorem SameNames.refl (store : Store) : store.SameNames store :=
  ⟨rfl, fun _ => rfl, fun _ _ => rfl⟩

theorem replace_of_bound (h : (store.lookup scope name).isSome) :
    store.replace scope name value = (true, store.define scope name value) :=
  if_pos h

theorem replace_of_not_bound (h : store.lookup scope name = none) :
    store.replace scope name value = (false, store) := by
  rw [replace, h]
  rfl

theorem sameNames_replace : store.SameNames (store.replace scope name value).2 := by
  cases hlookup : store.lookup scope name with
  | none =>
    rw [replace_of_not_bound hlookup]
    exact .refl store
  | some old =>
    have hbound : (store.lookup scope name).isSome := by rw [hlookup]; rfl
    rw [replace_of_bound hbound]
    refine ⟨define_size, fun _ => parent?_define, fun other key => ?_⟩
    rw [lookup_define]
    split
    · rename_i h
      rw [h.1, h.2.1, hbound]
      rfl
    · rfl

theorem sameNames_assignAt : store.SameNames (store.assignAt scope distance name value).2 := by
  unfold assignAt
  cases store.climb scope distance with
  | none => exact .refl store
  | some target => exact sameNames_replace

theorem sameNames_assign : store.SameNames (store.assign scope name value).2 := by
  unfold assign
  cases store.owner? scope name with
  | none => exact .refl store
  | some target => exact sameNames_replace

theorem climb_congr {store' : Store} (h : ∀ scope, store'.parent? scope = store.parent? scope) :
    store'.climb scope distance = store.climb scope distance := by
  induction distance generalizing scope with
  | zero => rfl
  | succ distance ih =>
    rw [climb_succ, climb_succ, h]
    congr 1
    exact funext fun parent => ih

/-- Where there is no binding an assignment fails, and leaves the store as it is. -/
theorem assignAt_of_not_found (h : store.getAt scope distance name = none) :
    store.assignAt scope distance name value = (false, store) := by
  unfold assignAt
  rw [getAt] at h
  cases hclimb : store.climb scope distance with
  | none => rfl
  | some target =>
    rw [hclimb, Option.bind_some] at h
    exact replace_of_not_bound h

/-- Where there is a binding an assignment gives it the value. -/
theorem assignAt_of_found (value : Datum) (h : (store.getAt scope distance name).isSome) :
    ∃ target, store.climb scope distance = some target ∧ target < store.scopes.size ∧
      store.assignAt scope distance name value = (true, store.define target name value) := by
  unfold assignAt
  rw [getAt] at h
  cases hclimb : store.climb scope distance with
  | none =>
    rw [hclimb] at h
    cases h
  | some target =>
    rw [hclimb, Option.bind_some] at h
    exact ⟨target, rfl, lt_size_of_lookup h, replace_of_bound h⟩

theorem assignAt_fst :
    (store.assignAt scope distance name value).1 = (store.getAt scope distance name).isSome := by
  cases hget : store.getAt scope distance name with
  | none => rw [assignAt_of_not_found hget]; rfl
  | some old =>
    obtain ⟨target, -, -, heq⟩ := assignAt_of_found value (by rw [hget]; rfl)
    rw [heq]
    rfl

/-- After an assignment the value is found wherever its scope is reached. -/
theorem getAt_assignAt (h : (store.getAt scope distance name).isSome) :
    (store.assignAt scope distance name value).2.getAt other distance' key =
      if key = name ∧ store.climb other distance' = store.climb scope distance then some value
      else store.getAt other distance' key := by
  obtain ⟨target, hclimb, hlt, heq⟩ := assignAt_of_found value h
  rw [heq, hclimb, getAt, getAt, climb_congr fun _ => parent?_define]
  cases hother : store.climb other distance' with
  | none => simp
  | some reached =>
    rw [Option.bind_some, Option.bind_some, lookup_define]
    simp [hlt, and_comm]

/-- How reads and assignments go together, if the chain of the scope comes to an end.  At a
distance an assignment succeeds where a read does, and changes what is read in its scope and
under its name, from wherever that scope is reached.  By name both go to the least distance
at which the name is found.  No assignment makes a binding or moves a scope. -/
theorem binding_laws (h : store.Ends scope) (name : String) (value : Datum) :
    (∀ distance, (store.assignAt scope distance name value).1 = true ↔
        ∃ found, store.getAt scope distance name = some found) ∧
      (∀ distance, (store.assignAt scope distance name value).1 = false →
        (store.assignAt scope distance name value).2 = store) ∧
      (∀ distance, (store.assignAt scope distance name value).1 = true →
        ∀ other distance' key,
          (store.assignAt scope distance name value).2.getAt other distance' key =
            if key = name ∧ store.climb other distance' = store.climb scope distance then
              some value
            else store.getAt other distance' key) ∧
      (∀ distance, store.IsNearest scope name distance →
        store.get scope name = store.getAt scope distance name ∧
          store.assign scope name value = store.assignAt scope distance name value) ∧
      (store.get scope name = none ↔ ∀ distance, ¬ store.IsNearest scope name distance) ∧
      ((∀ distance, ¬ store.IsNearest scope name distance) →
        store.assign scope name value = (false, store)) ∧
      (∀ distance, store.SameNames (store.assignAt scope distance name value).2) ∧
      store.SameNames (store.assign scope name value).2 := by
  have hnowhere : (∀ distance, ¬ store.IsNearest scope name distance) →
      ∀ distance, store.getAt scope distance name = none := by
    intro hnot distance
    by_contra hfound
    obtain ⟨least, hnear⟩ := exists_nearest hfound
    exact hnot least hnear
  refine ⟨fun distance => ?_, fun distance hfails => ?_, fun distance hsucceeds => ?_,
    fun distance hnear => ⟨get_of_nearest h hnear, assign_of_nearest h hnear⟩, ⟨?_, ?_⟩,
    fun hnot => ?_, fun distance => sameNames_assignAt, sameNames_assign⟩
  · rw [assignAt_fst, Option.isSome_iff_exists]
  · rw [assignAt_fst, Option.isSome_eq_false_iff, Option.isNone_iff_eq_none] at hfails
    rw [assignAt_of_not_found hfails]
  · intro other distance' key
    rw [assignAt_fst] at hsucceeds
    exact getAt_assignAt hsucceeds
  · intro hnone distance hnear
    have hfound := hnear.found
    rw [(get_eq_none_iff h).mp hnone] at hfound
    cases hfound
  · exact fun hnot => (get_eq_none_iff h).mpr (hnowhere hnot)
  · rw [assign, owner?_of_not_found (hnowhere hnot)]

/-- Two scopes inside the global one, of which the second has a variable of the same name
and a scope inside it. -/
theorem binding_laws_shared :
    let store : Store := ⟨#[⟨[("a", .boolean true)], none⟩, ⟨[], some 0⟩,
      ⟨[("a", .boolean false)], some 0⟩, ⟨[], some 2⟩], #[], 0⟩
    let after := (store.assign 1 "a" .nil).2
    store.Ends 1 ∧ store.IsNearest 1 "a" 1 ∧ store.get 1 "a" = some (.boolean true) ∧
      (store.assignAt 1 1 "a" .nil).1 = true ∧
      store.climb 3 2 = store.climb 1 1 ∧ after.getAt 3 2 "a" = some .nil ∧
      after.getAt 3 1 "a" = some (.boolean false) ∧ store.SameNames after := by
  intro store after
  have hends : store.Ends 1 := ⟨2, rfl⟩
  have hnear : store.IsNearest 1 "a" 1 := by
    refine ⟨rfl, fun smaller hlt => ?_⟩
    obtain rfl : smaller = 0 := by omega
    rfl
  obtain ⟨-, -, hreads, hby, -, -, -, hsame⟩ := binding_laws hends "a" .nil
  obtain ⟨hget, hassign⟩ := hby 1 hnear
  have hafter : after = (store.assignAt 1 1 "a" .nil).2 := congrArg Prod.snd hassign
  refine ⟨hends, hnear, hget, rfl, rfl, ?_, ?_, hsame⟩
  · rw [hafter, hreads 1 rfl, if_pos ⟨rfl, rfl⟩]
  · rw [hafter, hreads 1 rfl, if_neg fun h => by cases h.2]
    rfl

end Lox.Store
