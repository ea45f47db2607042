/-
Invariants of stores, and the actions that keep them.

An `Invariant` is a property of stores.  It also says how stores may change, in which scopes
code may run, which names may be declared there, which variables may be assigned and which
classes may be used; and it has a proof for each change that evaluation makes.  To show that
a property is kept by all of evaluation, give such an invariant.

* `Invariant.Keeps` — an action under watch keeps the invariant, and does what the same
  action does without a watch, if the watch lets everything pass;
* `Invariant.Keeps.bind`, `Invariant.Keeps.inScope`, `Invariant.Keeps.frame` — actions that
  are put together;
* `Machine.assigned?`, `Exec.write_eq` — which scope an assignment changes.
-/
import Lox.Proofs.Homes.Heap
import Lox.Proofs.Lockstep.Actions
import Lox.Proofs.Watched

namespace Lox

/-! ### Assignments -/

/-- The scope in which an assignment to this reference would change a variable. -/
def Machine.assigned? (m : Machine) (target : Reference) : Option ScopeAddress :=
  (match m.distances[target.id]? with
    | some distance => m.store.climb m.scope distance
    | none => m.store.owner? Store.globals target.name.text).filter
      fun scope => (m.store.lookup scope target.name.text).isSome

/-- An assignment gives the variable its value where there is one, and fails elsewhere. -/
theorem Exec.write_eq (target : Reference) (value : Datum) (m : Machine) :
    write target value m =
      match m.assigned? target with
      | some scope => .ok () { m with store := m.store.define scope target.name.text value }
      | none => .error (.runtime (.undefinedVariable target.name.text) target.name.line) m := by
  -- the search for the scope has found one or none
  have hends : ∀ found : Option ScopeAddress,
      let change : Bool × Store := match found with
        | some scope => m.store.replace scope target.name.text value
        | none => (false, m.store)
      (if change.1 then EStateM.Result.ok () { m with store := change.2 }
      else .error (Abort.runtime (.undefinedVariable target.name.text) target.name.line)
        { m with store := change.2 }) =
      match found.filter fun scope => (m.store.lookup scope target.name.text).isSome with
      | some scope => .ok () { m with store := m.store.define scope target.name.text value }
      | none => .error (Abort.runtime (.undefinedVariable target.name.text) target.name.line) m := by
    intro found
    cases found with
    | none => rfl
    | some scope =>
      cases hbound : (m.store.lookup scope target.name.text).isSome <;>
        simp [Store.replace, Option.filter, hbound]
  unfold write Machine.assigned?
  cases m.distances[target.id]? with
  | some distance => exact hends (m.store.climb m.scope distance)
  | none => exact hends (m.store.owner? Store.globals target.name.text)

theorem Machine.bound_of_assigned? {m : Machine} {target : Reference} {scope : ScopeAddress}
    (h : m.assigned? target = some scope) :
    (m.store.lookup scope target.name.text).isSome :=
  (Option.filter_eq_some_iff.mp h).2

/-! ### Invariants -/

/-- What holds of the scope of a function, or of a class; other values refer to nothing. -/
def Value.Uses (env : ScopeAddress → Prop) (cls : Class ScopeAddress → Prop) : Datum → Prop
  | .function _ f => env f.env
  | .classObject c => cls c
  | _ => True

/-- A property of stores that no change which evaluation makes can break. -/
structure Invariant where
  /-- The property. -/
  Sound : Store → Prop
  /-- How a store may change. -/
  Grown : Store → Store → Prop
  /-- Code may run in the scope. -/
  Env : Store → ScopeAddress → Prop
  /-- The name may be declared in the scope. -/
  Open : Store → ScopeAddress → String → Prop
  /-- The variable may be assigned. -/
  Free : ScopeAddress → String → Prop
  /-- The class may be used. -/
  Cls : Store → Class ScopeAddress → Prop
  refl : ∀ store, Grown store store
  trans : ∀ {store store' store''}, Grown store store' → Grown store' store'' →
    Grown store store''
  env_mono : ∀ {store store' scope}, Grown store store' → Env store scope → Env store' scope
  open_mono : ∀ {store store' scope name}, Grown store store' → Open store scope name →
    Open store' scope name
  cls_mono : ∀ {store store' c}, Grown store store' → Cls store c → Cls store' c
  lookup : ∀ {store scope name value}, Sound store → store.lookup scope name = some value →
    value.Uses (Env store) (Cls store)
  instances : ∀ {store : Store} {i : InstanceAddress} {target}, Sound store →
    store.instances[i]? = some target → Cls store target.cls
  fields : ∀ {store : Store} {i : InstanceAddress} {target name value}, Sound store →
    store.instances[i]? = some target → target.fields.find? name = some value →
      value.Uses (Env store) (Cls store)
  method : ∀ {store c name f}, Cls store c → c.method? name = some f → Env store f.env
  define : ∀ {store scope name value}, Sound store →
    Open store scope name ∨ (store.lookup scope name).isSome ∧ Free scope name →
      value.Uses (Env store) (Cls store) →
        Sound (store.define scope name value) ∧ Grown store (store.define scope name value)
  newScope : ∀ {store parent bindings}, Sound store → Env store parent →
    (∀ name value, bindings.find? name = some value → value.Uses (Env store) (Cls store)) →
      Sound (store.newScope parent bindings).2 ∧ Grown store (store.newScope parent bindings).2 ∧
        Env (store.newScope parent bindings).2 store.scopes.size ∧
        ∀ name, Open (store.newScope parent bindings).2 store.scopes.size name
  newInstance : ∀ {store c}, Sound store → Cls store c →
    Sound (store.newInstance c).2 ∧ Grown store (store.newInstance c).2
  setField : ∀ {store value} address name, Sound store → value.Uses (Env store) (Cls store) →
    Sound (store.setField address name value) ∧ Grown store (store.setField address name value)
  newIdentity : ∀ {store}, Sound store →
    Sound store.newIdentity.2 ∧ Grown store store.newIdentity.2
  newClass : ∀ {store env name methods superclass}, Sound store → Env store env →
    (∀ key f, methods.find? key = some f → f.env = env) →
      (∀ c, superclass = some c → Cls store c) →
        Cls store.newIdentity.2 ⟨store.nextIdentity, name, methods, superclass⟩

namespace Invariant

variable {α β : Type} {u : Invariant} {passing : Prop} {store store' : Store}
  {scope : ScopeAddress}

/-- The scope or class that the value refers to may be used. -/
abbrev Known (u : Invariant) (store : Store) (value : Datum) : Prop :=
  value.Uses (u.Env store) (u.Cls store)

theorem Known.mono {value : Datum} (h : u.Known store value) (hgrown : u.Grown store store') :
    u.Known store' value := by
  cases value with
  | function id f => exact u.env_mono hgrown h
  | classObject c => exact u.cls_mono hgrown h
  | _ => trivial

theorem known_of_not_code {value : Datum} (h : value.isCode = false) : u.Known store value := by
  cases value with
  | function id f => cases h
  | classObject c => cases h
  | _ => trivial

theorem known_nil : u.Known store .nil :=
  known_of_not_code rfl

/-- A sound machine is left in the scope, after changes that are allowed. -/
inductive Kept (u : Invariant) (store : Store) (scope : ScopeAddress) (R : Store → α → Prop) :
    EStateM.Result Abort Machine α → Prop
  | ok {a m} (sound : u.Sound m.store) (back : m.scope = scope) (grown : u.Grown store m.store)
    (h : R m.store a) : Kept u store scope R (.ok a m)
  | error {abort m} (sound : u.Sound m.store) (back : m.scope = scope)
    (grown : u.Grown store m.store) : Kept u store scope R (.error abort m)

/-- The first action, which may be watched, keeps the invariant; and it does what the second
one does if the watch lets everything pass. -/
def Keeps (u : Invariant) (passing : Prop) (store : Store) (scope : ScopeAddress)
    (R : Store → α → Prop) (x y : Exec α) : Prop :=
  ∀ m, u.Sound m.store → m.store = store → m.scope = scope →
    u.Kept store scope R (x m) ∧ (passing → x m = y m)

variable {R : Store → α → Prop} {S : Store → β → Prop}

theorem Kept.grown {result : EStateM.Result Abort Machine α} (h : u.Kept store scope R result) :
    u.Grown store (Machine.left result).store := by
  cases h with
  | ok _ _ grown _ => exact grown
  | error _ _ grown => exact grown

/-- Only the store and the scope count. -/
theorem Kept.leaving {inner : ScopeAddress} {change : Machine → Machine}
    {result : EStateM.Result Abort Machine α} (h : u.Kept store inner R result)
    (hstore : ∀ m, (change m).store = m.store)
    (hscope : ∀ m : Machine, m.scope = inner → (change m).scope = scope) :
    u.Kept store scope R (Exec.leaving change result) := by
  cases h with
  | @ok a m sound back grown h =>
    rw [← hstore m] at sound grown h
    exact .ok sound (hscope m back) grown h
  | @error abort m sound back grown =>
    rw [← hstore m] at sound grown
    exact .error sound (hscope m back) grown

/-! ### Actions that are put together -/

/-- An action that is not watched. -/
theorem Keeps.of_kept {x : Exec α}
    (h : ∀ m, u.Sound m.store → m.store = store → m.scope = scope →
      u.Kept store scope R (x m)) : u.Keeps passing store scope R x x :=
  fun m sound hstore hscope => ⟨h m sound hstore hscope, fun _ => rfl⟩

theorem Keeps.pure {a : α} (h : R store a) : u.Keeps passing store scope R (pure a) (pure a) := by
  refine .of_kept ?_
  rintro m sound rfl rfl
  exact .ok sound rfl (u.refl _) h

theorem Keeps.throw (abort : Abort) :
    u.Keeps passing store scope R (throw abort : Exec α) (throw abort) := by
  refine .of_kept ?_
  rintro m sound rfl rfl
  exact .error sound rfl (u.refl _)

theorem Keeps.fail (error : RuntimeError) (line : Nat) :
    u.Keeps passing store scope R (Exec.fail error line : Exec α) (Exec.fail error line) :=
  Keeps.throw _

theorem Kept.bind {x : Exec α} {f : α → Exec β} {m : Machine} (h : u.Kept store scope R (x m))
    (hf : ∀ m' a, u.Sound m'.store → m'.scope = scope → u.Grown store m'.store → R m'.store a →
      u.Kept m'.store scope S (f a m')) : u.Kept store scope S ((x >>= f) m) := by
  cases hresult : x m with
  | error abort m' =>
    rw [hresult] at h
    rw [Exec.bind_error hresult]
    cases h with
    | error sound back grown => exact .error sound back grown
  | ok a m' =>
    rw [hresult] at h
    rw [Exec.bind_ok hresult]
    cases h with
    | ok sound back grown ha =>
      have hrest := hf m' a sound back grown ha
      generalize f a m' = result at hrest
      cases hrest with
      | ok sound' back' grown' hb => exact .ok sound' back' (u.trans grown grown') hb
      | error sound' back' grown' => exact .error sound' back' (u.trans grown grown')

theorem Keeps.bind {x y : Exec α} {f g : α → Exec β} (h : u.Keeps passing store scope R x y)
    (hfg : ∀ store' a, u.Grown store store' → R store' a →
      u.Keeps passing store' scope S (f a) (g a)) :
    u.Keeps passing store scope S (x >>= f) (y >>= g) := by
  intro m sound hstore hscope
  obtain ⟨hkept, hsame⟩ := h m sound hstore hscope
  refine ⟨hkept.bind fun m' a sound' back grown ha => (hfg m'.store a grown ha m' sound' rfl back).1,
    fun hpass => ?_⟩
  cases hresult : x m with
  | error abort m' =>
    rw [Exec.bind_error hresult, Exec.bind_error ((hsame hpass).symm.trans hresult)]
  | ok a m' =>
    rw [hresult] at hkept
    rw [Exec.bind_ok hresult, Exec.bind_ok ((hsame hpass).symm.trans hresult)]
    cases hkept with
    | ok sound' back grown ha => exact (hfg m'.store a grown ha m' sound' rfl back).2 hpass

/-- The watch lets this moment pass, or it stops the run, which it may only if it need not let
everything pass. -/
def Lets (passing : Prop) (watching : Exec Unit) (m : Machine) : Prop :=
  watching m = .ok () m ∨ ¬ passing ∧ ∃ abort, watching m = .error abort m

theorem Keeps.observe {watching : Exec Unit} {x y : Exec α}
    (hlets : ∀ m, u.Sound m.store → m.store = store → m.scope = scope →
      Lets passing watching m)
    (h : ∀ m, watching m = .ok () m → u.Sound m.store → m.store = store → m.scope = scope →
      u.Kept store scope R (x m) ∧ (passing → x m = y m)) :
    u.Keeps passing store scope R (watching >>= fun _ => x) y := by
  intro m sound hstore hscope
  rcases hlets m sound hstore hscope with hpass | ⟨hnot, abort, hstop⟩
  · rw [Exec.bind_ok hpass]
    exact h m hpass sound hstore hscope
  · -- a watch that stops the run has changed nothing
    rw [Exec.bind_error hstop]
    subst hstore hscope
    exact ⟨.error sound rfl (u.refl _), fun hpass => absurd hpass hnot⟩

theorem Keeps.currentScope {x y : ScopeAddress → Exec α}
    (h : u.Keeps passing store scope R (x scope) (y scope)) :
    u.Keeps passing store scope R (Exec.currentScope >>= x) (Exec.currentScope >>= y) := by
  rintro m sound hstore rfl
  exact h m sound hstore rfl

/-- The first action may look at the scope. -/
theorem Keeps.lookScope {x : ScopeAddress → Exec α} {y : Exec α}
    (h : u.Keeps passing store scope R (x scope) y) :
    u.Keeps passing store scope R (Exec.currentScope >>= x) y := by
  rintro m sound hstore rfl
  exact h m sound hstore rfl

theorem Keeps.inScope {inner : ScopeAddress} {x y : Exec α}
    (h : u.Keeps passing store inner R x y) :
    u.Keeps passing store scope R (Exec.inScope inner x) (Exec.inScope inner y) := by
  intro m sound hstore hscope
  obtain ⟨hkept, hsame⟩ := h { m with scope := inner } sound hstore rfl
  rw [Exec.inScope_eq, Exec.inScope_eq]
  exact ⟨hkept.leaving (fun _ => rfl) fun _ _ => hscope, fun hpass => by rw [hsame hpass]⟩

theorem Keeps.frame (host : Host) (line : Nat) {x y : Exec α}
    (h : u.Keeps passing store scope R x y) :
    u.Keeps passing store scope R (Exec.frame host line x) (Exec.frame host line y) := by
  intro m sound hstore hscope
  cases hfull : host.maxDepth.any (· ≤ m.depth) with
  | true =>
    rw [Exec.frame_of_full line x hfull, Exec.frame_of_full line y hfull]
    subst hstore hscope
    exact ⟨.error sound rfl (u.refl _), fun _ => rfl⟩
  | false =>
    obtain ⟨hkept, hsame⟩ := h { m with depth := m.depth + 1 } sound hstore hscope
    rw [Exec.frame_of_not_full line x hfull, Exec.frame_of_not_full line y hfull]
    exact ⟨hkept.leaving (fun _ => rfl) fun _ back => back, fun hpass => by rw [hsame hpass]⟩

/-! ### Elementary actions -/

theorem keeps_define {name : String} {value : Datum} (hopen : u.Open store scope name)
    (hvalue : u.Known store value) :
    u.Keeps passing store scope (fun _ _ => True) (Exec.define name value)
      (Exec.define name value) := by
  refine .of_kept ?_
  rintro m sound rfl rfl
  obtain ⟨hsound, hgrown⟩ := u.define sound (.inl hopen) hvalue
  exact .ok hsound rfl hgrown trivial

theorem keeps_newScope {parent : ScopeAddress} {bindings : Bindings Datum}
    (hparent : u.Env store parent)
    (hbindings : ∀ name value, bindings.find? name = some value → u.Known store value) :
    u.Keeps passing store scope
      (fun store' inner => u.Env store' inner ∧ ∀ name, u.Open store' inner name)
      (Exec.newScope parent bindings) (Exec.newScope parent bindings) := by
  refine .of_kept ?_
  rintro m sound rfl rfl
  obtain ⟨hsound, hgrown, hnew⟩ := u.newScope sound hparent hbindings
  exact .ok hsound rfl hgrown hnew

theorem keeps_newInstance {c : Class ScopeAddress} (hc : u.Cls store c) :
    u.Keeps passing store scope (fun _ _ => True) (Exec.newInstance c) (Exec.newInstance c) := by
  refine .of_kept ?_
  rintro m sound rfl rfl
  obtain ⟨hsound, hgrown⟩ := u.newInstance sound hc
  exact .ok hsound rfl hgrown trivial

theorem keeps_newIdentity :
    u.Keeps passing store scope (fun _ _ => True) Exec.newIdentity Exec.newIdentity := by
  refine .of_kept ?_
  rintro m sound rfl rfl
  obtain ⟨hsound, hgrown⟩ := u.newIdentity sound
  exact .ok hsound rfl hgrown trivial

/-- The next identity, as that of a class. -/
theorem keeps_newClass {decl : ClassDecl} {env : ScopeAddress}
    {superclass : Option (Class ScopeAddress)} (henv : u.Env store env)
    (hsuper : ∀ c, superclass = some c → u.Cls store c) :
    u.Keeps passing store scope
      (fun store' id => u.Cls store' ⟨id, decl.name.text, decl.methodsIn env, superclass⟩)
      Exec.newIdentity Exec.newIdentity := by
  refine .of_kept ?_
  rintro m sound rfl rfl
  obtain ⟨hsound, hgrown⟩ := u.newIdentity sound
  refine .ok hsound rfl hgrown (u.newClass sound henv (fun key f hf => ?_) hsuper)
  -- all methods of the declaration are made in the one scope
  rw [ClassDecl.find?_methodsIn] at hf
  obtain ⟨method, -, rfl⟩ := Option.map_eq_some_iff.mp hf
  rfl

theorem keeps_setField (address : InstanceAddress) (name : String) {value : Datum}
    (hvalue : u.Known store value) :
    u.Keeps passing store scope (fun _ _ => True) (Exec.setField address name value)
      (Exec.setField address name value) := by
  refine .of_kept ?_
  rintro m sound rfl rfl
  obtain ⟨hsound, hgrown⟩ := u.setField address name sound hvalue
  exact .ok hsound rfl hgrown trivial

theorem keeps_instanceAt? (address : InstanceAddress) :
    u.Keeps passing store scope
      (fun store' found => ∀ target, found = some target → u.Cls store' target.cls ∧
        ∀ name value, target.fields.find? name = some value → u.Known store' value)
      (Exec.instanceAt? address) (Exec.instanceAt? address) := by
  refine .of_kept ?_
  rintro m sound rfl rfl
  refine .ok sound rfl (u.refl _) fun target htarget => ⟨u.instances sound htarget, ?_⟩
  exact fun name value hvalue => u.fields sound htarget hvalue

theorem known_of_getAt {inner : ScopeAddress} {distance : Nat} {name : String} {value : Datum}
    (sound : u.Sound store) (h : store.getAt inner distance name = some value) :
    u.Known store value := by
  obtain ⟨target, -, hlookup⟩ := Option.bind_eq_some_iff.mp h
  exact u.lookup sound hlookup

theorem known_of_get {inner : ScopeAddress} {name : String} {value : Datum}
    (sound : u.Sound store) (h : store.get inner name = some value) : u.Known store value := by
  obtain ⟨target, -, hlookup⟩ := Option.bind_eq_some_iff.mp h
  exact u.lookup sound hlookup

theorem keeps_getAt (inner : ScopeAddress) (distance : Nat) (name : String) :
    u.Keeps passing store scope
      (fun store' found => ∀ value, found = some value → u.Known store' value)
      (Exec.getAt inner distance name) (Exec.getAt inner distance name) := by
  refine .of_kept ?_
  rintro m sound rfl rfl
  exact .ok sound rfl (u.refl _) fun value h => known_of_getAt sound h

theorem keeps_distance? (id : Nat) :
    u.Keeps passing store scope (fun _ _ => True) (Exec.distance? id) (Exec.distance? id) := by
  refine .of_kept ?_
  rintro m sound rfl rfl
  exact .ok sound rfl (u.refl _) trivial

theorem keeps_read (target : Reference) :
    u.Keeps passing store scope u.Known (Exec.read target) (Exec.read target) := by
  refine .of_kept ?_
  rintro m sound rfl rfl
  unfold Exec.read
  dsimp only
  cases m.distances[target.id]? with
  | some distance =>
    dsimp only
    cases hvalue : m.store.getAt m.scope distance target.name.text with
    | some value => exact .ok sound rfl (u.refl _) (known_of_getAt sound hvalue)
    | none => exact .error sound rfl (u.refl _)
  | none =>
    dsimp only
    cases hvalue : m.store.get Store.globals target.name.text with
    | some value => exact .ok sound rfl (u.refl _) (known_of_get sound hvalue)
    | none => exact .error sound rfl (u.refl _)

/-- An assignment changes a variable that may be assigned, or nothing. -/
theorem kept_write {m : Machine} {target : Reference} {value : Datum} (sound : u.Sound m.store)
    (hfree : ∀ owner, m.assigned? target = some owner → u.Free owner target.name.text)
    (hvalue : u.Known m.store value) :
    u.Kept m.store m.scope (fun _ _ => True) (Exec.write target value m) := by
  rw [Exec.write_eq]
  cases howner : m.assigned? target with
  | none => exact .error sound rfl (u.refl _)
  | some owner =>
    obtain ⟨hsound, hgrown⟩ := u.define sound
      (.inr ⟨Machine.bound_of_assigned? howner, hfree owner howner⟩) hvalue
    exact .ok hsound rfl hgrown trivial

theorem keeps_print (value : Datum) :
    u.Keeps passing store scope (fun _ _ => True) (Exec.print value) (Exec.print value) := by
  refine .of_kept ?_
  rintro m sound rfl rfl
  unfold Exec.print
  dsimp only
  split
  · exact .ok sound rfl (u.refl _) trivial
  · exact .error sound rfl (u.refl _)

theorem keeps_readClock (host : Host) :
    u.Keeps passing store scope u.Known (Exec.readClock host) (Exec.readClock host) := by
  refine .of_kept ?_
  rintro m sound rfl rfl
  exact .ok sound rfl (u.refl _) trivial

theorem keeps_ofExcept (line : Nat) {result : Except RuntimeError Datum}
    (h : ∀ value, result = .ok value → value.isCode = false) :
    u.Keeps passing store scope u.Known (Exec.ofExcept line result)
      (Exec.ofExcept line result) := by
  cases result with
  | ok value => exact .pure (known_of_not_code (h value rfl))
  | error error => exact .fail error line

/-! ### Methods -/

theorem keeps_makeFunction {f : Closure ScopeAddress} (hf : u.Env store f.env) :
    u.Keeps passing store scope u.Known (Exec.makeFunction f) (Exec.makeFunction f) :=
  keeps_newIdentity.bind fun _ _ hgrown _ => .pure (u.env_mono hgrown hf)

theorem keeps_bindMethod {f : Closure ScopeAddress} (hf : u.Env store f.env)
    (this : InstanceAddress) :
    u.Keeps passing store scope (fun store' bound => u.Env store' bound.env)
      (Exec.bindMethod f this) (Exec.bindMethod f this) := by
  refine (keeps_newScope hf fun name value hvalue => ?_).bind fun _ _ _ hnew => .pure hnew.1
  -- the scope of a bound method has `this` only, and an instance refers to no scope
  rw [Bindings.eq_of_find?_single hvalue]
  trivial

theorem keeps_getProperty {object : Datum} (name : Name) :
    u.Keeps passing store scope u.Known (Exec.getProperty object name)
      (Exec.getProperty object name) := by
  cases object with
  | instanceRef address =>
    refine (keeps_instanceAt? address).bind fun store₁ found _ hfound => ?_
    cases found with
    | none => exact .throw _
    | some target =>
      obtain ⟨hcls, hfields⟩ := hfound target rfl
      dsimp only
      cases hfield : target.fields.find? name.text with
      | some value => exact .pure (hfields name.text value hfield)
      | none =>
        dsimp only
        cases hmethod : target.cls.method? name.text with
        | none => exact .fail _ _
        | some method =>
          exact (keeps_bindMethod (u.method hcls hmethod) address).bind
            fun _ _ _ hbound => keeps_makeFunction hbound
  | _ => exact .fail _ _

theorem keeps_getSuper (id : Nat) (method : Name) :
    u.Keeps passing store scope u.Known (Exec.getSuper id method) (Exec.getSuper id method) := by
  refine (keeps_distance? id).bind fun store₁ distance _ _ => ?_
  match distance with
  | none => exact .throw _
  | some 0 => exact .throw _
  | some (distance + 1) =>
    refine Keeps.currentScope ?_
    refine (keeps_getAt scope (distance + 1) "super").bind fun store₂ found _ hsuper => ?_
    refine (keeps_getAt scope distance "this").bind fun store₃ this hgrown _ => ?_
    split
    · rename_i superclass this _
      have hcls : u.Cls store₃ superclass := u.cls_mono hgrown (hsuper _ rfl)
      cases hmethod : superclass.method? method.text with
      | none => exact .fail _ _
      | some f =>
        exact (keeps_bindMethod (u.method hcls hmethod) this).bind
          fun _ _ _ hbound => keeps_makeFunction hbound
    · exact .throw _

end Invariant

end Lox
