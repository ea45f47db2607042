/-
Actions that keep machines lawful.

`Keeps b store scope R x y` says of two actions that from every lawful machine with this
store and scope they do the same if the store that is left leads to the last one, and that
they leave a lawful machine in the same scope, with a store that extends the old one.  The
first action may be watched, the second is not.  There is one rule for each elementary
action and for each way to put actions together.

* `Keeps.bind`, `Keeps.inScope`, `Keeps.frame` — actions that are put together;
* `keeps_bindMethod`, `keeps_getProperty`, `keeps_getSuper` — methods that are bound;
* `read_this`, `getSuper_eq` — what `this` and `super` give in code with a home.
-/
import Lox.Proofs.Homes.Heap
import Lox.Proofs.Restored

namespace Lox.Homes

variable {α β : Type} {b : Basis} {store : Store} {scope : ScopeAddress}

/-- A lawful machine is left in the scope, with a store that extends the given one. -/
inductive Kept (b : Basis) (store : Store) (scope : ScopeAddress) (R : Store → α → Prop) :
    EStateM.Result Abort Machine α → Prop
  | ok {a m} (lawful : Lawful b m) (back : m.scope = scope) (grown : store.Extends m.store)
    (h : R m.store a) : Kept b store scope R (.ok a m)
  | error {abort m} (lawful : Lawful b m) (back : m.scope = scope)
    (grown : store.Extends m.store) : Kept b store scope R (.error abort m)

/-- The two actions do the same on the way to the last store, and keep the machine
lawful. -/
def Keeps (b : Basis) (store : Store) (scope : ScopeAddress) (R : Store → α → Prop)
    (x y : Exec α) : Prop :=
  ∀ m, Lawful b m → m.store = store → m.scope = scope →
    ((Machine.left (y m)).store.Extends b.last → x m = y m) ∧ Kept b store scope R (y m)

variable {R : Store → α → Prop} {S : Store → β → Prop}

theorem Kept.grown {result : EStateM.Result Abort Machine α} (h : Kept b store scope R result) :
    store.Extends (Machine.left result).store := by
  cases h with
  | ok _ _ grown _ => exact grown
  | error _ _ grown => exact grown

/-! ### Actions that are put together -/

theorem Keeps.pure {a : α} (h : R store a) : Keeps b store scope R (pure a) (pure a) := by
  rintro m lawful rfl rfl
  exact ⟨fun _ => rfl, .ok lawful rfl (.refl _) h⟩

theorem Keeps.throw (abort : Abort) :
    Keeps b store scope R (throw abort : Exec α) (throw abort) := by
  rintro m lawful rfl rfl
  exact ⟨fun _ => rfl, .error lawful rfl (.refl _)⟩

theorem Keeps.fail (error : RuntimeError) (line : Nat) :
    Keeps b store scope R (Exec.fail error line : Exec α) (Exec.fail error line) :=
  Keeps.throw _

theorem Keeps.bind {x y : Exec α} {f g : α → Exec β} (h : Keeps b store scope R x y)
    (hfg : ∀ store' a, store.Extends store' → R store' a → Keeps b store' scope S (f a) (g a)) :
    Keeps b store scope S (x >>= f) (y >>= g) := by
  intro m lawful hstore hscope
  obtain ⟨heq, hkept⟩ := h m lawful hstore hscope
  show ((Machine.left (EStateM.bind y g m)).store.Extends b.last →
    EStateM.bind x f m = EStateM.bind y g m) ∧ Kept b store scope S (EStateM.bind y g m)
  unfold EStateM.bind
  generalize y m = result at heq hkept
  cases hkept with
  | error lawful' back grown =>
    refine ⟨fun hlast => ?_, .error lawful' back grown⟩
    rw [heq hlast]
  | @ok a m' lawful' back grown ha =>
    obtain ⟨heq', hkept'⟩ := hfg m'.store a grown ha m' lawful' rfl back
    -- the second action only leads on, so the first one is on the way as well
    refine ⟨fun hlast => ?_, ?_⟩
    · rw [heq (hkept'.grown.trans hlast)]
      exact heq' hlast
    dsimp only
    generalize g a m' = result at hkept'
    cases hkept' with
    | ok lawful'' back' grown' hb => exact .ok lawful'' back' (grown.trans grown') hb
    | error lawful'' back' grown' => exact .error lawful'' back' (grown.trans grown')

/-- A watch that lets this moment pass. -/
theorem Keeps.observe {watching : Exec Unit} {x y : Exec α}
    (hpass : ∀ m, Lawful b m → m.store = store → m.scope = scope → m.store.Extends b.last →
      watching m = .ok () m)
    (h : Keeps b store scope R x y) : Keeps b store scope R (watching >>= fun _ => x) y := by
  intro m lawful hstore hscope
  obtain ⟨heq, hkept⟩ := h m lawful hstore hscope
  refine ⟨fun hlast => ?_, hkept⟩
  have hway : m.store.Extends b.last := hstore ▸ hkept.grown.trans hlast
  show EStateM.bind watching (fun _ => x) m = y m
  unfold EStateM.bind
  rw [hpass m lawful hstore hscope hway]
  exact heq hlast

theorem Keeps.currentScope {x y : ScopeAddress → Exec α}
    (h : Keeps b store scope R (x scope) (y scope)) :
    Keeps b store scope R (Exec.currentScope >>= x) (Exec.currentScope >>= y) := by
  rintro m lawful hstore rfl
  exact h m lawful hstore rfl

/-- The first action may look at the scope. -/
theorem Keeps.lookScope {x : ScopeAddress → Exec α} {y : Exec α}
    (h : Keeps b store scope R (x scope) y) :
    Keeps b store scope R (Exec.currentScope >>= x) y := by
  rintro m lawful hstore rfl
  exact h m lawful hstore rfl

/-- Only the store and the table count. -/
theorem lawful_congr {m m' : Machine} (h : Lawful b m) (hstore : m'.store = m.store)
    (htable : m'.distances = m.distances) : Lawful b m' := by
  constructor
  case table => rw [htable, h.table]
  case grown => rw [hstore]; exact h.grown
  case values => rw [hstore]; exact h.values
  case instances => rw [hstore]; exact h.instances

theorem Keeps.inScope {inner : ScopeAddress} {x y : Exec α} (h : Keeps b store inner R x y) :
    Keeps b store scope R (Exec.inScope inner x) (Exec.inScope inner y) := by
  intro m lawful hstore hscope
  obtain ⟨heq, hkept⟩ := h { m with scope := inner } (lawful_congr lawful rfl rfl) hstore rfl
  unfold Exec.inScope
  dsimp only
  generalize y { m with scope := inner } = result at heq hkept
  cases hkept with
  | ok lawful' back grown ha =>
    exact ⟨fun hlast => by rw [heq hlast], .ok (lawful_congr lawful' rfl rfl) hscope grown ha⟩
  | error lawful' back grown =>
    exact ⟨fun hlast => by rw [heq hlast], .error (lawful_congr lawful' rfl rfl) hscope grown⟩

theorem Keeps.frame (host : Host) (line : Nat) {x y : Exec α} (h : Keeps b store scope R x y) :
    Keeps b store scope R (Exec.frame host line x) (Exec.frame host line y) := by
  intro m lawful hstore hscope
  obtain ⟨heq, hkept⟩ := h { m with depth := m.depth + 1 } (lawful_congr lawful rfl rfl) hstore
    hscope
  unfold Exec.frame
  dsimp only
  by_cases hfull : host.maxDepth.any (· ≤ m.depth) = true
  · rw [if_pos hfull, if_pos hfull]
    subst hstore hscope
    exact ⟨fun _ => rfl, .error lawful rfl (.refl _)⟩
  · rw [if_neg hfull, if_neg hfull]
    generalize y { m with depth := m.depth + 1 } = result at heq hkept
    cases hkept with
    | ok lawful' back grown ha =>
      exact ⟨fun hlast => by rw [heq hlast],
        .ok (lawful_congr lawful' rfl rfl) back grown ha⟩
    | error lawful' back grown =>
      exact ⟨fun hlast => by rw [heq hlast],
        .error (lawful_congr lawful' rfl rfl) back grown⟩

/-! ### Elementary actions -/

/-- A machine stays lawful when its store is extended by settled values. -/
theorem lawful_withStore {m : Machine} {store' : Store} (h : Lawful b m)
    (hext : m.store.Extends store')
    (hvalues : ∀ scope name value, store'.lookup scope name = some value →
      m.store.lookup scope name = some value ∨ value.Settled b store')
    (hinstances : ∀ (i : InstanceAddress) target, store'.instances[i]? = some target →
      m.store.instances[i]? = some target ∨ target.Settled b store') :
    Lawful b { m with store := store' } := by
  constructor
  case table => exact h.table
  case grown => exact h.grown.trans hext
  case values =>
    intro scope name value hvalue
    rcases hvalues scope name value hvalue with hold | hnew
    · exact (h.values scope name value hold).mono (.refl b) hext
    · exact hnew
  case instances =>
    intro i target htarget
    rcases hinstances i target htarget with hold | hnew
    · exact (h.instances i target hold).mono (.refl b) hext
    · exact hnew

theorem lawful_define {m : Machine} (h : Lawful b m) (target : ScopeAddress) {name : String}
    {value : Datum} (hname : ¬ isReserved name) (hvalue : value.Settled b m.store) :
    Lawful b { m with store := m.store.define target name value } := by
  have hext : m.store.Extends (m.store.define target name value) :=
    Store.extends_define hname value
  refine lawful_withStore h hext (fun other key found hfound => ?_) fun _ _ h => .inl h
  rw [Store.lookup_define] at hfound
  split at hfound
  · cases hfound
    exact .inr (hvalue.mono (.refl b) hext)
  · exact .inl hfound

theorem keeps_define {name : String} {value : Datum} (hname : ¬ isReserved name)
    (hvalue : value.Settled b store) :
    Keeps b store scope (fun _ _ => True) (Exec.define name value) (Exec.define name value) := by
  rintro m lawful rfl rfl
  exact ⟨fun _ => rfl, .ok (lawful_define lawful m.scope hname hvalue) rfl
    (Store.extends_define hname value) trivial⟩

theorem keeps_newScope (parent : ScopeAddress) {bindings : Bindings Datum}
    (hbindings : ∀ name value, bindings.find? name = some value → value.Settled b store) :
    Keeps b store scope
      (fun store' inner => inner = store.scopes.size ∧ store' = (store.newScope parent bindings).2)
      (Exec.newScope parent bindings) (Exec.newScope parent bindings) := by
  rintro m lawful rfl rfl
  have hext : m.store.Extends (m.store.newScope parent bindings).2 :=
    Store.extends_newScope parent bindings
  have hlawful : Lawful b { m with store := (m.store.newScope parent bindings).2 } := by
    refine lawful_withStore lawful hext (fun other key found hfound => ?_) fun _ _ h => .inl h
    rw [Store.lookup_newScope] at hfound
    split at hfound
    · exact .inr ((hbindings key found hfound).mono (.refl b) hext)
    · exact .inl hfound
  exact ⟨fun _ => rfl, .ok hlawful rfl hext ⟨rfl, rfl⟩⟩

theorem keeps_newInstance {c : Class ScopeAddress} (hc : c.Settled b store) :
    Keeps b store scope
      (fun store' (address : InstanceAddress) => store'.instances[address]? = some ⟨c, []⟩)
      (Exec.newInstance c) (Exec.newInstance c) := by
  rintro m lawful rfl rfl
  have hext : m.store.Extends (m.store.newInstance c).2 := Store.extends_newInstance c
  have hlawful : Lawful b { m with store := (m.store.newInstance c).2 } := by
    refine lawful_withStore lawful hext (fun _ _ _ h => .inl h) fun i target htarget => ?_
    rw [Store.instances_newInstance] at htarget
    split at htarget
    · cases htarget
      exact .inr ⟨hc.mono (.refl b) hext, nofun⟩
    · exact .inl htarget
  refine ⟨fun _ => rfl, .ok hlawful rfl hext ?_⟩
  exact Store.instances_newInstance.trans (if_pos rfl)

theorem keeps_newIdentity :
    Keeps b store scope (fun _ _ => True) Exec.newIdentity Exec.newIdentity := by
  rintro m lawful rfl rfl
  have hlawful : Lawful b { m with store := m.store.newIdentity.2 } :=
    lawful_withStore lawful Store.extends_newIdentity (fun _ _ _ h => .inl h) fun _ _ h => .inl h
  exact ⟨fun _ => rfl, .ok hlawful rfl Store.extends_newIdentity trivial⟩

theorem keeps_setField (address : InstanceAddress) (name : String) {value : Datum}
    (hvalue : value.Settled b store) :
    Keeps b store scope (fun _ _ => True) (Exec.setField address name value)
      (Exec.setField address name value) := by
  rintro m lawful rfl rfl
  have hext : m.store.Extends (m.store.setField address name value) :=
    Store.extends_setField address name value
  refine ⟨fun _ => rfl, .ok (lawful_withStore lawful hext (fun _ _ _ h => .inl h)
    fun i target htarget => ?_) rfl hext trivial⟩
  rw [Store.instances_setField] at htarget
  split at htarget
  · obtain ⟨old, hold, rfl⟩ := Option.map_eq_some_iff.mp htarget
    have hsettled := (lawful.instances i old hold).mono (.refl b) hext
    refine .inr ⟨hsettled.cls, fun key found hfound => ?_⟩
    rw [Bindings.find?_put] at hfound
    split at hfound
    · cases hfound
      exact hvalue.mono (.refl b) hext
    · exact hsettled.fields key found hfound
  · exact .inl htarget

theorem keeps_instanceAt? (address : InstanceAddress) :
    Keeps b store scope
      (fun store' found => ∀ target, found = some target →
        store'.instances[address]? = some target ∧ target.Settled b store')
      (Exec.instanceAt? address) (Exec.instanceAt? address) := by
  rintro m lawful rfl rfl
  refine ⟨fun _ => rfl, .ok lawful rfl (.refl _) fun target htarget => ?_⟩
  exact ⟨htarget, lawful.instances address target htarget⟩

theorem settled_of_getAt {m : Machine} (h : Lawful b m) {distance : Nat} {name : String}
    {value : Datum} (hvalue : m.store.getAt scope distance name = some value) :
    value.Settled b m.store := by
  obtain ⟨target, -, hlookup⟩ := Option.bind_eq_some_iff.mp hvalue
  exact h.values target name value hlookup

theorem settled_of_get {m : Machine} (h : Lawful b m) {name : String} {value : Datum}
    (hvalue : m.store.get scope name = some value) : value.Settled b m.store := by
  obtain ⟨target, -, hlookup⟩ := Option.bind_eq_some_iff.mp hvalue
  exact h.values target name value hlookup

theorem keeps_getAt (from_ : ScopeAddress) (distance : Nat) (name : String) :
    Keeps b store scope (fun store' found => ∀ value, found = some value → value.Settled b store')
      (Exec.getAt from_ distance name) (Exec.getAt from_ distance name) := by
  rintro m lawful rfl rfl
  exact ⟨fun _ => rfl, .ok lawful rfl (.refl _) fun value h => settled_of_getAt lawful h⟩

theorem keeps_read (target : Reference) :
    Keeps b store scope (fun store' value => value.Settled b store') (Exec.read target)
      (Exec.read target) := by
  rintro m lawful rfl rfl
  refine ⟨fun _ => rfl, ?_⟩
  unfold Exec.read
  dsimp only
  cases m.distances[target.id]? with
  | some distance =>
    dsimp only
    cases hvalue : m.store.getAt m.scope distance target.name.text with
    | some value => exact .ok lawful rfl (.refl _) (settled_of_getAt lawful hvalue)
    | none => exact .error lawful rfl (.refl _)
  | none =>
    dsimp only
    cases hvalue : m.store.get Store.globals target.name.text with
    | some value => exact .ok lawful rfl (.refl _) (settled_of_get lawful hvalue)
    | none => exact .error lawful rfl (.refl _)

theorem keeps_write {target : Reference} {value : Datum} (hname : ¬ isReserved target.name.text)
    (hvalue : value.Settled b store) :
    Keeps b store scope (fun _ _ => True) (Exec.write target value)
      (Exec.write target value) := by
  rintro m lawful rfl rfl
  refine ⟨fun _ => rfl, ?_⟩
  -- whether a binding was found or not, the store is the old one or has a name redefined
  have hends : ∀ found : Bool × Store, (found.2 = m.store ∨
      ∃ where_, found.2 = m.store.define where_ target.name.text value) →
        Kept b m.store m.scope (fun _ _ => True)
          (if found.1 then .ok () { m with store := found.2 }
          else .error (.runtime (.undefinedVariable target.name.text) target.name.line)
            { m with store := found.2 }) := by
    rintro ⟨found, store'⟩ hstore'
    have hboth : Lawful b { m with store := store' } ∧ m.store.Extends store' := by
      rcases hstore' with rfl | ⟨where_, rfl⟩
      · exact ⟨lawful, .refl _⟩
      · exact ⟨lawful_define lawful where_ hname hvalue, Store.extends_define hname value⟩
    cases found with
    | true => exact .ok hboth.1 rfl hboth.2 trivial
    | false => exact .error hboth.1 rfl hboth.2
  unfold Exec.write
  cases m.distances[target.id]? with
  | some distance => exact hends _ (Store.assignAt_snd _ _ _ _ _)
  | none => exact hends _ (Store.assign_snd _ _ _ _)

theorem keeps_print (value : Datum) :
    Keeps b store scope (fun _ _ => True) (Exec.print value) (Exec.print value) := by
  rintro m lawful rfl rfl
  refine ⟨fun _ => rfl, ?_⟩
  unfold Exec.print
  dsimp only
  split
  · exact .ok (lawful_congr lawful rfl rfl) rfl (.refl _) trivial
  · exact .error (lawful_congr lawful rfl rfl) rfl (.refl _)

theorem keeps_readClock (host : Host) :
    Keeps b store scope (fun store' value => value.Settled b store') (Exec.readClock host)
      (Exec.readClock host) := by
  rintro m lawful rfl rfl
  exact ⟨fun _ => rfl, .ok (lawful_congr lawful rfl rfl) rfl (.refl _) trivial⟩

/-! ### Operators -/

theorem keeps_ofExcept (line : Nat) {result : Except RuntimeError Datum}
    (h : ∀ value, result = .ok value → value.Settled b store) :
    Keeps b store scope (fun store' value => value.Settled b store') (Exec.ofExcept line result)
      (Exec.ofExcept line result) := by
  cases result with
  | ok value => exact .pure (h value rfl)
  | error error => exact .fail error line

/-- What is neither a function nor a class is settled. -/
theorem settled_of_not_code {value : Datum} (h : value.isCode = false) :
    value.Settled b store := by
  cases value with
  | function id f => cases h
  | classObject c => cases h
  | _ => trivial

/-! ### Methods -/

theorem keeps_makeFunction {f : Closure ScopeAddress} (hf : f.Settled b store) :
    Keeps b store scope (fun store' value => value.Settled b store') (Exec.makeFunction f)
      (Exec.makeFunction f) :=
  keeps_newIdentity.bind fun _ _ hext _ => .pure (Closure.Settled.mono hf (.refl b) hext)

/-- The bindings of a scope with a single name. -/
theorem settled_single (key : String) {value : Datum} (h : value.Settled b store) (name : String)
    (found : Datum) (hfound : (Bindings.ofList [(key, value)]).find? name = some found) :
    found.Settled b store := by
  rw [Bindings.eq_of_find?_single hfound]
  exact h

/-- A method of a class of an instance is bound to the instance by a scope of its own. -/
theorem keeps_bindMethod {c : Class ScopeAddress} (hc : c.Made b store)
    {f : Closure ScopeAddress} {name : String} (hf : c.methods.find? name = some f)
    {this : InstanceAddress} {target : Instance}
    (htarget : store.instances[this]? = some target) (hmem : c ∈ target.cls.lineage) :
    Keeps b store scope (fun store' bound => bound.Settled b store') (Exec.bindMethod f this)
      (Exec.bindMethod f this) := by
  have hthis : Value.Settled b store (.instanceRef this) := trivial
  refine (keeps_newScope f.env (settled_single "this" hthis)).bind
    fun store' inner hext hinner => .pure ?_
  obtain ⟨rfl, rfl⟩ := hinner
  refine (hc.mono (.refl b) hext).bind ⟨⟨name, hf⟩, ?_, ?_, target, htarget, hmem⟩
  · rw [Store.parent?_newScope, if_pos rfl]
  · rw [Store.lookup_newScope, if_pos rfl]
    rfl

/-- Likewise for a method that is looked up in a class that the instance is made of. -/
theorem keeps_boundMethod {c : Class ScopeAddress} (hc : c.Settled b store)
    {f : Closure ScopeAddress} {name : String} (hf : c.method? name = some f)
    {this : InstanceAddress} {target : Instance}
    (htarget : store.instances[this]? = some target) (hsub : c.lineage ⊆ target.cls.lineage) :
    Keeps b store scope (fun store' bound => bound.Settled b store') (Exec.bindMethod f this)
      (Exec.bindMethod f this) := by
  obtain ⟨d, hd, hfound⟩ := Class.mem_lineage_of_method? hf
  exact keeps_bindMethod (hc d hd) hfound htarget (hsub hd)

theorem keeps_getProperty {object : Datum} (name : Name) :
    Keeps b store scope (fun store' value => value.Settled b store')
      (Exec.getProperty object name) (Exec.getProperty object name) := by
  cases object with
  | instanceRef address =>
    refine (keeps_instanceAt? address).bind fun store' found _ hfound => ?_
    cases found with
    | none => exact .throw _
    | some target =>
      obtain ⟨htarget, hsettled⟩ := hfound target rfl
      dsimp only
      cases hfield : target.fields.find? name.text with
      | some value => exact .pure (hsettled.fields _ value hfield)
      | none =>
        dsimp only
        cases hmethod : target.cls.method? name.text with
        | none => exact .fail _ _
        | some method =>
          refine (keeps_boundMethod hsettled.cls hmethod htarget (List.Subset.refl _)).bind
            fun store'' bound _ hbound => ?_
          exact keeps_makeFunction hbound
  | _ => exact .fail _ _

/-! ### Code with a home -/

theorem ok_of_bind_ok {x : Exec α} {f : α → Exec β} {m m' : Machine} {result : β}
    (h : (x >>= f) m = .ok result m') : ∃ a between, x m = .ok a between ∧
      f a between = .ok result m' := by
  change EStateM.bind x f m = .ok result m' at h
  unfold EStateM.bind at h
  cases hx : x m with
  | ok a between =>
    rw [hx] at h
    exact ⟨a, between, rfl, h⟩
  | error abort between =>
    rw [hx] at h
    cases h

variable {m : Machine} {σ : Setting} {home : Option Home}

/-- In code that stands where it was resolved `this` is that of its home. -/
theorem read_this {id line : Nat} (h : Lawful b m)
    (hhoused : Housed m.store σ.scopes m.scope home)
    (hplaced : (Expr.thisRef id line).Placed b.table b.bound σ) :
    ∃ found distance, home = some found ∧ found.Bound m.store ∧
      m.store.climb m.scope distance = some found.scope ∧
      (∀ k < distance, ∀ s, m.store.climb m.scope k = some s → m.store.lookup s "this" = none) ∧
      Exec.read ⟨id, ⟨"this", line⟩⟩ m = .ok (.instanceRef found.this) m := by
  obtain ⟨⟨-, htable⟩, distance, hdistance⟩ := hplaced
  obtain ⟨found, hhome, hbound, hclimb, hbetween⟩ := hhoused.this hdistance
  refine ⟨found, distance, hhome, hbound, hclimb, hbetween, ?_⟩
  have hknown : m.distances[id]? = some distance := by rw [h.table, htable, hdistance]
  have hvalue : m.store.getAt m.scope distance "this" = some (.instanceRef found.this) := by
    rw [Store.getAt, hclimb]
    exact hbound.this
  unfold Exec.read
  dsimp only
  rw [hknown]
  dsimp only
  rw [hvalue]

/-- In code that stands where it was resolved `super` looks a method up from what the
class of its home extends, and binds it to the `this` of its home. -/
theorem getSuper_eq {id line : Nat} {method : Name} (h : Lawful b m)
    (hhoused : Housed m.store σ.scopes m.scope home)
    (hplaced : (Expr.superRef id line method).Placed b.table b.bound σ) :
    ∃ found superclass distance, home = some found ∧ found.Bound m.store ∧
      found.cls.superclass = some superclass ∧
      m.store.lookup found.method.env "super" = some (.classObject superclass) ∧
      m.store.climb m.scope distance = some found.scope ∧
      (∀ k < distance, ∀ s, m.store.climb m.scope k = some s → m.store.lookup s "this" = none) ∧
      superclass.Settled b m.store ∧
      Exec.getSuper id method m =
        (match superclass.method? method.text with
        | some f => Exec.bindMethod f found.this >>= Exec.makeFunction
        | none => Exec.fail (.undefinedProperty method.text) method.line) m := by
  obtain ⟨⟨-, htable⟩, distance, hsuper, hthis⟩ := hplaced
  obtain ⟨found, hhome, hbound, hclimb, hbetween⟩ := hhoused.this hthis
  obtain ⟨found', superclass, hhome', hclass, hlookup, hget⟩ := hhoused.super hthis hsuper
  cases hhome.symm.trans hhome'
  have hsettled : superclass.Settled b m.store := settled_of_getAt h hget
  refine ⟨found, superclass, distance, hhome, hbound, hclass, hlookup, hclimb, hbetween, hsettled,
    ?_⟩
  have hknown : m.distances[id]? = some (distance + 1) := by rw [h.table, htable, hsuper]
  have hvalue : m.store.getAt m.scope distance "this" = some (.instanceRef found.this) := by
    rw [Store.getAt, hclimb]
    exact hbound.this
  have hfirst : Exec.distance? id m = .ok (some (distance + 1)) m :=
    congrArg (EStateM.Result.ok · m) hknown
  have hsecond : Exec.getAt m.scope (distance + 1) "super" m =
      .ok (some (.classObject superclass)) m := congrArg (EStateM.Result.ok · m) hget
  have hthird : Exec.getAt m.scope distance "this" m =
      .ok (some (.instanceRef found.this)) m := congrArg (EStateM.Result.ok · m) hvalue
  unfold Exec.getSuper
  rw [Exec.bind_ok hfirst]
  dsimp only
  have hscope : Exec.currentScope m = .ok m.scope m := rfl
  rw [Exec.bind_ok hscope, Exec.bind_ok hsecond]
  exact Exec.bind_ok hthird

theorem keeps_getSuper {id line : Nat} {method : Name}
    (hhoused : Housed store σ.scopes scope home)
    (hplaced : (Expr.superRef id line method).Placed b.table b.bound σ) :
    Keeps b store scope (fun store' value => value.Settled b store')
      (Exec.getSuper id method) (Exec.getSuper id method) := by
  rintro m lawful rfl rfl
  obtain ⟨found, superclass, -, -, hbound, hclass, -, -, -, hsettled, heq⟩ :=
    getSuper_eq lawful hhoused hplaced
  refine ⟨fun _ => rfl, ?_⟩
  rw [heq]
  cases hmethod : superclass.method? method.text with
  | none =>
    have hkeeps : Keeps b m.store m.scope (fun store' value => Value.Settled b store' value)
        (Exec.fail (.undefinedProperty method.text) method.line)
        (Exec.fail (.undefinedProperty method.text) method.line) := .fail _ _
    exact (hkeeps m lawful rfl rfl).2
  | some f =>
    obtain ⟨target, htarget, hmem⟩ := hbound.ofClass
    have hkeeps : Keeps b m.store m.scope (fun store' value => value.Settled b store')
        (Exec.bindMethod f found.this >>= Exec.makeFunction)
        (Exec.bindMethod f found.this >>= Exec.makeFunction) :=
      (keeps_boundMethod hsettled hmethod htarget
        (Class.lineage_subset hclass target.cls hmem)).bind
          fun _ _ _ hbound => keeps_makeFunction hbound
    exact (hkeeps m lawful rfl rfl).2

end Lox.Homes
