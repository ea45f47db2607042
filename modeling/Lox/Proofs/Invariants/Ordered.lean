/-
Scopes and classes point to older ones only.

A scope is made inside one that exists, a function captures the scope in which it is
declared, and a class extends one that is there when it is declared.  So the numbers of the
scopes fall along a chain of parents and the identities of the classes along a chain of
superclasses, however values, closures and instances refer to one another, and whatever
names are declared again.

* `Store.Ordered`, `ordered` — the order of all that a store holds, and that it is kept;
* `Store.LeadsHome` — the chain of parents comes to the global scope, and to none twice;
* `Class.Descends` — the chain of superclasses comes to its end, and to no class twice;
* `Session.chains_end` — so it is in every session, at rest and at every moment of a run;
* `Session.ReachableWrapped.ordered` — also when ids came round again.
-/
import Mathlib
import Lox.Proofs.Ids
import Lox.Proofs.Invariants.Evaluation
import Lox.Proofs.Store.Chains

namespace Lox

/-! ### Lineages -/

namespace Class

variable {ρ : Type}

theorem lineage_eq (c : Class ρ) :
    c.lineage = c :: (c.superclass.map lineage).getD [] := by
  obtain ⟨id, name, methods, superclass⟩ := c
  cases superclass <;> rw [lineage] <;> rfl

/-- Each class of a lineage is followed by the one that it extends. -/
theorem isChain_lineage : ∀ c : Class ρ,
    c.lineage.IsChain fun d e => d.superclass = some e
  | ⟨id, name, methods, none⟩ => by
    rw [lineage]
    exact .singleton _
  | ⟨id, name, methods, some superclass⟩ => by
    have hrest := isChain_lineage superclass
    rw [lineage]
    rw [lineage_eq] at hrest ⊢
    exact .cons_cons rfl hrest

/-- The last class of a lineage extends none. -/
theorem superclass_of_mem_getLast? : ∀ c d : Class ρ, d ∈ c.lineage.getLast? →
    d.superclass = none
  | ⟨id, name, methods, none⟩, d, h => by
    rw [lineage, List.getLast?_singleton, Option.mem_some_iff] at h
    subst h
    rfl
  | ⟨id, name, methods, some superclass⟩, d, h => by
    refine superclass_of_mem_getLast? superclass d ?_
    rw [lineage] at h
    rw [lineage_eq] at h ⊢
    rwa [List.getLast?_cons_cons] at h

end Class

/-! ### Order -/

/-- The classes of the lineage have methods that are made in scopes of the store, and each is
younger than what it extends. -/
structure Class.Ordered (store : Store) (c : Class ScopeAddress) : Prop where
  methods : ∀ d ∈ c.lineage, ∀ name f, d.methods.find? name = some f →
    f.env < store.scopes.size
  known : ∀ d ∈ c.lineage, d.id < store.nextIdentity
  younger : (c.lineage.map Class.id).Pairwise (· > ·)

/-- Values refer to scopes of the store and to ordered classes. -/
abbrev Value.Ordered (store : Store) (value : Datum) : Prop :=
  value.Uses (· < store.scopes.size) (Class.Ordered store)

/-- The global scope has no parent, every other scope has one that is older, and so it is with
all that scopes and instances hold. -/
structure Store.Ordered (store : Store) : Prop where
  inhabited : Store.globals < store.scopes.size
  globals : store.parent? Store.globals = none
  parent : ∀ scope < store.scopes.size, scope ≠ Store.globals →
    ∃ parent < scope, store.parent? scope = some parent
  lookup : ∀ scope name value, store.lookup scope name = some value → value.Ordered store
  instances : ∀ (i : InstanceAddress) target, store.instances[i]? = some target →
    target.cls.Ordered store
  fields : ∀ (i : InstanceAddress) target name value, store.instances[i]? = some target →
    target.fields.find? name = some value → value.Ordered store

/-- There are more scopes and identities. -/
structure Store.Grows (store store' : Store) : Prop where
  scopes : store.scopes.size ≤ store'.scopes.size
  nextIdentity : store.nextIdentity ≤ store'.nextIdentity

variable {store store' : Store} {scope : ScopeAddress} {name : String} {value : Datum}
  {c : Class ScopeAddress}

theorem Class.Ordered.mono (h : c.Ordered store) (hgrows : store.Grows store') :
    c.Ordered store' := by
  constructor
  case methods =>
    exact fun d hd name f hf => Nat.lt_of_lt_of_le (h.methods d hd name f hf) hgrows.scopes
  case known => exact fun d hd => Nat.lt_of_lt_of_le (h.known d hd) hgrows.nextIdentity
  case younger => exact h.younger

theorem Value.Ordered.mono (h : value.Ordered store) (hgrows : store.Grows store') :
    value.Ordered store' := by
  cases value with
  | function id f => exact Nat.lt_of_lt_of_le h hgrows.scopes
  | classObject c => exact Class.Ordered.mono h hgrows
  | _ => trivial

/-- A new class is younger than all that are there. -/
theorem Class.ordered_new {env : ScopeAddress} {methods : Bindings (Closure ScopeAddress)}
    {superclass : Option (Class ScopeAddress)} (henv : env < store.scopes.size)
    (hmethods : ∀ key f, methods.find? key = some f → f.env = env)
    (hsuper : ∀ c, superclass = some c → c.Ordered store) :
    Class.Ordered store.newIdentity.2 ⟨store.nextIdentity, name, methods, superclass⟩ := by
  have hgrows : store.Grows store.newIdentity.2 := ⟨Nat.le_refl _, Nat.le_succ _⟩
  have hown : ∀ key f, methods.find? key = some f → f.env < store.scopes.size := by
    intro key f hf
    rw [hmethods key f hf]
    exact henv
  cases superclass with
  | none =>
    refine ⟨?_, ?_, ?_⟩ <;> rw [Class.lineage]
    · exact List.forall_mem_singleton.mpr hown
    · exact List.forall_mem_singleton.mpr (Nat.lt_succ_self _)
    · exact List.pairwise_singleton _ _
  | some c =>
    have hc := hsuper c rfl
    have hold := hc.mono hgrows
    refine ⟨?_, ?_, ?_⟩ <;> rw [Class.lineage]
    · exact List.forall_mem_cons.mpr ⟨hown, hold.methods⟩
    · exact List.forall_mem_cons.mpr ⟨Nat.lt_succ_self _, hold.known⟩
    · rw [List.map_cons, List.pairwise_cons]
      refine ⟨fun id hid => ?_, hold.younger⟩
      -- the identity was new when the superclass was there already
      obtain ⟨d, hd, rfl⟩ := List.mem_map.mp hid
      exact hc.known d hd

theorem Class.Ordered.method {f : Closure ScopeAddress} (h : c.Ordered store)
    (hf : c.method? name = some f) : f.env < store.scopes.size := by
  obtain ⟨d, hd, hfound⟩ := Class.mem_lineage_of_method? hf
  exact h.methods d hd name f hfound

/-- What a class of an ordered lineage extends is ordered. -/
theorem Class.Ordered.superclass {d : Class ScopeAddress} (h : c.Ordered store)
    (hsuper : c.superclass = some d) : d.Ordered store := by
  have hlineage : c.lineage = c :: d.lineage := by
    rw [Class.lineage_eq, hsuper]
    rfl
  obtain ⟨hmethods, hknown, hyounger⟩ := h
  rw [hlineage] at hmethods hknown hyounger
  exact ⟨(List.forall_mem_cons.mp hmethods).2, (List.forall_mem_cons.mp hknown).2,
    (List.pairwise_cons.mp hyounger).2⟩

namespace Store.Ordered

/-! ### Changes of a store -/

/-- A change of the store that keeps its scopes in their places and puts ordered values only
into them and into the instances. -/
theorem change (h : store.Ordered) (hgrows : store.Grows store')
    (hsize : store'.scopes.size = store.scopes.size)
    (hparent : ∀ scope, store'.parent? scope = store.parent? scope)
    (hlookup : ∀ scope name value, store'.lookup scope name = some value →
      store.lookup scope name = some value ∨ value.Ordered store)
    (hinstances : ∀ (i : InstanceAddress) target, store'.instances[i]? = some target →
      target.cls.Ordered store ∧
        ∀ name value, target.fields.find? name = some value → value.Ordered store) :
    store'.Ordered := by
  constructor
  case inhabited => exact Nat.lt_of_lt_of_le h.inhabited hgrows.scopes
  case globals => rw [hparent, h.globals]
  case parent =>
    intro scope hlt hne
    rw [hparent]
    exact h.parent scope (hsize ▸ hlt) hne
  case lookup =>
    intro scope name value hvalue
    rcases hlookup scope name value hvalue with hold | hnew
    · exact (h.lookup scope name value hold).mono hgrows
    · exact hnew.mono hgrows
  case instances => exact fun i target htarget => (hinstances i target htarget).1.mono hgrows
  case fields =>
    intro i target name value htarget hvalue
    exact ((hinstances i target htarget).2 name value hvalue).mono hgrows

theorem held (h : store.Ordered) (i : InstanceAddress) (target : Instance)
    (htarget : store.instances[i]? = some target) :
    target.cls.Ordered store ∧
      ∀ name value, target.fields.find? name = some value → value.Ordered store :=
  ⟨h.instances i target htarget, fun name value => h.fields i target name value htarget⟩

theorem define (h : store.Ordered) (hvalue : value.Ordered store) :
    (store.define scope name value).Ordered := by
  refine h.change ⟨Nat.le_of_eq define_size.symm, Nat.le_refl _⟩ define_size
    (fun _ => parent?_define) (fun other key found hfound => ?_) h.held
  rw [lookup_define] at hfound
  split at hfound
  · cases hfound
    exact .inr hvalue
  · exact .inl hfound

theorem setField {address : InstanceAddress} (h : store.Ordered) (hvalue : value.Ordered store) :
    (store.setField address name value).Ordered := by
  refine h.change ⟨Nat.le_refl _, Nat.le_refl _⟩ rfl (fun _ => rfl) (fun _ _ _ => .inl)
    fun i target htarget => ?_
  rw [instances_setField] at htarget
  split at htarget
  · obtain ⟨old, hold, rfl⟩ := Option.map_eq_some_iff.mp htarget
    obtain ⟨hcls, hfields⟩ := h.held i old hold
    refine ⟨hcls, fun key found hfound => ?_⟩
    rw [Bindings.find?_put] at hfound
    split at hfound
    · cases hfound
      exact hvalue
    · exact hfields key found hfound
  · exact h.held i target htarget

theorem newInstance (h : store.Ordered) (hc : c.Ordered store) :
    (store.newInstance c).2.Ordered := by
  refine h.change ⟨Nat.le_refl _, Nat.le_refl _⟩ rfl (fun _ => rfl) (fun _ _ _ => .inl)
    fun i target htarget => ?_
  rw [instances_newInstance] at htarget
  split at htarget
  · cases htarget
    exact ⟨hc, fun name value hvalue => by cases hvalue⟩
  · exact h.held i target htarget

theorem newIdentity (h : store.Ordered) : store.newIdentity.2.Ordered :=
  h.change ⟨Nat.le_refl _, Nat.le_succ _⟩ rfl (fun _ => rfl) (fun _ _ _ => .inl) h.held

theorem newScope {parent : ScopeAddress} {bindings : Bindings Datum} (h : store.Ordered)
    (hparent : parent < store.scopes.size)
    (hbindings : ∀ name value, bindings.find? name = some value → value.Ordered store) :
    (store.newScope parent bindings).2.Ordered := by
  have hgrows : store.Grows (store.newScope parent bindings).2 :=
    ⟨by rw [newScope_size]; exact Nat.le_succ _, Nat.le_refl _⟩
  constructor
  case inhabited => exact Nat.lt_of_lt_of_le h.inhabited hgrows.scopes
  case globals => rw [parent?_newScope, if_neg (Nat.ne_of_lt h.inhabited), h.globals]
  case parent =>
    intro scope hlt hne
    rw [parent?_newScope]
    split
    · -- the new scope comes behind all others, its parent too
      rename_i heq
      subst heq
      exact ⟨parent, hparent, rfl⟩
    · rename_i hold
      rw [newScope_size] at hlt
      exact h.parent scope (Nat.lt_of_le_of_ne (Nat.le_of_lt_succ hlt) hold) hne
  case lookup =>
    intro scope name value hvalue
    rw [lookup_newScope] at hvalue
    split at hvalue
    · exact (hbindings name value hvalue).mono hgrows
    · exact (h.lookup scope name value hvalue).mono hgrows
  case instances => exact fun i target htarget => (h.instances i target htarget).mono hgrows
  case fields =>
    exact fun i target name value htarget hvalue =>
      (h.fields i target name value htarget hvalue).mono hgrows

end Store.Ordered

/-- Evaluation keeps stores ordered.  Code may run in all scopes that there are and may
declare and assign what it likes. -/
def ordered : Invariant where
  Sound := Store.Ordered
  Grown := Store.Grows
  Env store scope := scope < store.scopes.size
  Open _ _ _ := True
  Free _ _ := True
  Cls := Class.Ordered
  refl _ := ⟨Nat.le_refl _, Nat.le_refl _⟩
  trans h h' := ⟨Nat.le_trans h.scopes h'.scopes, Nat.le_trans h.nextIdentity h'.nextIdentity⟩
  env_mono h hlt := Nat.lt_of_lt_of_le hlt h.scopes
  open_mono _ h := h
  cls_mono hgrows h := h.mono hgrows
  lookup h hvalue := h.lookup _ _ _ hvalue
  instances h htarget := h.instances _ _ htarget
  fields h htarget hvalue := h.fields _ _ _ _ htarget hvalue
  method h hf := h.method hf
  define h _ hvalue := ⟨h.define hvalue, Nat.le_of_eq Store.define_size.symm, Nat.le_refl _⟩
  newScope h hparent hbindings := by
    refine ⟨h.newScope hparent hbindings, ⟨?_, Nat.le_refl _⟩, ?_, fun _ => trivial⟩
    · rw [Store.newScope_size]
      exact Nat.le_succ _
    · rw [Store.newScope_size]
      exact Nat.lt_succ_self _
  newInstance h hc := ⟨h.newInstance hc, Nat.le_refl _, Nat.le_refl _⟩
  setField _ _ h hvalue := ⟨h.setField hvalue, Nat.le_refl _, Nat.le_refl _⟩
  newIdentity h := ⟨h.newIdentity, Nat.le_refl _, Nat.le_succ _⟩
  newClass _ henv hmethods hsuper := Class.ordered_new henv hmethods hsuper

/-! ### Chains that end -/

/-- The chain of parents from the scope comes to the global scope and ends there, after so
many steps, and comes to no scope twice; and a search for a name along it comes to an end as
well, so that more steps find nothing else. -/
def Store.LeadsHome (store : Store) (scope : ScopeAddress) : Prop :=
  ∃ length, store.climb scope length = some Store.globals ∧
    (∀ distance, (store.climb scope distance).isSome ↔ distance ≤ length) ∧
    (∀ near far, near < far → far ≤ length →
      store.climb scope near ≠ store.climb scope far) ∧
    ∀ name steps, length ≤ steps →
      store.ownerWithin name steps scope = store.owner? scope name

namespace Store

/-- Behind the end of its chain a search finds nothing. -/
theorem ownerWithin_of_end {length steps : Nat} (hend : store.climb scope (length + 1) = none)
    (hle : length ≤ steps) :
    store.ownerWithin name steps scope = store.ownerWithin name length scope := by
  induction length generalizing scope steps with
  | zero =>
    cases steps with
    | zero => rfl
    | succ steps =>
      have hparent : store.parent? scope = none := by
        cases hparent : store.parent? scope with
        | none => rfl
        | some parent =>
          rw [climb_succ, hparent] at hend
          cases hend
      rw [ownerWithin, ownerWithin, hparent, Option.bind_none]
  | succ length ih =>
    cases steps with
    | zero => omega
    | succ steps =>
      rw [ownerWithin, ownerWithin]
      cases hparent : store.parent? scope with
      | none => rfl
      | some parent =>
        rw [climb_succ, hparent] at hend
        rw [Option.bind_some, Option.bind_some, ih hend (by omega)]

/-- The numbers of the scopes fall until the global scope is reached. -/
theorem Ordered.climb (h : store.Ordered) (hlt : scope < store.scopes.size) :
    ∃ length, store.climb scope length = some Store.globals ∧
      store.climb scope (length + 1) = none := by
  induction scope using Nat.strongRecOn with
  | ind scope ih =>
    by_cases hglobal : scope = Store.globals
    · subst hglobal
      refine ⟨0, rfl, ?_⟩
      rw [climb_succ, h.globals, Option.bind_none]
    · obtain ⟨parent, hless, hparent⟩ := h.parent scope hlt hglobal
      obtain ⟨length, hlast, hend⟩ := ih parent hless (Nat.lt_trans hless hlt)
      refine ⟨length + 1, ?_, ?_⟩
      · rw [climb_succ, hparent]
        exact hlast
      · rw [climb_succ, hparent]
        exact hend

theorem Ordered.leadsHome (h : store.Ordered) (hlt : scope < store.scopes.size) :
    store.LeadsHome scope := by
  obtain ⟨length, hlast, hend⟩ := h.climb hlt
  have hends : store.Ends scope := ⟨length + 1, hend⟩
  have hsome : ∀ distance, (store.climb scope distance).isSome ↔ distance ≤ length := by
    intro distance
    constructor
    · intro hdistance
      by_contra hfar
      rw [climb_eq_none_of_le hend (by omega)] at hdistance
      cases hdistance
    · intro hle
      rw [Option.isSome_iff_ne_none]
      intro hnone
      rw [climb_eq_none_of_le hnone hle] at hlast
      cases hlast
  refine ⟨length, hlast, hsome, fun near far hnear hfar heq => ?_, fun name steps hle => ?_⟩
  · obtain ⟨target, htarget⟩ := Option.isSome_iff_exists.mp ((hsome far).mpr hfar)
    have hsame : near = far := climb_inj hends (heq.trans htarget) htarget
    omega
  · -- the search by name is long enough for every chain that ends
    have hsize : length ≤ store.scopes.size := distance_le_size hends hlast
    rw [owner?, ownerWithin_of_end hend hle, ownerWithin_of_end hend hsize]

end Store

/-- The superclass links from the class form a chain that ends, in which no two classes have
the same identity, so that it is not longer than the number of identities; and a method is
looked up in the classes of this chain, one after the other. -/
structure Class.Descends (store : Store) (c : Class ScopeAddress) : Prop where
  first : c.lineage.head? = some c
  links : c.lineage.IsChain fun d e => d.superclass = some e
  last : ∀ d ∈ c.lineage.getLast?, d.superclass = none
  distinct : (c.lineage.map Class.id).Nodup
  length : c.lineage.length ≤ store.nextIdentity
  method : ∀ name, c.method? name = c.lineage.findSome? (·.methods.find? name)

theorem Class.Ordered.descends (h : c.Ordered store) : c.Descends store := by
  have hnodup : (c.lineage.map Class.id).Nodup :=
    h.younger.imp fun hgt => Nat.ne_of_gt hgt
  constructor
  case first => rw [Class.lineage_eq, List.head?_cons]
  case links => exact c.isChain_lineage
  case last => exact c.superclass_of_mem_getLast?
  case distinct => exact hnodup
  case length =>
    -- the identities are different numbers below the next one
    have hsub : c.lineage.map Class.id ⊆ List.range store.nextIdentity := by
      intro id hid
      obtain ⟨d, hd, rfl⟩ := List.mem_map.mp hid
      exact List.mem_range.mpr (h.known d hd)
    have hlength := (List.subperm_of_subset hnodup hsub).length_le
    rwa [List.length_map, List.length_range] at hlength
  case method => exact fun name => c.method?_eq_findSome? name

/-! ### All that a machine holds -/

/-- A scope, an instance or one of its fields holds the class, or it holds one from which the
class is reached by superclass links. -/
inductive Store.HoldsClass (store : Store) : Class ScopeAddress → Prop
  | binding {scope : ScopeAddress} {name : String} {c : Class ScopeAddress}
    (h : store.lookup scope name = some (.classObject c)) : HoldsClass store c
  | made {address : InstanceAddress} {target : Instance}
    (h : store.instances[address]? = some target) : HoldsClass store target.cls
  | field {address : InstanceAddress} {target : Instance} {name : String} {c : Class ScopeAddress}
    (htarget : store.instances[address]? = some target)
    (h : target.fields.find? name = some (.classObject c)) : HoldsClass store c
  | extended {c d : Class ScopeAddress} (h : HoldsClass store c) (hsuper : c.superclass = some d) :
    HoldsClass store d

/-- The chains of parents from the current scope and from those of all functions and methods
lead to the global scope, which has no parent, and the chains of superclasses end. -/
structure Machine.Founded (m : Machine) : Prop where
  globals : m.store.parent? Store.globals = none
  scope : m.store.LeadsHome m.scope
  closures : ∀ f, m.store.Holds f → m.store.LeadsHome f.env
  classes : ∀ c, m.store.HoldsClass c → c.Descends m.store

theorem Value.Ordered.env {f : Closure ScopeAddress} (h : value.Ordered store)
    (hf : value.Holds f) : f.env < store.scopes.size := by
  cases value with
  | function id g =>
    cases hf
    exact h
  | classObject c =>
    obtain ⟨d, hd, name, hmethod⟩ := hf
    exact Class.Ordered.methods h d hd name f hmethod
  | _ => cases hf

theorem Store.Ordered.env {f : Closure ScopeAddress} (h : store.Ordered) (hf : store.Holds f) :
    f.env < store.scopes.size := by
  cases hf with
  | binding hvalue hf => exact (h.lookup _ _ _ hvalue).env hf
  | @method address target htarget hf =>
    have hcls : Value.Ordered store (.classObject target.cls) := h.instances _ _ htarget
    exact hcls.env hf
  | field htarget hvalue hf => exact (h.fields _ _ _ _ htarget hvalue).env hf

theorem Store.Ordered.cls (h : store.Ordered) (hc : store.HoldsClass c) : c.Ordered store := by
  induction hc with
  | binding hvalue => exact h.lookup _ _ _ hvalue
  | made htarget => exact h.instances _ _ htarget
  | field htarget hvalue => exact h.fields _ _ _ _ htarget hvalue
  | extended _ hsuper ih => exact ih.superclass hsuper

theorem Store.Ordered.founded {m : Machine} (h : m.store.Ordered)
    (hscope : m.scope < m.store.scopes.size) : m.Founded := by
  constructor
  case globals => exact h.globals
  case scope => exact h.leadsHome hscope
  case closures => exact fun f hf => h.leadsHome (h.env hf)
  case classes => exact fun c hc => (h.cls hc).descends

/-! ### Sessions -/

theorem Store.ordered_initial : Store.initial.Ordered := by
  constructor
  case inhabited => exact Nat.one_pos
  case globals => rfl
  case parent =>
    intro scope hlt hne
    exact absurd (Nat.lt_one_iff.mp hlt) hne
  case lookup =>
    intro scope name value hvalue
    exact Invariant.known_of_not_code (u := ordered) (isCode_initial hvalue)
  case instances =>
    intro i target htarget
    cases htarget
  case fields =>
    intro i target name value htarget
    cases htarget

namespace Session

/-- Between two steps the store is ordered, and the machine is at the top level. -/
structure Ordered (session : Session) : Prop where
  store : session.machine.store.Ordered
  scope : session.machine.scope = Store.globals

variable {host : Host} {session : Session} {p : Program}

theorem ordered_start (sink : Sink) : (start sink).Ordered :=
  ⟨Store.ordered_initial, rfl⟩

/-- A run of any program, from where a session is between two steps. -/
theorem Ordered.keeps (h : session.Ordered) (host : Host) (fuel : Nat) (p : Program)
    {watch : Moment → Exec Unit} (hwatch : ordered.Watches True watch) :
    ordered.Kept session.machine.store Store.globals (fun _ _ => True)
        (Exec.runProgram host fuel p (session.machine.prepared p)) ∧
      Exec.runWatched host watch fuel p (session.machine.prepared p) =
        Exec.runProgram host fuel p (session.machine.prepared p) := by
  -- the watch has no leave to stop the run, so it makes no difference
  obtain ⟨hkept, hsame⟩ := Invariant.keeps_runProgram hwatch host fuel p h.store.inhabited
    (fun _ => trivial) (session.machine.prepared p) h.store rfl h.scope
  rw [hsame trivial] at hkept
  exact ⟨hkept, hsame trivial⟩

theorem Ordered.runChecked (h : session.Ordered) (fuel : Nat)
    (checked : Except (List Diagnostic) Program) :
    (session.runChecked host fuel checked).2.Ordered := by
  cases checked with
  | error diagnostics => exact h
  | ok p =>
    have hunwatched : ordered.Watches True Exec.unwatched :=
      Invariant.watches_unwatched fun _ _ => trivial
    obtain ⟨hkept, -⟩ := h.keeps host fuel p hunwatched
    show Ordered ⟨(session.machine.run host fuel p).2, session.nextId⟩
    rw [Machine.run_eq]
    generalize Exec.runProgram host fuel p (session.machine.prepared p) = result at hkept
    cases hkept with
    | ok sound back => exact ⟨sound, back⟩
    | error sound back => exact ⟨sound, back⟩

theorem Ordered.take (h : session.Ordered) (step : Step) : (session.take host step).2.Ordered := by
  cases step with
  | parse source => exact ⟨h.store, h.scope⟩
  | run fuel source =>
    have hchecked : (session.check source).2.Ordered := ⟨h.store, h.scope⟩
    exact hchecked.runChecked fuel (session.check source).1

theorem Ordered.after (h : session.Ordered) (steps : List Step) :
    (session.after host steps).Ordered := by
  induction steps generalizing session with
  | nil => exact h
  | cons step steps ih => exact ih (h.take step)

/-- The order does not depend on where names are looked for. -/
theorem ReachableWrapped.ordered (h : ReachableWrapped host session) : session.Ordered := by
  induction h with
  | start sink => exact ordered_start sink
  | parse _ source ih => exact ⟨ih.store, ih.scope⟩
  | @run session _ fuel source ih =>
    have hchecked : (session.checkWrapped source).2.Ordered := ⟨ih.store, ih.scope⟩
    exact hchecked.runChecked fuel (session.checkWrapped source).1

theorem Ordered.founded (h : session.Ordered) : session.machine.Founded := by
  refine h.store.founded ?_
  rw [h.scope]
  exact h.store.inhabited

/-- The machine is founded at every moment of a run, whatever the program. -/
theorem Ordered.always (h : session.Ordered) (fuel : Nat) (p : Program) :
    Exec.Always host fuel p (session.machine.prepared p) fun m moment =>
      m.Founded ∧ ∀ f, moment = .enter f → m.store.LeadsHome f.env := by
  intro watch hpass
  refine (h.keeps host fuel p ⟨fun m moment sound henv henters => .inl ?_, fun _ _ _ _ _ _ => trivial⟩).2
  refine hpass m moment ⟨sound.founded henv, fun f heq => ?_⟩
  subst heq
  exact sound.leadsHome henters

variable (host)

/-- In every session, after any steps and at every moment of a run, the chains of scopes and
of classes end: those of parents at the global scope, without coming to a scope twice, from
the current scope and from the scopes of all functions and methods that are held or entered;
those of superclasses without coming to a class twice. -/
theorem chains_end (sink : Sink) (steps : List Step) :
    let session := (start sink).after host steps
    session.machine.Founded ∧
      ∀ fuel p, Exec.Always host fuel p (session.machine.prepared p) fun m moment =>
        m.Founded ∧ ∀ f, moment = .enter f → m.store.LeadsHome f.env := by
  intro session
  have h : session.Ordered := (ordered_start sink).after steps
  exact ⟨h.founded, fun fuel p => h.always fuel p⟩

/-- A class may extend an older one with its own name, here in a session in which an error
follows. -/
example :
    let source := "class A {} class B < A {} class A < B {} A.x;"
    let session := (start (.ofLimit none)).after ⟨some maxCallDepth, fun _ => 0⟩ [.run 10 source]
    (session.machine.store.lookup Store.globals "A").bind (fun value =>
      match value with
      | .classObject c => some (c.lineage.map fun d => (d.name, d.id))
      | _ => none) = some [("A", 2), ("B", 1), ("A", 0)] := by
  decide +kernel

end Session

end Lox
