/-
Evaluation adds no names to the scopes that exist.

A name gets into a scope by a declaration that is executed in it.  The declarations of a
block and of the body of a call are executed in a scope that was made for them; so an
expression adds no name to any scope, and a statement adds to the current one at most the
name that it declares.

* `Store.names` — the names that a scope binds;
* `Region`, `Region.sparing` — the scopes that are to stay as they are, and the invariant
  that they do;
* `Exec.Throughout` — what holds at every moment of an evaluation;
* `Exec.names_kept` — what evaluation does to the names, parents and values of scopes.
-/
import Lox.Proofs.Invariants.Declared

namespace Lox

/-! ### Names -/

/-- The names that are bound in exactly this scope, the oldest first. -/
def Store.names (store : Store) (scope : ScopeAddress) : List String :=
  (store.scopes[scope]?.map fun s => s.bindings.names).getD []

namespace Store

variable {store : Store} {scope other : ScopeAddress} {name : String} {value : Datum}

theorem mem_names : name ∈ store.names scope ↔ (store.lookup scope name).isSome := by
  rw [names, lookup]
  cases store.scopes[scope]? with
  | none => simp
  | some s => exact Bindings.find?_isSome_iff.symm

/-- A definition adds its name if it is new to the scope. -/
theorem names_define :
    (store.define scope name value).names other =
      if other = scope ∧ scope < store.scopes.size ∧ name ∉ store.names scope then
        store.names scope ++ [name]
      else store.names other := by
  by_cases hother : other = scope
  · subst hother
    by_cases hlt : other < store.scopes.size
    · simp only [names, define_getElem?, if_true, Array.getElem?_eq_getElem hlt, Option.map_some,
        Option.getD_some, Bindings.names_put, hlt, true_and, ite_not]
    · simp [names, hlt]
  · simp only [names, define_getElem?, hother, false_and, if_false, if_neg (Ne.symm hother)]

theorem names_newScope {parent : ScopeAddress} {bindings : Bindings Datum}
    (h : scope < store.scopes.size) :
    (store.newScope parent bindings).2.names scope = store.names scope := by
  rw [names, names, newScope_getElem?, if_neg (Nat.ne_of_lt h)]

end Store

/-- The later names are the earlier ones and, behind them, some of the allowed names that were
not among them. -/
def Adds (allowed earlier later : List String) : Prop :=
  ∃ added, later = earlier ++ added ∧ added ⊆ allowed ∧ added.Nodup ∧ ∀ name ∈ added, name ∉ earlier

namespace Adds

variable {allowed earlier middle later : List String} {name : String}

theorem refl (allowed earlier : List String) : Adds allowed earlier earlier :=
  ⟨[], (List.append_nil _).symm, List.nil_subset _, List.nodup_nil, List.forall_mem_nil _⟩

theorem single (hallowed : name ∈ allowed) (hnew : name ∉ earlier) :
    Adds allowed earlier (earlier ++ [name]) := by
  refine ⟨[name], rfl, ?_, List.nodup_singleton name, ?_⟩
  · simpa using hallowed
  · simpa using hnew

theorem trans (h : Adds allowed earlier middle) (h' : Adds allowed middle later) :
    Adds allowed earlier later := by
  obtain ⟨first, rfl, hfirst, hnodup, hnew⟩ := h
  obtain ⟨second, rfl, hsecond, hnodup', hnew'⟩ := h'
  refine ⟨first ++ second, List.append_assoc _ _ _, ?_, ?_, ?_⟩
  · exact List.append_subset.mpr ⟨hfirst, hsecond⟩
  · -- what was added later was not among what had been added before
    refine List.nodup_append.mpr ⟨hnodup, hnodup', fun a ha b hb heq => ?_⟩
    subst heq
    exact hnew' a hb (List.mem_append_right _ ha)
  · intro name hname
    rcases List.mem_append.mp hname with hname | hname
    · exact hnew name hname
    · exact fun hmem => hnew' name hname (List.mem_append_left _ hmem)

theorem eq_of_nil (h : Adds [] earlier later) : later = earlier := by
  obtain ⟨added, rfl, hsub, -⟩ := h
  rw [List.subset_nil.mp hsub, List.append_nil]

/-- Of a single allowed name at most that one is added. -/
theorem eq_or_single (h : Adds [name] earlier later) :
    later = earlier ∨ name ∉ earlier ∧ later = earlier ++ [name] := by
  obtain ⟨added, rfl, hsub, hnodup, hnew⟩ := h
  cases added with
  | nil => exact .inl (List.append_nil _)
  | cons first rest =>
    obtain rfl : first = name := List.mem_singleton.mp (hsub List.mem_cons_self)
    have hrest : rest = [] := by
      refine List.eq_nil_iff_forall_not_mem.mpr fun other hother => ?_
      have hsame : other = first := List.mem_singleton.mp (hsub (List.mem_cons_of_mem _ hother))
      subst hsame
      exact (List.nodup_cons.mp hnodup).1 hother
    subst hrest
    exact .inr ⟨hnew first List.mem_cons_self, rfl⟩

end Adds

/-! ### The invariant -/

/-- The scopes below a limit, of which one, in which code is run, may get some names; and a
variable that is not to be assigned, if there is one. -/
structure Region where
  limit : Nat
  own : ScopeAddress
  names : List String
  fixed : Option (ScopeAddress × String)
  apart : ∀ name ∈ names, fixed ≠ some (own, name)

namespace Region

variable {r : Region} {store store' store'' : Store} {scope : ScopeAddress} {name : String}

/-- The names that may be added to the scope. -/
def namesAt (r : Region) (scope : ScopeAddress) : List String :=
  if scope = r.own then r.names else []

/-- The scopes of the region have the same parents and no names that they may not have, and
the fixed variable has its value. -/
structure Spares (r : Region) (store store' : Store) : Prop where
  size : store.scopes.size ≤ store'.scopes.size
  parent : ∀ scope < r.limit, store'.parent? scope = store.parent? scope
  names : ∀ scope < r.limit, Adds (r.namesAt scope) (store.names scope) (store'.names scope)
  fixed : ∀ scope < r.limit, ∀ name, r.fixed = some (scope, name) →
    store'.lookup scope name = store.lookup scope name

theorem Spares.refl (store : Store) : r.Spares store store :=
  ⟨Nat.le_refl _, fun _ _ => rfl, fun _ _ => .refl _ _, fun _ _ _ _ => rfl⟩

theorem Spares.trans (h : r.Spares store store') (h' : r.Spares store' store'') :
    r.Spares store store'' := by
  constructor
  case size => exact Nat.le_trans h.size h'.size
  case parent => exact fun scope hlt => (h'.parent scope hlt).trans (h.parent scope hlt)
  case names => exact fun scope hlt => (h.names scope hlt).trans (h'.names scope hlt)
  case fixed =>
    exact fun scope hlt name heq => (h'.fixed scope hlt name heq).trans (h.fixed scope hlt name heq)

/-- Changes of what is no scope. -/
theorem spares_of_scopes_eq (h : store'.scopes = store.scopes) : r.Spares store store' := by
  have hlookup : ∀ scope name, store'.lookup scope name = store.lookup scope name := by
    intro scope name
    rw [Store.lookup, Store.lookup, h]
  constructor
  case size => exact Nat.le_of_eq (congrArg Array.size h).symm
  case parent =>
    intro scope _
    rw [Store.parent?, Store.parent?, h]
  case names =>
    intro scope _
    rw [Store.names, Store.names, h]
    exact .refl _ _
  case fixed => exact fun scope _ name _ => hlookup scope name

/-- The name may be declared in the scope: it lies outside of the region, or the name is
allowed there. -/
def Admits (r : Region) (scope : ScopeAddress) (name : String) : Prop :=
  r.limit ≤ scope ∨ name ∈ r.namesAt scope

/-- A variable that may be declared or assigned is not the fixed one. -/
theorem ne_fixed (h : r.Admits scope name ∨ r.fixed ≠ some (scope, name))
    (hlt : scope < r.limit) : r.fixed ≠ some (scope, name) := by
  rcases h with (hle | hmem) | hne
  · exact absurd hlt (Nat.not_lt.mpr hle)
  · rw [namesAt] at hmem
    split at hmem
    · rename_i hown
      subst hown
      exact r.apart name hmem
    · cases hmem
  · exact hne

theorem spares_define {value : Datum}
    (h : r.Admits scope name ∨
      (store.lookup scope name).isSome ∧ r.fixed ≠ some (scope, name)) :
    r.Spares store (store.define scope name value) := by
  constructor
  case size => exact Nat.le_of_eq Store.define_size.symm
  case parent => exact fun _ _ => Store.parent?_define
  case names =>
    intro other hlt
    rw [Store.names_define]
    split
    · -- the name is new to the scope, so it was not assigned but declared
      rename_i hnew
      obtain ⟨rfl, -, hnot⟩ := hnew
      rcases h with (hle | hmem) | ⟨hbound, -⟩
      · exact absurd hlt (Nat.not_lt.mpr hle)
      · exact .single hmem hnot
      · exact absurd (Store.mem_names.mpr hbound) hnot
    · exact .refl _ _
  case fixed =>
    intro other hlt key hfixed
    refine Store.lookup_define_of_ne ?_
    by_contra hsame
    rw [not_or, not_not, not_not] at hsame
    obtain ⟨rfl, rfl⟩ := hsame
    exact ne_fixed (h.imp_right And.right) hlt hfixed

theorem spares_newScope {parent : ScopeAddress} {bindings : Bindings Datum}
    (h : r.limit ≤ store.scopes.size) : r.Spares store (store.newScope parent bindings).2 := by
  have hold : ∀ scope < r.limit, scope < store.scopes.size :=
    fun scope hlt => Nat.lt_of_lt_of_le hlt h
  constructor
  case size =>
    rw [Store.newScope_size]
    exact Nat.le_succ _
  case parent =>
    intro scope hlt
    rw [Store.parent?_newScope, if_neg (Nat.ne_of_lt (hold scope hlt))]
  case names =>
    intro scope hlt
    rw [Store.names_newScope (hold scope hlt)]
    exact .refl _ _
  case fixed =>
    intro scope hlt name _
    rw [Store.lookup_newScope, if_neg (Nat.ne_of_lt (hold scope hlt))]

theorem uses_trivial (value : Datum) : value.Uses (fun _ => True) fun _ => True := by
  cases value <;> trivial

/-- Evaluation spares the region.  It may run code anywhere and use any class. -/
def sparing (r : Region) : Invariant where
  Sound store := r.limit ≤ store.scopes.size
  Grown := r.Spares
  Env _ _ := True
  Open _ := r.Admits
  Free scope name := r.fixed ≠ some (scope, name)
  Cls _ _ := True
  refl := .refl
  trans := .trans
  env_mono _ h := h
  open_mono _ h := h
  cls_mono _ h := h
  lookup _ _ := uses_trivial _
  instances _ _ := trivial
  fields _ _ _ := uses_trivial _
  method _ _ := trivial
  define := by
    intro store scope name value sound h _
    refine ⟨?_, spares_define h⟩
    rw [Store.define_size]
    exact sound
  newScope := by
    intro store parent bindings sound _ _
    have hspares : r.Spares store (store.newScope parent bindings).2 := spares_newScope sound
    exact ⟨Nat.le_trans sound hspares.size, hspares, trivial, fun _ => .inl sound⟩
  newInstance sound _ := ⟨sound, spares_of_scopes_eq rfl⟩
  setField _ _ sound _ := ⟨sound, spares_of_scopes_eq rfl⟩
  newIdentity sound := ⟨sound, spares_of_scopes_eq rfl⟩
  newClass _ _ _ _ := trivial

end Region

/-! ### Assignments -/

/-- At this moment the variable is about to be assigned. -/
def Moment.Assigns (m : Machine) (scope : ScopeAddress) (name : String) : Moment → Prop
  | .assign _ target => target.name.text = name ∧ m.assigned? target = some scope
  | _ => False

instance (m : Machine) (scope : ScopeAddress) (name : String) :
    DecidablePred (Moment.Assigns m scope name)
  | .assign _ _ => inferInstanceAs (Decidable (_ ∧ _))
  | .reach _ _ | .enter _ => .isFalse id

namespace Exec

/-- The watch that stops before the variable is assigned. -/
def barring (scope : ScopeAddress) (name : String) (moment : Moment) : Exec Unit := fun m =>
  if moment.Assigns m scope name then .error .dangling m else .ok () m

/-- Something holds at every moment of an evaluation: no watch that lets pass the moments at
which it holds makes a difference. -/
def Throughout {α : Type} (watched : (Moment → Exec Unit) → Exec α) (plain : Exec α)
    (m : Machine) (P : Machine → Moment → Prop) : Prop :=
  ∀ watch : Moment → Exec Unit, (∀ m moment, P m moment → watch moment m = .ok () m) →
    watched watch m = plain m

end Exec

namespace Region

variable {r : Region}

theorem watches_unwatched (h : r.fixed = none) :
    r.sparing.Watches True Exec.unwatched := by
  refine Invariant.watches_unwatched fun scope name hfixed => ?_
  rw [h] at hfixed
  cases hfixed

theorem watches_barring {scope : ScopeAddress} {name : String} (h : r.fixed = some (scope, name)) :
    r.sparing.Watches False (Exec.barring scope name) := by
  constructor
  case lets =>
    intro m moment _ _ _
    by_cases hassigns : moment.Assigns m scope name
    · exact .inr ⟨id, .dangling, if_pos hassigns⟩
    · exact .inl (if_neg hassigns)
  case free =>
    intro m pending target owner hpass howner hfixed
    rw [h, Option.some.injEq, Prod.mk.injEq] at hfixed
    obtain ⟨rfl, rfl⟩ := hfixed
    have hassigns : Moment.Assigns m scope target.name.text (.assign pending target) :=
      ⟨rfl, howner⟩
    rw [Exec.barring, if_pos hassigns] at hpass
    cases hpass

end Region

/-! ### What evaluation keeps -/

/-- All scopes of the store are still there, with the same parents and the same names. -/
def Store.SameScopes (store store' : Store) : Prop :=
  ∀ scope < store.scopes.size, store'.parent? scope = store.parent? scope ∧
    store'.names scope = store.names scope

/-- Likewise, except that one scope may have got the declared name, if there is one. -/
def Store.SameScopesBut (own : ScopeAddress) (declared : Option Name) (store store' : Store) :
    Prop :=
  ∀ scope < store.scopes.size, store'.parent? scope = store.parent? scope ∧
    (store'.names scope = store.names scope ∨
      scope = own ∧ ∃ name, declared = some name ∧ name.text ∉ store.names scope ∧
        store'.names scope = store.names scope ++ [name.text])

namespace Exec

variable {α : Type} {m : Machine} {names : List String}

/-- The variables of the scopes that there are have the same values afterwards, apart from
those that are assigned on the way and those that are declared anew. -/
def KeepsValues (watched : (Moment → Exec Unit) → Exec α) (plain : Exec α) (m : Machine)
    (declared : List String) : Prop :=
  ∀ scope < m.store.scopes.size, ∀ name, (scope = m.scope → name ∉ declared) →
    Throughout watched plain m (fun m' moment => ¬ moment.Assigns m' scope name) →
      (Machine.left (plain m)).store.lookup scope name = m.store.lookup scope name

/-- The action spares every region of which its scope is the one that gets its names. -/
def Sparing (watched : (Moment → Exec Unit) → Exec α) (plain : Exec α) (m : Machine)
    (names : List String) : Prop :=
  ∀ (r : Region) (passing : Prop) (watch : Moment → Exec Unit), r.limit = m.store.scopes.size →
    r.own = m.scope → r.names = names → r.sparing.Watches passing watch →
      ∃ R, r.sparing.Keeps passing m.store m.scope R (watched watch) plain

variable {watched : (Moment → Exec Unit) → Exec α} {plain : Exec α}

theorem Sparing.scopes (h : Sparing watched plain m names) (scope : ScopeAddress)
    (hlt : scope < m.store.scopes.size) :
    (Machine.left (plain m)).store.parent? scope = m.store.parent? scope ∧
      Adds (if scope = m.scope then names else []) (m.store.names scope)
        ((Machine.left (plain m)).store.names scope) := by
  -- names and parents do not depend on what is assigned
  let r : Region := ⟨m.store.scopes.size, m.scope, names, none, nofun⟩
  obtain ⟨R, hkeeps⟩ := h r True unwatched rfl rfl rfl (Region.watches_unwatched rfl)
  obtain ⟨hkept, hsame⟩ := hkeeps m (Nat.le_refl _) rfl rfl
  rw [hsame trivial] at hkept
  have hspares : r.Spares m.store (Machine.left (plain m)).store := hkept.grown
  exact ⟨hspares.parent scope hlt, hspares.names scope hlt⟩

theorem Sparing.values (h : Sparing watched plain m names) :
    KeepsValues watched plain m names := by
  intro scope hlt name hdeclared hnever
  have hapart : ∀ other ∈ names, some (scope, name) ≠ some (m.scope, other) := by
    intro other hother heq
    rw [Option.some.injEq, Prod.mk.injEq] at heq
    obtain ⟨rfl, rfl⟩ := heq
    exact hdeclared rfl hother
  let r : Region := ⟨m.store.scopes.size, m.scope, names, some (scope, name), hapart⟩
  obtain ⟨R, hkeeps⟩ := h r False (barring scope name) rfl rfl rfl (Region.watches_barring rfl)
  -- the watch stops no assignment, since there is none, so this is the run without it
  have hsame : watched (barring scope name) m = plain m :=
    hnever _ fun m' moment hnot => if_neg hnot
  have hkept := (hkeeps m (Nat.le_refl _) rfl rfl).1
  rw [hsame] at hkept
  have hspares : r.Spares m.store (Machine.left (plain m)).store := hkept.grown
  exact hspares.fixed scope hlt name rfl

theorem Sparing.sameScopes (h : Sparing watched plain m []) :
    m.store.SameScopes (Machine.left (plain m)).store := by
  intro scope hlt
  obtain ⟨hparent, hadds⟩ := h.scopes scope hlt
  rw [ite_self] at hadds
  exact ⟨hparent, hadds.eq_of_nil⟩

theorem Sparing.sameScopesBut {declared : Option Name}
    (h : Sparing watched plain m (declared.map Name.text).toList) :
    m.store.SameScopesBut m.scope declared (Machine.left (plain m)).store := by
  intro scope hlt
  obtain ⟨hparent, hadds⟩ := h.scopes scope hlt
  refine ⟨hparent, ?_⟩
  split at hadds
  · rename_i hown
    cases declared with
    | none => exact .inl hadds.eq_of_nil
    | some name =>
      rcases hadds.eq_or_single with hsame | ⟨hnew, hadded⟩
      · exact .inl hsame
      · exact .inr ⟨hown, name, rfl, hnew, hadded⟩
  · exact .inl hadds.eq_of_nil

variable (host : Host) (fuel : Nat)

theorem sparing_eval (m : Machine) (pending : Option String) (e : Expr) :
    Sparing (fun watch => evalWatched host watch fuel pending e) (eval host fuel e) m [] := by
  intro r passing watch _ _ _ hwatch
  exact ⟨_, (Invariant.evaluates_and_executes hwatch host fuel).1 pending e trivial⟩

theorem sparing_exec (m : Machine) (s : Stmt) :
    Sparing (fun watch => execWatched host watch fuel s) (exec host fuel s) m s.declaredNames := by
  intro r passing watch _ hown hnames hwatch
  refine ⟨_, (Invariant.evaluates_and_executes hwatch host fuel).2 s trivial fun name hname => ?_⟩
  refine .inr ?_
  rw [Region.namesAt, if_pos hown.symm, hnames]
  exact hname

theorem sparing_call (m : Machine) (callee : Datum) (arguments : List Datum) (line : Nat) :
    Sparing (fun watch => callWatched host watch (execWatched host watch fuel) callee arguments line)
      (call host (exec host fuel) callee arguments line) m [] := by
  intro r passing watch _ _ _ hwatch
  obtain ⟨-, hexec⟩ := Invariant.evaluates_and_executes hwatch host fuel
  exact ⟨_, Invariant.keeps_call hwatch hexec trivial (Region.uses_trivial callee)
    (fun value _ => Region.uses_trivial value) line⟩

/-- From any machine, and however it ends, the evaluation of an expression leaves all scopes
that there are with their parents and their names, and so does a call.  A statement of a
program that is read, with faults or without, adds at most the name that it declares, and
only to the current scope.  All other variables have the values that they had, unless they
were assigned. -/
theorem names_kept :
    (∀ e m, m.store.SameScopes (Machine.left (eval host fuel e m)).store ∧
        KeepsValues (fun watch => evalWatched host watch fuel none e) (eval host fuel e) m []) ∧
      (∀ callee arguments line m,
        m.store.SameScopes
            (Machine.left (call host (exec host fuel) callee arguments line m)).store ∧
          KeepsValues
            (fun watch =>
              callWatched host watch (execWatched host watch fuel) callee arguments line)
            (call host (exec host fuel) callee arguments line) m []) ∧
      ∀ nextId tokens,
        ∀ s ∈ Stmt.partsEach (Program.read nextId tokens).program, ∀ m,
          m.store.SameScopesBut m.scope s.declares?
              (Machine.left (exec host fuel s m)).store ∧
            KeepsValues (fun watch => execWatched host watch fuel s) (exec host fuel s) m
              (s.declares?.map Name.text).toList := by
  refine ⟨fun e m => ?_, fun callee arguments line m => ?_, fun nextId tokens s hs m => ?_⟩
  · have h := sparing_eval host fuel m none e
    exact ⟨h.sameScopes, h.values⟩
  · have h := sparing_call host fuel m callee arguments line
    exact ⟨h.sameScopes, h.values⟩
  · have h := sparing_exec host fuel m s
    rw [show s.declaredNames = _ from Program.read_regular nextId tokens s hs] at h
    exact ⟨h.sameScopesBut, h.values⟩

/-- Of `fun f() {; var b;}`, in which an expression is missing, the declaration in the body
is executed among the global variables; and a variable is assigned that is not there. -/
theorem names_kept_function :
    let host : Host := ⟨some maxCallDepth, fun _ => 0⟩
    let tokens : List Token :=
      [⟨.keyword .fun, "fun", 1⟩, ⟨.identifier, "f", 1⟩, ⟨.symbol .leftParen, "(", 1⟩,
        ⟨.symbol .rightParen, ")", 1⟩, ⟨.symbol .leftBrace, "\x7b", 1⟩,
        ⟨.symbol .semicolon, ";", 1⟩, ⟨.keyword .var, "var", 1⟩, ⟨.identifier, "b", 1⟩,
        ⟨.symbol .semicolon, ";", 1⟩, ⟨.symbol .rightBrace, "\x7d", 1⟩, ⟨.endOfFile, "", 1⟩]
    let reading := Program.read 0 tokens
    let s : Stmt := .varDecl ⟨"b", 1⟩ none
    let e : Expr := .assign ⟨0, ⟨"a", 1⟩⟩ (.literal .nil)
    let m := Machine.initial (.ofLimit none)
    reading.diagnostics.length = 1 ∧ s ∈ Stmt.partsEach reading.program ∧
      m.store.SameScopesBut Store.globals (some ⟨"b", 1⟩) (Machine.left (exec host 1 s m)).store ∧
      m.store.SameScopes (Machine.left (eval host 2 e m)).store ∧
      (Machine.left (eval host 2 e m)).store.lookup Store.globals "clock" =
        some (.native .clock) := by
  intro host tokens reading s e m
  have hprogram : reading.program = [.funDecl ⟨⟨"f", 1⟩, [], [s]⟩] := rfl
  have hpart : s ∈ Stmt.partsEach reading.program := by
    rw [hprogram]
    simp [Stmt.partsEach, Stmt.parts, FunctionDecl.parts, s]
  obtain ⟨-, -, hstatements⟩ := names_kept host 1
  obtain ⟨hexpressions, -⟩ := names_kept host 2
  obtain ⟨hscopes, hvalues⟩ := hexpressions e m
  refine ⟨rfl, hpart, (hstatements 0 _ s hpart m).1, hscopes, ?_⟩
  refine hvalues Store.globals (by decide) "clock" (fun _ => List.not_mem_nil) fun watch hpass => ?_
  -- of the three moments one is an assignment, and it is to another name
  have hliteral : evalWatched host watch 1 none (.literal .nil) m = .ok .nil m :=
    bind_ok (hpass m _ id)
  have hassign : watch (.assign none ⟨0, ⟨"a", 1⟩⟩) m = .ok () m :=
    hpass m _ fun h => absurd h.1 (by decide)
  show (watch (.reach none e) >>= fun _ => _) m = _
  rw [bind_ok (hpass m _ id)]
  show (evalWatched host watch 1 none (.literal .nil) >>= fun _ => _) m = _
  rw [bind_ok hliteral, bind_ok hassign]
  rfl

end Exec

end Lox
