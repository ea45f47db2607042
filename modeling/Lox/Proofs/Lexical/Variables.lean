/-
Variables at their distance and by their nearest entry.

`InSight` relates a setting, the scope in which a machine runs a piece of code that
stands there, and the list of a world; `Standing` adds what a statement that declares
names has to know.

* `Chain.related` — both ways of looking a name up give related values;
* `sim_read`, `sim_write` — so do reading and assigning;
* `sim_enter`, `sim_settle` — the two halves of a declaration.
-/
import Lox.Proofs.Lexical.Simulation

namespace Lox.Lexical

variable {α β : Type} {l l' : Layout} {σ : Setting} {scope : ScopeAddress} {env : Env}
  {own : Option ScopeAddress} {R : Layout → α → β → Prop}

/-- The variables of the static scopes are in sight.  The pending one is in the innermost
scope and has no value there. -/
structure InSight (l : Layout) (σ : Setting) (scope : ScopeAddress) (env : Env) : Prop where
  chain : Chain l σ.pending σ.scopes scope env
  pending : ∀ name, σ.pending = some name → scope ≠ Store.globals ∧ ¬ isReserved name ∧
    l.store.lookup scope name = none ∧ ∃ names scopes, σ.scopes = names :: scopes ∧ name ∈ names

/-- Besides, all variables of the current scope are declared, and declarations are local if
there is a static scope. -/
structure Standing (l : Layout) (σ : Setting) (isLocal : Bool) (scope : ScopeAddress)
    (env : Env) : Prop where
  sight : InSight l σ scope env
  isLocal : isLocal = !σ.scopes.isEmpty
  declared : ∀ name, (scope, name) ∈ l.links → name ∈ σ.scopes.headD []
  lt_size : scope < l.store.scopes.size

theorem Chain.scope_cases {pending : Option String} {names : List String}
    {scopes : List (List String)} (h : Chain l pending (names :: scopes) scope env) :
    ∃ parent, l.store.parent? scope = some parent := by
  cases h with
  | scope hparent => exact ⟨_, hparent⟩

theorem Chain.lt_size {pending : Option String} {scopes : List (List String)} {w : World}
    (h : Chain l pending scopes scope env) (hheap : Holds l w) : scope < l.store.scopes.size := by
  cases h with
  | globals => exact hheap.inhabited
  | scope hparent => exact Store.lt_size_of_parent? hparent

theorem Chain.ne_globals {pending : Option String} {names : List String}
    {scopes : List (List String)} {w : World} (h : Chain l pending (names :: scopes) scope env)
    (hheap : Holds l w) : scope ≠ Store.globals := by
  obtain ⟨parent, hparent⟩ := h.scope_cases
  rintro rfl
  rw [hheap.root] at hparent
  cases hparent

/-- Without a pending variable only the chain matters. -/
theorem InSight.of_chain (hpending : σ.pending = none) (hchain : Chain l none σ.scopes scope env) :
    InSight l σ scope env := by
  refine ⟨hpending ▸ hchain, fun name hname => ?_⟩
  rw [hpending] at hname
  cases hname

theorem InSight.mono (h : InSight l σ scope env) (hgrows : Grows none l l') :
    InSight l' σ scope env := by
  refine ⟨h.chain.mono hgrows, fun name hname => ?_⟩
  obtain ⟨hlocal, hfree, hnone, names, scopes, hscopes, hmem⟩ := h.pending name hname
  have hchain := h.chain
  rw [hscopes] at hchain
  obtain ⟨parent, hparent⟩ := hchain.scope_cases
  exact ⟨hlocal, hfree, hgrows.unbound scope name nofun hlocal (Store.lt_size_of_parent? hparent) hnone,
    names, scopes, hscopes, hmem⟩

/-- Code of other scopes does not change what is declared here. -/
theorem Standing.mono {isLocal : Bool} (h : Standing l σ isLocal scope env)
    (hgrows : Grows none l l') : Standing l' σ isLocal scope env := by
  refine ⟨h.sight.mono hgrows, h.isLocal, fun name hname => ?_,
    Nat.lt_of_lt_of_le h.lt_size hgrows.scopes⟩
  rcases hgrows.fresh scope name hname with hname | hown | hnew
  · exact h.declared name hname
  · cases hown
  · exact absurd h.lt_size (Nat.not_lt.mpr hnew)

/-- Code that declares nothing leaves the same variables in sight. -/
theorem Standing.again {isLocal : Bool} {env' : Env} (h : Standing l σ isLocal scope env)
    (hpending : σ.pending = none) (hgrows : Grows own l l')
    (h' : Standing l' σ isLocal scope env') : Standing l' σ isLocal scope env := by
  have hchain := h.sight.chain
  rw [hpending] at hchain
  exact ⟨.of_chain hpending (hchain.mono hgrows), h.isLocal, h'.declared, h'.lt_size⟩

/-! ### Looking names up -/

/-- What a machine finds under a name that is so many scopes out, or global. -/
def Layout.find? (l : Layout) (scope : ScopeAddress) (name : String) :
    Option Nat → Option Datum
  | some distance => l.store.getAt scope distance name
  | none => l.store.get Store.globals name

/-- The values that a machine and a world find are related. -/
theorem Chain.related {pending : Option String} {scopes : List (List String)} {w : World}
    (h : Chain l pending scopes scope env) (hheap : Holds l w) (name : String) :
    Option.Rel (Related l) (l.find? scope name (scopes.findIdx? (name ∈ ·))) (w.find? env name) := by
  cases hd : scopes.findIdx? (name ∈ ·) with
  | some distance =>
    obtain ⟨target, cell, hclimb, hcell, hlink, -⟩ := h.found hd
    rw [Layout.find?, Store.getAt, hclimb, Option.bind_some, World.find?, hcell]
    exact hheap.cells cell target name hlink
  | none =>
    rw [Layout.find?, Store.get_of_no_parent hheap.root, World.find?, h.missing hd]
    exact hheap.globals name

theorem sim_read {target : Reference} (h : InSight l σ scope env)
    (hlocates : σ.Locates l.table l.bound target.id target.name.text) :
    Sim none l scope Related (Exec.read target) (read env target.name) := by
  intro m w tied back
  have hrel := h.chain.related tied.heap target.name.text
  have hread : Exec.read target m =
      (l.find? scope target.name.text (σ.distance? target.name.text)).elim
        (.error (.runtime (.undefinedVariable target.name.text) target.name.line) m)
        (fun value => .ok value m) := by
    unfold Exec.read
    rw [tied.table, hlocates.2, tied.store, back]
    cases σ.distance? target.name.text with
    | none =>
      dsimp only [Layout.find?]
      cases l.store.get Store.globals target.name.text <;> rfl
    | some distance =>
      dsimp only [Layout.find?]
      cases l.store.getAt scope distance target.name.text <;> rfl
  rw [hread]
  unfold read
  rw [Setting.distance?]
  rcases optionRel_cases hrel with ⟨ha, hb⟩ | ⟨a, b, ha, hb, hab⟩
  · rw [ha, hb]
    exact .runtime tied back _ _
  · rw [ha, hb]
    exact .ok tied back (.refl none l) ⟨rfl, rfl⟩ hab

theorem sim_write {target : Reference} {value : Datum} {value' : Value Env}
    (h : InSight l σ scope env)
    (hlocates : σ.Locates l.table l.bound target.id target.name.text)
    (hname : ¬ isReserved target.name.text) (hvalue : Related l value value') :
    Sim none l scope (fun _ _ _ => True) (Exec.write target value)
      (write env target.name value') := by
  intro m w tied back
  subst back
  have hfits := fits_of_not_isReserved hname value
  have hsame : Tied l { m with store := l.store } w :=
    ⟨rfl, tied.table, tied.heap, tied.depth, tied.sink, tied.readings⟩
  have hrel := h.chain.related tied.heap target.name.text
  have hfound : m.distances[target.id]? = σ.scopes.findIdx? (target.name.text ∈ ·) := by
    rw [tied.table]
    exact hlocates.2
  unfold Exec.write write
  rw [hfound, tied.store]
  cases hd : σ.scopes.findIdx? (target.name.text ∈ ·) with
  | some distance =>
    obtain ⟨owner, cell, hclimb, hcell, hlink, -⟩ := h.chain.found hd
    rw [hd, Layout.find?, Store.getAt, hclimb, Option.bind_some] at hrel
    rcases optionRel_cases hrel with ⟨ha, hb⟩ | ⟨a, b, ha, hb, -⟩
    · simp only [Store.assignAt, hclimb, Store.replace, ha, hb]
      exact .runtime hsame rfl _ _
    · simp only [Store.assignAt, hclimb, Store.replace, ha, hb, hcell]
      have hgrows := grows_redefine (l := l) value (.inr (Option.isSome_of_eq_some ha))
      exact .ok (tied.change (tied.heap.fill hlink (hvalue.mono hgrows) hfits) rfl rfl rfl) rfl
        hgrows ⟨rfl, rfl⟩ trivial
  | none =>
    rw [hd, Layout.find?, Store.get_of_no_parent tied.heap.root] at hrel
    rcases optionRel_cases hrel with ⟨ha, hb⟩ | ⟨a, b, ha, hb, -⟩
    · simp only [Store.assign_of_no_parent tied.heap.root, Store.replace, ha, hb]
      exact .runtime hsame rfl _ _
    · simp only [Store.assign_of_no_parent tied.heap.root, Store.replace, ha, hb,
        h.chain.missing hd]
      have hgrows : Grows none l (l.withStore (l.store.define Store.globals target.name.text value)) :=
        grows_redefine value (.inl rfl)
      exact .ok (tied.change (tied.heap.defineGlobal (hvalue.mono hgrows)) rfl rfl rfl) rfl
        hgrows ⟨rfl, rfl⟩ trivial

/-! ### Declarations -/

theorem Ends.rebase {own : Option ScopeAddress} {r : EStateM.Result Abort Machine α}
    {r' : EStateM.Result Abort World β} (h : Ends own l' scope R r r') (hgrows : Grows own l l')
    (hsame : l.Same l') : Ends own l scope R r r' := by
  cases h with
  | ok tied back grows same hab => exact .ok tied back (hgrows.step grows) (hsame.trans same) hab
  | error tied back grows same hne =>
    exact .error tied back (hgrows.step grows) (hsame.trans same) hne

theorem initializing_scopes (σ : Setting) (name : Name) :
    (σ.initializing name).scopes = (σ.declare name).scopes := rfl

/-- The initializer of a local variable sees an entry for it that is still empty. -/
theorem sim_enter {name : Name} {isLocal : Bool} {x : Exec α} {g : Env → Act β}
    (h : Standing l σ isLocal scope env) (hpending : σ.pending = none) (hadmits : σ.Admits name)
    (hg : ∀ l' env', Grows (some scope) l l' → Standing l' (σ.initializing name) isLocal scope env' →
      Sim (some scope) l' scope R x (g env')) :
    Sim (some scope) l scope R x (enter isLocal env name.text >>= g) := by
  have hchain := h.sight.chain
  have hisLocal := h.isLocal
  have hdeclared := h.declared
  have hfresh := hadmits.1
  rw [hpending] at hchain
  cases hscopes : σ.scopes with
  | nil =>
    rw [hscopes] at hchain hisLocal hdeclared
    subst hisLocal
    have hscopes' : (σ.initializing name).scopes = [] := by
      rw [initializing_scopes, Setting.declare_scopes, hscopes]
    have hpending' : (σ.initializing name).pending = none := by
      simp only [Setting.initializing, hscopes, ne_eq, not_true_eq_false, decide_false,
        Bool.false_and, Bool.false_eq_true, if_false]
    refine hg l env (.refl _ l) ⟨.of_chain hpending' ?_, ?_, ?_, h.lt_size⟩
    · rw [hscopes']
      exact hchain
    · rw [hscopes', List.isEmpty_nil, Bool.not_true]
    · rw [hscopes']
      exact hdeclared
  | cons names scopes =>
    rw [hscopes] at hchain hisLocal hdeclared
    subst hisLocal
    have hnot : name.text ∉ names := by
      intro hmem
      rw [Setting.isDeclared, hscopes, List.head?_cons, Option.any_some,
        decide_eq_true hmem] at hfresh
      cases hfresh
    have hscopes' : (σ.initializing name).scopes = (name.text :: names) :: scopes := by
      rw [initializing_scopes, Setting.declare_scopes, hscopes]
    have hpending' : (σ.initializing name).pending = some name.text := by
      simp only [Setting.initializing, hscopes, hfresh, ne_eq, reduceCtorEq, not_false_eq_true,
        decide_true, Bool.not_false, Bool.and_true, if_true]
    intro m w tied back
    have hlocal := hchain.ne_globals tied.heap
    have hunlinked : (scope, name.text) ∉ l.links := fun hmem => hnot (hdeclared _ hmem)
    have hheap := tied.heap.alloc hlocal (hchain.lt_size tied.heap) hunlinked
    have hgrows := grows_link (l := l) scope name.text
    have hstanding : Standing (l.link scope name.text) (σ.initializing name) true scope
        ((name.text, w.cells.size) :: env) := by
      refine ⟨⟨?_, fun other hother => ?_⟩, ?_, fun other hother => ?_, h.lt_size⟩
      · rw [hscopes', hpending']
        cases hchain with
        | scope hparent hentries hbound hrest =>
          have hentries' : (l.link scope name.text).Entries scope (name.text :: names)
              ((name.text, w.cells.size) :: _) :=
            .cons ⟨rfl, tied.heap.link_new scope name.text⟩ (hentries.mono hgrows)
          refine .scope (l := l.link scope name.text) hparent hentries' (fun other hother hne => ?_)
            (hrest.mono hgrows)
          rcases List.mem_cons.mp hother with rfl | hother
          · exact absurd rfl hne
          · exact hbound other hother nofun
      · rw [hpending', Option.some.injEq] at hother
        subst hother
        refine ⟨hlocal, hadmits.2, ?_, _, _, hscopes', List.mem_cons_self⟩
        cases hlookup : l.store.lookup scope name.text with
        | none => exact hlookup
        | some value =>
          exact absurd (tied.heap.total scope name.text hlocal (Option.isSome_of_eq_some hlookup))
            hunlinked
      · rw [hscopes']
        rfl
      · rw [hscopes', List.headD_cons]
        rcases List.mem_append.mp hother with hother | hother
        · exact List.mem_cons_of_mem _ (hdeclared other hother)
        · rw [List.mem_singleton, Prod.mk.injEq] at hother
          exact hother.2 ▸ List.mem_cons_self
    have htied : Tied (l.link scope name.text) m { w with cells := w.cells.push none } :=
      ⟨tied.store, tied.table, hheap, tied.depth, tied.sink, tied.readings⟩
    exact (hg _ _ hgrows hstanding m _ htied back).rebase hgrows ⟨rfl, rfl⟩

/-- After its definition a name is in sight with a value. -/
theorem Standing.settled {name : Name} {isLocal : Bool}
    (h : Standing l (σ.initializing name) isLocal scope env) (hpending : σ.pending = none)
    (value : Datum) :
    Standing (l.withStore (l.store.define scope name.text value)) (σ.declare name) isLocal scope
      env := by
  have hgrows := grows_define (l := l) scope name.text value
  have hchain := h.sight.chain
  rw [initializing_scopes] at hchain
  have hpending' : (σ.declare name).pending = none := by
    rw [Setting.declare_pending, hpending]
  refine ⟨.of_chain hpending' ?_, h.isLocal, h.declared,
    Nat.lt_of_lt_of_le h.lt_size hgrows.scopes⟩
  generalize (σ.declare name).scopes = scopes at hchain
  cases hchain with
  | globals => exact .globals
  | @scope _ _ _ _ parent _ _ hparent hentries hbound hrest =>
    refine .scope (hgrows.parent _ _ hparent) (hentries.mono hgrows) (fun other hother _ => ?_)
      (hrest.mono hgrows)
    by_cases heq : other = name.text
    · subst heq
      rw [Layout.withStore, Store.lookup_define_self (Store.lt_size_of_parent? hparent)]
      rfl
    · -- the name that was pending is the one that has got its value
      refine hgrows.bound scope other (hbound other hother fun hp => heq ?_)
      simp only [Setting.initializing] at hp
      split at hp
      · exact (Option.some.inj hp).symm
      · cases hp

theorem sim_settle {name : Name} {isLocal : Bool} {value : Datum} {value' : Value Env}
    (h : Standing l (σ.initializing name) isLocal scope env) (hpending : σ.pending = none)
    (hadmits : σ.Admits name)
    (hvalue : Related (l.withStore (l.store.define scope name.text value)) value value') :
    Sim (some scope) l scope (fun l' _ _ => Standing l' (σ.declare name) isLocal scope env)
      (Exec.define name.text value) (settle isLocal env name.text value') := by
  intro m w tied back
  subst back
  have hsettled := h.settled hpending value
  have hgrows := grows_define (l := l) m.scope name.text value
  have hchain := h.sight.chain
  have hisLocal := h.isLocal
  rw [initializing_scopes, Setting.declare_scopes] at hchain hisLocal
  show Ends _ _ _ _ (.ok () { m with store := m.store.define m.scope name.text value }) _
  rw [tied.store]
  cases hscopes : σ.scopes with
  | nil =>
    rw [hscopes] at hchain hisLocal
    subst hisLocal
    have hglobal : m.scope = Store.globals := by
      generalize m.scope = scope at hchain
      cases hchain
      rfl
    have hheap : Holds (l.withStore (l.store.define m.scope name.text value))
        { w with globals := w.globals.put name.text value' } := by
      rw [hglobal] at hvalue ⊢
      exact tied.heap.defineGlobal hvalue
    exact .ok (tied.change hheap rfl rfl rfl) rfl hgrows ⟨rfl, rfl⟩ hsettled
  | cons names scopes =>
    rw [hscopes] at hchain hisLocal
    subst hisLocal
    cases hchain with
    | scope hparent hentries hbound hrest =>
      obtain ⟨cell, hcell, hlink⟩ := hentries.find? List.mem_cons_self
      unfold settle
      rw [hcell]
      exact .ok (tied.change (tied.heap.fill hlink hvalue (fits_of_not_isReserved hadmits.2 value))
        rfl rfl rfl) rfl hgrows ⟨rfl, rfl⟩ hsettled

/-! ### Promises -/

theorem Sim.guard {moment : Moment} {x : Exec α} {y : Act β}
    (h : ∀ m w, Tied l m w → m.scope = scope → m.keeps moment = true)
    (hxy : Sim own l scope R x y) :
    Sim own l scope R (Exec.guard moment >>= fun _ => x) y := by
  intro m w tied back
  have hguard : Exec.guard moment m = .ok () m := by
    rw [Exec.guard, if_pos (h m w tied back)]
  show Ends own l scope R (EStateM.bind (Exec.guard moment) (fun _ => x) m) (y w)
  rw [EStateM.bind, hguard]
  exact hxy m w tied back

variable {m : Machine} {w : World}

/-- A name that was located is bound there. -/
theorem InSight.binds {name : String} {distance : Nat} (h : InSight l σ scope env)
    (tied : Tied l m w) (back : m.scope = scope) (hd : σ.distance? name = some distance)
    (hne : σ.pending ≠ some name) : ∃ owner value, m.store.climb m.scope distance = some owner ∧
      owner ≠ Store.globals ∧ m.store.lookup owner name = some value := by
  obtain ⟨owner, cell, hclimb, -, hlink, hbound⟩ := h.chain.found hd
  obtain ⟨value, hvalue⟩ := Option.isSome_iff_exists.mp (hbound (.inl hne))
  rw [tied.store, back]
  exact ⟨owner, value, hclimb, (tied.heap.linked owner name (List.mem_of_getElem? hlink)).1, hvalue⟩

theorem InSight.keeps_varRef {target : Reference} {pending : Option String}
    (h : InSight l σ scope env) (tied : Tied l m w) (back : m.scope = scope)
    (hlocates : σ.Locates l.table l.bound target.id target.name.text)
    (hne : σ.pending ≠ some target.name.text) :
    m.keeps (.reach pending (.varRef target)) = true := by
  rw [Machine.keeps, tied.table, hlocates.2]
  cases hd : σ.distance? target.name.text with
  | none => rfl
  | some distance =>
    obtain ⟨owner, value, hclimb, hlocal, hvalue⟩ := h.binds tied back hd hne
    rw [Option.all_some, Machine.binds_iff]
    exact ⟨owner, hclimb, hlocal, Option.isSome_of_eq_some hvalue⟩

theorem InSight.keeps_assign {target : Reference} (h : InSight l σ scope env) (tied : Tied l m w)
    (back : m.scope = scope) (hlocates : σ.Locates l.table l.bound target.id target.name.text) :
    m.keeps (.assign σ.pending target) = true := by
  rw [Machine.keeps, tied.table, hlocates.2]
  cases hd : σ.distance? target.name.text with
  | none => rfl
  | some distance =>
    rw [Option.all_some, Machine.binds_iff]
    split
    · rename_i hpending
      obtain ⟨hlocal, -, hnone, names, scopes, hscopes, hmem⟩ := h.pending _ hpending
      -- the variable belongs to the innermost scope
      rw [Setting.distance?, hscopes, List.findIdx?_cons, if_pos (decide_eq_true hmem),
        Option.some.injEq] at hd
      subst hd
      rw [tied.store, back]
      exact ⟨scope, rfl, hlocal, Option.isNone_iff_eq_none.mpr hnone⟩
    · rename_i hne
      obtain ⟨owner, value, hclimb, hlocal, hvalue⟩ := h.binds tied back hd hne
      exact ⟨owner, hclimb, hlocal, Option.isSome_of_eq_some hvalue⟩

theorem InSight.binds_this {distance : Nat} (h : InSight l σ scope env) (tied : Tied l m w)
    (back : m.scope = scope) (hd : σ.distance? "this" = some distance) :
    m.binds distance "this" (Option.any Value.isInstance) = true := by
  obtain ⟨owner, value, hclimb, hlocal, hvalue⟩ := h.binds tied back hd fun hp =>
    (h.pending _ hp).2.1 (.inl rfl)
  refine Machine.binds_iff.mpr ⟨owner, hclimb, hlocal, ?_⟩
  obtain ⟨i, rfl⟩ := tied.heap.this owner value hlocal (tied.store ▸ hvalue)
  rw [hvalue]
  rfl

theorem InSight.binds_super {distance : Nat} (h : InSight l σ scope env) (tied : Tied l m w)
    (back : m.scope = scope) (hd : σ.distance? "super" = some distance) :
    m.binds distance "super" (Option.any Value.isClass) = true := by
  obtain ⟨owner, value, hclimb, hlocal, hvalue⟩ := h.binds tied back hd fun hp =>
    (h.pending _ hp).2.1 (.inr rfl)
  refine Machine.binds_iff.mpr ⟨owner, hclimb, hlocal, ?_⟩
  obtain ⟨c, rfl⟩ := tied.heap.super owner value hlocal (tied.store ▸ hvalue)
  rw [hvalue]
  rfl

/-- Every promise to an expression is kept where it was resolved. -/
theorem InSight.keeps {e : Expr} (h : InSight l σ scope env) (tied : Tied l m w)
    (back : m.scope = scope) (hplaced : e.Placed l.table l.bound σ) :
    m.keeps (.reach σ.pending e) = true := by
  cases e with
  | varRef target => exact h.keeps_varRef tied back hplaced.2 hplaced.1
  | assign target value => exact h.keeps_assign tied back hplaced.2.1
  | thisRef id line =>
    obtain ⟨⟨-, hlocated⟩, distance, hd⟩ := hplaced
    rw [Machine.keeps, tied.table, hlocated, hd, Option.any_some]
    exact h.binds_this tied back hd
  | superRef id line method =>
    obtain ⟨⟨-, hlocated⟩, distance, hsuper, hthis⟩ := hplaced
    rw [Machine.keeps, tied.table, hlocated, hsuper, Option.any_some, Nat.add_sub_cancel,
      h.binds_super tied back hsuper, h.binds_this tied back hthis, Bool.and_true, Bool.and_true]
    exact decide_eq_true (Nat.succ_pos distance)
  | _ => rfl

end Lox.Lexical
