/-
Operators, properties and methods on related values.

* `Related.apply`, `Related.apply_unary` — operators give related values or the same
  error;
* `ClassRelated.method?` — related classes have related methods;
* `sim_bindMethod`, `sim_getProperty`, `sim_getSuper`, `sim_getSuperclass` — what
  evaluation does with them.
-/
import Lox.Proofs.Lexical.Variables

namespace Lox.Lexical

variable {l : Layout} {σ : Setting} {scope : ScopeAddress} {env : Env} {a a' : Datum}
  {b b' : Value Env}

/-! ### Operators -/

theorem Related.isTruthy (h : Related l a b) : a.isTruthy = b.isTruthy := by
  cases h <;> rfl

theorem ClassRelated.id {c : Class ScopeAddress} {d : Class Env} (h : ClassRelated l c d) :
    c.id = d.id := by
  cases h <;> rfl

theorem Related.same (h : Related l a b) (h' : Related l a' b') : a.same a' = b.same b' := by
  cases h with
  | classObject h =>
    cases h' with
    | classObject h' => rw [Value.same, Value.same, h.id, h'.id]
    | _ => rfl
  | _ => cases h' <;> rfl

/-- Related values, or the same error. -/
inductive ResultRelated (l : Layout) :
    Except RuntimeError Datum → Except RuntimeError (Value Env) → Prop
  | ok {value value'} (h : Related l value value') : ResultRelated l (.ok value) (.ok value')
  | error (e) : ResultRelated l (.error e) (.error e)

theorem Related.apply_unary (op : UnaryOp) (h : Related l a b) :
    ResultRelated l (op.apply a) (op.apply b) := by
  cases op with
  | negate => cases h <;> first | exact .ok (.number _) | exact .error _
  | not =>
    show ResultRelated l (.ok (.boolean !a.isTruthy)) (.ok (.boolean !b.isTruthy))
    rw [h.isTruthy]
    exact .ok (.boolean _)

theorem Related.onNumbers (op : BinaryOp) {f : Float → Float → Datum}
    {g : Float → Float → Value Env} (hfg : ∀ x y, Related l (f x y) (g x y))
    (h : Related l a b) (h' : Related l a' b') :
    ResultRelated l (op.onNumbers f a a') (op.onNumbers g b b') := by
  cases h with
  | number x => cases h' <;> first | exact .ok (hfg _ _) | exact .error _
  | _ => exact .error _

theorem Related.apply (op : BinaryOp) (h : Related l a b) (h' : Related l a' b') :
    ResultRelated l (op.apply a a') (op.apply b b') := by
  cases op with
  | equal =>
    show ResultRelated l (.ok (.boolean (a.same a'))) (.ok (.boolean (b.same b')))
    rw [h.same h']
    exact .ok (.boolean _)
  | notEqual =>
    show ResultRelated l (.ok (.boolean !a.same a')) (.ok (.boolean !b.same b'))
    rw [h.same h']
    exact .ok (.boolean _)
  | less | lessEqual | greater | greaterEqual =>
    exact h.onNumbers _ (fun _ _ => .boolean _) h'
  | minus | times | divide => exact h.onNumbers _ (fun _ _ => .number _) h'
  | plus =>
    cases h with
    | number x => cases h' <;> first | exact .ok (.number _) | exact .error _
    | string s => cases h' <;> first | exact .ok (.string _) | exact .error _
    | _ => exact .error _

theorem sim_ofExcept {line : Nat} {x : Except RuntimeError Datum}
    {y : Except RuntimeError (Value Env)} (h : ResultRelated l x y) :
    Sim none l scope Related (Exec.ofExcept line x) (ofExcept line y) := by
  cases h with
  | ok h => exact .pure h
  | error e => exact .fail e line

/-! ### Methods -/

theorem ClassRelated.method? {c : Class ScopeAddress} {d : Class Env} (h : ClassRelated l c d)
    (key : String) : Option.Rel (MethodRelated l) (c.method? key) (d.method? key) := by
  induction h with
  | base hmethods => exact hmethods key
  | derived hmethods _ ih =>
    rw [Class.method?, Class.method?]
    rcases optionRel_cases (hmethods key) with ⟨hf, hg⟩ | ⟨f, g, hf, hg, hfg⟩
    · rw [hf, hg]
      exact ih
    · rw [hf, hg]
      exact .some hfg

/-- Related values take the same number of arguments. -/
theorem Related.arity? (h : Related l a b) : a.arity? = b.arity? := by
  cases h with
  | @function id f g h =>
    rw [Value.arity?, Value.arity?, Closure.arity, Closure.arity, h.1]
  | classObject h =>
    rw [Value.arity?, Value.arity?, Class.initializer?, Class.initializer?]
    rcases optionRel_cases (h.method? initializerName) with ⟨hf, hg⟩ | ⟨f, g, hf, hg, hfg⟩
    · rw [hf, hg]
      rfl
    · rw [hf, hg, Option.map_some, Option.map_some, Closure.arity, Closure.arity, hfg.1]
  | _ => rfl

theorem sim_newFunction (f : Closure ScopeAddress) (g : Closure Env) :
    Sim none l scope (fun _ a b => ∃ id, a = .function id f ∧ b = .function id g)
      (Exec.makeFunction f) (makeFunction g) :=
  sim_newIdentity.bind fun _ id _ _ heq => .pure ⟨id, rfl, heq ▸ rfl⟩

theorem sim_makeFunction {f : Closure ScopeAddress} {g : Closure Env}
    (h : ∀ l', Grows none l l' → FunctionRelated l' f g) :
    Sim none l scope Related (Exec.makeFunction f) (makeFunction g) := by
  refine (sim_newFunction f g).imp fun l' a b hgrows hab => ?_
  obtain ⟨id, rfl, rfl⟩ := hab
  exact .function (h l' hgrows)

/-! ### New scopes -/

/-- A new variable that has a value at once. -/
theorem Holds.variable {w : World} (h : Holds l w) {name : String}
    (hlocal : scope ≠ Store.globals) (hlt : scope < l.store.scopes.size)
    (hfresh : (scope, name) ∉ l.links) (hvalue : Related l a b) (hfits : Fits name a) :
    Holds ((l.link scope name).withStore (l.store.define scope name a))
      { w with cells := w.cells.push (some b) } := by
  have hgrows := (grows_link (l := l) scope name).step (grows_define scope name a)
  have hfill := (h.alloc hlocal hlt hfresh).fill (h.link_new scope name) (hvalue.mono hgrows) hfits
  have hcells : (w.cells.push none).modify w.cells.size (fun _ => some b) = w.cells.push (some b) := by
    refine Array.ext_getElem? fun i => ?_
    rw [Array.getElem?_modify, Array.getElem?_push, Array.getElem?_push]
    by_cases hi : i = w.cells.size
    · simp [hi]
    · simp [hi, Ne.symm hi]
  rw [← hcells]
  exact hfill

/-- The variables of a scope, each of which has a value. -/
structure Filled (l : Layout) (scope : ScopeAddress) (names : List String) (entries : Env) :
    Prop where
  entries : l.Entries scope names entries
  bound : ∀ name ∈ names, (l.store.lookup scope name).isSome
  linked : ∀ name, (scope, name) ∈ l.links → name ∈ names

theorem Filled.mono {own : Option ScopeAddress} {l' : Layout} {names : List String} {entries : Env}
    (h : Filled l scope names entries) (hgrows : Grows own l l') (hown : own ≠ some scope)
    (hlt : scope < l.store.scopes.size) : Filled l' scope names entries := by
  refine ⟨h.entries.mono hgrows, fun name hname => hgrows.bound scope name (h.bound name hname),
    fun name hname => ?_⟩
  rcases hgrows.fresh scope name hname with hname | hs | hnew
  · exact h.linked name hname
  · exact absurd hs hown
  · exact absurd hlt (Nat.not_lt.mpr hnew)

theorem Filled.chain {parent : ScopeAddress} {names : List String} {entries : Env}
    {scopes : List (List String)} (h : Filled l scope names entries)
    (hparent : l.store.parent? scope = some parent) (hchain : Chain l none scopes parent env) :
    Chain l none (names :: scopes) scope (entries ++ env) :=
  .scope hparent h.entries (fun name hname _ => h.bound name hname) hchain

/-- Names with related values, which fit them. -/
def Layout.Bindings (l : Layout) : List (String × Datum) → List (String × Value Env) → Prop :=
  List.Forall₂ fun p q => p.1 = q.1 ∧ Related l p.2 q.2 ∧ Fits p.1 p.2

theorem enterEach_filled {m : Machine} {w : World} {pairs : List (String × Datum)}
    {pairs' : List (String × Value Env)} {names : List String} {entries : Env}
    (hpairs : l.Bindings pairs pairs')
    (hnodup : (names.reverse ++ pairs.map Prod.fst).Nodup) (tied : Tied l m w)
    (hlocal : scope ≠ Store.globals) (hlt : scope < l.store.scopes.size)
    (hfilled : Filled l scope names entries) :
    ∃ l' entries' w', enterEach (entries ++ env) pairs' w = .ok (entries' ++ env) w' ∧
      Tied l' { m with store := pairs.foldl (fun s p => s.define scope p.1 p.2) m.store } w' ∧
      Grows (some scope) l l' ∧ l.Same l' ∧
      Filled l' scope ((pairs.map Prod.fst).reverse ++ names) entries' := by
  induction pairs generalizing l m w names entries pairs' with
  | nil =>
    cases hpairs
    exact ⟨l, entries, w, rfl, tied, .refl _ l, ⟨rfl, rfl⟩, hfilled⟩
  | cons p pairs ih =>
    obtain ⟨name, value⟩ := p
    cases hpairs with
    | @cons _ q _ pairs' hpq hpairs =>
      obtain ⟨name', value'⟩ := q
      obtain ⟨rfl, hvalue, hfits⟩ := hpq
      have hnot : name ∉ names := fun hmem => by
        have hdisjoint := (List.nodup_append.mp hnodup).2.2
        exact hdisjoint name (List.mem_reverse.mpr hmem) name List.mem_cons_self rfl
      have hfresh : (scope, name) ∉ l.links := fun hmem => hnot (hfilled.linked name hmem)
      have hgrows := (grows_link (l := l) scope name).step
        (grows_define (l := l.link scope name) scope name value)
      have hheap := tied.heap.variable hlocal hlt hfresh hvalue hfits
      have htied : Tied ((l.link scope name).withStore (l.store.define scope name value))
          { m with store := l.store.define scope name value }
          { w with cells := w.cells.push (some value') } :=
        ⟨rfl, tied.table, hheap, tied.depth, tied.sink, tied.readings⟩
      have hfilled' : Filled ((l.link scope name).withStore (l.store.define scope name value)) scope
          (name :: names) ((name, w.cells.size) :: entries) := by
        refine ⟨.cons ⟨rfl, tied.heap.link_new scope name⟩ (hfilled.entries.mono hgrows), ?_, ?_⟩
        · intro other hother
          rcases List.mem_cons.mp hother with rfl | hother
          · rw [Layout.withStore, Store.lookup_define_self hlt]
            rfl
          · exact hgrows.bound scope other (hfilled.bound other hother)
        · intro other hother
          rcases List.mem_append.mp hother with hother | hother
          · exact List.mem_cons_of_mem _ (hfilled.linked other hother)
          · rw [List.mem_singleton, Prod.mk.injEq] at hother
            exact hother.2 ▸ List.mem_cons_self
      obtain ⟨l', entries', w', hrun, htied', hgrows', hsame, hfilled''⟩ :=
        ih (hpairs.imp fun _ _ h => ⟨h.1, h.2.1.mono hgrows, h.2.2⟩)
          (by
            rw [List.reverse_cons, List.append_assoc]
            exact hnodup) htied
          (Nat.lt_of_lt_of_le hlt hgrows.scopes) hfilled'
      refine ⟨l', entries', w', hrun, ?_, hgrows.step hgrows', hsame, ?_⟩
      · rw [tied.store]
        exact htied'
      · rw [List.map_cons, List.reverse_cons, List.append_assoc]
        exact hfilled''

/-- A scope that is filled at once. -/
theorem sim_newScope {parent : ScopeAddress} {pairs : List (String × Datum)}
    {pairs' : List (String × Value Env)}
    (hpairs : l.Bindings pairs pairs')
    (hnodup : (pairs.map Prod.fst).Nodup) :
    Sim none l scope (fun l' inner env' => l.store.scopes.size ≤ inner ∧
        inner < l'.store.scopes.size ∧ l'.store.parent? inner = some parent ∧
        ∃ entries, env' = entries ++ env ∧ Filled l' inner (pairs.map Prod.fst).reverse entries)
      (Exec.newScope parent (Bindings.ofList pairs)) (enterEach env pairs') := by
  intro m w tied back
  have hgrows := grows_newScope (l := l) parent
  have hlt : l.store.scopes.size < (l.store.newScope parent []).2.scopes.size :=
    Nat.lt_of_lt_of_eq (Nat.lt_succ_self _) Store.newScope_size.symm
  have hlocal : l.store.scopes.size ≠ Store.globals :=
    (Nat.ne_of_lt (Nat.lt_of_le_of_lt (Nat.zero_le _) tied.heap.inhabited)).symm
  have htied : Tied (l.withStore (l.store.newScope parent []).2)
      { m with store := (l.store.newScope parent []).2 } w :=
    tied.change (tied.heap.newScope parent) rfl rfl rfl
  have hfilled : Filled (l.withStore (l.store.newScope parent []).2) l.store.scopes.size [] [] := by
    refine ⟨.nil, nofun, fun name hmem => ?_⟩
    exact absurd (tied.heap.linked _ name hmem).2 (Nat.lt_irrefl _)
  have hnodup' : (([] : List String).reverse ++ pairs.map Prod.fst).Nodup := hnodup
  have hpairs' := hpairs.imp fun _ _ h => And.imp_right (And.imp_left (Related.mono · hgrows)) h
  obtain ⟨l', entries, w', hrun, htied', hgrows', hsame, hfilled'⟩ :=
    enterEach_filled hpairs' hnodup' htied hlocal hlt hfilled
  rw [List.append_nil] at hfilled'
  have hparent : l'.store.parent? l.store.scopes.size = some parent :=
    hgrows'.parent _ _ (by rw [Layout.withStore, Store.parent?_newScope, if_pos rfl])
  have hall : Grows none l l' := hgrows.trans hgrows' fun s hs => by
    cases hs
    exact .inr (Nat.le_refl _)
  have hmachine : Exec.newScope parent (Bindings.ofList pairs) m =
      .ok l.store.scopes.size { m with
        store := pairs.foldl (fun s p => s.define l.store.scopes.size p.1 p.2)
          (l.store.newScope parent []).2 } := by
    rw [← tied.store, ← Store.newScope_ofList]
    rfl
  rw [hmachine]
  rw [List.nil_append] at hrun
  rw [hrun]
  exact .ok htied' back hall hsame ⟨Nat.le_refl _, Nat.lt_of_lt_of_le hlt hgrows'.scopes, hparent,
    entries, rfl, hfilled'⟩

/-- A scope for code that is inside of the setting of a chain. -/
theorem sim_enterScope (σ : Setting) {parent : ScopeAddress} {pairs : List (String × Datum)}
    {pairs' : List (String × Value Env)} (hchain : Chain l none σ.scopes parent env)
    (hpending : σ.pending = none)
    (hpairs : l.Bindings pairs pairs')
    (hnodup : (pairs.map Prod.fst).Nodup) :
    Sim none l scope (fun l' inner env' => l.store.scopes.size ≤ inner ∧
        Standing l' (σ.push (pairs.map Prod.fst).reverse) true inner env')
      (Exec.newScope parent (Bindings.ofList pairs)) (enterEach env pairs') := by
  refine (sim_newScope hpairs hnodup).imp fun l' inner env' hgrows hinner => ?_
  obtain ⟨hnew, hlt, hparent, entries, rfl, hfilled⟩ := hinner
  refine ⟨hnew, ⟨⟨?_, ?_⟩, rfl, hfilled.linked, hlt⟩⟩
  · rw [Setting.push_pending, hpending]
    exact hfilled.chain hparent (hchain.mono hgrows)
  · rw [Setting.push_pending, hpending]
    nofun

theorem bindMethod_eq (g : Closure Env) (this : InstanceAddress) :
    bindMethod g this = enterEach g.env [("this", .instanceRef this)] >>= fun env =>
      pure { g with env := env } := rfl

theorem sim_bindMethod {f : Closure ScopeAddress} {g : Closure Env} {this : InstanceAddress}
    (h : MethodRelated l f g) (hthis : this < l.store.instances.size) :
    Sim none l scope (fun l' bound bound' => FunctionRelated l' bound bound' ∧ bound.decl = f.decl)
      (Exec.bindMethod f this) (bindMethod g this) := by
  obtain ⟨hdecl, hinit, setting, scopes, hplaced, hpending, hscopes, hchain⟩ := h
  have hpairs : l.Bindings [("this", .instanceRef this)] [("this", .instanceRef this)] :=
    .cons ⟨rfl, .instanceRef hthis, fits_this this⟩ .nil
  rw [bindMethod_eq]
  refine (sim_enterScope { setting with scopes := scopes } hchain hpending hpairs
    (List.nodup_singleton _)).bind fun l' inner env' hgrows hinner => ?_
  have hinside := hinner.2.sight.chain
  rw [Setting.push_pending, hpending] at hinside
  refine .pure ⟨⟨hdecl, hinit, setting, FunctionDecl.placed_mono hgrows.agrees _ hplaced,
    hpending, ?_, fun _ => ⟨scopes, hscopes⟩⟩, rfl⟩
  rw [hscopes]
  exact hinside

/-! ### Properties and `super` -/

theorem sim_boundMethod {f : Closure ScopeAddress} {g : Closure Env} {this : InstanceAddress}
    (h : MethodRelated l f g) (hthis : this < l.store.instances.size) :
    Sim none l scope Related (Exec.bindMethod f this >>= Exec.makeFunction)
      (bindMethod g this >>= makeFunction) :=
  (sim_bindMethod h hthis).bind fun _ _ _ _ hfunction =>
    sim_makeFunction fun _ hgrows => hfunction.1.mono hgrows

theorem sim_getProperty {name : Name} (h : Related l a b) :
    Sim none l scope Related (Exec.getProperty a name) (getProperty b name) := by
  cases h with
  | @instanceRef address h =>
    refine (sim_instanceAt? h).bind fun l' x y hgrows hxy => ?_
    obtain ⟨i, j, rfl, rfl, hrel⟩ := hxy
    dsimp only
    rcases optionRel_cases (hrel.fields name.text) with ⟨hi, hj⟩ | ⟨a, b, hi, hj, hab⟩
    · rw [hi, hj]
      dsimp only
      rcases optionRel_cases (hrel.cls.method? name.text) with ⟨hf, hg⟩ | ⟨f, g, hf, hg, hfg⟩
      · rw [hf, hg]
        exact .fail _ _
      · rw [hf, hg]
        exact sim_boundMethod hfg (Nat.lt_of_lt_of_le h hgrows.instances)
    · rw [hi, hj]
      exact .pure hab
  | _ => exact .fail _ _

/-- A bound name is found at its distance and by its nearest entry. -/
theorem sim_look {pending : Option String} {inner : ScopeAddress} {name : String} {distance : Nat}
    (hchain : Chain l pending σ.scopes inner env) (hne : pending ≠ some name)
    (hd : σ.distance? name = some distance) :
    Sim none l scope (fun l' x y => ∃ a b, x = some a ∧ y = some b ∧ Related l' a b ∧ Fits name a)
      (Exec.getAt inner distance name) (look env name) := by
  intro m w tied back
  refine .ok tied back (.refl none l) ⟨rfl, rfl⟩ ?_
  obtain ⟨owner, cell, hclimb, -, hlink, hbound⟩ := hchain.found hd
  have hrel := hchain.related tied.heap name
  rw [Setting.distance?] at hd
  rw [hd, Layout.find?] at hrel
  rw [tied.store]
  rcases optionRel_cases hrel with ⟨hnone, -⟩ | ⟨a, b, ha, hb, hab⟩
  · rw [Store.getAt, hclimb, Option.bind_some] at hnone
    rw [hnone] at hbound
    cases hbound (.inl hne)
  · refine ⟨a, b, ha, hb, hab, ?_⟩
    rw [Store.getAt, hclimb, Option.bind_some] at ha
    have hlocal := (tied.heap.linked owner name (List.mem_of_getElem? hlink)).1
    refine ⟨?_, ?_⟩
    · rintro rfl
      exact tied.heap.this owner a hlocal ha
    · rintro rfl
      exact tied.heap.super owner a hlocal ha

/-- The first action may look a distance up. -/
theorem Sim.distance? {α β : Type} {own : Option ScopeAddress} {R : Layout → α → β → Prop}
    {id : Nat} {x : Option Nat → Exec α} {y : Act β} (h : Sim own l scope R (x l.table[id]?) y) :
    Sim own l scope R (Exec.distance? id >>= x) y := by
  intro m w tied back
  show Ends own l scope R (x m.distances[id]? m) (y w)
  rw [tied.table]
  exact h m w tied back

theorem sim_getSuper {id : Nat} {method : Name} {distance : Nat}
    (h : InSight l σ scope env) (hlocates : σ.Locates l.table l.bound id "super")
    (hsuper : σ.distance? "super" = some (distance + 1))
    (hthis : σ.distance? "this" = some distance) :
    Sim none l scope Related (Exec.getSuper id method) (getSuper env method) := by
  refine .distance? ?_
  rw [hlocates.2, hsuper]
  have hthisFree : σ.pending ≠ some "this" := fun hp => (h.pending _ hp).2.1 (.inl rfl)
  have hsuperFree : σ.pending ≠ some "super" := fun hp => (h.pending _ hp).2.1 (.inr rfl)
  refine .currentScope ((sim_look h.chain hsuperFree hsuper).bind fun l₁ x y hgrows hxy => ?_)
  obtain ⟨a, b, rfl, rfl, hclass, hfits⟩ := hxy
  obtain ⟨c, rfl⟩ := hfits.2 rfl
  refine (sim_look (h.chain.mono hgrows) hthisFree hthis).bind fun l₂ x y hgrows' hxy => ?_
  obtain ⟨a', b', rfl, rfl, hinstance, hfits⟩ := hxy
  obtain ⟨i, rfl⟩ := hfits.1 rfl
  cases hclass with
  | @classObject _ d hclass =>
    cases hinstance with
    | instanceRef hi =>
      dsimp only
      rcases optionRel_cases (hclass.method? method.text) with ⟨hf, hg⟩ | ⟨f, g, hf, hg, hfg⟩
      · rw [hf, hg]
        exact .fail _ _
      · rw [hf, hg]
        exact sim_boundMethod (hfg.mono hgrows') hi

/-- The superclasses are related, if one is written. -/
theorem sim_getSuperclass {superclass : Option Reference} (h : InSight l σ scope env)
    (hlocates : ∀ target, superclass = some target →
      σ.Locates l.table l.bound target.id target.name.text) :
    Sim none l scope
      (fun l' c d => Option.Rel (ClassRelated l') c d ∧ c.isSome = superclass.isSome)
      (Exec.getSuperclass superclass) (getSuperclass env superclass) := by
  cases superclass with
  | none => exact .pure ⟨.none, rfl⟩
  | some target =>
    refine (sim_read h (hlocates target rfl)).bind fun l' a b _ hab => ?_
    cases hab with
    | classObject hclass => exact .pure ⟨.some hclass, rfl⟩
    | _ => exact .fail _ _

end Lox.Lexical
