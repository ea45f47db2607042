/-
Actions of a machine and of a world that do the same.

`Sim own l scope R x y` says that from a machine in `scope` and a world that are tied
by `l` the actions `x` and `y` end alike: both with results related by `R`, or both
for the same reason, which is never a broken promise.  Either way they stay tied by a
layout that has grown, the machine is back in its scope, and new variables are in new
scopes or in the scope `own`.

* `Sim.bind`, `Sim.andThen`, `Sim.inScope`, `Sim.frame` — how actions are put together;
* `sim_newIdentity`, `sim_newInstance`, `sim_setField`, `sim_instanceAt?`, `sim_print`,
  `sim_readClock` — what does not concern variables.
-/
import Lox.Proofs.Lexical.Changes
import Lox.Proofs.Watched

namespace Lox.Lexical

variable {α β γ δ : Type}

/-- A run does not change the table. -/
def Layout.Same (l l' : Layout) : Prop :=
  l'.table = l.table ∧ l'.bound = l.bound

theorem Layout.Same.trans {l l' l'' : Layout} (h : l.Same l') (h' : l'.Same l'') : l.Same l'' :=
  ⟨h'.1.trans h.1, h'.2.trans h.2⟩

/-- Two runs from a layout end alike. -/
inductive Ends (own : Option ScopeAddress) (l : Layout) (scope : ScopeAddress)
    (R : Layout → α → β → Prop) :
    EStateM.Result Abort Machine α → EStateM.Result Abort World β → Prop
  | ok {l' a b m w} (tied : Tied l' m w) (back : m.scope = scope) (grows : Grows own l l')
    (same : l.Same l') (h : R l' a b) : Ends own l scope R (.ok a m) (.ok b w)
  | error {l' abort m w} (tied : Tied l' m w) (back : m.scope = scope) (grows : Grows own l l')
    (same : l.Same l') (h : abort ≠ .dangling) : Ends own l scope R (.error abort m) (.error abort w)

/-- The actions end alike from everything that the layout ties. -/
def Sim (own : Option ScopeAddress) (l : Layout) (scope : ScopeAddress)
    (R : Layout → α → β → Prop) (x : Exec α) (y : Act β) : Prop :=
  ∀ m w, Tied l m w → m.scope = scope → Ends own l scope R (x m) (y w)

variable {own own' : Option ScopeAddress} {l : Layout} {scope : ScopeAddress}
  {R : Layout → α → β → Prop} {S : Layout → γ → δ → Prop}

/-- An error changes nothing. -/
theorem Ends.runtime {m : Machine} {w : World} (tied : Tied l m w) (back : m.scope = scope)
    (error : RuntimeError) (line : Nat) :
    Ends own l scope R (.error (.runtime error line) m) (.error (.runtime error line) w) :=
  .error tied back (.refl own l) ⟨rfl, rfl⟩ nofun

/-! ### Putting actions together -/

theorem Sim.pure {a : α} {b : β} (h : R l a b) : Sim own l scope R (pure a) (pure b) :=
  fun _ _ tied back => .ok tied back (.refl own l) ⟨rfl, rfl⟩ h

theorem Sim.throw {abort : Abort} (h : abort ≠ .dangling) :
    Sim own l scope R (throw abort) (throw abort) :=
  fun _ _ tied back => .error tied back (.refl own l) ⟨rfl, rfl⟩ h

theorem Sim.fail (error : RuntimeError) (line : Nat) :
    Sim own l scope R (Exec.fail error line) (Lexical.fail error line) :=
  .throw nofun

/-- The first action may own less, and the second one a scope that the first has made. -/
theorem Sim.bind_new {first : Option ScopeAddress} {second : α → Option ScopeAddress}
    {x : Exec α} {y : Act β} {f : α → Exec γ} {g : β → Act δ} (h : Sim first l scope R x y)
    (hfirst : ∀ s, first = some s → own = some s)
    (hfg : ∀ l' a b, Grows first l l' → R l' a b → Sim (second a) l' scope S (f a) (g b))
    (hsecond : ∀ l' a b s, R l' a b → second a = some s → own = some s ∨ l.store.scopes.size ≤ s) :
    Sim own l scope S (x >>= f) (y >>= g) := by
  intro m w tied back
  show Ends own l scope S (EStateM.bind x f m) (EStateM.bind y g w)
  unfold EStateM.bind
  have hends := h m w tied back
  generalize x m = r, y w = r' at hends
  cases hends with
  | @ok l' a b m' w' tied' back' grows same hab =>
    have hends := hfg l' a b grows hab m' w' tied' back'
    have hall : ∀ l'', Grows (second a) l' l'' → Grows own l l'' := fun l'' grows' =>
      ((Grows.refl own l).trans grows fun s hs => .inl (hfirst s hs)).trans grows' fun s =>
        hsecond l' a b s hab
    dsimp only
    generalize f a m' = r, g b w' = r' at hends
    cases hends with
    | ok tied'' back'' grows' same' hcd =>
      exact .ok tied'' back'' (hall _ grows') (same.trans same') hcd
    | error tied'' back'' grows' same' hne =>
      exact .error tied'' back'' (hall _ grows') (same.trans same') hne
  | error tied' back' grows same hne =>
    refine .error tied' back' ?_ same hne
    exact (Grows.refl own l).trans grows fun s hs => .inl (hfirst s hs)

theorem Sim.bind {x : Exec α} {y : Act β} {f : α → Exec γ} {g : β → Act δ}
    (h : Sim own l scope R x y)
    (hfg : ∀ l' a b, Grows own l l' → R l' a b → Sim own l' scope S (f a) (g b)) :
    Sim own l scope S (x >>= f) (y >>= g) :=
  h.bind_new (fun _ hs => hs) hfg fun _ _ _ _ _ hs => .inl hs

/-- The first action owns no scope. -/
theorem Sim.andThen {x : Exec α} {y : Act β} {f : α → Exec γ} {g : β → Act δ}
    (h : Sim none l scope R x y)
    (hfg : ∀ l' a b, Grows none l l' → R l' a b → Sim own l' scope S (f a) (g b)) :
    Sim own l scope S (x >>= f) (y >>= g) :=
  h.bind_new nofun hfg fun _ _ _ _ _ hs => .inl hs

/-- The second action owns a scope that the first has made. -/
theorem Sim.bind_inner {T : Layout → ScopeAddress → β → Prop} {x : Exec ScopeAddress} {y : Act β}
    {f : ScopeAddress → Exec γ} {g : β → Act δ} (h : Sim none l scope T x y)
    (hnew : ∀ l' inner b, T l' inner b → l.store.scopes.size ≤ inner)
    (hfg : ∀ l' inner b, Grows none l l' → T l' inner b →
      Sim (some inner) l' scope S (f inner) (g b)) :
    Sim own l scope S (x >>= f) (y >>= g) :=
  h.bind_new nofun hfg fun l' inner b _ hinner hs => .inr (Option.some.inj hs ▸ hnew l' inner b hinner)

/-- What owns no scope may be done in any. -/
theorem Sim.weaken {x : Exec α} {y : Act β} (h : Sim none l scope R x y) :
    Sim own l scope R x y := by
  intro m w tied back
  have hends := h m w tied back
  generalize x m = r, y w = r' at hends
  cases hends with
  | ok tied' back' grows same hab => exact .ok tied' back' (grows.weaken own) same hab
  | error tied' back' grows same hne => exact .error tied' back' (grows.weaken own) same hne

theorem Sim.imp {R' : Layout → α → β → Prop} {x : Exec α} {y : Act β}
    (h : Sim own l scope R x y) (himp : ∀ l' a b, Grows own l l' → R l' a b → R' l' a b) :
    Sim own l scope R' x y := by
  intro m w tied back
  have hends := h m w tied back
  generalize x m = r, y w = r' at hends
  cases hends with
  | ok tied' back' grows same hab => exact .ok tied' back' grows same (himp _ _ _ grows hab)
  | error tied' back' grows same hne => exact .error tied' back' grows same hne

/-- The second action may give something else at its end. -/
theorem Sim.returning {R' : Layout → α → δ → Prop} {x : Exec α} {y : Act β} {d : δ}
    (h : Sim own l scope R x y) (himp : ∀ l' a b, R l' a b → R' l' a d) :
    Sim own l scope R' x (y >>= fun _ => Pure.pure d) := by
  intro m w tied back
  show Ends own l scope R' (x m) (EStateM.bind y (fun _ => EStateM.pure d) w)
  unfold EStateM.bind
  have hends := h m w tied back
  generalize x m = r, y w = r' at hends
  cases hends with
  | ok tied' back' grows same hab => exact .ok tied' back' grows same (himp _ _ _ hab)
  | error tied' back' grows same hne => exact .error tied' back' grows same hne

/-- The first action may be replaced by one that does the same here. -/
theorem Sim.congr {x x' : Exec α} {y : Act β} (h : Sim own l scope R x' y)
    (heq : ∀ m w, Tied l m w → m.scope = scope → x m = x' m) : Sim own l scope R x y := by
  intro m w tied back
  rw [heq m w tied back]
  exact h m w tied back

/-- The first action may look at its scope. -/
theorem Sim.currentScope {x : ScopeAddress → Exec α} {y : Act β}
    (h : Sim own l scope R (x scope) y) : Sim own l scope R (Exec.currentScope >>= x) y := by
  intro m w tied back
  show Ends own l scope R (x m.scope m) (y w)
  rw [back]
  exact h m w tied back

theorem Sim.inScope {inner : ScopeAddress} {x : Exec α} {y : Act β}
    (h : Sim own l inner R x y) : Sim own l scope R (Exec.inScope inner x) y := by
  intro m w tied back
  have htied : Tied l { m with scope := inner } w :=
    ⟨tied.store, tied.table, tied.heap, tied.depth, tied.sink, tied.readings⟩
  show Ends own l scope R (Exec.inScope inner x m) (y w)
  unfold Exec.inScope
  dsimp only
  have hends := h _ w htied rfl
  generalize x { m with scope := inner } = r, y w = r' at hends
  cases hends with
  | ok tied' back' grows same hab =>
    exact .ok ⟨tied'.store, tied'.table, tied'.heap, tied'.depth, tied'.sink, tied'.readings⟩
      back grows same hab
  | error tied' back' grows same hne =>
    exact .error ⟨tied'.store, tied'.table, tied'.heap, tied'.depth, tied'.sink, tied'.readings⟩
      back grows same hne

theorem Holds.withDepth {w : World} (h : Holds l w) (depth : Nat) :
    Holds l { w with depth := depth } :=
  ⟨h.root, h.inhabited, h.links_length, h.nodup, h.linked, h.total, h.cells, h.globals,
    h.instances_size, h.instances, h.nextIdentity, h.this, h.super⟩

theorem Tied.withDepth {m : Machine} {w : World} (h : Tied l m w) (depth : Nat) :
    Tied l { m with depth := depth } { w with depth := depth } :=
  ⟨h.store, h.table, h.heap.withDepth depth, rfl, h.sink, h.readings⟩

theorem Sim.frame {host : Host} {line : Nat} {x : Exec α} {y : Act β}
    (h : Sim own l scope R x y) :
    Sim own l scope R (Exec.frame host line x) (Lexical.frame host line y) := by
  intro m w tied back
  unfold Exec.frame Lexical.frame
  dsimp only
  rw [← tied.depth]
  split
  · exact .runtime tied back _ _
  · have hends := h _ _ (tied.withDepth (m.depth + 1)) back
    generalize x { m with depth := m.depth + 1 } = r,
      y { w with depth := m.depth + 1 } = r' at hends
    cases hends with
    | ok tied' back' grows same hab =>
      dsimp only
      rw [← tied'.depth]
      exact .ok (tied'.withDepth _) back' grows same hab
    | error tied' back' grows same hne =>
      dsimp only
      rw [← tied'.depth]
      exact .error (tied'.withDepth _) back' grows same hne

/-! ### Elementary actions -/

/-- A change of both heaps. -/
theorem Tied.change {m : Machine} {w w' : World} {store : Store} (h : Tied l m w)
    (hheap : Holds (l.withStore store) w') (hdepth : w'.depth = w.depth) (hsink : w'.sink = w.sink)
    (hreadings : w'.readings = w.readings) :
    Tied (l.withStore store) { m with store := store } w' :=
  ⟨rfl, h.table, hheap, h.depth.trans hdepth.symm, h.sink.trans hsink.symm,
    h.readings.trans hreadings.symm⟩

theorem sim_newIdentity : Sim none l scope (fun _ => Eq) Exec.newIdentity newIdentity := by
  intro m w tied back
  have heq : m.store.newIdentity.1 = w.nextIdentity := by
    rw [tied.store]
    exact tied.heap.nextIdentity
  show Ends none l scope (fun _ => Eq) (.ok m.store.newIdentity.1 _) (.ok w.nextIdentity _)
  rw [heq, tied.store]
  exact .ok (tied.change tied.heap.newIdentity rfl rfl rfl) back grows_newIdentity ⟨rfl, rfl⟩
    rfl

/-- The new instance has an address of its own. -/
theorem sim_newInstance {c : Class ScopeAddress} {d : Class Env} (h : ClassRelated l c d) :
    Sim none l scope (fun l' a b => a = b ∧ a < l'.store.instances.size) (Exec.newInstance c)
      (newInstance d) := by
  intro m w tied back
  show Ends none l scope _ (.ok m.store.instances.size _) (.ok w.instances.size _)
  rw [tied.store]
  refine .ok (tied.change (tied.heap.newInstance h) rfl rfl rfl) back (grows_newInstance c)
    ⟨rfl, rfl⟩ ?_
  refine ⟨tied.heap.instances_size, ?_⟩
  show l.store.instances.size < (l.store.instances.push ⟨c, []⟩).size
  rw [Array.size_push]
  exact Nat.lt_succ_self _

theorem sim_setField {address : InstanceAddress} {name : String} {value : Datum}
    {value' : Value Env} (h : Related l value value') :
    Sim none l scope (fun _ _ _ => True) (Exec.setField address name value)
      (setField address name value') := by
  intro m w tied back
  show Ends none l scope _ (.ok () { m with store := m.store.setField address name value }) _
  rw [tied.store]
  exact .ok (tied.change (tied.heap.setField address name h) rfl rfl rfl) back
    (grows_setField address name value) ⟨rfl, rfl⟩ trivial

theorem sim_instanceAt? {address : InstanceAddress} (h : address < l.store.instances.size) :
    Sim none l scope (fun l' a b => ∃ i j, a = some i ∧ b = some j ∧ ObjectRelated l' i j)
      (Exec.instanceAt? address) (instanceAt? address) := by
  intro m w tied back
  refine .ok tied back (.refl none l) ⟨rfl, rfl⟩ ?_
  rw [tied.store]
  rcases optionRel_cases (tied.heap.instances address) with ⟨hnone, -⟩ | ⟨i, j, hi, hj, hrel⟩
  · rw [Array.getElem?_eq_getElem h] at hnone
    cases hnone
  · exact ⟨i, j, hi, hj, hrel⟩

theorem ClassRelated.name {c : Class ScopeAddress} {d : Class Env} (h : ClassRelated l c d) :
    c.name = d.name := by
  cases h <;> rfl

theorem Related.text {w : World} {a : Datum} {b : Value Env} (h : Related l a b)
    (hheap : Holds l w) : a.text l.store.className = b.text w.className := by
  cases h with
  | @function id f g h => rw [Value.text, Value.text, h.1]
  | classObject h => exact h.name
  | @instanceRef i h =>
    rw [Value.text, Value.text, Store.className, World.className]
    rcases optionRel_cases (hheap.instances i) with ⟨ha, hb⟩ | ⟨a, b, ha, hb, hrel⟩
    · rw [ha, hb]
      rfl
    · rw [ha, hb, Option.map_some, Option.map_some, hrel.cls.name]
  | _ => rfl

theorem sim_print {a : Datum} {b : Value Env} (h : Related l a b) :
    Sim none l scope (fun _ _ _ => True) (Exec.print a) (print b) := by
  intro m w tied back
  have htext : a.text m.store.className = b.text w.className := by
    rw [tied.store]
    exact h.text tied.heap
  have hheap : ∀ sink, Holds l { w with sink := sink } := fun _ =>
    ⟨tied.heap.root, tied.heap.inhabited, tied.heap.links_length, tied.heap.nodup,
      tied.heap.linked, tied.heap.total, tied.heap.cells, tied.heap.globals,
      tied.heap.instances_size, tied.heap.instances, tied.heap.nextIdentity, tied.heap.this,
      tied.heap.super⟩
  unfold Exec.print print
  dsimp only
  rw [htext, tied.sink]
  split
  · exact .ok ⟨tied.store, tied.table, hheap _, tied.depth, rfl, tied.readings⟩ back
      (.refl none l) ⟨rfl, rfl⟩ trivial
  · exact .error ⟨tied.store, tied.table, hheap _, tied.depth, rfl, tied.readings⟩ back
      (.refl none l) ⟨rfl, rfl⟩ nofun

theorem sim_readClock (host : Host) :
    Sim none l scope Related (Exec.readClock host) (readClock host) := by
  intro m w tied back
  have hheap : Holds l { w with readings := w.readings + 1 } :=
    ⟨tied.heap.root, tied.heap.inhabited, tied.heap.links_length, tied.heap.nodup,
      tied.heap.linked, tied.heap.total, tied.heap.cells, tied.heap.globals,
      tied.heap.instances_size, tied.heap.instances, tied.heap.nextIdentity, tied.heap.this,
      tied.heap.super⟩
  unfold Exec.readClock readClock
  rw [tied.readings]
  exact .ok ⟨tied.store, tied.table, hheap, tied.depth, tied.sink, rfl⟩ back (.refl none l) ⟨rfl, rfl⟩
    (.number _)

end Lox.Lexical
