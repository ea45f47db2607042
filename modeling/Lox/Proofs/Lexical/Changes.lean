/-
The elementary changes of a machine and a world, side by side.

Each of them keeps `Holds` and lets the layout grow:

* `Holds.alloc` — an empty cell for a name that gets a place in a scope;
* `Holds.fill` — the value of a variable, in its scope and in its cell;
* `Holds.defineGlobal`, `Holds.newScope`, `Holds.newInstance`, `Holds.setField`,
  `Holds.newIdentity` — the others.
-/
import Mathlib.Data.List.Nodup
import Lox.Proofs.Lexical.Related

namespace Lox.Lexical

variable {l : Layout} {w : World}

/-- The layout with another store. -/
def Layout.withStore (l : Layout) (store : Store) : Layout :=
  { l with store := store }

/-- The layout with one more cell. -/
def Layout.link (l : Layout) (scope : ScopeAddress) (name : String) : Layout :=
  { l with links := l.links ++ [(scope, name)] }

/-- A change of the store alone. -/
theorem grows_withStore {own : Option ScopeAddress} {store : Store}
    (hparent : ∀ scope parent, l.store.parent? scope = some parent →
      store.parent? scope = some parent)
    (hbound : ∀ scope name, (l.store.lookup scope name).isSome →
      (store.lookup scope name).isSome)
    (hinstances : l.store.instances.size ≤ store.instances.size)
    (hscopes : l.store.scopes.size ≤ store.scopes.size)
    (hunbound : ∀ scope name, own ≠ some scope → scope ≠ Store.globals →
      scope < l.store.scopes.size → l.store.lookup scope name = none →
      store.lookup scope name = none) : Grows own l (l.withStore store) :=
  ⟨⟨Nat.le_refl _, fun _ _ => rfl⟩, List.prefix_refl _, hparent, hbound, hinstances, hscopes,
    fun _ _ h => .inl h, hunbound⟩

theorem grows_link (scope : ScopeAddress) (name : String) :
    Grows (some scope) l (l.link scope name) := by
  refine ⟨⟨Nat.le_refl _, fun _ _ => rfl⟩, List.prefix_append _ _, fun _ _ h => h, fun _ _ h => h,
    Nat.le_refl _, Nat.le_refl _, fun s n h => ?_, fun _ _ _ _ _ h => h⟩
  rcases List.mem_append.mp h with h | h
  · exact .inl h
  · rw [List.mem_singleton, Prod.mk.injEq] at h
    exact .inr (.inl (congrArg some h.1.symm))

theorem Holds.link_new (h : Holds l w) (scope : ScopeAddress) (name : String) :
    (l.link scope name).links[w.cells.size]? = some (scope, name) := by
  rw [Layout.link, ← h.links_length, List.getElem?_concat_length]

/-- An empty cell for a variable without one. -/
theorem Holds.alloc (h : Holds l w) {scope : ScopeAddress} {name : String}
    (hlocal : scope ≠ Store.globals) (hlt : scope < l.store.scopes.size)
    (hfresh : (scope, name) ∉ l.links) :
    Holds (l.link scope name) { w with cells := w.cells.push none } := by
  have hgrows := grows_link (l := l) scope name
  refine ⟨h.root, h.inhabited, ?_, ?_, fun s n hmem => ?_, fun s n hs hsome => ?_,
    fun cell s n hlink => ?_, fun n => ?_, h.instances_size, fun i => ?_, h.nextIdentity, h.this,
    h.super⟩
  · rw [Layout.link, List.length_append, List.length_singleton, h.links_length, Array.size_push]
  · exact List.nodup_append.mpr ⟨h.nodup, by simp, fun a ha b hb heq => by
      rw [List.mem_singleton] at hb
      exact hfresh (hb ▸ heq ▸ ha)⟩
  · rcases List.mem_append.mp hmem with hmem | hmem
    · exact h.linked s n hmem
    · rw [List.mem_singleton, Prod.mk.injEq] at hmem
      exact ⟨hmem.1 ▸ hlocal, hmem.1 ▸ hlt⟩
  · exact List.mem_append_left _ (h.total s n hs hsome)
  · rw [Array.getElem?_push]
    split
    · rename_i heq
      subst heq
      rw [h.link_new, Option.some.injEq, Prod.mk.injEq] at hlink
      obtain ⟨rfl, rfl⟩ := hlink
      cases hlookup : l.store.lookup scope name with
      | none => exact hlookup ▸ .none
      | some value =>
        exact absurd (h.total scope name hlocal (by rw [hlookup]; rfl)) hfresh
    · rename_i hne
      have hlen := (List.getElem?_eq_some_iff.mp hlink).1
      rw [Layout.link, List.length_append, List.length_singleton] at hlen
      rw [Layout.link, List.getElem?_append_left (by have := h.links_length; omega)] at hlink
      exact optionRel_imp (h.cells cell s n hlink) fun _ _ hr => hr.mono hgrows
  · exact optionRel_imp (h.globals n) fun _ _ hr => hr.mono hgrows
  · exact optionRel_imp (h.instances i) fun _ _ hr => hr.mono hgrows

/-! ### Definitions -/

theorem grows_define (scope : ScopeAddress) (name : String) (value : Datum) :
    Grows (some scope) l (l.withStore (l.store.define scope name value)) := by
  refine grows_withStore (fun _ _ hp => Store.parent?_define.trans hp)
    (fun _ _ hn => Store.isSome_lookup_define hn) (Nat.le_refl _)
    (Nat.le_of_eq Store.define_size.symm) fun s n hs _ _ hn => ?_
  rw [Store.lookup_define_of_ne (.inl fun heq => hs (congrArg some heq.symm)), hn]

/-- A new value for a name that has one, or for a global name. -/
theorem grows_redefine {scope : ScopeAddress} {name : String} (value : Datum)
    (h : scope = Store.globals ∨ (l.store.lookup scope name).isSome) :
    Grows none l (l.withStore (l.store.define scope name value)) := by
  refine grows_withStore (fun _ _ hp => Store.parent?_define.trans hp)
    (fun _ _ hn => Store.isSome_lookup_define hn) (Nat.le_refl _)
    (Nat.le_of_eq Store.define_size.symm) fun s n _ hlocal _ hn => ?_
  rw [Store.lookup_define, if_neg, hn]
  rintro ⟨rfl, rfl, -⟩
  rcases h with h | h
  · exact hlocal h
  · rw [hn] at h
    cases h

/-- What may be bound to `this` and `super`. -/
def Fits (name : String) (value : Datum) : Prop :=
  (name = "this" → ∃ i, value = .instanceRef i) ∧ (name = "super" → ∃ c, value = .classObject c)

theorem fits_of_not_isReserved {name : String} (h : ¬ isReserved name) (value : Datum) :
    Fits name value :=
  ⟨fun hn => absurd (.inl hn) h, fun hn => absurd (.inr hn) h⟩

theorem fits_this (i : InstanceAddress) : Fits "this" (.instanceRef i) :=
  ⟨fun _ => ⟨i, rfl⟩, fun h => absurd h (by decide)⟩

theorem fits_super (c : Class ScopeAddress) : Fits "super" (.classObject c) :=
  ⟨fun h => absurd h (by decide), fun _ => ⟨c, rfl⟩⟩

theorem Holds.this_define (h : Holds l w) {scope : ScopeAddress} {name : String} {value : Datum}
    (hfits : scope ≠ Store.globals → Fits name value) {s : ScopeAddress} {v : Datum}
    (hs : s ≠ Store.globals) (hv : (l.store.define scope name value).lookup s "this" = some v) :
    ∃ i, v = .instanceRef i := by
  rw [Store.lookup_define] at hv
  split at hv
  · rename_i heq
    cases hv
    exact (hfits (heq.1 ▸ hs)).1 heq.2.1.symm
  · exact h.this s v hs hv

theorem Holds.super_define (h : Holds l w) {scope : ScopeAddress} {name : String} {value : Datum}
    (hfits : scope ≠ Store.globals → Fits name value) {s : ScopeAddress} {v : Datum}
    (hs : s ≠ Store.globals) (hv : (l.store.define scope name value).lookup s "super" = some v) :
    ∃ c, v = .classObject c := by
  rw [Store.lookup_define] at hv
  split at hv
  · rename_i heq
    cases hv
    exact (hfits (heq.1 ▸ hs)).2 heq.2.1.symm
  · exact h.super s v hs hv

/-- The value of a local variable, which may be a closure that has the variable itself
in sight. -/
theorem Holds.fill (h : Holds l w) {cell : Nat} {scope : ScopeAddress} {name : String}
    {value : Datum} {value' : Value Env} (hlink : l.links[cell]? = some (scope, name))
    (hvalue : Related (l.withStore (l.store.define scope name value)) value value')
    (hfits : Fits name value) :
    Holds (l.withStore (l.store.define scope name value))
      { w with cells := w.cells.modify cell fun _ => some value' } := by
  have hgrows := grows_define (l := l) scope name value
  obtain ⟨hlocal, hlt⟩ := h.linked scope name (List.mem_of_getElem? hlink)
  refine ⟨Store.parent?_define.trans h.root, ?_, ?_, h.nodup, fun s n hmem => ?_,
    fun s n hs hsome => ?_, fun cell' s n hlink' => ?_, fun n => ?_, h.instances_size,
    fun i => ?_, h.nextIdentity, fun s v hs hv => h.this_define (fun _ => hfits) hs hv,
    fun s v hs hv => h.super_define (fun _ => hfits) hs hv⟩
  · exact Nat.lt_of_lt_of_eq h.inhabited Store.define_size.symm
  · exact h.links_length.trans Array.size_modify.symm
  · obtain ⟨hs, hsize⟩ := h.linked s n hmem
    exact ⟨hs, Nat.lt_of_lt_of_eq hsize Store.define_size.symm⟩
  · rw [Layout.withStore, Store.lookup_define] at hsome
    split at hsome
    · rename_i heq
      obtain ⟨rfl, rfl, -⟩ := heq
      exact List.mem_of_getElem? hlink
    · exact h.total s n hs hsome
  · rw [Layout.withStore, Array.getElem?_modify]
    by_cases heq : cell = cell'
    · subst heq
      rw [Layout.withStore, hlink, Option.some.injEq, Prod.mk.injEq] at hlink'
      obtain ⟨rfl, rfl⟩ := hlink'
      have hcell : cell < w.cells.size := by
        rw [← h.links_length]
        exact (List.getElem?_eq_some_iff.mp hlink).1
      rw [if_pos rfl, Array.getElem?_eq_getElem hcell, Store.lookup_define_self hlt]
      exact .some hvalue
    · rw [if_neg heq, Store.lookup_define_of_ne]
      · exact optionRel_imp (h.cells cell' s n hlink') fun _ _ hr => hr.mono hgrows
      · -- two cells are never linked to one variable
        by_cases hs : s = scope
        · refine .inr fun hn => heq ?_
          subst hs hn
          obtain ⟨hi, hxi⟩ := List.getElem?_eq_some_iff.mp hlink
          obtain ⟨hj, hxj⟩ := List.getElem?_eq_some_iff.mp hlink'
          exact (List.Nodup.getElem_inj_iff h.nodup).mp (hxi.trans hxj.symm)
        · exact .inl hs
  · rw [Layout.withStore, Store.lookup_define_of_ne (.inl hlocal.symm)]
    exact optionRel_imp (h.globals n) fun _ _ hr => hr.mono hgrows
  · exact optionRel_imp (h.instances i) fun _ _ hr => hr.mono hgrows

/-- The value of a global variable. -/
theorem Holds.defineGlobal (h : Holds l w) {name : String} {value : Datum} {value' : Value Env}
    (hvalue : Related (l.withStore (l.store.define Store.globals name value)) value value') :
    Holds (l.withStore (l.store.define Store.globals name value))
      { w with globals := w.globals.put name value' } := by
  have hgrows := grows_define (l := l) Store.globals name value
  refine ⟨Store.parent?_define.trans h.root, ?_, h.links_length, h.nodup, fun s n hmem => ?_,
    fun s n hs hsome => ?_, fun cell s n hlink => ?_, fun n => ?_, h.instances_size, fun i => ?_,
    h.nextIdentity, fun s v hs hv => h.this_define (fun hg => absurd rfl hg) hs hv,
    fun s v hs hv => h.super_define (fun hg => absurd rfl hg) hs hv⟩
  · exact Nat.lt_of_lt_of_eq h.inhabited Store.define_size.symm
  · obtain ⟨hs, hsize⟩ := h.linked s n hmem
    exact ⟨hs, Nat.lt_of_lt_of_eq hsize Store.define_size.symm⟩
  · rw [Layout.withStore, Store.lookup_define_of_ne (.inl hs)] at hsome
    exact h.total s n hs hsome
  · have hs := (h.linked s n (List.mem_of_getElem? hlink)).1
    rw [Layout.withStore, Store.lookup_define_of_ne (.inl hs)]
    exact optionRel_imp (h.cells cell s n hlink) fun _ _ hr => hr.mono hgrows
  · rw [Layout.withStore, Store.lookup_define, Bindings.find?_put]
    by_cases hn : n = name
    · rw [if_pos ⟨rfl, hn, h.inhabited⟩, if_pos hn]
      exact .some hvalue
    · rw [if_neg fun hc => hn hc.2.1, if_neg hn]
      exact optionRel_imp (h.globals n) fun _ _ hr => hr.mono hgrows
  · exact optionRel_imp (h.instances i) fun _ _ hr => hr.mono hgrows

/-! ### New scopes, instances and identities -/

theorem grows_newScope (parent : ScopeAddress) :
    Grows none l (l.withStore (l.store.newScope parent []).2) := by
  refine grows_withStore (fun s p hp => ?_) (fun s n hn => ?_) (Nat.le_refl _) ?_
    fun s n _ _ hlt hn => ?_
  · rw [Store.parent?_newScope, if_neg (Nat.ne_of_lt (Store.lt_size_of_parent? hp)), hp]
  · rwa [Store.lookup_newScope, if_neg (Nat.ne_of_lt (Store.lt_size_of_lookup hn))]
  · exact Nat.le_of_lt (Nat.lt_of_lt_of_eq (Nat.lt_succ_self _) Store.newScope_size.symm)
  · rw [Store.lookup_newScope, if_neg (Nat.ne_of_lt hlt), hn]

theorem Holds.newScope (h : Holds l w) (parent : ScopeAddress) :
    Holds (l.withStore (l.store.newScope parent []).2) w := by
  have hgrows := grows_newScope (l := l) parent
  have hlookup : ∀ s n, (l.store.newScope parent []).2.lookup s n = l.store.lookup s n := by
    intro s n
    rw [Store.lookup_newScope]
    split
    · rename_i hs
      cases hl : l.store.lookup s n with
      | none => rfl
      | some value =>
        have hlt : s < l.store.scopes.size :=
          Store.lt_size_of_lookup (Option.isSome_iff_exists.mpr ⟨_, hl⟩)
        exact absurd hs (Nat.ne_of_lt hlt)
    · rfl
  refine ⟨?_, ?_, h.links_length, h.nodup, fun s n hmem => ?_, fun s n hs hsome => ?_,
    fun cell s n hlink => ?_, fun n => ?_, h.instances_size, fun i => ?_, h.nextIdentity,
    fun s v hs hv => h.this s v hs (hlookup s _ ▸ hv),
    fun s v hs hv => h.super s v hs (hlookup s _ ▸ hv)⟩
  · rw [Layout.withStore, Store.parent?_newScope, if_neg (Nat.ne_of_lt h.inhabited), h.root]
  · exact Nat.lt_of_lt_of_le h.inhabited hgrows.scopes
  · obtain ⟨hs, hsize⟩ := h.linked s n hmem
    exact ⟨hs, Nat.lt_of_lt_of_le hsize hgrows.scopes⟩
  · exact h.total s n hs (hlookup s n ▸ hsome)
  · rw [Layout.withStore, hlookup]
    exact optionRel_imp (h.cells cell s n hlink) fun _ _ hr => hr.mono hgrows
  · rw [Layout.withStore, hlookup]
    exact optionRel_imp (h.globals n) fun _ _ hr => hr.mono hgrows
  · exact optionRel_imp (h.instances i) fun _ _ hr => hr.mono hgrows

theorem grows_newInstance (cls : Class ScopeAddress) :
    Grows none l (l.withStore (l.store.newInstance cls).2) := by
  refine grows_withStore (fun _ _ h => h) (fun _ _ h => h) ?_ (Nat.le_refl _)
    fun _ _ _ _ _ h => h
  exact Nat.le_trans (Nat.le_succ _) (Nat.le_of_eq (Array.size_push _).symm)

theorem Holds.newInstance (h : Holds l w) {c : Class ScopeAddress} {d : Class Env}
    (hclass : ClassRelated l c d) :
    Holds (l.withStore (l.store.newInstance c).2)
      { w with instances := w.instances.push ⟨d, []⟩ } := by
  have hgrows := grows_newInstance (l := l) c
  refine ⟨h.root, h.inhabited, h.links_length, h.nodup, h.linked, h.total,
    fun cell s n hlink => ?_, fun n => ?_, ?_, fun i => ?_, h.nextIdentity, h.this, h.super⟩
  · exact optionRel_imp (h.cells cell s n hlink) fun _ _ hr => hr.mono hgrows
  · exact optionRel_imp (h.globals n) fun _ _ hr => hr.mono hgrows
  · rw [Layout.withStore, Store.newInstance, Array.size_push, Array.size_push, h.instances_size]
  · rw [Layout.withStore, Store.newInstance, Array.getElem?_push, Array.getElem?_push,
      h.instances_size]
    split
    · exact .some ⟨hclass.mono hgrows, fun _ => .none⟩
    · exact optionRel_imp (h.instances i) fun _ _ hr => hr.mono hgrows

theorem grows_setField (address : InstanceAddress) (name : String) (value : Datum) :
    Grows none l (l.withStore (l.store.setField address name value)) := by
  have hsize : l.store.instances.size ≤ (l.store.setField address name value).instances.size :=
    Nat.le_of_eq Array.size_modify.symm
  exact grows_withStore (fun _ _ h => h) (fun _ _ h => h) hsize (Nat.le_refl _)
    fun _ _ _ _ _ h => h

theorem Holds.setField (h : Holds l w) (address : InstanceAddress) (name : String) {value : Datum}
    {value' : Value Env} (hvalue : Related l value value') :
    Holds (l.withStore (l.store.setField address name value))
      { w with
        instances := w.instances.modify address fun i =>
          { i with fields := i.fields.put name value' } } := by
  have hgrows := grows_setField (l := l) address name value
  refine ⟨h.root, h.inhabited, h.links_length, h.nodup, h.linked, h.total,
    fun cell s n hlink => ?_, fun n => ?_, ?_, fun i => ?_, h.nextIdentity, h.this, h.super⟩
  · exact optionRel_imp (h.cells cell s n hlink) fun _ _ hr => hr.mono hgrows
  · exact optionRel_imp (h.globals n) fun _ _ hr => hr.mono hgrows
  · rw [Layout.withStore, Store.setField, Array.size_modify, Array.size_modify, h.instances_size]
  · have hi := optionRel_imp (h.instances i) fun _ _ hr => ObjectRelated.mono hr hgrows
    rw [Layout.withStore, Store.setField, Array.getElem?_modify, Array.getElem?_modify]
    split
    · cases ha : l.store.instances[i]? with
      | none =>
        rw [ha] at hi
        cases hb : w.instances[i]? with
        | none => exact .none
        | some b => rw [hb] at hi; cases hi
      | some a =>
        rw [ha] at hi
        cases hb : w.instances[i]? with
        | none => rw [hb] at hi; cases hi
        | some b =>
          rw [hb] at hi
          obtain ⟨hr⟩ := hi
          refine .some ⟨hr.cls, fun key => ?_⟩
          simp only [Bindings.find?_put]
          split
          · exact .some (hvalue.mono hgrows)
          · exact hr.fields key
    · exact hi

theorem grows_newIdentity : Grows none l (l.withStore l.store.newIdentity.2) :=
  grows_withStore (fun _ _ h => h) (fun _ _ h => h) (Nat.le_refl _) (Nat.le_refl _)
    fun _ _ _ _ _ h => h

theorem Holds.newIdentity (h : Holds l w) :
    Holds (l.withStore l.store.newIdentity.2) { w with nextIdentity := w.nextIdentity + 1 } := by
  have hgrows := grows_newIdentity (l := l)
  refine ⟨h.root, h.inhabited, h.links_length, h.nodup, h.linked, h.total,
    fun cell s n hlink => ?_, fun n => ?_, h.instances_size, fun i => ?_, ?_, h.this, h.super⟩
  · exact optionRel_imp (h.cells cell s n hlink) fun _ _ hr => hr.mono hgrows
  · exact optionRel_imp (h.globals n) fun _ _ hr => hr.mono hgrows
  · exact optionRel_imp (h.instances i) fun _ _ hr => hr.mono hgrows
  · exact congrArg (· + 1) h.nextIdentity

end Lox.Lexical
