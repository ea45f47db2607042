/-
Sessions keep their machines lawful.

* `Session.Upright` — between two steps all that the machine holds is as it is written in
  the programs that were run, and the table has what was found for each of them;
* `Session.Upright.take`, `Session.upright_after` — every step keeps it so;
* `Exec.Always` — what holds at every moment of a run;
* `Session.Upright.always` — in a program that is accepted all code that is reached is at
  home.
-/
import Lox.Proofs.Homes.Evaluation
import Lox.Proofs.Lexical.Naming
import Lox.Proofs.Steps

namespace Lox

open Homes

/-- Something holds at every moment of a run: no watch that lets pass the moments at which
it holds makes a difference. -/
def Exec.Always (host : Host) (fuel : Nat) (p : Program) (m : Machine)
    (P : Machine → Moment → Prop) : Prop :=
  ∀ watch : Moment → Exec Unit, (∀ m moment, P m moment → watch moment m = .ok () m) →
    Exec.runWatched host watch fuel p m = Exec.runProgram host fuel p m

/-- What the table has for an id is what was found for it in the program, if anything. -/
def Distances.Records (table : Distances) (p : Program) (id : Nat) : Prop :=
  ∀ distance, table[id]? = some distance ↔ (id, distance) ∈ p.distances

/-- The basis of a session between two steps. -/
def Session.basis (session : Session) (programs : List Program) : Basis :=
  ⟨programs.flatMap Stmt.textsEach, session.machine.distances, session.nextId,
    session.machine.store, session.machine.store⟩

/-- Between two steps the machine is lawful and at the top level, and the table has for
the mentions of the programs that were run what was found for them. -/
structure Session.Upright (programs : List Program) (session : Session) : Prop where
  lawful : Lawful (session.basis programs) session.machine
  scope : session.machine.scope = Store.globals
  below : session.machine.distances.Below session.nextId
  recorded : ∀ p ∈ programs, ∀ m ∈ Stmt.mentionsEach p,
    m.id < session.nextId ∧ session.machine.distances.Records p m.id

variable {host : Host} {session : Session} {programs : List Program} {p : Program}
  {source : String}

/-! ### New sessions -/

/-- A new store holds native functions only. -/
theorem isCode_initial {scope : ScopeAddress} {name : String} {value : Datum}
    (h : Store.initial.lookup scope name = some value) : value.isCode = false := by
  cases scope with
  | succ scope => cases h
  | zero =>
    have hnative : (Bindings.ofList (Native.all.map fun f => (f.name, (.native f : Datum)))).find?
        name = some value := h
    rw [Bindings.find?_ofList] at hnative
    obtain ⟨pair, hpair, rfl⟩ := Option.map_eq_some_iff.mp hnative
    obtain ⟨f, -, rfl⟩ := List.mem_map.mp (List.mem_reverse.mp (List.mem_of_find?_eq_some hpair))
    rfl

theorem Session.upright_start (sink : Sink) : Upright [] (start sink) := by
  constructor
  case lawful => exact ⟨rfl, .refl _, fun _ _ _ h => settled_of_not_code (isCode_initial h), nofun⟩
  case scope => rfl
  case below => exact fun _ _ => rfl
  case recorded => exact nofun

/-! ### Runs -/

/-- A machine that is lawful is so for a basis with more texts and distances, if it knows
these, and from now on. -/
theorem Homes.lawful_rebase {b b' : Basis} {m m' : Machine} (h : Lawful b m)
    (hgrows : b.Grows b') (htable : m'.distances = b'.table) (hstore : m'.store = m.store)
    (hbase : b'.base = m.store) : Lawful b' m' := by
  have hext : m.store.Extends m'.store := hstore ▸ Store.Extends.refl m.store
  constructor
  case table => exact htable
  case grown => rw [hbase]; exact hext
  case values =>
    intro scope name value hvalue
    rw [hstore] at hvalue
    exact (h.values scope name value hvalue).mono hgrows hext
  case instances =>
    intro i target htarget
    rw [hstore] at htarget
    exact (h.instances i target htarget).mono hgrows hext

/-- The basis of a run of a program that comes to a last store. -/
def Session.runBasis (session : Session) (programs : List Program) (p : Program)
    (nextId : Nat) (last : Store) : Basis :=
  ⟨(programs ++ [p]).flatMap Stmt.textsEach, session.machine.distances.extend p.distances, nextId,
    session.machine.store, last⟩

theorem Stmt.textsEach_subset (hp : p ∈ programs) :
    Stmt.textsEach p ⊆ programs.flatMap Stmt.textsEach :=
  fun _ ht => List.mem_flatMap.mpr ⟨p, hp, ht⟩

namespace Session.Upright

variable (host) (h : Session.Upright programs session)
include h

/-- An accepted program stands where it was resolved. -/
theorem placed (hcheck : (session.check source).1 = .ok p) :
    Stmt.PlacedEach (session.machine.distances.extend p.distances) (session.check source).2.nextId
      .topLevel p := by
  obtain ⟨-, -, -, hfaults⟩ := check_eq_ok_iff.mp hcheck
  exact Program.placed (check_numbered hcheck) h.below (check_proper hcheck) hfaults

theorem prepared (hcheck : (session.check source).1 = .ok p) (last : Store) :
    Lawful (session.runBasis programs p (session.check source).2.nextId last)
      (session.machine.prepared p) := by
  have hgrows : (session.basis programs).Grows
      (session.runBasis programs p (session.check source).2.nextId last) := by
    refine ⟨?_, agrees_extend (check_numbered hcheck)⟩
    rw [runBasis, List.flatMap_append]
    exact List.subset_append_left _ _
  exact lawful_rebase h.lawful hgrows rfl rfl rfl

/-- A run of an accepted program, under a watch that lets pass the code that is at home. -/
theorem keeps (hcheck : (session.check source).1 = .ok p) (fuel : Nat) (last : Store)
    (watch : Moment → Exec Unit)
    (hwatch : ∀ m moment,
      let b := session.runBasis programs p (session.check source).2.nextId last
      Lawful b m → m.store.Extends last → Fits b m moment → watch moment m = .ok () m) :
    Keeps (session.runBasis programs p (session.check source).2.nextId last)
      session.machine.store Store.globals (fun _ _ => True)
      (Exec.runWatched host watch fuel p) (Exec.runProgram host fuel p) :=
  keeps_runProgram hwatch host fuel p (h.placed hcheck) (Stmt.textsEach_subset (by simp))

/-- What is left of a run. -/
theorem kept (hcheck : (session.check source).1 = .ok p) (fuel : Nat) (last : Store) :
    Kept (session.runBasis programs p (session.check source).2.nextId last)
      session.machine.store Store.globals (fun _ _ => True)
      (Exec.runProgram host fuel p (session.machine.prepared p)) := by
  have hunwatched := h.keeps host hcheck fuel last Exec.unwatched fun _ _ _ _ _ => rfl
  exact (hunwatched _ (h.prepared hcheck last) rfl h.scope).2

/-- While an accepted program is run the machine is lawful, its store leads to the one
that the run leaves, and all code that is reached is at home. -/
theorem always (hcheck : (session.check source).1 = .ok p) {fuel : Nat}
    {P : Machine → Moment → Prop}
    (hP : ∀ m moment,
      let last := (Machine.left (Exec.runProgram host fuel p (session.machine.prepared p))).store
      let b := session.runBasis programs p (session.check source).2.nextId last
      Lawful b m → m.store.Extends last → Fits b m moment → P m moment) :
    Exec.Always host fuel p (session.machine.prepared p) P := by
  intro watch hpass
  -- the last store is the one that the run leaves, so the whole run is on the way to it
  have hwatched := h.keeps host hcheck fuel _ watch
    fun m moment hl he hf => hpass m moment (hP m moment hl he hf)
  exact (hwatched _ (h.prepared hcheck _) rfl h.scope).1 (.refl _)

/-- Ids that are used up change nothing. -/
theorem renumber {nextId : Nat} (hle : session.nextId ≤ nextId) :
    Upright programs { session with nextId := nextId } := by
  constructor
  case lawful =>
    exact lawful_rebase h.lawful ⟨List.Subset.refl _, hle, fun _ _ => rfl⟩ rfl rfl rfl
  case scope => exact h.scope
  case below => exact fun id hid => h.below id (Nat.le_trans hle hid)
  case recorded =>
    intro q hq m hm
    obtain ⟨hlt, hrecorded⟩ := h.recorded q hq m hm
    exact ⟨Nat.lt_of_lt_of_le hlt hle, hrecorded⟩

/-- What is known of the mentions of programs is not changed by the next program, whose
own mentions are new. -/
theorem recorded_extend (hcheck : (session.check source).1 = .ok p) :
    ∀ q ∈ programs ++ [p], ∀ m ∈ Stmt.mentionsEach q,
      m.id < (session.check source).2.nextId ∧
        (session.machine.distances.extend p.distances).Records q m.id := by
  have hnumbered := check_numbered hcheck
  intro q hq m hm
  rcases List.mem_append.mp hq with hq | hq
  · obtain ⟨hlt, hrecorded⟩ := h.recorded q hq m hm
    have hagrees : session.machine.distances.Agrees session.nextId
        (session.machine.distances.extend p.distances) _ := agrees_extend hnumbered
    refine ⟨Nat.lt_of_lt_of_le hlt hnumbered.le, fun distance => ?_⟩
    rw [hagrees.eq m.id hlt]
    exact hrecorded distance
  · rw [List.mem_singleton] at hq
    subst hq
    refine ⟨(hnumbered.range m hm).2, fun distance => ?_⟩
    rw [mem_distances]
    refine ⟨fun htable => ?_, extend_eq_of_mem hnumbered⟩
    by_contra hmem
    -- another distance would have been put into the table, and without any it has none
    have hnone : ∀ scopes, .distance m.id scopes ∉ q.findings := by
      intro scopes hfound
      rw [extend_eq_of_mem hnumbered hfound] at htable
      cases htable
      exact hmem hfound
    rw [extend_eq_of_not_mem hnone, h.below m.id (hnumbered.range m hm).1] at htable
    cases htable

/-- An accepted program is run. -/
theorem run (hcheck : (session.check source).1 = .ok p) (fuel : Nat) :
    Upright (programs ++ [p]) (session.run host fuel source).2 := by
  have hkept := h.kept host hcheck fuel session.machine.store
  have hnext : ∀ m,
      Lawful (session.runBasis programs p (session.check source).2.nextId session.machine.store) m →
      m.scope = Store.globals →
        Upright (programs ++ [p]) ⟨m, (session.check source).2.nextId⟩ := by
    intro m lawful hscope
    have htable : m.distances = session.machine.distances.extend p.distances := lawful.table
    constructor
    case lawful =>
      refine lawful_rebase lawful ⟨List.Subset.refl _, Nat.le_refl _, fun id _ => ?_⟩ rfl rfl rfl
      exact congrArg (fun table : Distances => table[id]?) htable
    case scope => exact hscope
    case below =>
      show m.distances.Below _
      rw [htable]
      exact h.below.extend (check_numbered hcheck)
    case recorded =>
      intro q hq mention hmention
      show _ ∧ m.distances.Records q mention.id
      rw [htable]
      exact h.recorded_extend hcheck q hq mention hmention
  rw [run_of_check fuel hcheck, Machine.run_eq]
  generalize Exec.runProgram host fuel p (session.machine.prepared p) = result at hkept
  cases hkept with
  | ok lawful back => exact hnext _ lawful back
  | error lawful back => exact hnext _ lawful back

theorem take (step : Step) :
    Upright (programs ++ (session.accepted? step).toList) (session.take host step).2 := by
  have hle : session.nextId ≤ (session.parse step.source).2.nextId :=
    (Program.read_numbered _ _).le
  cases step with
  | parse source =>
    have hparse := h.renumber hle
    rw [accepted?, Option.toList_none, List.append_nil]
    exact hparse
  | run fuel source =>
    rw [accepted?]
    cases hcheck : (session.check source).1 with
    | ok p => exact h.run host hcheck fuel
    | error diagnostics =>
      have hnext : (session.run host fuel source).2 =
          { session with nextId := (session.check source).2.nextId } := by
        rw [run_of_faults fuel hcheck, ← machine_check session source]
      show Upright (programs ++ []) (session.run host fuel source).2
      rw [List.append_nil, hnext, nextId_check]
      exact h.renumber hle

/-- A step only extends the store. -/
theorem extends_take (step : Step) :
    session.machine.store.Extends (session.take host step).2.machine.store := by
  cases step with
  | parse source => exact .refl _
  | run fuel source =>
    show session.machine.store.Extends (session.run host fuel source).2.machine.store
    cases hcheck : (session.check source).1 with
    | ok p =>
      have hgrown := (h.kept host hcheck fuel session.machine.store).grown
      rw [run_of_check fuel hcheck, Machine.run_eq]
      cases hresult : Exec.runProgram host fuel p (session.machine.prepared p) with
      | ok _ final => rwa [hresult] at hgrown
      | error abort final => rwa [hresult] at hgrown
    | error diagnostics =>
      rw [run_of_faults fuel hcheck]
      dsimp only
      rw [machine_check]
      exact .refl _

theorem extends_after (steps : List Step) :
    session.machine.store.Extends (session.after host steps).machine.store := by
  induction steps generalizing session programs with
  | nil => exact .refl _
  | cons step steps ih => exact (h.extends_take host step).trans (ih (h.take host step))

theorem after (steps : List Step) :
    Upright (programs ++ session.programs host steps) (session.after host steps) := by
  induction steps generalizing session programs with
  | nil =>
    rw [Session.programs, List.append_nil]
    exact h
  | cons step steps ih =>
    rw [Session.programs, ← List.append_assoc]
    exact ih (h.take host step)

end Session.Upright

theorem Session.upright_after (host : Host) (sink : Sink) (steps : List Step) :
    Upright ((start sink).programs host steps) ((start sink).after host steps) :=
  (upright_start sink).after host steps

end Lox
