/-
Sessions scope names lexically.

`Grounded l w session` says that between two runs a session is tied to a world:

* `Session.Reachable.grounded` — every reachable session is tied to one;
* `Session.run_lexical` — a program that is run in a new session does what lexical
  evaluation does.
-/
import Mathlib
import Lox.Proofs.Lexical.Agreement
import Lox.Proofs.Lexical.Naming
import Lox.Proofs.Reachable

namespace Lox

namespace Lexical

/-- A session at rest is tied to a world, and its table covers the ids below its next
free one. -/
structure Grounded (l : Layout) (w : World) (session : Session) : Prop where
  tied : Tied l session.machine w
  below : l.table.Below l.bound
  bound : l.bound = session.nextId
  scope : session.machine.scope = Store.globals

/-- The layout with another table. -/
def Layout.withTable (l : Layout) (table : Distances) (bound : Nat) : Layout :=
  { l with table := table, bound := bound }

variable {l : Layout} {w : World} {session : Session} {p : Program}

theorem grows_withTable {table : Distances} {bound : Nat}
    (h : l.table.Agrees l.bound table bound) : Grows none l (l.withTable table bound) :=
  ⟨h, List.prefix_refl _, fun _ _ h => h, fun _ _ h => h, Nat.le_refl _, Nat.le_refl _,
    fun _ _ h => .inl h, fun _ _ _ _ _ h => h⟩

theorem Holds.withTable {table : Distances} {bound : Nat} (h : Holds l w)
    (hagrees : l.table.Agrees l.bound table bound) : Holds (l.withTable table bound) w := by
  have hgrows := grows_withTable hagrees
  exact ⟨h.root, h.inhabited, h.links_length, h.nodup, h.linked, h.total,
    fun cell s n hlink => optionRel_imp (h.cells cell s n hlink) fun _ _ hr => hr.mono hgrows,
    fun n => optionRel_imp (h.globals n) fun _ _ hr => hr.mono hgrows, h.instances_size,
    fun i => optionRel_imp (h.instances i) fun _ _ hr => hr.mono hgrows, h.nextIdentity, h.this,
    h.super⟩

theorem Holds.withSink (h : Holds l w) (sink : Sink) : Holds l { w with sink := sink } :=
  ⟨h.root, h.inhabited, h.links_length, h.nodup, h.linked, h.total, h.cells, h.globals,
    h.instances_size, h.instances, h.nextIdentity, h.this, h.super⟩

/-! ### New sessions -/

/-- The layout of a new session. -/
def Layout.initial : Layout :=
  ⟨{}, 0, .initial, []⟩

theorem lookup_initial {scope : ScopeAddress} (name : String) (h : scope ≠ Store.globals) :
    Store.initial.lookup scope name = none := by
  rw [Store.lookup, Store.initial, Array.getElem?_eq_none]
  · rfl
  · exact Nat.one_le_iff_ne_zero.mpr h

theorem holds_initial (sink : Sink) : Holds .initial (.initial sink) := by
  refine ⟨rfl, Nat.zero_lt_one, rfl, List.nodup_nil, nofun, fun s n hs hsome => ?_, nofun,
    fun n => ?_, rfl, fun i => .none, rfl, fun s v hs hv => ?_, fun s v hs hv => ?_⟩
  · rw [Layout.initial, lookup_initial n hs] at hsome
    cases hsome
  · have hnatives : List.Forall₂ (fun p q => p.1 = q.1 ∧ Related .initial p.2 q.2)
        (Native.all.map fun f => (f.name, (.native f : Datum)))
        (Native.all.map fun f => (f.name, (.native f : Value Env))) :=
      .cons ⟨rfl, .native _⟩ .nil
    exact find?_ofList hnatives n
  · rw [Layout.initial, lookup_initial _ hs] at hv
    cases hv
  · rw [Layout.initial, lookup_initial _ hs] at hv
    cases hv

theorem grounded_start (sink : Sink) : Grounded .initial (.initial sink) (.start sink) :=
  ⟨⟨rfl, rfl, holds_initial sink, rfl, rfl, rfl⟩, fun _ _ => rfl, rfl, rfl⟩

/-! ### Runs -/

/-- Ids that are used up change nothing. -/
theorem Grounded.renumber (h : Grounded l w session) {nextId : Nat} (hle : session.nextId ≤ nextId) :
    Grounded (l.withTable l.table nextId) w { session with nextId := nextId } := by
  have hle' : l.bound ≤ nextId := h.bound ▸ hle
  exact ⟨⟨h.tied.store, h.tied.table, h.tied.heap.withTable ⟨hle', fun _ _ => rfl⟩, h.tied.depth,
    h.tied.sink, h.tied.readings⟩, fun id hid => h.below id (Nat.le_trans hle' hid), rfl, h.scope⟩

/-- A world that has printed nothing yet. -/
def World.prepared (world : World) : World :=
  { world with sink := { world.sink with written := .empty } }

/-- What a run in a world is seen to do. -/
def World.outcome : EStateM.Result Abort World Unit → Outcome × World
  | .ok _ final => (⟨final.sink.written, none⟩, final)
  | .error abort final => (⟨final.sink.written, some (.aborted abort)⟩, final)

theorem World.run_eq (host : Host) (fuel : Nat) (world : World) (program : Program) :
    world.run host fuel program = World.outcome (runProgram host fuel program world.prepared) := by
  show (match runProgram host fuel program world.prepared with
    | .ok _ final => _
    | .error abort final => _) = _
  cases runProgram host fuel program world.prepared <;> rfl

/-- The layout that a program is run with. -/
def Layout.prepared (l : Layout) (p : Program) (nextId : Nat) : Layout :=
  l.withTable (l.table.extend p.distances) nextId

/-- A program that can be run in a session with this next free id: its mentions have the
ids from there on, it is proper, and no scoping fault is in it. -/
structure Runnable (nextId nextId' : Nat) (p : Program) : Prop where
  numbered : Numbered nextId nextId' (Stmt.mentionsEach p)
  proper : Stmt.ProperEach p
  faultless : p.scopingFaults = []

theorem runnable_of_check {source : String} (h : (session.check source).1 = .ok p) :
    Runnable session.nextId (session.check source).2.nextId p :=
  ⟨Session.check_numbered h, Session.check_proper h, (Session.check_eq_ok_iff.mp h).2.2.2⟩

section

variable {nextId : Nat}

theorem Grounded.tied_prepared (h : Grounded l w session) (hp : Runnable session.nextId nextId p) :
    Tied (l.prepared p nextId) (session.machine.prepared p) w.prepared := by
  have hnumbered := hp.numbered
  rw [← h.bound] at hnumbered
  have htable : (session.machine.prepared p).distances = l.table.extend p.distances :=
    congrArg (Distances.extend · p.distances) h.tied.table
  have hsink : (session.machine.prepared p).sink = w.prepared.sink :=
    congrArg (fun sink : Sink => { sink with written := .empty }) h.tied.sink
  exact ⟨h.tied.store, htable, (h.tied.heap.withTable (agrees_extend hnumbered)).withSink _,
    h.tied.depth, hsink, h.tied.readings⟩

/-- A program and its reference end alike under the guard. -/
theorem Grounded.ends_watched (h : Grounded l w session) (hp : Runnable session.nextId nextId p)
    (host : Host) (fuel : Nat) :
    Ends (some Store.globals) (l.prepared p nextId) Store.globals
      (fun _ _ _ => True) (Exec.runWatched host Exec.guard fuel p (session.machine.prepared p))
      (runProgram host fuel p w.prepared) := by
  have hnumbered := hp.numbered
  rw [← h.bound] at hnumbered
  have hplaced := Program.placed hnumbered h.below hp.proper hp.faultless
  exact sim_runProgram host fuel p hplaced _ _ (h.tied_prepared hp) h.scope

/-- The guard finds nothing. -/
theorem Grounded.watched_eq (h : Grounded l w session) (hp : Runnable session.nextId nextId p)
    (host : Host) (fuel : Nat) :
    Exec.runWatched host Exec.guard fuel p (session.machine.prepared p) =
      Exec.runProgram host fuel p (session.machine.prepared p) := by
  have hends := h.ends_watched hp host fuel
  have hrefines := Exec.refines_runWatched (P := True) host Exec.refines_guard fuel p
    (session.machine.prepared p)
  rcases hrefines with heq | ⟨-, m', hdangling⟩
  · exact heq
  · rw [hdangling] at hends
    generalize runProgram host fuel p w.prepared = r at hends
    cases hends with
    | error _ _ _ _ hne => exact absurd rfl hne

/-- After a run the session is tied to the world after the reference. -/
theorem Grounded.run_machine (h : Grounded l w session) (hp : Runnable session.nextId nextId p)
    (host : Host) (fuel : Nat) :
    (session.machine.run host fuel p).1 = (w.run host fuel p).1 ∧
      ∃ l', Grounded l' (w.run host fuel p).2
        ⟨(session.machine.run host fuel p).2, nextId⟩ := by
  have hnumbered := hp.numbered
  rw [← h.bound] at hnumbered
  have hbelow := h.below.extend hnumbered
  have hends := h.ends_watched hp host fuel
  rw [h.watched_eq hp host fuel] at hends
  rw [Machine.run_eq, World.run_eq]
  generalize Exec.runProgram host fuel p (session.machine.prepared p) = r,
    runProgram host fuel p w.prepared = r' at hends
  have rest : ∀ {l' m w'}, Tied l' m w' → m.scope = Store.globals →
      (l.prepared p nextId).Same l' → Grounded l' w' ⟨m, nextId⟩ := by
    intro l' m w' tied back same
    refine ⟨tied, ?_, same.2, back⟩
    rw [same.1, same.2]
    exact hbelow
  cases hends with
  | ok tied back grows same h =>
    exact ⟨congrArg (fun sink : Sink => Outcome.mk sink.written none) tied.sink, _,
      rest tied back same⟩
  | @error _ abort _ _ tied back grows same hne =>
    exact ⟨congrArg (fun sink : Sink => Outcome.mk sink.written (some (.aborted abort))) tied.sink,
      _, rest tied back same⟩

end

variable {source : String}

/-- The guard finds nothing in an accepted program. -/
theorem Grounded.runWatched (h : Grounded l w session) (hcheck : (session.check source).1 = .ok p)
    (host : Host) (fuel : Nat) :
    Exec.runWatched host Exec.guard fuel p (session.machine.prepared p) =
      Exec.runProgram host fuel p (session.machine.prepared p) :=
  h.watched_eq (runnable_of_check hcheck) host fuel

/-- An accepted program and its reference end alike. -/
theorem Grounded.ends' (h : Grounded l w session) (hcheck : (session.check source).1 = .ok p)
    (host : Host) (fuel : Nat) :
    Ends (some Store.globals) (l.prepared p (session.check source).2.nextId) Store.globals
      (fun _ _ _ => True) (Exec.runProgram host fuel p (session.machine.prepared p))
      (runProgram host fuel p w.prepared) :=
  h.runWatched hcheck host fuel ▸ h.ends_watched (runnable_of_check hcheck) host fuel

/-- After a source was run the session is tied to the world after the reference. -/
theorem Grounded.run (h : Grounded l w session) (hcheck : (session.check source).1 = .ok p)
    (host : Host) (fuel : Nat) :
    (session.run host fuel source).1 = (w.run host fuel p).1 ∧
      ∃ l', Grounded l' (w.run host fuel p).2 (session.run host fuel source).2 := by
  rw [Session.run_of_check fuel hcheck]
  exact h.run_machine (runnable_of_check hcheck) host fuel

end Lexical

open Lexical

variable {host : Host} {session : Session} {p : Program} {source : String}

theorem Session.Reachable.grounded (h : Reachable host session) : ∃ l w, Grounded l w session := by
  induction h with
  | start sink => exact ⟨_, _, grounded_start sink⟩
  | parse _ source ih =>
    obtain ⟨l, w, hgrounded⟩ := ih
    exact ⟨_, _, hgrounded.renumber (Program.read_numbered _ _).le⟩
  | @run session _ fuel source ih =>
    obtain ⟨l, w, hgrounded⟩ := ih
    cases hchecked : (session.check source).1 with
    | ok p =>
      obtain ⟨-, l', hgrounded'⟩ := hgrounded.run hchecked host fuel
      exact ⟨l', _, hgrounded'⟩
    | error diagnostics =>
      have hle : session.nextId ≤ (session.check source).2.nextId := by
        rw [nextId_check]
        exact (Program.read_numbered _ _).le
      have hnext : (session.check source).2 =
          { session with nextId := (session.check source).2.nextId } := by
        rw [← machine_check session source]
      rw [run_of_faults fuel hchecked, hnext]
      exact ⟨_, _, hgrounded.renumber hle⟩

/-! ### Main statements -/

/-- With enough fuel a run has this outcome, and it was not cut short. -/
def Finishes (run : Nat → Outcome) (outcome : Outcome) : Prop :=
  outcome.failure ≠ some (.aborted .outOfFuel) ∧ ∃ fuel, ∀ more, fuel ≤ more → run more = outcome

/-- A program that is accepted in a new session does, when it is run with the distances
that resolution has found, what lexical evaluation does: it finishes if and only if that
does, after it has printed the same bytes and with the same error, if any.  If the fuel
does not suffice, they have come equally far. -/
theorem Session.run_lexical (host : Host) (sink : Sink)
    (h : ((Session.start sink).check source).1 = .ok p) :
    (∀ outcome, Finishes (fun fuel => ((Session.start sink).run host fuel source).1) outcome ↔
        Finishes (fun fuel => ((World.initial sink).run host fuel p).1) outcome) ∧
      ∀ fuel, ((Session.start sink).run host fuel source).1 =
        ((World.initial sink).run host fuel p).1 := by
  have hrun : ∀ fuel, ((Session.start sink).run host fuel source).1 =
      ((World.initial sink).run host fuel p).1 := fun fuel =>
    ((grounded_start sink).run h host fuel).1
  exact ⟨fun outcome => by simp only [hrun], hrun⟩

/-- A closure that is called in the block of the variable that it prints. -/
theorem Session.run_lexical_closure :
    ((Session.start (.ofLimit none)).check "{var a; fun f() {print a;} f();}").1 =
        .ok [.block [.varDecl ⟨"a", 1⟩ none,
          .funDecl ⟨⟨"f", 1⟩, [], [.print (.varRef ⟨0, ⟨"a", 1⟩⟩)]⟩,
          .expression (.call (.varRef ⟨1, ⟨"f", 1⟩⟩) [] 1)]] ∧
      ∀ fuel, ((Session.start (.ofLimit none)).run ⟨some maxCallDepth, fun _ => 0⟩ fuel
            "{var a; fun f() {print a;} f();}").1 =
        ((World.initial (.ofLimit none)).run ⟨some maxCallDepth, fun _ => 0⟩ fuel
          [.block [.varDecl ⟨"a", 1⟩ none,
            .funDecl ⟨⟨"f", 1⟩, [], [.print (.varRef ⟨0, ⟨"a", 1⟩⟩)]⟩,
            .expression (.call (.varRef ⟨1, ⟨"f", 1⟩⟩) [] 1)]]).1 := by
  have hcheck : ((Session.start (.ofLimit none)).check "{var a; fun f() {print a;} f();}").1 =
      .ok [.block [.varDecl ⟨"a", 1⟩ none,
        .funDecl ⟨⟨"f", 1⟩, [], [.print (.varRef ⟨0, ⟨"a", 1⟩⟩)]⟩,
        .expression (.call (.varRef ⟨1, ⟨"f", 1⟩⟩) [] 1)]] := by cbv
  exact ⟨hcheck, (Session.run_lexical _ (.ofLimit none) hcheck).2⟩

end Lox
