/-
No two references of a session share an id, and what is found for a reference lasts.

All readers count on where the one before them stopped, whether their sources are
accepted or not.  So the distances of a new program are put under ids that the table does
not have, and a function that was made long ago finds its names as its own source says.

* `Session.numbered_readings` — all programs that are read in a session have different ids;
* `Lawful.written` — the functions of the store are written in programs that were run;
* `Session.ids_distinct` — ids never collide, and distances that are known never change.
-/
import Mathlib
import Lox.Proofs.Homes.Sessions

namespace Lox

open Homes

/-! ### Functions in the store -/

/-- The value is the function, or a class that has or inherits the method. -/
def Value.Holds (f : Closure ScopeAddress) : Datum → Prop
  | .function _ g => g = f
  | .classObject c => ∃ d ∈ c.lineage, ∃ name, d.methods.find? name = some f
  | _ => False

/-- A scope, the class of an instance or one of its fields holds the function. -/
inductive Store.Holds (store : Store) (f : Closure ScopeAddress) : Prop
  | binding {scope name value} (hvalue : store.lookup scope name = some value)
    (h : value.Holds f)
  | method {address : InstanceAddress} {target} (htarget : store.instances[address]? = some target)
    (h : Value.Holds f (.classObject target.cls))
  | field {address : InstanceAddress} {target name value}
    (htarget : store.instances[address]? = some target)
    (hvalue : target.fields.find? name = some value) (h : value.Holds f)

/-- The function is written in one of the programs; and in each one in which it is written
the distances of its references were found that the table has for them. -/
def FunctionDecl.Recorded (decl : FunctionDecl) (programs : List Program) (table : Distances) :
    Prop :=
  (∃ p ∈ programs, .function decl ∈ Stmt.textsEach p) ∧
    ∀ p ∈ programs, .function decl ∈ Stmt.textsEach p →
      ∀ mention ∈ decl.mentions, table.Records p mention.id

/-- The machine knows what was found for the functions that it holds. -/
def Machine.Recorded (programs : List Program) (m : Machine) : Prop :=
  ∀ f, m.store.Holds f → f.decl.Recorded programs m.distances

variable {b : Basis} {m : Machine} {f : Closure ScopeAddress}

theorem Closure.Settled.written {store : Store} (h : f.Settled b store) :
    .function f.decl ∈ b.texts :=
  h.1 f.decl.mem_texts_self

theorem Value.Settled.written {store : Store} {value : Datum} (h : value.Settled b store)
    (hf : value.Holds f) : .function f.decl ∈ b.texts := by
  cases value with
  | function id g =>
    cases hf
    exact Closure.Settled.written h
  | classObject c =>
    obtain ⟨d, hd, name, hmethod⟩ := hf
    exact ((h d hd).method hmethod).1 f.decl.mem_texts_self
  | _ => cases hf

/-- What a lawful machine holds is written. -/
theorem Lawful.written (h : Lawful b m) (hf : m.store.Holds f) : .function f.decl ∈ b.texts := by
  cases hf with
  | binding hvalue hf => exact (h.values _ _ _ hvalue).written hf
  | @method address target htarget hf =>
    have hcls : Value.Settled b m.store (.classObject target.cls) := (h.instances _ _ htarget).cls
    exact hcls.written hf
  | field htarget hvalue hf => exact ((h.instances _ _ htarget).fields _ _ hvalue).written hf

/-- What is recorded for the mentions of programs is so for the functions in them. -/
theorem FunctionDecl.recorded_of_written {decl : FunctionDecl} {programs : List Program}
    {table : Distances}
    (h : ∀ p ∈ programs, ∀ mention ∈ Stmt.mentionsEach p, table.Records p mention.id)
    (hwritten : .function decl ∈ programs.flatMap Stmt.textsEach) :
    decl.Recorded programs table := by
  refine ⟨List.mem_flatMap.mp hwritten, fun p hp hdecl mention hmention => ?_⟩
  exact h p hp mention (Stmt.mentionsEach_of_mem_texts p hdecl hmention)

namespace Session

variable {host : Host} {session : Session} {programs : List Program} {p : Program}
  {source : String}

/-! ### Ids -/

/-- A step goes on after the ids of what it reads. -/
theorem nextId_take (session : Session) (step : Step) :
    (session.take host step).2.nextId = (session.reading step).nextId := by
  cases step with
  | parse source => rfl
  | run fuel source =>
    show (session.run host fuel source).2.nextId = (session.parse source).2.nextId
    cases hcheck : (session.check source).1 with
    | ok p =>
      rw [run_of_check fuel hcheck]
      exact nextId_check session source
    | error diagnostics =>
      rw [run_of_faults fuel hcheck]
      exact nextId_check session source

theorem numbered_reading (session : Session) (step : Step) :
    Numbered session.nextId (session.take host step).2.nextId
      (Stmt.mentionsEach (session.reading step).program) := by
  rw [nextId_take]
  exact Program.read_numbered _ _

/-- All that is read in a session is numbered on and on. -/
theorem numbered_readings (session : Session) (steps : List Step) :
    Numbered session.nextId (session.after host steps).nextId
      ((session.readings host steps).flatMap fun reading =>
        Stmt.mentionsEach reading.program) := by
  induction steps generalizing session with
  | nil => exact .nil (Nat.le_refl _)
  | cons step steps ih => exact (session.numbered_reading step).append (ih _)

/-- The programs that are run are among those that are read. -/
theorem programs_subset (session : Session) (steps : List Step) :
    session.programs host steps ⊆ (session.readings host steps).map Reading.program := by
  induction steps generalizing session with
  | nil => exact List.Subset.refl _
  | cons step steps ih =>
    have hfirst : ∀ p ∈ (session.accepted? step).toList, p = (session.reading step).program := by
      intro p hp
      rw [Option.mem_toList] at hp
      cases step with
      | parse source => cases hp
      | run fuel source =>
        cases hcheck : (session.check source).1 with
        | ok q =>
          rw [accepted?, hcheck] at hp
          cases hp
          exact (check_eq_ok_iff.mp hcheck).2.2.1.symm
        | error diagnostics =>
          rw [accepted?, hcheck] at hp
          cases hp
    intro p hp
    rw [readings, List.map_cons]
    rcases List.mem_append.mp hp with hp | hp
    · rw [hfirst p hp]
      exact List.mem_cons_self
    · exact List.mem_cons_of_mem _ (ih _ hp)

/-! ### Distances -/

/-- The distances of a program are put into the table one after the other, and the table
does not have an id before its turn. -/
theorem Upright.new_ids (h : Upright programs session) (hcheck : (session.check source).1 = .ok p)
    {before after : List (Nat × Nat)} {id distance : Nat}
    (hsplit : p.distances = before ++ (id, distance) :: after) :
    (session.machine.distances.extend before)[id]? = none := by
  have hnumbered := check_numbered hcheck
  have hfound : .distance id distance ∈ p.findings := by
    rw [← mem_distances, hsplit]
    exact List.mem_append_right _ List.mem_cons_self
  -- neither the distances before it nor the older table have the id
  have hlater : id ∉ before.map Prod.fst := by
    have hnodup := nodup_distances hnumbered
    rw [hsplit, List.map_append, List.nodup_append] at hnodup
    exact fun hmem => hnodup.2.2 id hmem id List.mem_cons_self rfl
  have hcontains : (before.map Prod.fst).contains id = false := by
    rw [Bool.eq_false_iff, ne_eq, List.contains_iff_mem]
    exact hlater
  rw [Distances.extend, Std.TreeMap.getElem?_insertMany_list_of_contains_eq_false hcontains]
  obtain ⟨mention, hmention, rfl⟩ := (Stmt.coversEach p .topLevel).mem hfound
  exact h.below mention.id (hnumbered.range mention hmention).1

/-- Between two steps the machine knows what was found for all functions that it holds. -/
theorem Upright.machine_recorded (h : Upright programs session) :
    session.machine.Recorded programs :=
  fun _ hf => FunctionDecl.recorded_of_written
    (fun p hp mention hmention => (h.recorded p hp mention hmention).2) (h.lawful.written hf)

/-- So it does while an accepted program is run. -/
theorem Upright.always_recorded (h : Upright programs session)
    (hcheck : (session.check source).1 = .ok p) (fuel : Nat) :
    Exec.Always host fuel p (session.machine.prepared p) fun m moment =>
      m.Recorded (programs ++ [p]) ∧
        ∀ f, moment = .enter f → f.decl.Recorded (programs ++ [p]) m.distances := by
  refine h.always host hcheck fun m moment => ?_
  intro last b hlawful _ hfits
  have hrecorded : ∀ q ∈ programs ++ [p], ∀ mention ∈ Stmt.mentionsEach q,
      m.distances.Records q mention.id := by
    intro q hq mention hmention
    rw [hlawful.table]
    exact (h.recorded_extend hcheck q hq mention hmention).2
  refine ⟨fun f hf => FunctionDecl.recorded_of_written hrecorded (hlawful.written hf),
    fun f heq => ?_⟩
  subst heq
  exact FunctionDecl.recorded_of_written hrecorded (Closure.Settled.written hfits)

variable (host)

/-- The mentions in all programs that are read by the steps of a session, of faulty sources
too, have different ids, those of the next step from the next free id before it on and
below the one after it.  So the distances of an accepted program never replace others, and
for every function that the machine holds, at rest or while a program is run, it knows the
distances that were found in the program in which the function is written. -/
theorem ids_distinct (sink : Sink) (steps : List Step) :
    let session := (start sink).after host steps
    let programs := (start sink).programs host steps
    Numbered 0 session.nextId (((start sink).readings host steps).flatMap fun reading =>
        Stmt.mentionsEach reading.program) ∧
      programs ⊆ ((start sink).readings host steps).map Reading.program ∧
      (∀ step, Numbered session.nextId (session.take host step).2.nextId
        (Stmt.mentionsEach (session.reading step).program)) ∧
      session.machine.Recorded programs ∧
      ∀ source p, (session.check source).1 = .ok p →
        (∀ before id distance after, p.distances = before ++ (id, distance) :: after →
          (session.machine.distances.extend before)[id]? = none) ∧
        ∀ fuel, Exec.Always host fuel p (session.machine.prepared p) fun m moment =>
          m.Recorded (programs ++ [p]) ∧
            ∀ f, moment = .enter f → f.decl.Recorded (programs ++ [p]) m.distances := by
  intro session programs
  have h : Upright programs session := upright_after host sink steps
  refine ⟨(start sink).numbered_readings steps, programs_subset _ steps,
    fun step => session.numbered_reading step, h.machine_recorded, fun source p hcheck =>
      ⟨fun before id distance after hsplit => ?_, ?_⟩⟩
  · exact h.new_ids hcheck hsplit
  · exact h.always_recorded hcheck

/-- The third reference of a session, after a source that was only parsed and one that was
rejected, and the function that it is in. -/
theorem ids_distinct_after_rejection :
    let host : Host := ⟨some maxCallDepth, fun _ => 0⟩
    let steps : List Step := [.parse "a;", .run 10 "return a;"]
    let session := (start (.ofLimit none)).after host steps
    let f : FunctionDecl := ⟨⟨"f", 1⟩, [], [.expression (.varRef ⟨2, ⟨"b", 1⟩⟩)]⟩
    let program : Program := [.block [.varDecl ⟨"b", 1⟩ none, .funDecl f]]
    (session.check "{var b; fun f() {b;}}").1 = .ok program ∧
      program.distances = [] ++ (2, 1) :: [] ∧
      (session.machine.distances.extend [])[2]? = none ∧
      ∀ fuel, Exec.Always host fuel program (session.machine.prepared program) fun m moment =>
        m.Recorded [program] ∧
          ∀ f, moment = .enter f → f.decl.Recorded [program] m.distances := by
  intro host steps session f program
  have hcheck : (session.check "{var b; fun f() {b;}}").1 = .ok program := by
    simp only [session, host, program, steps, f]
    cbv
  have hdistances : program.distances = [] ++ (2, 1) :: [] := by
    simp only [program, f]
    cbv
  have hprograms : (start (.ofLimit none)).programs host steps = [] := by
    simp only [host, steps]
    cbv
  obtain ⟨-, -, -, -, h⟩ := ids_distinct host (.ofLimit none) steps
  obtain ⟨hnew, halways⟩ := h _ program hcheck
  rw [hprograms, List.nil_append] at halways
  exact ⟨hcheck, hdistances, hnew [] 2 1 [] hdistances, halways⟩

end Session

end Lox
