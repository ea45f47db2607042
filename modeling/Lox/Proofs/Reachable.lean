/-
Reachable sessions, and the machine that a program starts on.

* `Session.Reachable` — the sessions after any runs and parses, whatever became of
  them;
* `Session.ReachableWrapped` — those of them in which ids come round again;
* `Machine.prepared` — a machine that knows the distances of a program.
-/
import Lox.Session

namespace Lox

/-- Why a run stopped early, if its source was accepted. -/
def Failure.abort? : Failure → Option Abort
  | faulty _ => none
  | aborted reason => some reason

/-- A machine with the distances of a program, which has printed nothing for it yet. -/
def Machine.prepared (machine : Machine) (program : Program) : Machine :=
  { machine with
    distances := machine.distances.extend program.distances
    sink := { machine.sink with written := .empty } }

/-- What a run of a program is seen to do. -/
def Machine.outcome : EStateM.Result Abort Machine Unit → Outcome × Machine
  | .ok _ final => (⟨final.sink.written, none⟩, final)
  | .error abort final => (⟨final.sink.written, some (.aborted abort)⟩, final)

theorem Machine.run_eq (host : Host) (fuel : Nat) (machine : Machine) (program : Program) :
    machine.run host fuel program =
      Machine.outcome (Exec.runProgram host fuel program (machine.prepared program)) := by
  show (match Exec.runProgram host fuel program (machine.prepared program) with
    | .ok _ final => _
    | .error abort final => _) = _
  cases Exec.runProgram host fuel program (machine.prepared program) <;> rfl

namespace Session

variable {host : Host} {session : Session} {source : String} {p : Program}

/-- The sessions that can be reached. -/
inductive Reachable (host : Host) : Session → Prop
  | start (sink : Sink) : Reachable host (.start sink)
  | parse {session : Session} (h : Reachable host session) (source : String) :
    Reachable host (session.parse source).2
  | run {session : Session} (h : Reachable host session) (fuel : Nat) (source : String) :
    Reachable host (session.run host fuel source).2

/-- The sessions that can be reached when ids come round again. -/
inductive ReachableWrapped (host : Host) : Session → Prop
  | start (sink : Sink) : ReachableWrapped host (.start sink)
  | parse {session : Session} (h : ReachableWrapped host session) (source : String) :
    ReachableWrapped host (session.parseWrapped source).2
  | run {session : Session} (h : ReachableWrapped host session) (fuel : Nat) (source : String) :
    ReachableWrapped host (session.runWrapped host fuel source).2

/-- An accepted source is run. -/
theorem run_of_check (fuel : Nat) (h : (session.check source).1 = .ok p) :
    session.run host fuel source =
      ((session.machine.run host fuel p).1,
        ⟨(session.machine.run host fuel p).2, (session.check source).2.nextId⟩) := by
  have hmachine := machine_check session source
  unfold run
  generalize session.check source = checked at h hmachine ⊢
  obtain ⟨result, next⟩ := checked
  dsimp only at h hmachine ⊢
  rw [h, ← hmachine]
  rfl

/-- A source with faults is not run. -/
theorem run_of_faults (fuel : Nat) {diagnostics : List Diagnostic}
    (h : (session.check source).1 = .error diagnostics) :
    session.run host fuel source =
      (⟨.empty, some (.faulty diagnostics)⟩, (session.check source).2) := by
  unfold run
  generalize session.check source = checked at h ⊢
  obtain ⟨result, next⟩ := checked
  dsimp only at h ⊢
  rw [h]
  rfl

end Session

end Lox
