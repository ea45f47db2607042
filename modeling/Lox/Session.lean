/-
Sessions: sources that are run one after the other on one machine.

Global variables, closures and the ids of references last as long as the session.
A source that is only parsed, or that is faulty, uses up ids and leaves the
machine as it is (`Session.machine_run_of_faults`).

Ids are counted with 32 bits.  `Session.runWrapped` runs a source with the ids that
are handed out then, some of them for the second time if there were very many;
`Session.run` runs it as if there were no last id.
-/
import Lox.Evaluation
import Lox.Source
import Lox.Syntax.Declaration
import Lox.Syntax.Relabelling

namespace Lox

/-- Why a source was not run, or not to its end. -/
inductive Failure where
  | faulty (diagnostics : List Diagnostic)
  | aborted (reason : Abort)

/-- The words of an abort. -/
def Abort.message : Abort → String
  | runtime error line => error.message ++ "\n[line " ++ toString line ++ "]"
  | sinkFull => "IO error: sink full"
  | dangling => "A binding is missing."
  | outOfFuel => "Out of fuel."

/-- The words of a failure. -/
def Failure.message : Failure → String
  | faulty diagnostics => Diagnostic.report diagnostics
  | aborted reason => reason.message

/-- The exit code of a process that ends with this failure. -/
def Failure.exitCode : Failure → Nat
  | faulty _ => 65
  | aborted .sinkFull => 74
  | aborted _ => 70

/-- What a run printed, and why it failed if it did. -/
structure Outcome where
  output : ByteArray
  failure : Option Failure

/-- The text of printed bytes.  A character that was cut off at the end is shown
as U+FFFD. -/
def outputText (bytes : ByteArray) : String :=
  let whole? (missing : Nat) : Option String :=
    (String.fromUTF8? (bytes.extract 0 (bytes.size - missing))).map fun text =>
      if missing = 0 then text else text ++ "\ufffd"
  ([0, 1, 2, 3].findSome? whole?).getD ""

/-- What a run printed, as text. -/
def Outcome.text (outcome : Outcome) : String :=
  outputText outcome.output

/-- Runs a program on a machine.  The output is what this run prints. -/
def Machine.run (host : Host) (fuel : Nat) (machine : Machine) (program : Program) :
    Outcome × Machine :=
  let prepared := { machine with
    distances := machine.distances.extend program.distances
    sink := { machine.sink with written := .empty } }
  match Exec.runProgram host fuel program prepared with
  | .ok _ final => (⟨final.sink.written, none⟩, final)
  | .error abort final => (⟨final.sink.written, some (.aborted abort)⟩, final)

/-- Runs one program several times, every time on a new machine if `fresh` holds.
All runs share the room of the sink. -/
def Machine.runTimes (host : Host) (fuel : Nat) (fresh : Bool) (program : Program) :
    Nat → Machine → List Outcome
  | 0, _ => []
  | times + 1, machine =>
    let (outcome, machine) := machine.run host fuel program
    let next := if fresh then .initial machine.sink else machine
    outcome :: next.runTimes host fuel fresh program times

/-- More nesting and more iterations than any run gets to. -/
def plentyOfFuel : Nat := Nat.pow 2 60

/-- The number of ids.  After the last one the first one is handed out again. -/
def idCount : Nat := Nat.pow 2 32

/-- The program with the ids that its references really have. -/
def Program.wrapIds (program : Program) : Program :=
  program.relabel (.ids (· % idCount))

/-- A machine, and the number of ids that were handed out. -/
structure Session where
  machine : Machine
  nextId : Nat

namespace Session

/-- A session in which nothing was run. -/
def start (sink : Sink) : Session :=
  ⟨.initial sink, 0⟩

/-- Reads a source: a program, or what is wrong with its tokens or its syntax. -/
def parse (session : Session) (source : String) : Except (List Diagnostic) Program × Session :=
  let stream := TokenStream.ofSource source
  let reading := Program.read session.nextId stream.tokens
  let diagnostics := stream.diagnostics ++ reading.diagnostics
  (if diagnostics = [] then .ok reading.program else .error diagnostics,
    { session with nextId := reading.nextId })

/-- Reads a source and checks the use of names in it. -/
def check (session : Session) (source : String) : Except (List Diagnostic) Program × Session :=
  let (parsed, session) := session.parse source
  (parsed.bind Program.checked, session)

/-- Runs what was made of a source, if it was accepted. -/
def runChecked (host : Host) (fuel : Nat) (session : Session)
    (checked : Except (List Diagnostic) Program) : Outcome × Session :=
  match checked with
  | .ok program =>
    let (outcome, machine) := session.machine.run host fuel program
    (outcome, { session with machine := machine })
  | .error diagnostics => (⟨.empty, some (.faulty diagnostics)⟩, session)

/-- Reads, checks and runs a source. -/
def run (host : Host) (fuel : Nat) (session : Session) (source : String) : Outcome × Session :=
  let (checked, session) := session.check source
  session.runChecked host fuel checked

/-! ### Ids that come round again -/

/-- Like `parse`, for ids that come round again. -/
def parseWrapped (session : Session) (source : String) :
    Except (List Diagnostic) Program × Session :=
  let (parsed, session) := session.parse source
  (parsed.map Program.wrapIds, session)

/-- Like `check`, for ids that come round again. -/
def checkWrapped (session : Session) (source : String) :
    Except (List Diagnostic) Program × Session :=
  let (parsed, session) := session.parseWrapped source
  (parsed.bind Program.checked, session)

/-- Like `run`, for ids that come round again. -/
def runWrapped (host : Host) (fuel : Nat) (session : Session) (source : String) :
    Outcome × Session :=
  let (checked, session) := session.checkWrapped source
  session.runChecked host fuel checked

/-! ### Machines -/

@[simp] theorem machine_parse (session : Session) (source : String) :
    (session.parse source).2.machine = session.machine := rfl

@[simp] theorem machine_check (session : Session) (source : String) :
    (session.check source).2.machine = session.machine := rfl

/-- A source with faults leaves the machine as it is. -/
theorem machine_run_of_faults {host : Host} {fuel : Nat} {session : Session} {source : String}
    {diagnostics : List Diagnostic} (h : (session.check source).1 = .error diagnostics) :
    (session.run host fuel source).2.machine = session.machine := by
  have hm := machine_check session source
  unfold run
  generalize session.check source = checked at h hm
  obtain ⟨result, next⟩ := checked
  cases h
  exact hm

end Session

end Lox
