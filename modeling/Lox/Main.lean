/-
The program: `run`, `tokens` and `ast` with the name of a script, or `repl`.

Everything that is written is computed in `Lox.CommandLine`; here it is only read
and written.
-/
import Std.Time.DateTime.Timestamp
import Lox.CommandLine

namespace Lox

/-- The real call limit, and a clock that starts now and gains a microsecond with
every reading. -/
def currentHost : IO Host := do
  let now ← Std.Time.Timestamp.now
  let start := Float.ofInt now.toNanosecondsSinceUnixEpoch.val / 1e9
  return ⟨some maxCallDepth, fun reading => start + reading.toFloat / 1e6⟩

/-- Reads a file. -/
def readScript (name : String) : IO ScriptFile := do
  try
    return .contents (← IO.FS.readBinFile name)
  catch
    | .noFileOrDirectory .. => return .missing
    | error => return .unreadable error.toString

/-- Writes a report and gives its exit code. -/
def writeReport (report : Report) : IO UInt32 := do
  IO.print report.stdout
  IO.eprint report.stderr
  return report.code.toUInt32

/-- Runs lines as they are typed. -/
partial def interact (host : Host) (session : Session) : IO UInt32 := do
  IO.print Repl.prompt
  (← IO.getStdout).flush
  let line ← try some <$> (← IO.getStdin).getLine catch _ => pure none
  let turn := Repl.turn host plentyOfFuel session line
  IO.print turn.stdout
  IO.eprint turn.stderr
  match turn.next with
  | .ok session => interact host session
  | .error code => return code.toUInt32

end Lox

open Lox in
/-- The entry of the program. -/
def main (arguments : List String) : IO UInt32 := do
  let host ← currentHost
  match (Command.ofName? (arguments.headD "")), arguments.tail with
  | some .repl, [] =>
    IO.print Repl.banner
    interact host (.start (.ofLimit none))
  | some command, [name] =>
    let file ← readScript name
    writeReport (command.report host plentyOfFuel name file .empty)
  | _, _ =>
    IO.eprintln "usage: lox [run FILE | tokens FILE | ast FILE | repl]"
    return 2
