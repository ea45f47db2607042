/-
The command line: what each command writes and the code it exits with.

* `run` runs a script, `tokens` lists its tokens, `ast` prints its tree;
* `repl` runs every line of its input in one session.

A command that reads a script exits with 66 if there is no text to read.
-/
import Lox.Session
import Lox.Syntax.Text

namespace Lox

/-- What a process writes, and the code it exits with. -/
structure Report where
  stdout : String
  stderr : String
  code : Nat
  deriving DecidableEq, Repr

/-- Commands. -/
inductive Command where
  | run | tokens | ast | repl
  deriving DecidableEq, Repr

/-- The command with the given name; without a name it is `repl`. -/
def Command.ofName? (name : String) : Option Command :=
  match name with
  | "run" => some run
  | "tokens" => some tokens
  | "ast" => some ast
  | "repl" => some repl
  | "" => some repl
  | _ => none

/-- What bytes that are no text are called. -/
def notText : String :=
  "stream did not contain valid UTF-8"

/-- What came of reading a file. -/
inductive ScriptFile where
  | unreadable (reason : String)
  | contents (bytes : ByteArray)

/-- A file that does not exist. -/
def ScriptFile.missing : ScriptFile :=
  .unreadable "No such file or directory (os error 2)"

/-- The text of a file, or the reason why it has none. -/
def ScriptFile.text : ScriptFile → Except String String
  | unreadable reason => .error reason
  | contents bytes =>
    match String.fromUTF8? bytes with
    | some text => .ok text
    | none => .error notText

/-- The text with spaces in front that bring it to `width` characters. -/
def padLeft (width : Nat) (text : String) : String :=
  String.ofList (List.replicate (width - text.length) ' ') ++ text

/-- The text with spaces behind that bring it to `width` characters. -/
def padRight (width : Nat) (text : String) : String :=
  text ++ String.ofList (List.replicate (width - text.length) ' ')

/-- One line per token.  The number of the source line stands only before the
first token that ends on it; `previous` is the line of the token before. -/
def listing : Nat → List Token → String
  | _, [] => ""
  | previous, token :: tokens =>
    let margin := if token.line = previous then "   | " else padLeft 4 (toString token.line) ++ " "
    margin ++ padRight 16 token.kind.text ++ " " ++ token.lexeme ++ "\n" ++
      listing token.line tokens

namespace Report

/-- The report of a command that cannot read its script. -/
def unreadable (name reason : String) : Report :=
  ⟨"", "Could not read '" ++ name ++ "': " ++ reason ++ "\n", 66⟩

/-- The report of a run. -/
def ofOutcome (outcome : Outcome) : Report :=
  match outcome.failure with
  | none => ⟨outcome.text, "", 0⟩
  | some failure => ⟨outcome.text, failure.message ++ "\n", failure.exitCode⟩

/-- Output, and exit code 65 if there are diagnostics. -/
def ofDiagnostics (stdout : String) (diagnostics : List Diagnostic) : Report :=
  if diagnostics = [] then ⟨stdout, "", 0⟩
  else ⟨stdout, Diagnostic.report diagnostics ++ "\n", 65⟩

/-- Runs a script. -/
def ofRun (host : Host) (fuel : Nat) (source : String) : Report :=
  ofOutcome ((Session.start (.ofLimit none)).runWrapped host fuel source).1

/-- Lists the tokens of a script, also if some of its text is bad. -/
def ofTokens (source : String) : Report :=
  let stream := TokenStream.ofSource source
  ofDiagnostics (listing 0 stream.tokens) stream.diagnostics

/-- Prints the tree of a script, one statement per line. -/
def ofTree (source : String) : Report :=
  match ((Session.start (.ofLimit none)).parse source).1 with
  | .ok program => ofDiagnostics (String.join (program.map fun s => s.text ++ "\n")) []
  | .error diagnostics => ofDiagnostics "" diagnostics

end Report

namespace Repl

/-- What is written before the first prompt. -/
def banner : String :=
  "Welcome to the Lox REPL!\nEOF to exit. (Ctrl+D on *nix, Ctrl+Z on Windows)\n"

/-- What is written before a line is read. -/
def prompt : String :=
  "> "

/-- What a line of input brings about: text to write, and the session to go on
with or the code to exit with. -/
structure Turn where
  stdout : String
  stderr : String
  next : Except Nat Session

/-- Runs one line.  An empty line, without even a newline, is the end of the
input; none stands for bytes that are no text. -/
def turn (host : Host) (fuel : Nat) (session : Session) : Option String → Turn
  | none => ⟨"", notText ++ "\n", .error 74⟩
  | some line =>
    if line = "" then
      ⟨"", "", .error 0⟩
    else
      let (outcome, session) := session.runWrapped host fuel line
      let report := Report.ofOutcome outcome
      ⟨report.stdout, report.stderr, .ok session⟩

/-- Splits bytes into lines, each with the newline that ends it. -/
def lines : List UInt8 → List (List UInt8)
  | [] => []
  | byte :: bytes =>
    if byte = '\n'.toUInt8 then
      [byte] :: lines bytes
    else
      match lines bytes with
      | [] => [[byte]]
      | line :: others => (byte :: line) :: others

/-- Runs line after line until the input ends. -/
def runLines (host : Host) (fuel : Nat) (session : Session) : List (List UInt8) → Report
  | [] => ⟨prompt, "", 0⟩
  | line :: others =>
    let turn := turn host fuel session (String.fromUTF8? ⟨line.toArray⟩)
    match turn.next with
    | .error code => ⟨prompt ++ turn.stdout, turn.stderr, code⟩
    | .ok session =>
      let report := runLines host fuel session others
      ⟨prompt ++ turn.stdout ++ report.stdout, turn.stderr ++ report.stderr, report.code⟩

/-- A whole interactive session on the given input. -/
def report (host : Host) (fuel : Nat) (input : ByteArray) : Report :=
  let report := runLines host fuel (.start (.ofLimit none)) (lines input.toList)
  { report with stdout := banner ++ report.stdout }

end Repl

/-- What a command writes for a script of the given name; `repl` reads `input`
instead. -/
def Command.report (host : Host) (fuel : Nat) (name : String) (file : ScriptFile)
    (input : ByteArray) (command : Command) : Report :=
  match command, file.text with
  | .repl, _ => Repl.report host fuel input
  | _, .error reason => .unreadable name reason
  | .run, .ok source => .ofRun host fuel source
  | .tokens, .ok source => .ofTokens source
  | .ast, .ok source => .ofTree source

end Lox
