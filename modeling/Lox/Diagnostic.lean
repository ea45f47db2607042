/-
Diagnostics: what is wrong with a source text, and where.

A `Diagnostic` has a line, a location on it and a message.  Its text is
`[line N] Error: m`, `[line N] Error at end: m` or `[line N] Error at 'x': m`;
several are written one per line.
-/

namespace Lox

/-- The part of the line that a diagnostic points at: nothing in particular, the
end of the input, or the token with the given text. -/
inductive Location where
  | line
  | atEnd
  | token (lexeme : String)
  deriving DecidableEq, Repr

/-- The words that follow `Error` in the text of a diagnostic. -/
def Location.text : Location → String
  | .line => ""
  | .atEnd => " at end"
  | .token lexeme => " at '" ++ lexeme ++ "'"

/-- A fault found before a program runs. -/
structure Diagnostic where
  line : Nat
  location : Location
  message : String
  deriving DecidableEq, Repr

/-- The text of one diagnostic. -/
def Diagnostic.text (d : Diagnostic) : String :=
  "[line " ++ toString d.line ++ "] Error" ++ d.location.text ++ ": " ++ d.message

/-- The texts of several diagnostics, one per line, without a newline at the end. -/
def Diagnostic.report (ds : List Diagnostic) : String :=
  String.intercalate "\n" (ds.map Diagnostic.text)

end Lox
