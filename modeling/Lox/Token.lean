/-
Tokens: the words of a program.

* `Symbol` and `Keyword` are the fixed words, each with its text;
* `Token.Kind` adds identifiers, strings, numbers and the end of the file;
* a `Token` is a kind with the text it was read from (`lexeme`) and the line on
  which that text ends.
-/
import Lox.Decimal.Text
import Lox.Diagnostic

namespace Lox

/-- Punctuation and operators. -/
inductive Symbol where
  | leftParen | rightParen | leftBrace | rightBrace
  | comma | dot | minus | plus | semicolon | slash | star
  | bang | bangEqual | equal | equalEqual
  | greater | greaterEqual | less | lessEqual
  deriving DecidableEq, Repr

namespace Symbol

/-- Every symbol. -/
def all : List Symbol :=
  [leftParen, rightParen, leftBrace, rightBrace, comma, dot, minus, plus, semicolon, slash, star,
    bang, bangEqual, equal, equalEqual, greater, greaterEqual, less, lessEqual]

/-- The text of a symbol. -/
def text : Symbol → String
  | leftParen => "("
  | rightParen => ")"
  | leftBrace => "\x7b"
  | rightBrace => "\x7d"
  | comma => ","
  | dot => "."
  | minus => "-"
  | plus => "+"
  | semicolon => ";"
  | slash => "/"
  | star => "*"
  | bang => "!"
  | bangEqual => "!="
  | equal => "="
  | equalEqual => "=="
  | greater => ">"
  | greaterEqual => ">="
  | less => "<"
  | lessEqual => "<="

theorem mem_all (s : Symbol) : s ∈ all := by
  cases s <;> decide

theorem toList_text_ne_nil (s : Symbol) : s.text.toList ≠ [] := by
  cases s <;> decide

end Symbol

/-- Reserved words. -/
inductive Keyword where
  | and | cls | else | false | fun | for | if | nil
  | or | print | return | super | this | true | var | while
  deriving DecidableEq, Repr

namespace Keyword

/-- Every keyword. -/
def all : List Keyword :=
  [.and, .cls, .else, .false, .fun, .for, .if, .nil,
    .or, .print, .return, .super, .this, .true, .var, .while]

/-- The text of a keyword. -/
def text : Keyword → String
  | .and => "and"
  | .cls => "class"
  | .else => "else"
  | .false => "false"
  | .fun => "fun"
  | .for => "for"
  | .if => "if"
  | .nil => "nil"
  | .or => "or"
  | .print => "print"
  | .return => "return"
  | .super => "super"
  | .this => "this"
  | .true => "true"
  | .var => "var"
  | .while => "while"

theorem mem_all (k : Keyword) : k ∈ all := by
  cases k <;> decide

/-- The keyword with the given text. -/
def ofText? (text : String) : Option Keyword :=
  all.find? (·.text = text)

end Keyword

/-- What a token is. -/
inductive Token.Kind where
  | symbol (symbol : Symbol)
  | keyword (keyword : Keyword)
  | identifier
  | string (text : String)
  | number (value : Float)
  | endOfFile
  deriving DecidableEq

/-- How a token kind is shown to a person. -/
def Token.Kind.text : Token.Kind → String
  | .symbol s => s.text
  | .keyword k => k.text
  | .identifier => "identifier"
  | .string s => "string \"" ++ s ++ "\""
  | .number x => "number " ++ Decimal.text "inf" x
  | .endOfFile => "end of file"

/-- A word of a source text. -/
structure Token where
  kind : Token.Kind
  lexeme : String
  line : Nat
  deriving DecidableEq

/-- Where a diagnostic about this token points. -/
def Token.location (t : Token) : Location :=
  if t.kind = .endOfFile then .atEnd else .token t.lexeme

end Lox
