/-
Numbers as text.

* `Numeral.text` writes a decimal without an exponent and without zeros that end
  a fraction: `120`, `0.5`, `1000000000000000000000`;
* `text` writes any double: the shortest decimal that reads back, `-` in front
  of negative ones (`-0` included), `NaN`, and an infinity in the spelling that
  the caller asks for;
* `read` is the double nearest to a literal `whole.fraction`.
-/
import Lox.Decimal.Shortest

namespace Lox.Decimal

/-- The text `s` after zeros that bring it to `width` characters. -/
def padZeros (width : Nat) (s : String) : String :=
  String.ofList (List.replicate (width - s.length) '0') ++ s

/-- The text without the zeros at its end. -/
def dropEndZeros (s : String) : String :=
  String.ofList (s.toList.reverse.dropWhile (· = '0')).reverse

/-- Positional notation. -/
def Numeral.text (d : Numeral) : String :=
  if d.places ≤ 0 then
    toString (d.coefficient * Nat.pow 10 (-d.places).toNat)
  else
    let places := d.places.toNat
    let whole := toString (d.coefficient / Nat.pow 10 places)
    let fraction := dropEndZeros (padZeros places (toString (d.coefficient % Nat.pow 10 places)))
    if fraction = "" then whole else whole ++ "." ++ fraction

/-- The magnitude of a finite double in positional notation. -/
def magnitudeText (bits : UInt64) : String :=
  let d := Dyadic.ofBits bits
  if d.significand = 0 then "0" else d.shortest.text

/-- The text of a double, an infinity being spelled `infinity`. -/
def text (infinity : String) (x : Float) : String :=
  let bits := x.toBits
  let sign := if bits.toNat < Nat.pow 2 63 then "" else "-"
  if bits.toNat / Nat.pow 2 52 % Nat.pow 2 11 = Nat.pow 2 11 - 1 then
    if bits.toNat % Nat.pow 2 52 = 0 then sign ++ infinity else "NaN"
  else
    sign ++ magnitudeText bits

/-- Is the character one of `0` to `9`? -/
def isDigit (c : Char) : Bool :=
  '0' ≤ c && c ≤ '9'

/-- The number that a run of digits denotes. -/
def digitsValue (digits : List Char) : Nat :=
  digits.foldl (fun n c => 10 * n + (c.toNat - '0'.toNat)) 0

/-- The double nearest to `whole.fraction`, infinite when no finite one is near
enough. -/
def read (whole fraction : List Char) : Float :=
  Float.ofScientific (digitsValue (whole ++ fraction)) true fraction.length

end Lox.Decimal
