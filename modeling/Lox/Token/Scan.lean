/-
The longest token at the front of a text.

A recogniser looks at the front of a text and answers with a `Front`: the value
it read, the characters it took and the characters it left.  `scan` runs one
recogniser per symbol, one for words, one for strings and one for numbers, and
keeps the longest match:

* `scan_append` — what was taken and what was left are the whole text;
* `scan_text_ne_nil` — something is taken from a text that is not empty.
-/
import Lox.Token

namespace Lox

/-- A value read from the front of a text, with the characters it was read from
and those that follow. -/
structure Front (α : Type) where
  value : α
  text : List Char
  rest : List Char

/-- What can be wrong with the characters at the front of a text. -/
inductive LexicalError where
  | unexpectedCharacter (found : Char)
  | unterminatedString
  deriving DecidableEq, Repr

/-- The words of a lexical error. -/
def LexicalError.message : LexicalError → String
  | .unexpectedCharacter _ => "Unexpected character."
  | .unterminatedString => "Unterminated string."

namespace Token

/-- Does a name start with this character? -/
def startsName (c : Char) : Bool :=
  ('a' ≤ c && c ≤ 'z') || ('A' ≤ c && c ≤ 'Z') || c = '_'

/-- May a name go on with this character? -/
def continuesName (c : Char) : Bool :=
  startsName c || Decimal.isDigit c

/-- Reads exactly the text of a symbol. -/
def recognizeSymbol (s : Symbol) (source : List Char) : Option (Front Kind) :=
  if s.text.toList.isPrefixOf source then
    some ⟨.symbol s, s.text.toList, source.drop s.text.toList.length⟩
  else
    none

/-- The kind of a word: a keyword if it is reserved, else an identifier. -/
def kindOfWord (text : String) : Kind :=
  match Keyword.ofText? text with
  | some k => .keyword k
  | none => .identifier

/-- Reads a letter or `_`, and the letters, digits and `_` after it. -/
def recognizeWord : List Char → Option (Front Kind)
  | [] => none
  | c :: source =>
    if startsName c then
      let text := c :: source.takeWhile continuesName
      some ⟨kindOfWord (String.ofList text), text, source.dropWhile continuesName⟩
    else
      none

/-- Reads a quote, everything up to the next quote, and that quote. -/
def recognizeString : List Char → Option (Front Kind)
  | '"' :: source =>
    let inner := source.takeWhile (· ≠ '"')
    match source.dropWhile (· ≠ '"') with
    | [] => none
    | quote :: rest => some ⟨.string (String.ofList inner), '"' :: inner ++ [quote], rest⟩
  | _ => none

/-- Reads digits, and a point with digits after it if there are any. -/
def recognizeNumber (source : List Char) : Option (Front Kind) :=
  let whole := source.takeWhile Decimal.isDigit
  let rest := source.dropWhile Decimal.isDigit
  if whole = [] then
    none
  else
    match rest with
    | '.' :: more =>
      let fraction := more.takeWhile Decimal.isDigit
      if fraction = [] then
        some ⟨.number (Decimal.read whole []), whole, rest⟩
      else
        some ⟨.number (Decimal.read whole fraction), whole ++ '.' :: fraction,
          more.dropWhile Decimal.isDigit⟩
    | _ => some ⟨.number (Decimal.read whole []), whole, rest⟩

/-- All recognisers. -/
def recognizers : List (List Char → Option (Front Kind)) :=
  Symbol.all.map recognizeSymbol ++ [recognizeWord, recognizeString, recognizeNumber]

/-- The match that took the most characters, the first of them if several did. -/
def longest {α : Type} : List (Front α) → Option (Front α)
  | [] => none
  | front :: fronts =>
    match longest fronts with
    | none => some front
    | some other => some (if front.text.length < other.text.length then other else front)

/-- What stands at the front of a text: a token, or characters that start none. -/
inductive Scanned where
  | token (front : Front Kind)
  | bad (front : Front LexicalError)

/-- The characters that were taken. -/
def Scanned.text : Scanned → List Char
  | .token front => front.text
  | .bad front => front.text

/-- The characters that follow. -/
def Scanned.rest : Scanned → List Char
  | .token front => front.rest
  | .bad front => front.rest

/-- The longest token at the front.  Without one, an open quote spoils the whole
rest of the text and any other character only itself. -/
def scan (source : List Char) : Scanned :=
  match longest (recognizers.filterMap (· source)) with
  | some front => .token front
  | none =>
    match source with
    | [] => .token ⟨.endOfFile, [], []⟩
    | '"' :: _ => .bad ⟨.unterminatedString, source, []⟩
    | c :: rest => .bad ⟨.unexpectedCharacter c, [c], rest⟩

/-- A match is a proper cut of the text when it takes something and, with what
it leaves, makes up the text. -/
def Front.Cuts {α : Type} (front : Front α) (source : List Char) : Prop :=
  front.text ≠ [] ∧ front.text ++ front.rest = source

theorem cuts_of_recognizeSymbol {s : Symbol} {source : List Char} {front : Front Kind}
    (h : recognizeSymbol s source = some front) : Front.Cuts front source := by
  unfold recognizeSymbol at h
  split at h
  · rename_i hp
    obtain ⟨rest, rfl⟩ := List.isPrefixOf_iff_prefix.mp hp
    cases h
    exact ⟨s.toList_text_ne_nil, by simp⟩
  · cases h

theorem cuts_of_recognizeWord {source : List Char} {front : Front Kind}
    (h : recognizeWord source = some front) : Front.Cuts front source := by
  unfold recognizeWord at h
  split at h
  · cases h
  · split at h
    · cases h
      exact ⟨by simp, by simp⟩
    · cases h

theorem cuts_of_recognizeString {source : List Char} {front : Front Kind}
    (h : recognizeString source = some front) : Front.Cuts front source := by
  unfold recognizeString at h
  split at h
  · rename_i source
    have hs := List.takeWhile_append_dropWhile (p := (· ≠ '"')) (l := source)
    simp only at h
    split at h
    · cases h
    · rename_i hd
      cases h
      refine ⟨by simp, ?_⟩
      rw [hd] at hs
      simpa using hs
  · cases h

theorem cuts_of_recognizeNumber {source : List Char} {front : Front Kind}
    (h : recognizeNumber source = some front) : Front.Cuts front source := by
  unfold recognizeNumber at h
  have hs := List.takeWhile_append_dropWhile (p := Decimal.isDigit) (l := source)
  simp only at h
  split at h
  · cases h
  · rename_i hw
    split at h
    · rename_i more hd
      split at h
      · cases h
        exact ⟨hw, hs⟩
      · cases h
        refine ⟨by simp, ?_⟩
        have hm := List.takeWhile_append_dropWhile (p := Decimal.isDigit) (l := more)
        rw [hd] at hs
        simp [hm, hs]
    · cases h
      exact ⟨hw, hs⟩

theorem mem_of_longest {α : Type} {fronts : List (Front α)} {front : Front α}
    (h : longest fronts = some front) : front ∈ fronts := by
  induction fronts generalizing front with
  | nil => cases h
  | cons first fronts ih =>
    simp only [longest] at h
    split at h
    · cases h
      exact List.mem_cons_self
    · rename_i other ho
      simp only [Option.some.injEq] at h
      split at h
      · exact List.mem_cons_of_mem _ (h ▸ ih ho)
      · exact h ▸ List.mem_cons_self

theorem cuts_of_recognizers {source : List Char} {front : Front Kind}
    (h : longest (recognizers.filterMap (· source)) = some front) : Front.Cuts front source := by
  obtain ⟨recognize, hmem, hf⟩ := List.mem_filterMap.mp (mem_of_longest h)
  simp only [recognizers, List.mem_append, List.mem_map, List.mem_cons, List.not_mem_nil,
    or_false] at hmem
  rcases hmem with ⟨s, -, rfl⟩ | rfl | rfl | rfl
  · exact cuts_of_recognizeSymbol hf
  · exact cuts_of_recognizeWord hf
  · exact cuts_of_recognizeString hf
  · exact cuts_of_recognizeNumber hf

/-- What is taken and what is left make up the text. -/
theorem scan_append (source : List Char) : (scan source).text ++ (scan source).rest = source := by
  unfold scan
  split
  · rename_i front h
    exact (cuts_of_recognizers h).2
  · split <;> simp [Scanned.text, Scanned.rest]

/-- A text that is not empty loses at least one character. -/
theorem scan_text_ne_nil {source : List Char} (h : source ≠ []) : (scan source).text ≠ [] := by
  unfold scan
  split
  · rename_i front hf
    exact (cuts_of_recognizers hf).1
  · split
    · exact absurd rfl h
    · simp [Scanned.text]
    · simp [Scanned.text]

end Token

end Lox
