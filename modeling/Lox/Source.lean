/-
Source texts: from characters to tokens.

A source is cut into pieces: runs of blanks, comments, tokens and bad text.
`Piece.ofSource` does the cutting and `TokenStream.ofPieces` numbers the lines.

* `Piece.flatten_ofSource` — the pieces, put together, are the source;
* `Piece.first_text_ne_nil` — no piece is empty, which is why cutting ends.
-/
import Lox.Token.Scan

namespace Lox

/-- A stretch of a source text. -/
inductive Piece where
  | blank (text : List Char)
  | comment (text : List Char)
  | token (kind : Token.Kind) (text : List Char)
  | bad (error : LexicalError) (text : List Char)

namespace Piece

/-- The characters of a piece. -/
def text : Piece → List Char
  | blank text => text
  | comment text => text
  | token _ text => text
  | bad _ text => text

/-- The characters that separate tokens. -/
def isBlank (c : Char) : Bool :=
  c = ' ' || c = '\r' || c = '\t' || c = '\n'

/-- The first piece of a source, and what follows it.  Blanks are taken together,
a comment ends before the next newline. -/
def first (source : List Char) : Piece × List Char :=
  if source.takeWhile isBlank ≠ [] then
    (blank (source.takeWhile isBlank), source.dropWhile isBlank)
  else if ['/', '/'].isPrefixOf source then
    (comment (source.takeWhile (· ≠ '\n')), source.dropWhile (· ≠ '\n'))
  else
    match Token.scan source with
    | .token front => (token front.value front.text, front.rest)
    | .bad front => (bad front.value front.text, front.rest)

/-- The first piece and what follows it make up the source. -/
theorem first_append (source : List Char) :
    (first source).1.text ++ (first source).2 = source := by
  unfold first
  split
  · exact List.takeWhile_append_dropWhile
  · split
    · exact List.takeWhile_append_dropWhile
    · have h := Token.scan_append source
      split <;> rename_i hs <;> rw [hs] at h <;> exact h

/-- The first piece of a source that is not empty has at least one character. -/
theorem first_text_ne_nil {source : List Char} (h : source ≠ []) :
    (first source).1.text ≠ [] := by
  unfold first
  split
  · rename_i hb
    exact hb
  · split
    · rename_i hc
      obtain ⟨rest, rfl⟩ := List.isPrefixOf_iff_prefix.mp hc
      simp [text]
    · have hn := Token.scan_text_ne_nil h
      split <;> rename_i hs <;> rw [hs] at hn <;> exact hn

theorem length_first_lt {source : List Char} (h : source ≠ []) :
    (first source).2.length < source.length := by
  have hl := congrArg List.length (first_append source)
  have hp := List.length_pos_iff.mpr (first_text_ne_nil h)
  rw [List.length_append] at hl
  omega

/-- All pieces of a source, from front to end. -/
def ofSource (source : List Char) : List Piece :=
  if source = [] then
    []
  else
    (first source).1 :: ofSource (first source).2
termination_by source.length
decreasing_by exact length_first_lt (by assumption)

@[simp] theorem ofSource_nil : ofSource [] = [] := by
  simp [ofSource]

theorem ofSource_of_ne_nil {source : List Char} (h : source ≠ []) :
    ofSource source = (first source).1 :: ofSource (first source).2 := by
  rw [ofSource, if_neg h]

/-- Cutting loses nothing. -/
theorem flatten_ofSource (source : List Char) : (ofSource source).flatMap text = source := by
  induction source using ofSource.induct with
  | case1 => simp
  | case2 source h ih => rw [ofSource_of_ne_nil h, List.flatMap_cons, ih, first_append]

end Piece

/-- The tokens of a source, ended by one for the end of the file, and the faults
found on the way. -/
structure TokenStream where
  tokens : List Token
  diagnostics : List Diagnostic
  deriving DecidableEq

namespace TokenStream

/-- Numbers the lines of a list of pieces.  `line` is the line on which the pieces
start; a token or a fault is on the line on which its piece ends. -/
def ofPieces : Nat → List Piece → TokenStream
  | line, [] => ⟨[⟨.endOfFile, "", line⟩], []⟩
  | line, piece :: pieces =>
    let line := line + piece.text.count '\n'
    let stream := ofPieces line pieces
    match piece with
    | .blank _ => stream
    | .comment _ => stream
    | .token kind text => { stream with tokens := ⟨kind, String.ofList text, line⟩ :: stream.tokens }
    | .bad error _ =>
      { stream with diagnostics := ⟨line, .line, error.message⟩ :: stream.diagnostics }

/-- Reads a whole source; its lines are numbered from one. -/
def ofSource (source : String) : TokenStream :=
  ofPieces 1 (Piece.ofSource source.toList)

end TokenStream

end Lox
